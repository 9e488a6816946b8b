import TouchDb.Chain.Model
import TouchDb.Str.Rules

/-! Chains in a heap. A chain is a list of nodes linked by `next`, with the ends and the length
in its record; a string value has a struct and characters of its own. -/
namespace TouchDb
open Prog Layout

/-- A node of a chain: its block and the value in it. -/
structure ListNode where
  blk : ℕ
  val : TouchdbVal

def nodeNext (B : ℕ) (s : Touchdb) (o : ℕ) : Option ℕ := linkOf (s.field (B + o) ChainNode.next)

def nodePrev (B : ℕ) (s : Touchdb) (o : ℕ) : Option ℕ := linkOf (s.field (B + o) ChainNode.prev)

/-- Walking from the header of the chain at `p` ends, and meets the values `l`. -/
def Sees (s : Touchdb) (p : ℕ) (l : List TouchdbVal) : Prop :=
  ∃ ns : List ℕ, linkOf (s.field p Chain.header) = ns.head? ∧ Linked (nodeNext (s.base 0) s) ns ∧
    ns.map (fun o => s.field (s.base 0 + o) ChainNode.val) = l

theorem Sees.unique {s : Touchdb} {p : ℕ} {l l' : List TouchdbVal} (h : Sees s p l)
    (h' : Sees s p l') : l = l' := by
  obtain ⟨ns, h1, h2, rfl⟩ := h
  obtain ⟨ns', h1', h2', rfl⟩ := h'
  rw [h2.unique h2' (h1.symm.trans h1')]

/-- What a reader of the chain at `C` meets: the nodes `q`. -/
structure Walked (B : ℕ) (s : Touchdb) (C : ℕ) (q : List ListNode) : Prop where
  header : linkOf (s.field (B + C) Chain.header) = (q.map ListNode.blk).head?
  next : Linked (nodeNext B s) (q.map ListNode.blk)
  val : ∀ n ∈ q, s.field (B + n.blk) ChainNode.val = n.val

/-- The chain at `C` has the nodes `q`. The `prev` links may be stale. -/
structure ChainRep (B : ℕ) (s : Touchdb) (a : PoolAlloc) (C : ℕ) (q : List ListNode) : Prop
    extends Walked B s C q where
  chain : Owns a C sizeofChain
  tail : linkOf (s.field (B + C) Chain.tail) = (q.map ListNode.blk).getLast?
  size : s.field (B + C) Chain.size = Int32.ofNat q.length
  node : ∀ n ∈ q, Owns a n.blk touchdbChainNodeSize
  apart : (C :: q.map ListNode.blk).Nodup

/-- The blocks of a value: a string has its struct and its characters. -/
inductive ValRep (B : ℕ) (s : Touchdb) (a : PoolAlloc) : TouchdbVal → List ℕ → Prop
  | plain {w : TouchdbVal} (h : w.type ≠ .str) : ValRep B s a w []
  | str {S D : ℕ} {v : CStr} (h : StrRep B s a S D v) : ValRep B s a ⟨.str, addrOf S⟩ [S, D]

section
variable {B : ℕ} {s t : Touchdb} {a a' : PoolAlloc} {C : ℕ} {q : List ListNode} {n : ListNode}
variable {T : List ℕ} {w : TouchdbVal} {l : List ℕ}

theorem ValRep.frame (h : ValRep B s a w l) (hF : Frame B s a t a' T) (hT : ∀ o ∈ l, o ∉ T) :
    ValRep B t a' w l := by
  cases h with
  | plain h => exact .plain h
  | str h => exact .str (h.frame hF (hT _ (by simp)) (hT _ (by simp)))

theorem ValRep.owns (h : ValRep B s a w l) : ∀ o ∈ l, Owns a o 0 := by
  intro o ho
  cases h with
  | plain h => cases ho
  | str h =>
    simp only [List.mem_cons, List.not_mem_nil, or_false] at ho
    rcases ho with rfl | rfl
    · exact h.str.mono (Nat.zero_le _)
    · exact h.chars.mono (Nat.zero_le _)

namespace Walked

theorem sees (h : Walked B s C q) (hB : s.base 0 = B) : Sees s (B + C) (q.map ListNode.val) := by
  refine ⟨q.map ListNode.blk, h.header, by rw [hB]; exact h.next, ?_⟩
  rw [List.map_map, hB]
  exact List.map_congr_left h.val

theorem congr (h : Walked B s C q)
    (hh : t.field (B + C) Chain.header = s.field (B + C) Chain.header)
    (hn : ∀ n ∈ q, t.field (B + n.blk) ChainNode.next = s.field (B + n.blk) ChainNode.next ∧
      t.field (B + n.blk) ChainNode.val = s.field (B + n.blk) ChainNode.val) : Walked B t C q where
  header := by rw [hh]; exact h.header
  next := h.next.congr fun o ho => by
    obtain ⟨n, hn', rfl⟩ := List.mem_map.mp ho
    exact congrArg linkOf (hn n hn').1
  val n hn' := (hn n hn').2.trans (h.val n hn')

/-- A write to the tail or the size is not met. -/
theorem writeRecord (h : Walked B s C q) (hC : Owns a C sizeofChain)
    (hq : ∀ n ∈ q, Owns a n.blk touchdbChainNodeSize ∧ n.blk ≠ C) {k : ℕ} {bs : List UInt8}
    (hk : 8 ≤ k ∧ k + bs.length ≤ sizeofChain) : Walked B (s.write (B + C + k) bs) C q :=
  h.congr (field_write_apart (.inl hk.1)) fun n hn =>
    ⟨field_write_other hC (hq n hn).1 (hq n hn).2 hk.2 (by decide),
      field_write_other hC (hq n hn).1 (hq n hn).2 hk.2 (by decide)⟩

end Walked

namespace ChainRep

theorem frame (h : ChainRep B s a C q) (hF : Frame B s a t a' T) (hC : C ∉ T)
    (hq : ∀ n ∈ q, n.blk ∉ T) : ChainRep B t a' C q where
  toWalked := h.toWalked.congr (hF.field hC h.chain (by decide)) fun n hn =>
    ⟨hF.field (hq n hn) (h.node n hn) (by decide), hF.field (hq n hn) (h.node n hn) (by decide)⟩
  chain := hF.owns hC h.chain
  tail := by rw [hF.field hC h.chain (by decide)]; exact h.tail
  size := by rw [hF.field hC h.chain (by decide)]; exact h.size
  node n hn := hF.owns (hq n hn) (h.node n hn)
  apart := h.apart

theorem nodup (h : ChainRep B s a C q) : (q.map ListNode.blk).Nodup := (List.nodup_cons.mp h.apart).2

theorem blk_ne (h : ChainRep B s a C q) (hn : n ∈ q) : n.blk ≠ C := by
  rintro rfl
  exact (List.nodup_cons.mp h.apart).1 (List.mem_map_of_mem hn)

theorem length_lt (h : ChainRep B s a C q) : q.length < walkRounds := by
  have hl := Owns.length_lt h.nodup fun o ho => by
    obtain ⟨n, hn, rfl⟩ := List.mem_map.mp ho
    exact (h.node n hn).mono (Nat.zero_le _)
  simpa using hl

theorem length_lt_word (h : ChainRep B s a C q) : q.length < 2 ^ 31 := by
  have h1 := h.length_lt
  have h2 := poolSize_lt
  unfold walkRounds at h1
  omega

/-- The record tells whether the chain is empty in three ways. -/
theorem ends (h : ChainRep B s a C q) :
    ((s.field (B + C) Chain.header).offset = NIL ↔ q = []) ∧
      ((s.field (B + C) Chain.tail).offset = NIL ↔ q = []) ∧
      (s.field (B + C) Chain.size = 0 ↔ q = []) := by
  refine ⟨?_, ?_, ?_⟩
  · rw [← linkOf_eq_none, h.header]
    simp
  · rw [← linkOf_eq_none, h.tail]
    simp
  · rw [h.size, Words.ofNat_eq_zero h.length_lt_word]
    simp

/-- The first node, where there is one. -/
theorem header_cons (h : ChainRep B s a C (n :: q)) :
    s.field (B + C) Chain.header = addrOf n.blk :=
  linkOf_eq_some h.header (h.node n List.mem_cons_self).lt

theorem tail_concat (h : ChainRep B s a C (q ++ [n])) :
    s.field (B + C) Chain.tail = addrOf n.blk := by
  refine linkOf_eq_some ?_ (h.node n (by simp)).lt
  rw [h.tail]
  simp

end ChainRep

end

section Wp
variable {B : ℕ} {s t : Touchdb} {a a' : PoolAlloc} {C : ℕ} {q : List ListNode} {n : ListNode}
variable {G : Guard Stop Event}

theorem wp_touchdbChainInit {Q : Unit → Touchdb → Prop} (h : Heap B s a) (hC : Owns a C sizeofChain)
    (hG : ∀ e, G.emits e)
    (hQ : ∀ u, Heap B u a → Frame B s a u a [C] → ChainRep B u a C [] → Q () u) :
    wp G (touchdbChainInit (B + C)) Q s := by
  unfold touchdbChainInit
  refine wp_storeBytesAt h hC (by simp) (hG _) fun h' hF => hQ _ h' hF ?_
  have hz {α : Type} [Layout α] {f : Field α} (hf : f.off + size α ≤ sizeofChain) :
      (s.write (B + C) (List.replicate sizeofChain 0)).field (B + C) f =
        dec (List.replicate (size α) 0) := Mem.peek_write_zeros hf
  refine ⟨⟨?_, trivial, by simp⟩, hC, ?_, ?_, by simp, by simp⟩
  · rw [hz (by decide)]
    rfl
  · rw [hz (by decide)]
    rfl
  · rw [hz (by decide)]
    rfl

/-- `touchdb_chain_new` on a value in a block of the caller. -/
theorem wp_touchdbChainNew {a₀ : PoolAlloc} {s₀ : Touchdb} {T : List ℕ} {q : ℕ}
    {Q : ℕ → Touchdb → Prop} (h : Work B s₀ a₀ T s a) (hG : ∀ e, G.emits e)
    (hr : Serves G a [sizeofChain]) (hm : Mine a₀ T q) (hq : Owns a q sizeofVal)
    (hQ : ∀ C a' u, Handed a sizeofChain C a' → Work B s₀ a₀ T u a' → Frame B s a u a' [q] →
      ChainRep B u a' C [] → u.field (B + q) Val.all = ⟨.chain, addrOf C⟩ → Q (B + C) u) :
    wp G (touchdbChainNew (B + q)) Q s := by
  unfold touchdbChainNew
  refine wp_bind (h.wp_mallocAt (.of_all hG) hr hm hq (by decide) (by decide) (by decide)
    fun C a' t₁ hC hw₁ hf₁ hval _ => ?_)
  have hCO : Owns a' C sizeofChain := hC.owns (by decide)
  have hqC : q ≠ C := hq.ne hC.fresh
  have hq' := hC.keep hq
  refine wp_bind (hw₁.wp_store (.of_all hG) hm hq' (by decide) fun hw₂ hf₂ => ?_)
  refine wp_bind (wp_touchdbChainInit hw₂.heap hCO hG fun u hu hf₃ hrep => wp_pure ?_)
  refine hQ C a' u hC ⟨hu, hw₂.frame.step hf₃ fun o ho => ?_⟩ (((hf₁.trans hf₂).trans hf₃).drop
    fun o ho => ?_) hrep ?_
  · obtain rfl : o = C := by simpa using ho
    exact h.mine hC
  · simp only [List.mem_append, List.mem_singleton, or_assoc] at ho
    rcases ho with rfl | rfl | rfl
    · exact .inl (by simp)
    · exact .inl (by simp)
    · exact hC.mine
  · rw [hf₃.field (by simpa using hqC) hq' (by decide), field_val]
    refine congrArg₂ _ (field_write_same t₁ (B + q) Val.type _) ?_
    show Touchdb.field _ (B + q) Val.value = _
    rw [field_write_apart (.inr (by simp)), hval]

/-- The link of a record that points to a node. -/
theorem wp_followLink {o m : ℕ} {f : Field TouchdbAddr} {Q : ℕ → Touchdb → Prop} (h : Heap B s a)
    (hR : Reads G) (ho : Owns a o m) (hf : f.off + 8 ≤ m) (hx : Owns a n.blk touchdbChainNodeSize)
    (hl : s.field (B + o) f = addrOf n.blk) (hQ : Q (B + n.blk) s) :
    wp G (followLink (B + o) f) Q s := by
  have hb := hx.bounds
  unfold followLink
  rw [if_neg (ho.ptr_ne B)]
  refine wp_bind (wp_loadCell h ho hf ?_)
  rw [hl, if_neg (addrOf_ne_nil hx.lt (by omega))]
  exact wp_ptrOfOwned h hR hx hQ

/-- The link of a record that is `NIL`. -/
theorem wp_followLink_nil {o m : ℕ} {f : Field TouchdbAddr} {Q : ℕ → Touchdb → Prop}
    (h : Heap B s a) (ho : Owns a o m) (hf : f.off + 8 ≤ m)
    (hl : linkOf (s.field (B + o) f) = none) (hQ : Q NULL s) :
    wp G (followLink (B + o) f) Q s := by
  unfold followLink
  rw [if_neg (ho.ptr_ne B)]
  refine wp_bind (wp_loadCell h ho hf ?_)
  rw [if_pos (linkOf_eq_none.mp hl)]
  exact wp_pure hQ

end Wp

end TouchDb
