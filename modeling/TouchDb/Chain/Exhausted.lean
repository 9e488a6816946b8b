import TouchDb.Chain.Insert

/-! Insertions for which no node can be allocated. `touchdb_chain_node_new` reports that, and its
callers go on with an address that was never set. -/
namespace TouchDb
open Prog Layout

/-- `touchdb_malloc` without memory: `*addr` keeps what was in the caller's variable. -/
def noMemory (addr : TouchdbAddr) : ℕ → M (ℕ × TouchdbAddr) := fun _ => pure (NULL, addr)

/-- The record of the chain and the links of its nodes are as they were. -/
structure SameChain (c : ChainState) (t : Touchdb) : Prop where
  header : t.field c.chainPtr Chain.header = c.db.field c.chainPtr Chain.header
  tail : t.field c.chainPtr Chain.tail = c.db.field c.chainPtr Chain.tail
  size : t.field c.chainPtr Chain.size = c.db.field c.chainPtr Chain.size
  links : ∀ n ∈ c.nodes,
    t.field (c.ptr + n.blk) ChainNode.next = c.db.field (c.ptr + n.blk) ChainNode.next ∧
      t.field (c.ptr + n.blk) ChainNode.prev = c.db.field (c.ptr + n.blk) ChainNode.prev

/-- The call returns and leaves the chain as it was. -/
def LeavesChain (c : ChainState) (call : M Unit) : Prop :=
  ∃ t, call.run c.db = .ok ((), t) ∧ SameChain c t

section
variable {B : ℕ} {s t : Touchdb} {a : PoolAlloc} {C v : ℕ} {q l r : List ListNode} {n y : ListNode}
variable {f g : ℕ → Option ℕ} {hd tl : Option ℕ} {sz : Int32} {x : TouchdbAddr}
variable {c c' : M TouchdbAddr} {G : Guard Stop Event}

theorem chainNodeNew_noMemory :
    chainNodeNewBy (noMemory x) c c' v s = .ok ((NULL, x), s, []) := rfl

theorem wp_noMemory {Q : ℕ × TouchdbAddr → Touchdb → Prop} (hQ : Q (NULL, x) s) :
    wp G (chainNodeNewBy (noMemory x) c c' v) Q s :=
  (wp_ok chainNodeNew_noMemory).mpr ⟨by simp, hQ⟩

/-- The length is counted up. -/
theorem Shape.wp_count {Q : Unit → Touchdb → Prop} (h : Shape B s a C q t f g hd tl sz)
    (hp : Plot a C q) (hG : ∀ e, G.emits e) (hQ : ∀ u, u.field (B + C) Chain.size = sz + 1 → Q () u) :
    wp G (do
      let size ← load (B + C) Chain.size
      store (B + C) Chain.size (size + 1)) Q t :=
  h.wp_size hp hG (d := fun z => z + 1) fun u hu => hQ u hu.size

theorem wp_pushHead_noMemory {Q : Unit → Touchdb → Prop} (h : Heap B s a) (hC : DoublyRep B s a C q)
    (hG : ∀ e, G.emits e) (hQ : ∀ u, u.field (B + C) Chain.size = Int32.ofNat q.length + 1 → Q () u) :
    wp G (chainPushHeadBy (noMemory x) (B + C) v) Q s := by
  have hR : Reads G := fun _ _ _ => hG _
  have hp := hC.plot
  have hs := hC.shape h
  unfold chainPushHeadBy
  apply wp_bind
  apply wp_noMemory
  apply wp_bind
  apply wp_loadCell h hp.chain (by decide)
  apply wp_bind
  cases q with
  | nil =>
    have h0 : Int32.ofNat ([] : List ListNode).length = 0 := rfl
    rw [hs.size, if_pos h0]
    apply wp_bind
    apply wp_storeCell h hp.chain (by decide) (hG _)
    intro _ _
    have hs₁ := hs.setTail hp (x := x)
    apply wp_storeCell hs₁.heap hp.chain (by decide) (hG _)
    intro _ _
    exact (hs₁.setHeader hp).wp_count hp hG hQ
  | cons n q =>
    have hne : Int32.ofNat (n :: q).length ≠ 0 := by
      rw [Ne, Words.ofNat_eq_zero hC.length_lt_word]
      simp
    rw [hs.size, if_neg hne]
    apply wp_bind
    apply wp_followLink h hR hp.chain (by decide) (hp.node n List.mem_cons_self) hC.header_cons
    apply wp_bind
    apply wp_storeCell h (hp.node n List.mem_cons_self) (by decide) (hG _)
    intro _ _
    have hs₁ := hs.setNext hp List.mem_cons_self (x := x)
    apply wp_storeCell hs₁.heap hp.chain (by decide) (hG _)
    intro _ _
    exact (hs₁.setHeader hp).wp_count hp hG hQ

theorem wp_pushTail_noMemory {Q : Unit → Touchdb → Prop} (h : Heap B s a) (hC : DoublyRep B s a C q)
    (hG : ∀ e, G.emits e) (hQ : ∀ u, u.field (B + C) Chain.size = Int32.ofNat q.length + 1 → Q () u) :
    wp G (chainPushTailBy (noMemory x) (B + C) v) Q s := by
  have hR : Reads G := fun _ _ _ => hG _
  have hp := hC.plot
  have hs := hC.shape h
  unfold chainPushTailBy
  apply wp_bind
  apply wp_noMemory
  apply wp_bind
  apply wp_loadCell h hp.chain (by decide)
  apply wp_bind
  rcases List.eq_nil_or_concat q with rfl | ⟨q, n, rfl⟩
  · have h0 : Int32.ofNat ([] : List ListNode).length = 0 := rfl
    rw [hs.size, if_pos h0]
    apply wp_bind
    apply wp_storeCell h hp.chain (by decide) (hG _)
    intro _ _
    have hs₁ := hs.setTail hp (x := x)
    apply wp_storeCell hs₁.heap hp.chain (by decide) (hG _)
    intro _ _
    exact (hs₁.setHeader hp).wp_count hp hG hQ
  · have hne : Int32.ofNat (q.concat n).length ≠ 0 := by
      rw [Ne, Words.ofNat_eq_zero hC.length_lt_word]
      simp
    rw [hs.size, if_neg hne]
    rw [List.concat_eq_append] at *
    have hn : n ∈ q ++ [n] := by simp
    apply wp_bind
    apply wp_followLink h hR hp.chain (by decide) (hp.node n hn) hC.tail_concat
    apply wp_bind
    apply wp_storeCell h (hp.node n hn) (by decide) (hG _)
    intro _ _
    have hs₁ := hs.setNext hp hn (x := x)
    apply wp_storeCell hs₁.heap hp.chain (by decide) (hG _)
    intro _ _
    exact (hs₁.setTail hp).wp_count hp hG hQ

/-- Behind the last node the call stops. -/
theorem wp_insert_noMemory {Q : Unit → Touchdb → Prop} (h : Heap B s a)
    (hC : DoublyRep B s a C (l ++ n :: r)) (hG : ∀ e, G.emits e) (hF : G.stops .fault)
    (hQ : ∀ u, u.field (B + C) Chain.size = Int32.ofNat (l ++ n :: r).length + 1 → Q () u) :
    wp G (chainInsertBy (noMemory x) (B + C) (B + n.blk) v) Q s := by
  have hR : Reads G := fun _ _ _ => hG _
  have hp := hC.plot
  have hs := hC.shape h
  have hnm : n ∈ l ++ n :: r := by simp
  have hn := hp.node n hnm
  have hb := hn.bounds
  have hl := hC.links
  rw [List.map_append, List.map_cons] at hl
  have hnext : linkOf (s.field (B + n.blk) ChainNode.next) = (r.map ListNode.blk).head?.or none :=
    hl.node.2
  unfold chainInsertBy
  rw [if_neg (hn.ptr_ne B)]
  apply wp_bind
  apply wp_touchdbAddrOf h (by omega)
  apply wp_bind
  apply wp_noMemory
  apply wp_bind
  cases r with
  | nil =>
    apply wp_followLink_nil h hn (by decide) hnext
    apply wp_bind
    have hnull : store NULL ChainNode.prev x s = .error (.fault, []) := if_neg (by simp)
    exact wp_fail hnull hF
  | cons y r =>
    have hym : y ∈ l ++ n :: y :: r := by simp
    apply wp_followLink h hR hn (by decide) (hp.node y hym)
      (linkOf_eq_some hnext (hp.node y hym).lt)
    apply wp_bind
    apply wp_storeCell h (hp.node y hym) (by decide) (hG _)
    intro _ _
    have hs₁ := hs.setPrev hp hym (x := x)
    apply wp_bind
    apply wp_storeCell hs₁.heap (hp.node n hnm) (by decide) (hG _)
    intro _ _
    exact (hs₁.setNext hp hnm).wp_count hp hG hQ

end

/-- A call that counts the length up does not leave the chain as it was. -/
theorem ChainState.not_leaves (c : ChainState) {call : M Unit}
    (h : wp ⟨fun _ => True, fun _ => True⟩ call
      (fun _ u => u.field c.chainPtr Chain.size = Int32.ofNat c.nodes.length + 1) c.db) :
    ¬ LeavesChain c call := by
  rintro ⟨t, hrun, hsame⟩
  have hsize : Int32.ofNat c.nodes.length + 1 = Int32.ofNat c.nodes.length := by
    rw [← wp_run h hrun, hsame.size]
    exact c.rep.size
  have hlt := c.rep.length_lt
  have hle : walkRounds < 2 ^ 31 - 1 := by decide
  have h1 : (Int32.ofNat (c.nodes.length + 1)).toInt = (c.nodes.length + 1 : ℕ) :=
    Int32.toInt_ofNat_of_lt (by omega)
  have h2 : (Int32.ofNat c.nodes.length).toInt = c.nodes.length := Int32.toInt_ofNat_of_lt (by omega)
  rw [Int32.ofNat_add] at h1
  have h3 : (Int32.ofNat c.nodes.length + 1).toInt = (c.nodes.length + 1 : ℕ) := h1
  rw [hsize, h2] at h3
  omega

/-- Without memory no insertion leaves any chain as it was. -/
theorem noMemory_never (c : ChainState) (x : TouchdbAddr) (v : ℕ) :
    ¬ LeavesChain c (chainPushHeadBy (noMemory x) c.chainPtr v) ∧
      ¬ LeavesChain c (chainPushTailBy (noMemory x) c.chainPtr v) ∧
      ∀ n ∈ c.nodes, ¬ LeavesChain c (chainInsertBy (noMemory x) c.chainPtr (c.ptr + n.blk) v) := by
  refine ⟨?_, ?_, fun n hn => ?_⟩
  · exact c.not_leaves (wp_pushHead_noMemory c.heap c.rep (fun _ => trivial) fun _ h => h)
  · exact c.not_leaves (wp_pushTail_noMemory c.heap c.rep (fun _ => trivial) fun _ h => h)
  · obtain ⟨l, r, hlr⟩ := List.append_of_mem hn
    have hC := c.rep
    rw [hlr] at hC
    apply c.not_leaves
    rw [hlr]
    exact wp_insert_noMemory c.heap hC (fun _ => trivial) trivial fun _ h => h

/-- A push at the tail of a chain of two values, with the address that happens to be there. -/
theorem noMemory_fails : ∃ c : StockState,
    (newStock .page [zeroInt, zeroInt]).run NewFiles.page.db = .ok (c.toChain.chainPtr, c.db) ∧
    ¬ LeavesChain c.toChain (chainPushTailBy (noMemory ⟨0, 4096⟩) c.toChain.chainPtr 4096) := by
  obtain ⟨c, hrun, -⟩ := exists_stock (f := .page) [zeroInt, zeroInt] [] (by decide)
  refine ⟨c, hrun, c.toChain.not_leaves ?_⟩
  exact wp_pushTail_noMemory c.toChain.heap c.toChain.rep (fun _ => trivial) fun _ h => h

end TouchDb
