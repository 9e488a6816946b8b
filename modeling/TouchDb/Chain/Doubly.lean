import TouchDb.Chain.Search
import TouchDb.Core.Doubly

/-! Chains whose links mirror each other, and what a store does to the shape of one. -/
namespace TouchDb
open Prog Layout

/-- The chain at `C` has the nodes `q`, linked both ways. -/
structure DoublyRep (B : ℕ) (s : Touchdb) (a : PoolAlloc) (C : ℕ) (q : List ListNode) : Prop
    extends ChainRep B s a C q where
  links : Doubly (nodeNext B s) (nodePrev B s) (q.map ListNode.blk)

/-- A process whose first pool holds a chain that is linked both ways. -/
structure ChainState where
  ptr : ℕ
  db : Touchdb
  alloc : PoolAlloc
  chain : ℕ
  nodes : List ListNode
  heap : Heap ptr db alloc
  rep : DoublyRep ptr db alloc chain nodes

/-- The pointer to the chain. -/
def ChainState.chainPtr (c : ChainState) : ℕ := c.ptr + c.chain

/-- The pointer to a node, `NULL` where there is none. -/
def nodePtr (B : ℕ) : Option ListNode → ℕ
  | none => NULL
  | some n => B + n.blk

@[simp] theorem nodePtr_none (B : ℕ) : nodePtr B none = NULL := rfl

@[simp] theorem nodePtr_some (B : ℕ) (n : ListNode) : nodePtr B (some n) = B + n.blk := rfl

/-- The record of a chain and its nodes are blocks of their own. -/
structure Plot (a : PoolAlloc) (C : ℕ) (q : List ListNode) : Prop where
  chain : Owns a C sizeofChain
  node : ∀ n ∈ q, Owns a n.blk touchdbChainNodeSize
  apart : (C :: q.map ListNode.blk).Nodup

/-- What `t` holds in the nodes and the record of a chain: the links `f` and `g`, the ends `hd` and
`tl`, and the length. Elsewhere `t` is as `s`. -/
structure Shape (B : ℕ) (s : Touchdb) (a : PoolAlloc) (C : ℕ) (q : List ListNode) (t : Touchdb)
    (f g : ℕ → Option ℕ) (hd tl : Option ℕ) (sz : Int32) : Prop where
  heap : Heap B t a
  frame : Frame B s a t a (C :: q.map ListNode.blk)
  next : ∀ n ∈ q, nodeNext B t n.blk = f n.blk
  prev : ∀ n ∈ q, nodePrev B t n.blk = g n.blk
  val : ∀ n ∈ q, t.field (B + n.blk) ChainNode.val = n.val
  header : linkOf (t.field (B + C) Chain.header) = hd
  tail : linkOf (t.field (B + C) Chain.tail) = tl
  size : t.field (B + C) Chain.size = sz

section
variable {B : ℕ} {s t : Touchdb} {a a' : PoolAlloc} {C o k : ℕ} {q r : List ListNode} {n : ListNode}
variable {f g : ℕ → Option ℕ} {hd tl : Option ℕ} {sz : Int32} {m : Option ListNode}
variable {x : TouchdbAddr} {T : List ℕ}

theorem ChainRep.plot (h : ChainRep B s a C q) : Plot a C q := ⟨h.chain, h.node, h.apart⟩

theorem nodePtr_ne (hm : ∀ n ∈ m, Owns a n.blk k) : nodePtr B m ≠ NULL ↔ m.isSome := by
  cases m with
  | none => simp [nodePtr]
  | some n =>
    have hn : nodePtr B (some n) ≠ NULL := (hm n rfl).ptr_ne B
    exact iff_of_true hn rfl

/-- Pointers are compared by the blocks. -/
theorem ptr_eq_iff (hn : Owns a n.blk k) :
    B + n.blk = nodePtr B m ↔ m.map ListNode.blk = some n.blk := by
  cases m with
  | none =>
    simp only [nodePtr_none, Option.map_none, reduceCtorEq, iff_false]
    exact hn.ptr_ne B
  | some m =>
    simp only [nodePtr_some, Nat.add_left_cancel_iff, Option.map_some, Option.some.injEq]
    exact eq_comm

theorem Plot.blk_ne (h : Plot a C q) (hn : n ∈ q) : n.blk ≠ C := by
  rintro rfl
  exact (List.nodup_cons.mp h.apart).1 (List.mem_map_of_mem hn)

namespace DoublyRep

theorem shape (h : DoublyRep B s a C q) (hs : Heap B s a) :
    Shape B s a C q s (nodeNext B s) (nodePrev B s) (q.map ListNode.blk).head?
      (q.map ListNode.blk).getLast? (Int32.ofNat q.length) :=
  ⟨hs, .refl B s a _, fun _ _ => rfl, fun _ _ => rfl, h.val, h.header, h.tail, h.size⟩

theorem frame (h : DoublyRep B s a C q) (hF : Frame B s a t a' T) (hC : C ∉ T)
    (hq : ∀ n ∈ q, n.blk ∉ T) : DoublyRep B t a' C q where
  toChainRep := h.toChainRep.frame hF hC hq
  links := by
    apply h.links.congr
    · intro o ho
      obtain ⟨n, hn, rfl⟩ := List.mem_map.mp ho
      exact congrArg linkOf (hF.field (hq n hn) (h.node n hn) (by decide))
    · intro o ho
      obtain ⟨n, hn, rfl⟩ := List.mem_map.mp ho
      exact congrArg linkOf (hF.field (hq n hn) (h.node n hn) (by decide))

end DoublyRep

/-- A shape whose links are right, with some of the nodes. -/
theorem Shape.doublyRep (h : Shape B s a C q t f g hd tl sz) (hp : Plot a C r)
    (hr : ∀ n ∈ r, n ∈ q) (hl : Doubly f g (r.map ListNode.blk))
    (hhd : hd = (r.map ListNode.blk).head?) (htl : tl = (r.map ListNode.blk).getLast?)
    (hsz : sz = Int32.ofNat r.length) : DoublyRep B t a C r := by
  have hlinks : Doubly (nodeNext B t) (nodePrev B t) (r.map ListNode.blk) := by
    apply hl.congr
    · intro o ho
      obtain ⟨n, hn, rfl⟩ := List.mem_map.mp ho
      exact h.next n (hr n hn)
    · intro o ho
      obtain ⟨n, hn, rfl⟩ := List.mem_map.mp ho
      exact h.prev n (hr n hn)
  exact ⟨⟨⟨h.header.trans hhd, hlinks.linked, fun n hn => h.val n (hr n hn)⟩, hp.chain,
    h.tail.trans htl, h.size.trans hsz, hp.node, hp.apart⟩, hlinks⟩

namespace Shape

/-- A store into a node. -/
theorem node (h : Shape B s a C q t f g hd tl sz) (hp : Plot a C q) (hn : n ∈ q) {bs : List UInt8}
    (hb : k + bs.length ≤ 16) {f' g' : ℕ → Option ℕ}
    (hf : ∀ m ∈ q, nodeNext B (t.write (B + n.blk + k) bs) m.blk = f' m.blk)
    (hg : ∀ m ∈ q, nodePrev B (t.write (B + n.blk + k) bs) m.blk = g' m.blk) :
    Shape B s a C q (t.write (B + n.blk + k) bs) f' g' hd tl sz := by
  have hO := hp.node n hn
  have hk : k + bs.length ≤ touchdbChainNodeSize := by
    simp only [touchdbChainNodeSize]
    omega
  obtain ⟨h1, h2⟩ := h.heap.write hO hk
  have hrec {α : Type} [Layout α] {e : Field α} (he : e.off + Layout.size α ≤ sizeofChain) :
      (t.write (B + n.blk + k) bs).field (B + C) e = t.field (B + C) e :=
    field_write_other hO hp.chain (hp.blk_ne hn).symm hk he
  refine ⟨h1, ?_, hf, hg, fun m hm => ?_, ?_, ?_, ?_⟩
  · apply h.frame.step h2
    intro o ho
    obtain rfl := List.mem_singleton.mp ho
    exact .inl (List.mem_cons_of_mem _ (List.mem_map_of_mem hn))
  · rw [← h.val m hm]
    by_cases hmn : m.blk = n.blk
    · rw [hmn]
      exact field_write_apart (.inr (by simpa using hb))
    · exact field_write_other hO (hp.node m hm) hmn hk (by decide)
  · rw [hrec (by decide)]
    exact h.header
  · rw [hrec (by decide)]
    exact h.tail
  · rw [hrec (by decide)]
    exact h.size

theorem setNext (h : Shape B s a C q t f g hd tl sz) (hp : Plot a C q) (hn : n ∈ q) :
    Shape B s a C q (t.write (B + n.blk + ChainNode.next.off) (enc x))
      (Function.update f n.blk (linkOf x)) g hd tl sz := by
  apply h.node hp hn (by simp)
  · intro m hm
    by_cases hmn : m.blk = n.blk
    · rw [hmn, Function.update_self]
      exact congrArg linkOf (field_write_same t _ ChainNode.next x)
    · rw [Function.update_of_ne hmn, ← h.next m hm]
      exact congrArg linkOf (field_write_other (hp.node n hn) (hp.node m hm) hmn
        (by simp [touchdbChainNodeSize]) (by decide))
  · intro m hm
    rw [← h.prev m hm]
    by_cases hmn : m.blk = n.blk
    · rw [hmn]
      exact congrArg linkOf (field_write_apart (.inl (by decide)))
    · exact congrArg linkOf (field_write_other (hp.node n hn) (hp.node m hm) hmn
        (by simp [touchdbChainNodeSize]) (by decide))

theorem setPrev (h : Shape B s a C q t f g hd tl sz) (hp : Plot a C q) (hn : n ∈ q) :
    Shape B s a C q (t.write (B + n.blk + ChainNode.prev.off) (enc x)) f
      (Function.update g n.blk (linkOf x)) hd tl sz := by
  apply h.node hp hn (by simp)
  · intro m hm
    rw [← h.next m hm]
    by_cases hmn : m.blk = n.blk
    · rw [hmn]
      exact congrArg linkOf (field_write_apart (.inr (by simp)))
    · exact congrArg linkOf (field_write_other (hp.node n hn) (hp.node m hm) hmn
        (by simp [touchdbChainNodeSize]) (by decide))
  · intro m hm
    by_cases hmn : m.blk = n.blk
    · rw [hmn, Function.update_self]
      exact congrArg linkOf (field_write_same t _ ChainNode.prev x)
    · rw [Function.update_of_ne hmn, ← h.prev m hm]
      exact congrArg linkOf (field_write_other (hp.node n hn) (hp.node m hm) hmn
        (by simp [touchdbChainNodeSize]) (by decide))

/-- A store into the record. -/
theorem record (h : Shape B s a C q t f g hd tl sz) (hp : Plot a C q) {bs : List UInt8}
    (hb : k + bs.length ≤ sizeofChain) {hd' tl' : Option ℕ} {sz' : Int32}
    (h1 : linkOf ((t.write (B + C + k) bs).field (B + C) Chain.header) = hd')
    (h2 : linkOf ((t.write (B + C + k) bs).field (B + C) Chain.tail) = tl')
    (h3 : (t.write (B + C + k) bs).field (B + C) Chain.size = sz') :
    Shape B s a C q (t.write (B + C + k) bs) f g hd' tl' sz' := by
  obtain ⟨hw, hF⟩ := h.heap.write hp.chain hb
  have hnode {α : Type} [Layout α] {e : Field α} {m : ListNode} (hm : m ∈ q)
      (he : e.off + Layout.size α ≤ touchdbChainNodeSize) :
      (t.write (B + C + k) bs).field (B + m.blk) e = t.field (B + m.blk) e :=
    field_write_other hp.chain (hp.node m hm) (hp.blk_ne hm) hb he
  refine ⟨hw, ?_, fun m hm => ?_, fun m hm => ?_, fun m hm => ?_, h1, h2, h3⟩
  · apply h.frame.step hF
    intro o ho
    obtain rfl := List.mem_singleton.mp ho
    exact .inl List.mem_cons_self
  · exact (congrArg linkOf (hnode hm (by decide))).trans (h.next m hm)
  · exact (congrArg linkOf (hnode hm (by decide))).trans (h.prev m hm)
  · exact (hnode hm (by decide)).trans (h.val m hm)

theorem setHeader (h : Shape B s a C q t f g hd tl sz) (hp : Plot a C q) :
    Shape B s a C q (t.write (B + C + Chain.header.off) (enc x)) f g (linkOf x) tl sz := by
  apply h.record hp (by simp [sizeofChain])
  · rw [field_write_same]
  · rw [field_write_apart (.inr (by simp))]
    exact h.tail
  · rw [field_write_apart (.inr (by simp))]
    exact h.size

theorem setTail (h : Shape B s a C q t f g hd tl sz) (hp : Plot a C q) :
    Shape B s a C q (t.write (B + C + Chain.tail.off) (enc x)) f g hd (linkOf x) sz := by
  apply h.record hp (by simp [sizeofChain])
  · rw [field_write_apart (.inl (by decide))]
    exact h.header
  · rw [field_write_same]
  · rw [field_write_apart (.inr (by simp))]
    exact h.size

theorem setSize (h : Shape B s a C q t f g hd tl sz) (hp : Plot a C q) {w : Int32} :
    Shape B s a C q (t.write (B + C + Chain.size.off) (enc w)) f g hd tl w := by
  apply h.record hp (by simp [sizeofChain])
  · rw [field_write_apart (.inl (by decide))]
    exact h.header
  · rw [field_write_apart (.inl (by decide))]
    exact h.tail
  · rw [field_write_same]

end Shape

end

section Wp
variable {B : ℕ} {s t : Touchdb} {a : PoolAlloc} {C o k : ℕ} {q r : List ListNode} {n : ListNode}
variable {f g : ℕ → Option ℕ} {hd tl : Option ℕ} {sz : Int32} {m : Option ListNode}
variable {G : Guard Stop Event}

/-- The link of a record that leads to a node, or nowhere. -/
theorem wp_followTo {e : Field TouchdbAddr} {Q : ℕ → Touchdb → Prop} (h : Heap B s a) (hR : Reads G)
    (ho : Owns a o k) (he : e.off + 8 ≤ k) (hm : ∀ n ∈ m, Owns a n.blk touchdbChainNodeSize)
    (hl : linkOf (s.field (B + o) e) = m.map ListNode.blk) (hQ : Q (nodePtr B m) s) :
    wp G (followLink (B + o) e) Q s := by
  cases m with
  | none => exact wp_followLink_nil h ho he hl hQ
  | some n => exact wp_followLink h hR ho he (hm n rfl) (linkOf_eq_some hl (hm n rfl).lt) hQ

/-- The length is stored last. -/
theorem Shape.wp_size {Q : Unit → Touchdb → Prop} (h : Shape B s a C q t f g hd tl sz) (hp : Plot a C q)
    (hG : ∀ e, G.emits e) {d : Int32 → Int32}
    (hQ : ∀ u, Shape B s a C q u f g hd tl (d sz) → Q () u) :
    wp G (do
      let size ← load (B + C) Chain.size
      store (B + C) Chain.size (d size)) Q t := by
  apply wp_bind
  apply wp_loadCell h.heap hp.chain (by decide)
  apply wp_storeCell h.heap hp.chain (by decide) (hG _)
  intro _ _
  apply hQ
  rw [h.size]
  exact h.setSize hp

end Wp

end TouchDb
