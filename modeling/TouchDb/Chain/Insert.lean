import TouchDb.Chain.Stock
import TouchDb.Heap.Pools

/-! `touchdb_chain_push_head` and `touchdb_chain_insert`: a new node goes to the front of a chain,
or behind one of its nodes. The first is right for an empty chain, the second before the last
node. -/
namespace TouchDb
open Prog Layout

/-- The link that a call reads for a new node is `x`, whatever is written into new blocks. -/
def Supplies (G : Guard Stop Event) (B : ℕ) (s : Touchdb) (a : PoolAlloc) (c : M TouchdbAddr)
    (x : TouchdbAddr) : Prop :=
  ∀ t a', Heap B t a' → Frame B s a t a' [] → ∀ R : TouchdbAddr → Touchdb → Prop, R x t → wp G c R t

/-- The node at `N` is new, with the links `x` and `y` and the value `w`. -/
structure NodeMade (B : ℕ) (s : Touchdb) (a : PoolAlloc) (x y : TouchdbAddr) (w : TouchdbVal) (N : ℕ)
    (u : Touchdb) (a' : PoolAlloc) : Prop where
  handed : Handed a touchdbChainNodeSize N a'
  heap : Heap B u a'
  frame : Frame B s a u a' []
  next : u.field (B + N) ChainNode.next = x
  prev : u.field (B + N) ChainNode.prev = y
  val : u.field (B + N) ChainNode.val = w

/-- A chain, a value for a new node, and room for the node. -/
structure ChainCall extends ChainState where
  arg : ValArg alloc
  served : HasBlock db 0 touchdbChainNodeSize

def ChainCall.argPtr (c : ChainCall) : ℕ := c.arg.ptr c.ptr

def ChainCall.val (c : ChainCall) : TouchdbVal := c.arg.val c.ptr c.db

section
variable {B : ℕ} {s t u : Touchdb} {a a' : PoolAlloc} {C N o m : ℕ} {q l r : List ListNode}
variable {n y : ListNode} {w : TouchdbVal} {x x' : TouchdbAddr} {c c' : M TouchdbAddr}
variable {G : Guard Stop Event}

theorem supplies_null : Supplies G B s a (linkAt NULL) nullAddr := by
  intro t a' _ _ R hR
  unfold linkAt
  rw [if_pos rfl]
  exact wp_pure hR

theorem supplies_pure : Supplies G B s a (pure x) x := fun _ _ _ _ _ hR => wp_pure hR

/-- A link of a block in use. -/
theorem supplies_at {e : Field TouchdbAddr} (ho : Owns a o m) (he : e.off + 8 ≤ m) :
    Supplies G B s a (linkAt (B + o + e.off)) (s.field (B + o) e) := by
  intro t a' ht hF R hR
  have hb := ho.bounds
  have hp : B + o + e.off ≠ NULL := by
    simp only [NULL]
    omega
  unfold linkAt
  rw [if_neg hp]
  apply wp_load_shift (by omega)
  apply wp_loadCell ht (hF.owns (by simp) ho) he
  have hfield : t.field (B + o) e = s.field (B + o) e := hF.field (by simp) ho he
  rwa [hfield]

theorem wp_chainNodeNew {Q : ℕ × TouchdbAddr → Touchdb → Prop} (h : Heap B s a) (hG : ∀ e, G.emits e)
    (hr : Serves G a [touchdbChainNodeSize]) (hc : Supplies G B s a c x) (hc' : Supplies G B s a c' x')
    (v : ValArg a)
    (hQ : ∀ N a' u, NodeMade B s a x x' (v.val B s) N u a' → Q (B + N, addrOf N) u) :
    wp G (chainNodeNewBy touchdbMalloc c c' (v.ptr B)) Q s := by
  have hB := h.base_pos'
  have hb := v.owns.bounds
  have hall : Lets G B s a [] := .of_all hG
  unfold chainNodeNewBy
  apply wp_bind
  apply (Work.start h).wp_malloc hall hr (by decide) (by decide)
  intro N a' u hN hw _
  have hO : Owns a' N touchdbChainNodeSize := hN.owns (by decide)
  have hm : Mine a [] N := hN.mine
  dsimp only
  rw [if_neg (hO.ptr_ne B)]
  apply wp_bind
  apply hc u a' hw.heap hw.frame
  apply wp_bind
  apply hw.wp_store hall hm hO (by decide)
  intro hw₁ _
  apply wp_bind
  apply hc' _ a' hw₁.heap hw₁.frame
  apply wp_bind
  apply hw₁.wp_store hall hm hO (by decide)
  intro hw₂ _
  apply wp_bind
  unfold ValArg.ptr
  apply wp_load_shift (by omega)
  apply wp_loadCell hw₂.heap (hN.keep v.owns) (by simp [sizeofVal])
  rw [hw₂.frame.field (by simp) v.owns (by simp [sizeofVal])]
  apply wp_bind
  apply hw₂.wp_store hall hm hO (by decide)
  intro hw₃ _
  apply wp_pure
  apply hQ N a' _
  refine ⟨hN, hw₃.heap, hw₃.frame, ?_, ?_, ?_⟩
  · rw [field_write_apart (.inl (by decide)), field_write_apart (.inr (by simp)), field_write_same]
  · rw [field_write_apart (.inl (by decide)), field_write_same]
  · rw [field_write_same]
    rfl

namespace NodeMade

theorem owns (h : NodeMade B s a x x' w N u a') : Owns a' N touchdbChainNodeSize :=
  h.handed.owns (by decide)

theorem link (h : NodeMade B s a x x' w N u a') : linkOf (addrOf N) = some N := by
  have hb := h.owns.bounds
  exact linkOf_addrOf h.owns.lt (by omega)

/-- The chain is as it was. -/
theorem rep (h : NodeMade B s a x x' w N u a') (hC : DoublyRep B s a C q) : DoublyRep B u a' C q :=
  hC.frame h.frame (by simp) (by simp)

theorem notMem (h : NodeMade B s a x x' w N u a') (hC : DoublyRep B s a C q) :
    N ∉ q.map ListNode.blk := by
  intro hm
  obtain ⟨n, hn, rfl⟩ := List.mem_map.mp hm
  exact (hC.node n hn).ne h.handed.fresh rfl

/-- The chain with the new node, wherever it goes. -/
theorem plot (h : NodeMade B s a x x' w N u a') (hC : DoublyRep B s a C (l ++ r)) :
    Plot a' C (l ++ ⟨N, w⟩ :: r) where
  chain := h.handed.keep hC.chain
  node n hn := by
    rcases List.mem_append.mp hn with hn | hn
    · exact h.handed.keep (hC.node n (List.mem_append_left _ hn))
    · rcases List.mem_cons.mp hn with rfl | hn
      · exact h.owns
      · exact h.handed.keep (hC.node n (List.mem_append_right _ hn))
  apart := by
    have hN : N ∉ C :: (l ++ r).map ListNode.blk := by
      rw [List.mem_cons, not_or]
      exact ⟨(hC.chain.ne h.handed.fresh).symm, h.notMem hC⟩
    have hp : (C :: (l ++ ⟨N, w⟩ :: r).map ListNode.blk).Perm (N :: C :: (l ++ r).map ListNode.blk) := by
      rw [List.map_append, List.map_cons, List.map_append]
      exact (List.Perm.cons C List.perm_middle).trans (List.Perm.swap _ _ _)
    exact hp.nodup_iff.mpr (List.nodup_cons.mpr ⟨hN, hC.apart⟩)

theorem shape (h : NodeMade B s a x x' w N u a') (hC : DoublyRep B s a C (l ++ r)) :
    Shape B u a' C (l ++ ⟨N, w⟩ :: r) u (nodeNext B u) (nodePrev B u)
      ((l ++ r).map ListNode.blk).head? ((l ++ r).map ListNode.blk).getLast?
      (Int32.ofNat (l ++ r).length) := by
  have hr := h.rep hC
  refine ⟨h.heap, .refl B u a' _, fun _ _ => rfl, fun _ _ => rfl, fun n hn => ?_, hr.header, hr.tail,
    hr.size⟩
  rcases List.mem_append.mp hn with hn | hn
  · exact hr.val n (List.mem_append_left _ hn)
  · rcases List.mem_cons.mp hn with rfl | hn
    · exact h.val
    · exact hr.val n (List.mem_append_right _ hn)

end NodeMade

/-- The first node of a chain that was empty. -/
theorem wp_touchdbChainPushHead_nil {Q : Unit → Touchdb → Prop} (h : Heap B s a)
    (hC : DoublyRep B s a C []) (hG : ∀ e, G.emits e) (hr : Serves G a [touchdbChainNodeSize])
    (v : ValArg a) (hQ : ∀ N a' u, Handed a touchdbChainNodeSize N a' → Heap B u a' →
      DoublyRep B u a' C [⟨N, v.val B s⟩] → Q () u) :
    wp G (touchdbChainPushHead (B + C) (v.ptr B)) Q s := by
  unfold touchdbChainPushHead chainPushHeadBy
  apply wp_bind
  apply wp_chainNodeNew h hG hr (supplies_at hC.chain (by decide)) supplies_null v
  intro N a' u hm
  have hp : Plot a' C [⟨N, v.val B s⟩] := hm.plot (l := []) (r := []) hC
  have hs : Shape B u a' C [⟨N, v.val B s⟩] u (nodeNext B u) (nodePrev B u) none none 0 :=
    hm.shape (l := []) (r := []) hC
  apply wp_bind
  apply wp_loadCell hs.heap hp.chain (by decide)
  rw [hs.size, if_pos rfl]
  apply wp_bind
  apply wp_bind
  apply wp_storeCell hs.heap hp.chain (by decide) (hG _)
  intro _ _
  have hs₁ := hs.setTail hp (x := addrOf N)
  apply wp_storeCell hs₁.heap hp.chain (by decide) (hG _)
  intro _ _
  have hs₂ := hs₁.setHeader hp (x := addrOf N)
  apply hs₂.wp_size hp hG (d := fun z => z + 1)
  intro u' hs₃
  apply hQ N a' u' hm.handed hs₃.heap
  apply hs₃.doublyRep hp (fun _ h => h)
  · refine ⟨?_, ?_, trivial⟩
    · exact congrArg linkOf hm.prev
    · exact (congrArg linkOf hm.next).trans hC.header
  · exact hm.link
  · exact hm.link
  · rfl

/-- A node behind `n`, which is not the last one. -/
theorem wp_touchdbChainInsert_inner {Q : Unit → Touchdb → Prop} (h : Heap B s a)
    (hC : DoublyRep B s a C (l ++ n :: y :: r)) (hG : ∀ e, G.emits e)
    (hr : Serves G a [touchdbChainNodeSize]) (v : ValArg a)
    (hQ : ∀ N a' u, Handed a touchdbChainNodeSize N a' → Heap B u a' →
      DoublyRep B u a' C (l ++ [n] ++ ⟨N, v.val B s⟩ :: y :: r) → Q () u) :
    wp G (touchdbChainInsert (B + C) (B + n.blk) (v.ptr B)) Q s := by
  have hR : Reads G := fun _ _ _ => hG _
  have hn : Owns a n.blk touchdbChainNodeSize := hC.node n (by simp)
  have hy : Owns a y.blk touchdbChainNodeSize := hC.node y (by simp)
  have hb := hn.bounds
  have hC' : DoublyRep B s a C (l ++ [n] ++ y :: r) := by simpa using hC
  have hnext : linkOf (s.field (B + n.blk) ChainNode.next) = some y.blk := by
    have hl := hC.links
    rw [List.map_append, List.map_cons] at hl
    exact hl.node.2
  have hnaddr := linkOf_eq_some hnext hy.lt
  unfold touchdbChainInsert chainInsertBy
  rw [if_neg (hn.ptr_ne B)]
  apply wp_bind
  apply wp_touchdbAddrOf h (by omega)
  apply wp_bind
  apply wp_chainNodeNew h hG hr (supplies_at hn (by decide)) supplies_pure v
  intro N a' u hm
  rw [hnaddr] at hm
  have hp := hm.plot hC'
  have hs := hm.shape hC'
  have hny : n.blk ≠ y.blk := by
    intro hc
    have hnd := hC.nodup
    rw [List.map_append, List.map_cons, List.map_cons, hc] at hnd
    exact (List.nodup_cons.mp (List.nodup_append.mp hnd).2.1).1 List.mem_cons_self
  have hnm : n ∈ l ++ [n] ++ ⟨N, v.val B s⟩ :: y :: r := by simp
  have hym : y ∈ l ++ [n] ++ ⟨N, v.val B s⟩ :: y :: r := by simp
  apply wp_bind
  apply wp_followLink hs.heap hR (hp.node n hnm) (by decide) (hp.node y hym)
  · rw [hm.frame.field (by simp) hn (by decide)]
    exact hnaddr
  apply wp_bind
  apply wp_storeCell hs.heap (hp.node y hym) (by decide) (hG _)
  intro _ _
  have hs₁ := hs.setPrev hp hym (x := addrOf N)
  apply wp_bind
  apply wp_storeCell hs₁.heap (hp.node n hnm) (by decide) (hG _)
  intro _ _
  have hs₂ := hs₁.setNext hp hnm (x := addrOf N)
  apply hs₂.wp_size hp hG (d := fun z => z + 1)
  intro u' hs₃
  apply hQ N a' u' hm.handed hs₃.heap
  have hNm := hm.notMem hC'
  rw [hm.link] at hs₃
  apply hs₃.doublyRep hp (fun _ h => h)
  · have hl := (hm.rep hC').links
    have hnd := hC'.nodup
    rw [List.map_append] at hl hnd hNm ⊢
    simp only [List.mem_append, not_or] at hNm
    have hNn : N ≠ n.blk := by
      rintro rfl
      exact hNm.1 (by simp)
    have hNy : N ≠ y.blk := by
      rintro rfl
      exact hNm.2 (by simp)
    apply hl.insert hnd
    · rw [Function.update_of_ne hNy, Function.update_of_ne hNn]
      constructor
      · refine (congrArg linkOf hm.prev).trans ?_
        rw [linkOf_addrOf hn.lt (by omega)]
        simp
      · refine (congrArg linkOf hm.next).trans ?_
        rw [linkOf_addrOf hy.lt (by have := hy.bounds; omega)]
        rfl
    · intro o ho
      obtain rfl : n.blk = o := by simpa using ho
      rw [Function.update_self]
    · intro o ho
      obtain rfl : y.blk = o := by simpa using ho
      rw [Function.update_self]
    · intro o _ ho
      apply Function.update_of_ne
      rintro rfl
      exact ho (by simp)
    · intro o _ ho
      apply Function.update_of_ne
      rintro rfl
      exact ho (by simp)
  · cases l <;> simp
  · simp [List.getLast?_append, List.getLast?_cons]
  · refine (Int32.ofNat_add _ 1).symm.trans ?_
    simp only [List.length_append, List.length_cons, Nat.add_assoc]

/-- In a chain with nodes, the new node and the old first one lead to each other. -/
theorem wp_touchdbChainPushHead_cons {Q : Unit → Touchdb → Prop} (h : Heap B s a)
    (hC : DoublyRep B s a C (n :: r)) (hG : ∀ e, G.emits e) (hr : Serves G a [touchdbChainNodeSize])
    (v : ValArg a) (hQ : ∀ N u, N ∉ (n :: r).map ListNode.blk →
      linkOf (u.field (B + C) Chain.header) = some N → nodeNext B u n.blk = some N → Q () u) :
    wp G (touchdbChainPushHead (B + C) (v.ptr B)) Q s := by
  have hR : Reads G := fun _ _ _ => hG _
  unfold touchdbChainPushHead chainPushHeadBy
  apply wp_bind
  apply wp_chainNodeNew h hG hr (supplies_at hC.chain (by decide)) supplies_null v
  intro N a' u hm
  have hp := hm.plot (l := []) (r := n :: r) hC
  have hs := hm.shape (l := []) (r := n :: r) hC
  have hnm : n ∈ [] ++ ⟨N, v.val B s⟩ :: n :: r := by simp
  have hsize : Int32.ofNat ([] ++ n :: r).length ≠ 0 := by
    rw [List.nil_append, Ne, Words.ofNat_eq_zero hC.length_lt_word]
    simp
  apply wp_bind
  apply wp_loadCell hs.heap hp.chain (by decide)
  rw [hs.size, if_neg hsize]
  apply wp_bind
  apply wp_bind
  apply wp_followLink hs.heap hR hp.chain (by decide) (hp.node n hnm) (hm.rep hC).header_cons
  apply wp_bind
  apply wp_storeCell hs.heap (hp.node n hnm) (by decide) (hG _)
  intro _ _
  have hs₁ := hs.setNext hp hnm (x := addrOf N)
  apply wp_storeCell hs₁.heap hp.chain (by decide) (hG _)
  intro _ _
  have hs₂ := hs₁.setHeader hp (x := addrOf N)
  apply hs₂.wp_size hp hG (d := fun z => z + 1)
  intro u' hs₃
  apply hQ N u' (hm.notMem hC)
  · rw [hs₃.header, hm.link]
  · rw [hs₃.next n hnm, Function.update_self, hm.link]

/-- Behind the last node the call follows a `NIL` link. -/
theorem wp_touchdbChainInsert_last {Q : Unit → Touchdb → Prop} (h : Heap B s a)
    (hC : DoublyRep B s a C (l ++ [n])) (hG : ∀ e, G.emits e) (hF : G.stops .fault)
    (hr : Serves G a [touchdbChainNodeSize]) (v : ValArg a) :
    wp G (touchdbChainInsert (B + C) (B + n.blk) (v.ptr B)) Q s := by
  have hn : Owns a n.blk touchdbChainNodeSize := hC.node n (by simp)
  have hb := hn.bounds
  have hnext : linkOf (s.field (B + n.blk) ChainNode.next) = none := by
    have hl := hC.links
    rw [List.map_append, List.map_cons] at hl
    exact hl.node.2
  unfold touchdbChainInsert chainInsertBy
  rw [if_neg (hn.ptr_ne B)]
  apply wp_bind
  apply wp_touchdbAddrOf h (by omega)
  apply wp_bind
  apply wp_chainNodeNew h hG hr (supplies_at hn (by decide)) supplies_pure v
  intro N a' u hm
  apply wp_bind
  apply wp_followLink_nil hm.heap (hm.handed.keep hn) (by decide)
  · rw [hm.frame.field (by simp) hn (by decide)]
    exact hnext
  apply wp_bind
  have hnull : store NULL ChainNode.prev (addrOf N) u = .error (.fault, []) := if_neg (by simp)
  exact wp_fail hnull hF

/-- A pool with a block for the request serves it. -/
theorem HasBlock.serves (h : HasBlock s 0 m) (hs : Heap B s a) : Serves G a [m] := by
  refine ⟨fun hn => ?_, fun _ _ _ => trivial⟩
  exact absurd h ((hs.toPoolRep.malloc_eq_none h.1).mp hn)

end

/-- The new value stands before the old ones, in a chain that is linked both ways. -/
def Prepends (c : ChainCall) : Prop :=
  ∃ t N a', (touchdbChainPushHead c.chainPtr c.argPtr).run c.db = .ok ((), t) ∧
    Handed c.alloc touchdbChainNodeSize N a' ∧ Heap c.ptr t a' ∧
    DoublyRep c.ptr t a' c.chain (⟨N, c.val⟩ :: c.nodes)

/-- The new value stands behind the node at position `i`, in a chain that is linked both ways. -/
def InsertsAfter (c : ChainCall) (i : Fin c.nodes.length) : Prop :=
  ∃ t N a', (touchdbChainInsert c.chainPtr (c.ptr + c.nodes[i].blk) c.argPtr).run c.db = .ok ((), t) ∧
    Handed c.alloc touchdbChainNodeSize N a' ∧ Heap c.ptr t a' ∧
    DoublyRep c.ptr t a' c.chain (c.nodes.take (i + 1) ++ ⟨N, c.val⟩ :: c.nodes.drop (i + 1))

theorem ChainCall.not_prepends (c : ChainCall) (h : c.nodes ≠ []) : ¬ Prepends c := by
  rintro ⟨t, N, a', hrun, -, -, hrep⟩
  obtain ⟨n, r, hnr⟩ := List.exists_cons_of_ne_nil h
  have hC := c.rep
  rw [hnr] at hC hrep
  have hwp : wp anyEvent (touchdbChainPushHead c.chainPtr c.argPtr) (fun _ u => ∃ N,
      N ∉ (n :: r).map ListNode.blk ∧ linkOf (u.field (c.ptr + c.chain) Chain.header) = some N ∧
        nodeNext c.ptr u n.blk = some N) c.db := by
    apply wp_touchdbChainPushHead_cons c.heap hC (fun _ => trivial) (c.served.serves c.heap) c.arg
    intro N u h1 h2 h3
    exact ⟨N, h1, h2, h3⟩
  obtain ⟨N', hN', -, hnext⟩ := wp_run hwp hrun
  -- in the chain with the value at its place, the old first node leads to the old second one
  have hl := hrep.links
  rw [List.map_cons, List.map_cons] at hl
  obtain ⟨-, hn⟩ := Stretch.node (l := [N]) hl
  rw [hnext, Option.or_none] at hn
  exact hN' (List.mem_cons_of_mem _ (List.mem_of_mem_head? hn.symm))

theorem ChainCall.not_insertsAfter (c : ChainCall) (i : Fin c.nodes.length)
    (h : ¬ i + 1 < c.nodes.length) : ¬ InsertsAfter c i := by
  rintro ⟨t, N, a', hrun, -⟩
  have hlast : c.nodes.take i ++ [c.nodes[i]] = c.nodes := by
    have hlt := i.isLt
    rw [Fin.getElem_fin, List.take_append_getElem, List.take_of_length_le (by omega)]
  have hC := c.rep
  rw [← hlast] at hC
  have hwp : wp ⟨fun _ => True, fun _ => True⟩
      (touchdbChainInsert c.chainPtr (c.ptr + c.nodes[i].blk) c.argPtr) (fun _ _ => False) c.db :=
    wp_touchdbChainInsert_last c.heap hC (fun _ => trivial) trivial (c.served.serves c.heap) c.arg
  exact wp_run hwp hrun

/-- A push at the head is right for an empty chain only. -/
theorem prepends_iff (c : ChainCall) : Prepends c ↔ c.nodes = [] := by
  constructor
  · intro h
    by_contra hne
    exact c.not_prepends hne h
  · intro hnil
    have hC := c.rep
    rw [hnil] at hC
    have hwp : wp anyEvent (touchdbChainPushHead c.chainPtr c.argPtr) (fun _ u => ∃ N a',
        Handed c.alloc touchdbChainNodeSize N a' ∧ Heap c.ptr u a' ∧
          DoublyRep c.ptr u a' c.chain [⟨N, c.val⟩]) c.db := by
      apply wp_touchdbChainPushHead_nil c.heap hC (fun _ => trivial) (c.served.serves c.heap) c.arg
      intro N a' u h1 h2 h3
      exact ⟨N, a', h1, h2, h3⟩
    obtain ⟨_, t, l, hrun, -, N, a', h1, h2, h3⟩ := wp_ends hwp fun _ h => h
    refine ⟨t, N, a', run_ok hrun, h1, h2, ?_⟩
    rw [hnil]
    exact h3

/-- An insertion behind a node is right for every node but the last one. -/
theorem insertsAfter_iff (c : ChainCall) (i : Fin c.nodes.length) :
    InsertsAfter c i ↔ i + 1 < c.nodes.length := by
  constructor
  · intro h
    by_contra hlast
    exact c.not_insertsAfter i hlast h
  · intro hlt
    obtain ⟨i, hi⟩ := i
    have hsplit : c.nodes.take i ++ c.nodes[i] :: c.nodes[i + 1] :: c.nodes.drop (i + 1 + 1) = c.nodes := by
      rw [List.getElem_cons_drop, List.getElem_cons_drop, List.take_append_drop]
    have hC := c.rep
    rw [← hsplit] at hC
    have hwp : wp anyEvent (touchdbChainInsert c.chainPtr (c.ptr + c.nodes[i].blk) c.argPtr)
        (fun _ u => ∃ N a', Handed c.alloc touchdbChainNodeSize N a' ∧ Heap c.ptr u a' ∧
          DoublyRep c.ptr u a' c.chain (c.nodes.take i ++ [c.nodes[i]] ++ ⟨N, c.val⟩ ::
            c.nodes[i + 1] :: c.nodes.drop (i + 1 + 1))) c.db := by
      apply wp_touchdbChainInsert_inner c.heap hC (fun _ => trivial) (c.served.serves c.heap) c.arg
      intro N a' u h1 h2 h3
      exact ⟨N, a', h1, h2, h3⟩
    obtain ⟨_, t, l, hrun, -, N, a', h1, h2, h3⟩ := wp_ends hwp fun _ h => h
    refine ⟨t, N, a', run_ok hrun, h1, h2, ?_⟩
    rw [List.getElem_cons_drop, List.take_append_getElem] at h3
    exact h3

/-- The client passes the value of a node. -/
def StockState.call (c : StockState) (h : HasBlock c.db 0 touchdbChainNodeSize) {z : StockCell}
    (hz : z ∈ c.cells) : ChainCall where
  toChainState := c.toChain
  arg := ⟨z.node.blk, ChainNode.val.off,
    (c.stocked.rep.node z.node (List.mem_map_of_mem hz)).mono (by decide)⟩
  served := h

theorem StockState.hasBlock (c : StockState) {n : ℕ} (hn : n ≤ 2 ^ 20) (h : c.Room [n]) :
    HasBlock c.db 0 n := by
  by_contra hb
  have hnone := (c.stocked.heap.toPoolRep.malloc_eq_none hn).mpr hb
  exact (Serves.of_room (G := anyEvent) h).1 hnone

/-- The client has pushed two values, and passes that of the first node. -/
theorem exists_call : ∃ c : ChainCall,
    (newStock .page [zeroInt, zeroInt]).run NewFiles.page.db = .ok (c.chainPtr, c.db) ∧
    c.nodes.length = 2 := by
  obtain ⟨c, hrun, hitems, hroom⟩ := exists_stock (f := .page) [zeroInt, zeroInt]
    [touchdbChainNodeSize] (by decide)
  have hlen : c.cells.length = 2 := by
    simpa [StockState.items] using congrArg List.length hitems
  have hz : c.cells[0] ∈ c.cells := List.getElem_mem (by omega)
  exact ⟨c.call (c.hasBlock (by decide) hroom) hz, hrun, (List.length_map _).trans hlen⟩

/-- A third value pushed at the head. -/
theorem prepends_fails : ∃ c : ChainCall,
    (newStock .page [zeroInt, zeroInt]).run NewFiles.page.db = .ok (c.chainPtr, c.db) ∧
    c.nodes.length = 2 ∧ ¬ Prepends c := by
  obtain ⟨c, hrun, hlen⟩ := exists_call
  refine ⟨c, hrun, hlen, c.not_prepends ?_⟩
  rintro hnil
  simp [hnil] at hlen

/-- A third value inserted behind the second one. -/
theorem insertsAfter_fails : ∃ c : ChainCall,
    (newStock .page [zeroInt, zeroInt]).run NewFiles.page.db = .ok (c.chainPtr, c.db) ∧
    c.nodes.length = 2 ∧ ∃ i : Fin c.nodes.length, i.val = 1 ∧ ¬ InsertsAfter c i := by
  obtain ⟨c, hrun, hlen⟩ := exists_call
  refine ⟨c, hrun, hlen, ⟨1, by omega⟩, rfl, c.not_insertsAfter _ ?_⟩
  simp [hlen]

end TouchDb
