import TouchDb.Chain.Rep

/-! `touchdb_chain_push_tail`: a node is created and linked behind the last one. -/
namespace TouchDb
open Prog Layout

/-- A guard that allows every store after which the chain at `p` has one of the sequences
`ls`. -/
def Showing (G : Guard Stop Event) (p : ℕ) (ls : List (List TouchdbVal)) : Prop :=
  ∀ e : Event, (∀ u, e.after = some u → ∃ l ∈ ls, Sees u p l) → G.emits e

section Showing
variable {B : ℕ} {s t : Touchdb} {a : PoolAlloc} {C o n : ℕ} {q : List ListNode}
variable {G : Guard Stop Event} {p : ℕ} {ls : List (List TouchdbVal)}

theorem Showing.of_all (hG : ∀ e, G.emits e) : Showing G p ls := fun e _ => hG e

theorem Showing.reads (hG : Showing G p ls) : Reads G := fun _ _ _ => hG _ fun _ hu => by cases hu

theorem Showing.store (hG : Showing G p ls) {l : List TouchdbVal} (hl : l ∈ ls) {x m : ℕ}
    (hs : Sees t p l) : G.emits (.store x m t) :=
  hG _ fun _ hu => ⟨l, hl, by rw [← Option.some.inj hu]; exact hs⟩

/-- Nobody notices a store that leaves the record and the nodes alone. -/
theorem Showing.lets (hG : Showing G (B + C) ls) (h : Heap B s a) (hC : ChainRep B s a C q)
    (hl : q.map ListNode.val ∈ ls) {T : List ℕ} (hCT : C ∉ T) (hq : ∀ n ∈ q, n.blk ∉ T) :
    Lets G B s a T := by
  have hsee {u : Touchdb} (hF : Frame B s a u a T) : Sees u (B + C) (q.map ListNode.val) :=
    (hC.frame hF hCT hq).toWalked.sees (hF.base.trans h.base_eq)
  refine ⟨fun e he => hG e fun u hu => ⟨_, hl, ?_⟩, hG.reads⟩
  cases e with
  | store x m v =>
    obtain rfl : v = u := Option.some.inj hu
    exact hsee he.1
  | assign v =>
    obtain rfl : v = u := Option.some.inj hu
    exact hsee he
  | translate x => cases hu

end Showing

/-- A node that may join the chain at `C`. -/
structure Joins (B : ℕ) (t : Touchdb) (a : PoolAlloc) (C : ℕ) (q : List ListNode) (n : ListNode) :
    Prop where
  rep : ChainRep B t a C q
  owns : Owns a n.blk touchdbChainNodeSize
  ne : n.blk ≠ C
  fresh : ∀ m ∈ q, m.blk ≠ n.blk
  next : nodeNext B t n.blk = none
  val : t.field (B + n.blk) ChainNode.val = n.val

/-- The node follows the old last one, and the length is not yet stored. -/
structure Joined (B : ℕ) (t : Touchdb) (a : PoolAlloc) (C : ℕ) (q : List ListNode) (n : ListNode)
    (v : Touchdb) : Prop where
  heap : Heap B v a
  frame : Frame B t a v a (C :: q.map ListNode.blk)
  walked : Walked B v C (q ++ [n])
  tail : linkOf (v.field (B + C) Chain.tail) = some n.blk
  size : v.field (B + C) Chain.size = Int32.ofNat q.length
  prevs : ∀ m ∈ q ++ [n], nodePrev B v m.blk = nodePrev B t m.blk

/-- What a push leaves of a chain with the nodes `q`. -/
structure Pushed (B : ℕ) (s : Touchdb) (a : PoolAlloc) (C : ℕ) (q : List ListNode) (w : TouchdbVal)
    (N : ℕ) (u : Touchdb) (a' : PoolAlloc) : Prop where
  handed : Handed a touchdbChainNodeSize N a'
  heap : Heap B u a'
  frame : Frame B s a u a' (C :: q.map ListNode.blk)
  rep : ChainRep B u a' C (q ++ [⟨N, w⟩])
  prev : nodePrev B u N = (q.map ListNode.blk).getLast?
  prevs : ∀ n ∈ q, nodePrev B u n.blk = nodePrev B s n.blk

section Wp
variable {B : ℕ} {s t : Touchdb} {a a' : PoolAlloc} {T : List ℕ} {C V N : ℕ} {q : List ListNode}
variable {G : Guard Stop Event}

/-- A new node that is to follow the tail of a chain. -/
theorem wp_touchdbChainNodeNew {Q : ℕ × TouchdbAddr → Touchdb → Prop} (h : Heap B s a)
    (hG : Lets G B s a []) (hr : Serves G a [touchdbChainNodeSize])
    (hC : Owns a C sizeofChain) (hV : Owns a V sizeofVal)
    (hQ : ∀ N a' u, Handed a touchdbChainNodeSize N a' → Work B s a [] u a' →
      nodeNext B u N = none → u.field (B + N) ChainNode.prev = s.field (B + C) Chain.tail →
      u.field (B + N) ChainNode.val = s.field (B + V) Val.all → Q (B + N, addrOf N) u) :
    wp G (touchdbChainNodeNew NULL (B + C + Chain.tail.off) (B + V)) Q s := by
  have hB := h.base_pos'
  have hnull : linkAt NULL = pure nullAddr := if_pos rfl
  have hlink : linkAt (B + C + Chain.tail.off) = load (B + C + Chain.tail.off) ⟨0⟩ :=
    if_neg (by simp only [NULL]; omega)
  unfold touchdbChainNodeNew chainNodeNewBy
  refine wp_bind ((Work.start h).wp_malloc hG hr (by decide) (by decide)
    fun N a' u hN hw hf => ?_)
  have hNO : Owns a' N touchdbChainNodeSize := hN.owns (by decide)
  have hm : Mine a [] N := hN.mine
  have hCN : C ≠ N := hC.ne hN.fresh
  have hVN : V ≠ N := hV.ne hN.fresh
  have hother {α : Type} [Layout α] {f : Field α} {o m k : ℕ} {bs : List UInt8} {v : Touchdb}
      (ho : Owns a o m) (hf : f.off + size α ≤ m) (hk : k + bs.length ≤ touchdbChainNodeSize) :
      (v.write (B + N + k) bs).field (B + o) f = v.field (B + o) f :=
    field_write_other hNO (hN.keep ho) (ho.ne hN.fresh) hk hf
  dsimp only
  rw [if_neg (hNO.ptr_ne B), hnull, hlink, pure_then]
  refine wp_bind (hw.wp_store hG hm hNO (by decide) fun hw₁ hf₁ => ?_)
  refine wp_bind (wp_load_shift (by omega) (wp_loadCell hw₁.heap (hN.keep hC) (by decide) ?_))
  refine wp_bind (hw₁.wp_store hG hm hNO (by decide) fun hw₂ hf₂ => ?_)
  refine wp_bind (wp_loadCell hw₂.heap (hN.keep hV) (by decide) ?_)
  refine wp_bind (hw₂.wp_store hG hm hNO (by decide) fun hw₃ hf₃ => wp_pure ?_)
  refine hQ N a' _ hN hw₃ ?_ ?_ ?_
  · unfold nodeNext
    rw [field_write_apart (.inl (by decide)), field_write_apart (.inr (by simp)), field_write_same]
    rfl
  · rw [field_write_apart (.inl (by decide)), field_write_same, hother hC (by decide) (by decide)]
    exact hf.field (by simp) hC (by decide)
  · rw [field_write_same, hother hV (by decide) (by simp [touchdbChainNodeSize]), hother hV (by decide) (by decide)]
    exact hf.field (by simp) hV (by decide)

variable {n : ListNode} {ls : List (List TouchdbVal)}

theorem Joins.nodes (h : Joins B t a C q n) :
    ∀ m ∈ q ++ [n], Owns a m.blk touchdbChainNodeSize ∧ m.blk ≠ C := by
  intro m hm
  rcases List.mem_append.mp hm with hm | hm
  · exact ⟨h.rep.node m hm, h.rep.blk_ne hm⟩
  · obtain rfl := List.mem_singleton.mp hm
    exact ⟨h.owns, h.ne⟩

theorem Joins.apart (h : Joins B t a C q n) : (C :: (q ++ [n]).map ListNode.blk).Nodup := by
  rw [List.map_append, ← List.cons_append, List.nodup_append]
  refine ⟨h.rep.apart, by simp, ?_⟩
  rintro x hx y hy rfl
  obtain rfl : x = n.blk := by simpa using hy
  rcases List.mem_cons.mp hx with hx | hx
  · exact h.ne hx
  · obtain ⟨m, hm, hmx⟩ := List.mem_map.mp hx
    exact h.fresh m hm hmx

theorem Joins.link (h : Joins B t a C q n) : linkOf (addrOf n.blk) = some n.blk := by
  have hb := h.owns.bounds
  exact linkOf_addrOf h.owns.lt (by omega)

/-- The links and the value of a node across a store to the record. -/
theorem Joins.field (h : Joins B t a C q n) {α β : Type} [Layout α] [Layout β] {f : Field α}
    {g : Field β} {w : β} {v : Touchdb} {m : ListNode} (hm : m ∈ q ++ [n])
    (hg : g.off + size β ≤ sizeofChain) (hf : f.off + size α ≤ touchdbChainNodeSize) :
    (v.write (B + C + g.off) (enc w)).field (B + m.blk) f = v.field (B + m.blk) f :=
  field_write_other h.rep.chain (h.nodes m hm).1 (h.nodes m hm).2 (by simpa using hg) hf

/-- The first node of a chain. -/
theorem wp_joinEmpty {Q : Unit → Touchdb → Prop} (h : Heap B t a) (hj : Joins B t a C [] n)
    (hG : Showing G (B + C) ls) (hold : [] ∈ ls) (hnew : [n.val] ∈ ls)
    (hQ : ∀ v, Joined B t a C [] n v → Q () v) :
    wp G (do
      store (B + C) Chain.tail (addrOf n.blk)
      store (B + C) Chain.header (addrOf n.blk)) Q t := by
  have hC := hj.rep.chain
  have hn : n ∈ [] ++ [n] := List.mem_singleton_self n
  have hw₁ : Walked B (t.write (B + C + Chain.tail.off) (enc (addrOf n.blk))) C [] :=
    hj.rep.toWalked.writeRecord hC (by simp) (by simp [sizeofChain])
  refine wp_bind (wp_storeCell h hC (by decide) (hG.store hold (hw₁.sees h.base_eq)) fun h₁ hf₁ => ?_)
  have hw₂ : Walked B ((t.write (B + C + Chain.tail.off) (enc (addrOf n.blk))).write
      (B + C + Chain.header.off) (enc (addrOf n.blk))) C [n] := by
    refine ⟨?_, ?_, fun m hm => ?_⟩
    · rw [field_write_same, hj.link]
      rfl
    · rw [List.map_singleton, Linked.singleton]
      unfold nodeNext
      rw [hj.field hn (by decide) (by decide), hj.field hn (by decide) (by decide)]
      exact hj.next
    · obtain rfl := List.mem_singleton.mp hm
      rw [hj.field hn (by decide) (by decide), hj.field hn (by decide) (by decide)]
      exact hj.val
  refine wp_storeCell h₁ hC (by decide) (hG.store hnew (hw₂.sees h.base_eq)) fun h₂ hf₂ => hQ _ ?_
  refine ⟨h₂, (hf₁.trans hf₂).drop (by simp [Mine]), hw₂, ?_, ?_, fun m hm => ?_⟩
  · rw [field_write_apart (.inr (by simp)), field_write_same, hj.link]
  · rw [field_write_apart (.inr (by simp)), field_write_apart (.inr (by simp))]
    exact hj.rep.size
  · unfold nodePrev
    rw [hj.field hm (by decide) (by decide), hj.field hm (by decide) (by decide)]

/-- A node behind the last one, `y`. -/
theorem wp_joinLast {Q : Unit → Touchdb → Prop} {y : ListNode} (h : Heap B t a)
    (hj : Joins B t a C (q ++ [y]) n) (hG : Showing G (B + C) ls)
    (hnew : (q ++ [y] ++ [n]).map ListNode.val ∈ ls) (hQ : ∀ v, Joined B t a C (q ++ [y]) n v → Q () v) :
    wp G (do
      let tail ← chainTail (B + C)
      store tail ChainNode.next (addrOf n.blk)
      store (B + C) Chain.tail (addrOf n.blk)) Q t := by
  have hC := hj.rep.chain
  have hyO : Owns a y.blk touchdbChainNodeSize := hj.rep.node y (by simp)
  have hyC : y.blk ≠ C := hj.rep.blk_ne (by simp)
  have hyn : y.blk ≠ n.blk := hj.fresh y (by simp)
  have hlast : ((q ++ [y]).map ListNode.blk).getLast? = some y.blk := by simp
  refine wp_bind (wp_followLink h hG.reads hC (by decide) hyO hj.rep.tail_concat ?_)
  have hoff {α : Type} [Layout α] {f : Field α} {m : ListNode} (hm : m ∈ q ++ [y] ++ [n])
      (hf : f.off + size α ≤ touchdbChainNodeSize) (hd : m.blk ≠ y.blk ∨ f.off + size α ≤ 8 ∨ 16 ≤ f.off) :
      (t.write (B + y.blk + ChainNode.next.off) (enc (addrOf n.blk))).field (B + m.blk) f =
        t.field (B + m.blk) f := by
    by_cases hmy : m.blk = y.blk
    · rw [hmy]
      exact field_write_apart (hd.resolve_left (fun hne => hne hmy))
    · exact field_write_other hyO (hj.nodes m hm).1 hmy (by simp [touchdbChainNodeSize]) hf
  have hw₁ : Walked B (t.write (B + y.blk + ChainNode.next.off) (enc (addrOf n.blk))) C
      (q ++ [y] ++ [n]) := by
    refine ⟨?_, ?_, fun m hm => ?_⟩
    · rw [field_write_other hyO hC hyC.symm (by simp [touchdbChainNodeSize]) (by decide), hj.rep.header]
      simp
    · rw [List.map_append]
      refine hj.rep.next.snoc hj.rep.nodup ?_ (fun x hx => ?_) fun x hx hx' => ?_
      · refine Eq.trans ?_ hj.next
        exact congrArg linkOf (hoff (by simp) (by decide) (.inl hyn.symm))
      · obtain rfl : y.blk = x := Option.some.inj (hlast.symm.trans hx)
        unfold nodeNext
        rw [field_write_same, hj.link]
      · obtain ⟨m, hm, rfl⟩ := List.mem_map.mp hx
        refine congrArg linkOf (hoff (List.mem_append_left _ hm) (by decide) (.inl fun hc => hx' ?_))
        rw [hc]
        exact hlast
    · rw [hoff hm (by decide) (.inr (.inr (by decide)))]
      rcases List.mem_append.mp hm with hm | hm
      · exact hj.rep.val m hm
      · obtain rfl := List.mem_singleton.mp hm
        exact hj.val
  refine wp_bind (wp_storeCell h hyO (by decide) (hG.store hnew (hw₁.sees h.base_eq)) fun h₁ hf₁ => ?_)
  have hw₂ : Walked B ((t.write (B + y.blk + ChainNode.next.off) (enc (addrOf n.blk))).write
      (B + C + Chain.tail.off) (enc (addrOf n.blk))) C (q ++ [y] ++ [n]) :=
    hw₁.writeRecord hC hj.nodes (by simp [sizeofChain])
  refine wp_storeCell h₁ hC (by decide) (hG.store hnew (hw₂.sees h.base_eq)) fun h₂ hf₂ => hQ _ ?_
  refine ⟨h₂, (hf₁.trans hf₂).drop fun o ho => ?_, hw₂, ?_, ?_, fun m hm => ?_⟩
  · simp only [List.mem_append, List.mem_singleton] at ho
    rcases ho with rfl | rfl
    · exact .inl (by simp)
    · exact .inl (by simp)
  · rw [field_write_same, hj.link]
  · rw [field_write_apart (.inr (by simp)), field_write_other hyO hC hyC.symm
      (by simp [touchdbChainNodeSize]) (by decide)]
    exact hj.rep.size
  · unfold nodePrev
    rw [hj.field hm (by decide) (by decide), hoff hm (by decide) (.inr (.inl (by decide)))]

/-- The node is seen as soon as the record, or the old last node, points to it; storing the
length is not noticed. -/
theorem wp_touchdbChainPushTail {Q : Unit → Touchdb → Prop}
    (h : Heap B s a) (hC : ChainRep B s a C q) (hV : Owns a V sizeofVal)
    (hG : Showing G (B + C) ls) (hr : Serves G a [touchdbChainNodeSize])
    (hold : q.map ListNode.val ∈ ls) (hnew : q.map ListNode.val ++ [s.field (B + V) Val.all] ∈ ls)
    (hQ : ∀ N u a', Pushed B s a C q (s.field (B + V) Val.all) N u a' → Q () u) :
    wp G (touchdbChainPushTail (B + C) (B + V)) Q s := by
  unfold touchdbChainPushTail chainPushTailBy
  refine wp_bind (wp_touchdbChainNodeNew h (hG.lets h hC hold (by simp) (by simp)) hr hC.chain hV
    fun N a' t hN hw hnext hprev hval => ?_)
  obtain ⟨n, rfl, hn⟩ : ∃ n : ListNode, n.blk = N ∧ n.val = s.field (B + V) Val.all :=
    ⟨⟨N, _⟩, rfl, rfl⟩
  rw [← hn] at hnew hval hQ
  have hC₁ := hC.frame hw.frame (by simp) (by simp)
  have hj : Joins B t a' C q n := ⟨hC₁, hN.owns (by decide), (hC.chain.ne hN.fresh).symm,
    fun m hm => (hC.node m hm).ne hN.fresh, hnext, hval⟩
  have hmap : (q ++ [n]).map ListNode.val ∈ ls := by simpa using hnew
  have hprevs : ∀ m ∈ q, nodePrev B t m.blk = nodePrev B s m.blk := fun m hm =>
    congrArg linkOf (hw.frame.field (by simp) (hC.node m hm) (by decide))
  have hjoin : ∀ v, Joined B t a' C q n v → wp G (do
      let size ← load (B + C) Chain.size
      store (B + C) Chain.size (size + 1)) Q v := by
    intro v hv
    have hw' : Walked B (v.write (B + C + Chain.size.off) (enc (v.field (B + C) Chain.size + 1))) C
        (q ++ [n]) := hv.walked.writeRecord hC₁.chain hj.nodes (by simp [sizeofChain])
    have hp (m : ListNode) (hm : m ∈ q ++ [n]) : nodePrev B (v.write (B + C + Chain.size.off)
        (enc (v.field (B + C) Chain.size + 1))) m.blk = nodePrev B t m.blk :=
      (congrArg linkOf (hj.field hm (by decide) (by decide))).trans (hv.prevs m hm)
    refine wp_bind (wp_loadCell hv.heap hC₁.chain (by decide) ?_)
    refine wp_storeCell hv.heap hC₁.chain (by decide) (hG.store hmap (hw'.sees hv.heap.base_eq))
      fun hu hf => hQ n.blk _ a' ⟨hN, hu, ?_, ⟨hw', hC₁.chain, ?_, ?_, fun m hm => (hj.nodes m hm).1,
        hj.apart⟩, ?_, fun m hm => (hp m (List.mem_append_left _ hm)).trans (hprevs m hm)⟩
    · refine ((hw.frame.trans hv.frame).trans hf).drop fun o ho => .inl ?_
      rcases List.mem_append.mp ho with ho | ho
      · exact ho
      · exact List.mem_cons.mpr (.inl (List.mem_singleton.mp ho))
    · rw [field_write_apart (.inl (by decide)), hv.tail]
      simp
    · rw [field_write_same, hv.size, List.length_append]
      exact (Int32.ofNat_add _ _).symm
    · refine (hp n (by simp)).trans ?_
      unfold nodePrev
      rw [hprev]
      exact hC.tail
  refine wp_bind (wp_loadCell hw.heap hC₁.chain (by decide) ?_)
  rw [hC₁.size]
  rcases List.eq_nil_or_concat q with rfl | ⟨r, y, rfl⟩
  · have h0 : Int32.ofNat ([] : List ListNode).length = 0 := rfl
    rw [if_pos h0]
    exact wp_bind (wp_joinEmpty hw.heap hj hG hold (by simpa using hmap) hjoin)
  · have h0 : Int32.ofNat (r.concat y).length ≠ 0 := by
      rw [Ne, Words.ofNat_eq_zero hC₁.length_lt_word]
      simp
    rw [if_neg h0]
    rw [List.concat_eq_append] at *
    exact wp_bind (wp_joinLast hw.heap hj hG hmap hjoin)

end Wp

end TouchDb
