import TouchDb.Chain.Find

/-! `touchdb_chain_del`: the first node that compares equal is taken out of the chain. -/
namespace TouchDb
open Prog Layout

section
variable {B : ℕ} {s t : Touchdb} {a : PoolAlloc} {C v : ℕ} {q l r : List ListNode} {n : ListNode}
variable {f g : ℕ → Option ℕ} {hd tl : Option ℕ} {sz : Int32} {y : Option ListNode}
variable {G : Guard Stop Event} {Q : Unit → Touchdb → Prop}

/-- The link `x`, for the nodes whose block is that of `y`. -/
def relinked (y : Option ListNode) (x : Option ℕ) (f : ℕ → Option ℕ) (o : ℕ) : Option ℕ :=
  if y.map ListNode.blk = some o then x else f o

theorem relinked_none {x : Option ℕ} : relinked none x f = f := by
  funext o
  exact if_neg (by simp)

theorem relinked_some {m : ListNode} {x : Option ℕ} :
    relinked (some m) x f = Function.update f m.blk x := by
  funext o
  unfold relinked Function.update
  by_cases ho : o = m.blk
  · simp [ho]
  · simp [ho, Ne.symm ho]

/-- The predecessor of `n`, where there is one, gets its successor. -/
theorem Shape.wp_relinkNext (h : Shape B s a C q t f g hd tl sz) (hp : Plot a C q)
    (hG : ∀ e, G.emits e) (hn : n ∈ q) (hy : ∀ m ∈ y, m ∈ q)
    (hQ : ∀ u, Shape B s a C q u (relinked y (f n.blk) f) g hd tl sz → Q () u) :
    wp G (if nodePtr B y ≠ NULL then do
        let x ← load (B + n.blk) ChainNode.next
        store (nodePtr B y) ChainNode.next x
      else return ()) Q t := by
  cases y with
  | none =>
    rw [nodePtr_none, if_neg (not_not_intro rfl)]
    apply wp_pure
    apply hQ
    rwa [relinked_none]
  | some m =>
    have hm := hp.node m (hy m rfl)
    rw [nodePtr_some, if_pos (hm.ptr_ne B)]
    apply wp_bind
    apply wp_loadCell h.heap (hp.node n hn) (by decide)
    apply wp_storeCell h.heap hm (by decide) (hG _)
    intro _ _
    apply hQ
    rw [relinked_some, ← h.next n hn]
    exact h.setNext hp (hy m rfl)

/-- The successor of `n`, where there is one, gets its predecessor. -/
theorem Shape.wp_relinkPrev (h : Shape B s a C q t f g hd tl sz) (hp : Plot a C q)
    (hG : ∀ e, G.emits e) (hn : n ∈ q) (hy : ∀ m ∈ y, m ∈ q)
    (hQ : ∀ u, Shape B s a C q u f (relinked y (g n.blk) g) hd tl sz → Q () u) :
    wp G (if nodePtr B y ≠ NULL then do
        let x ← load (B + n.blk) ChainNode.prev
        store (nodePtr B y) ChainNode.prev x
      else return ()) Q t := by
  cases y with
  | none =>
    rw [nodePtr_none, if_neg (not_not_intro rfl)]
    apply wp_pure
    apply hQ
    rwa [relinked_none]
  | some m =>
    have hm := hp.node m (hy m rfl)
    rw [nodePtr_some, if_pos (hm.ptr_ne B)]
    apply wp_bind
    apply wp_loadCell h.heap (hp.node n hn) (by decide)
    apply wp_storeCell h.heap hm (by decide) (hG _)
    intro _ _
    apply hQ
    rw [relinked_some, ← h.prev n hn]
    exact h.setPrev hp (hy m rfl)

/-- The header moves on if it is `n`. -/
theorem Shape.wp_moveHeader (h : Shape B s a C q t f g hd tl sz) (hp : Plot a C q)
    (hG : ∀ e, G.emits e) (hn : n ∈ q)
    (hQ : ∀ u, Shape B s a C q u f g (if y.map ListNode.blk = some n.blk then f n.blk else hd) tl sz → Q () u) :
    wp G (if B + n.blk = nodePtr B y then do
        let x ← load (B + n.blk) ChainNode.next
        store (B + C) Chain.header x
      else return ()) Q t := by
  by_cases hyn : y.map ListNode.blk = some n.blk
  · rw [if_pos ((ptr_eq_iff (hp.node n hn)).mpr hyn)]
    rw [if_pos hyn] at hQ
    apply wp_bind
    apply wp_loadCell h.heap (hp.node n hn) (by decide)
    apply wp_storeCell h.heap hp.chain (by decide) (hG _)
    intro _ _
    apply hQ
    rw [← h.next n hn]
    exact h.setHeader hp
  · rw [if_neg (mt (ptr_eq_iff (hp.node n hn)).mp hyn)]
    rw [if_neg hyn] at hQ
    exact wp_pure (hQ t h)

/-- The tail moves back if it is `n`. -/
theorem Shape.wp_moveTail (h : Shape B s a C q t f g hd tl sz) (hp : Plot a C q)
    (hG : ∀ e, G.emits e) (hn : n ∈ q)
    (hQ : ∀ u, Shape B s a C q u f g hd (if y.map ListNode.blk = some n.blk then g n.blk else tl) sz → Q () u) :
    wp G (if B + n.blk = nodePtr B y then do
        let x ← load (B + n.blk) ChainNode.prev
        store (B + C) Chain.tail x
      else return ()) Q t := by
  by_cases hyn : y.map ListNode.blk = some n.blk
  · rw [if_pos ((ptr_eq_iff (hp.node n hn)).mpr hyn)]
    rw [if_pos hyn] at hQ
    apply wp_bind
    apply wp_loadCell h.heap (hp.node n hn) (by decide)
    apply wp_storeCell h.heap hp.chain (by decide) (hG _)
    intro _ _
    apply hQ
    rw [← h.prev n hn]
    exact h.setTail hp
  · rw [if_neg (mt (ptr_eq_iff (hp.node n hn)).mp hyn)]
    rw [if_neg hyn] at hQ
    exact wp_pure (hQ t h)

theorem Plot.nodup (h : Plot a C q) : (q.map ListNode.blk).Nodup := (List.nodup_cons.mp h.apart).2

/-- The chain without one of its nodes. -/
theorem Plot.remove (h : Plot a C (l ++ n :: r)) : Plot a C (l ++ r) where
  chain := h.chain
  node m hm := h.node m (by
    rcases List.mem_append.mp hm with hm | hm
    · exact List.mem_append_left _ hm
    · exact List.mem_append_right _ (List.mem_cons_of_mem _ hm))
  apart := by
    apply List.Nodup.sublist _ h.apart
    apply List.Sublist.cons_cons
    apply List.Sublist.map
    apply List.Sublist.append_left
    exact List.sublist_cons_self n r

/-- The links of `n` give its neighbours, and without it they are linked to each other. -/
theorem DoublyRep.unlinked (h : DoublyRep B s a C (l ++ n :: r))
    (hf : f = nodeNext B s) (hg : g = nodePrev B s) :
    Doubly (relinked l.getLast? (f n.blk) f) (relinked r.head? (g n.blk) g)
      ((l ++ r).map ListNode.blk) := by
  subst hf hg
  have hl := h.links
  have hn := h.plot.nodup
  rw [List.map_append, List.map_cons] at hl hn
  rw [List.map_append]
  have hlast (o : ℕ) : (l.map ListNode.blk).getLast? = some o ↔ l.getLast?.map ListNode.blk = some o := by
    rw [List.getLast?_map]
  have hhead (o : ℕ) : (r.map ListNode.blk).head? = some o ↔ r.head?.map ListNode.blk = some o := by
    rw [List.head?_map]
  apply hl.remove hn
  · intro o ho
    exact if_pos ((hlast o).mp ho)
  · intro o ho
    exact if_pos ((hhead o).mp ho)
  · intro o _ ho
    exact if_neg (mt (hlast o).mpr ho)
  · intro o _ ho
    exact if_neg (mt (hhead o).mpr ho)

/-- The node `n` is taken out; the other nodes keep their values and their order. -/
theorem wp_unlink {m : ℕ} (h : Heap B s a) (hC : DoublyRep B s a C (l ++ n :: r))
    (hG : ∀ e, G.emits e) {Q : ℕ → Touchdb → Prop}
    (hQ : ∀ u, Heap B u a → Frame B s a u a (C :: (l ++ n :: r).map ListNode.blk) →
      DoublyRep B u a C (l ++ r) → Q m u) :
    wp G (do
      let p ← prevNode (B + n.blk)
      let q ← nextNode (B + n.blk)
      (if p ≠ NULL then do
        let x ← load (B + n.blk) ChainNode.next
        store p ChainNode.next x
      else return ())
      (if q ≠ NULL then do
        let x ← load (B + n.blk) ChainNode.prev
        store q ChainNode.prev x
      else return ())
      let header ← touchdbChainHeader (B + C)
      (if B + n.blk = header then do
        let x ← load (B + n.blk) ChainNode.next
        store (B + C) Chain.header x
      else return ())
      let tail ← touchdbChainTail (B + C)
      (if B + n.blk = tail then do
        let x ← load (B + n.blk) ChainNode.prev
        store (B + C) Chain.tail x
      else return ())
      let size ← load (B + C) Chain.size
      store (B + C) Chain.size (size - 1)
      return m) Q s := by
  have hR : Reads G := fun _ _ _ => hG _
  have hp := hC.plot
  have hn : n ∈ l ++ n :: r := by simp
  have hlO : ∀ m ∈ l.getLast?, m ∈ l ++ n :: r := fun m hm =>
    List.mem_append_left _ (List.mem_of_getLast? hm)
  have hrO : ∀ m ∈ r.head?, m ∈ l ++ n :: r := fun m hm =>
    List.mem_append_right _ (List.mem_cons_of_mem _ (List.mem_of_mem_head? hm))
  have hhO : ∀ m ∈ (l ++ n :: r).head?, m ∈ l ++ n :: r := fun m hm => List.mem_of_mem_head? hm
  have htO : ∀ m ∈ (l ++ n :: r).getLast?, m ∈ l ++ n :: r := fun m hm => List.mem_of_getLast? hm
  have hlinks := hC.links
  rw [List.map_append, List.map_cons] at hlinks
  obtain ⟨hprev, hnext⟩ := hlinks.node
  rw [Option.or_none, List.getLast?_map] at hprev
  rw [Option.or_none, List.head?_map] at hnext
  apply wp_bind
  apply wp_followTo h hR (hp.node n hn) (by decide) (fun m hm => hp.node m (hlO m hm)) hprev
  apply wp_bind
  apply wp_followTo h hR (hp.node n hn) (by decide) (fun m hm => hp.node m (hrO m hm)) hnext
  apply wp_bind
  apply (hC.shape h).wp_relinkNext hp hG hn hlO
  intro u₁ h₁
  apply wp_bind
  apply h₁.wp_relinkPrev hp hG hn hrO
  intro u₂ h₂
  apply wp_bind
  apply wp_followTo h₂.heap hR hp.chain (by decide) (fun m hm => hp.node m (hhO m hm))
    (h₂.header.trans (List.head?_map))
  apply wp_bind
  apply h₂.wp_moveHeader hp hG hn
  intro u₃ h₃
  apply wp_bind
  apply wp_followTo h₃.heap hR hp.chain (by decide) (fun m hm => hp.node m (htO m hm))
    (h₃.tail.trans (List.getLast?_map))
  apply wp_bind
  apply h₃.wp_moveTail hp hG hn
  intro u₄ h₄
  apply wp_bind
  apply wp_loadCell h₄.heap hp.chain (by decide)
  apply wp_bind
  apply wp_storeCell h₄.heap hp.chain (by decide) (hG _)
  intro _ _
  have h₅ := h₄.setSize hp (w := u₄.field (B + C) Chain.size - 1)
  apply wp_pure
  apply hQ _ h₅.heap h₅.frame
  have hnd := hp.nodup
  rw [List.map_append, List.map_cons] at hnd
  obtain ⟨hhead, htail⟩ := Stretch.ends_remove hnd
  rw [← List.map_cons, ← List.map_append, ← List.map_append] at hhead htail
  -- the links of `n` itself are as they were
  have hfn : relinked l.getLast? (nodeNext B s n.blk) (nodeNext B s) n.blk = nodeNext B s n.blk := by
    unfold relinked
    rw [ite_self]
  have hgn : relinked r.head? (nodePrev B s n.blk) (nodePrev B s) n.blk = nodePrev B s n.blk := by
    unfold relinked
    rw [ite_self]
  apply h₅.doublyRep hp.remove _ (hC.unlinked rfl rfl)
  · rw [hfn, ← hhead, List.head?_map, List.head?_map, ← hnext]
  · rw [hgn, ← htail, List.getLast?_map, List.getLast?_map, ← hprev]
  · rw [h₄.size, Words.ofNat_sub_one (by simp) hC.length_lt_word]
    simp
  · intro m hm
    rcases List.mem_append.mp hm with hm | hm
    · exact List.mem_append_left _ hm
    · exact List.mem_append_right _ (List.mem_cons_of_mem _ hm)

/-- The first node that compares equal leaves the chain. -/
theorem wp_touchdbChainDel {valCmp : ℕ → ℕ → M Int32} {res : ListNode → Int32} {Q : ℕ → Touchdb → Prop}
    (h : Heap B s a) (hC : DoublyRep B s a C q) (hG : ∀ e, G.emits e)
    (hc : Compares G valCmp B s v q res) (hnone : q.find? (isMatch res) = none → Q NULL s)
    (hQ : ∀ n u, q.find? (isMatch res) = some n → Heap B u a →
      Frame B s a u a (C :: q.map ListNode.blk) → DoublyRep B u a C (q.eraseP (isMatch res)) →
      Q (B + n.blk) u) : wp G (touchdbChainDel valCmp (B + C) v) Q s := by
  have hR : Reads G := fun _ _ _ => hG _
  unfold touchdbChainDel
  apply wp_bind
  apply wp_touchdbChainNode h hR hC.toChainRep hc
  cases hf : q.find? (isMatch res) with
  | none =>
    rw [nodePtr_none, if_pos rfl]
    exact wp_pure (hnone hf)
  | some n =>
    obtain ⟨hn, l, r, rfl, hl⟩ := List.find?_eq_some_iff_append.mp hf
    have hl' : ∀ m ∈ l, ¬ isMatch res m = true := by
      intro m hm
      simpa using hl m hm
    have herase : (l ++ n :: r).eraseP (isMatch res) = l ++ r := by
      rw [List.eraseP_append_right _ hl', List.eraseP_cons_of_pos hn]
    rw [herase] at hQ
    rw [nodePtr_some, if_neg ((hC.node n (by simp)).ptr_ne B)]
    apply wp_unlink h hC hG
    intro u hu hF hrep
    exact hQ n u hf hu hF hrep

end

/-- The first node that compares equal is returned and taken out, and the other nodes are left in
their order with their values; without such a node nothing changes. -/
theorem touchdbChainDel_first (c : ChainState) (res : ℕ → ℕ → Int32) (v : ℕ) :
    ∃ t, (touchdbChainDel (assigned res) c.chainPtr v).run c.db =
        .ok (nodePtr c.ptr (c.nodes.find? (isMatch (c.results res v))), t) ∧
      Heap c.ptr t c.alloc ∧
      Frame c.ptr c.db c.alloc t c.alloc (c.chain :: c.nodes.map ListNode.blk) ∧
      DoublyRep c.ptr t c.alloc c.chain (c.nodes.eraseP (isMatch (c.results res v))) ∧
      (c.nodes.find? (isMatch (c.results res v)) = none → t = c.db) := by
  have hwp : wp anyEvent (touchdbChainDel (assigned res) c.chainPtr v) (fun p t =>
      p = nodePtr c.ptr (c.nodes.find? (isMatch (c.results res v))) ∧ Heap c.ptr t c.alloc ∧
        Frame c.ptr c.db c.alloc t c.alloc (c.chain :: c.nodes.map ListNode.blk) ∧
        DoublyRep c.ptr t c.alloc c.chain (c.nodes.eraseP (isMatch (c.results res v))) ∧
        (c.nodes.find? (isMatch (c.results res v)) = none → t = c.db)) c.db := by
    apply wp_touchdbChainDel c.heap c.rep (fun _ => trivial) (c.compares res v)
    · intro hnone
      have hall : ∀ n ∈ c.nodes, ¬ isMatch (c.results res v) n = true := by
        simpa using hnone
      have herase : c.nodes.eraseP (isMatch (c.results res v)) = c.nodes :=
        List.eraseP_of_forall_not hall
      refine ⟨?_, c.heap, .refl _ _ _ _, ?_, fun _ => rfl⟩
      · exact (congrArg (nodePtr c.ptr) hnone).symm
      · rw [herase]
        exact c.rep
    · intro n u hn hu hF hrep
      refine ⟨?_, hu, hF, hrep, fun hnone => ?_⟩
      · exact (congrArg (nodePtr c.ptr) hn).symm
      · rw [hnone] at hn
        cases hn
  obtain ⟨p, t, l, hr, -, rfl, h1, h2, h3, h4⟩ := wp_ends hwp fun _ h => h
  exact ⟨t, run_ok hr, h1, h2, h3, h4⟩

end TouchDb
