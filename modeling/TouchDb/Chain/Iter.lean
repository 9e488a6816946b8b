import TouchDb.Chain.Queues

/-! `touchdb_chain_iter`, with callbacks that may write to the values they are given. -/
namespace TouchDb
open Prog Layout

/-- Each element of a list is met in turn, with a state, and replaced. -/
def visit {α β : Type} (h : α → β → α × β) : α → List β → α × List β
  | x, [] => (x, [])
  | x, y :: l => ((visit h (h x y).1 l).1, (h x y).2 :: (visit h (h x y).1 l).2)

/-- A callback may write a value to the place it is given. -/
def rewrite (v : ℕ) : Option TouchdbVal → M Unit
  | none => return ()
  | some w => store v Val.all w

/-- The callback `iter` reads the value it is given. It goes on to the state that `f` says, and
writes the value that `g` says, if any. -/
def Rewrites {α : Type} (iter : α → ℕ → M α) (f : α → TouchdbVal → α)
    (g : α → TouchdbVal → Option TouchdbVal) : Prop :=
  ∀ x v w s, (load v Val.all).run s = .ok (w, s) →
    (iter x v).run s = (do rewrite v (g x w); return f x w : M α).run s

section
variable {α : Type} {iter : α → ℕ → M α} {f : α → TouchdbVal → α}
variable {g : α → TouchdbVal → Option TouchdbVal} {x : α}

/-- What a callback makes of a value. -/
def revalue (f : α → TouchdbVal → α) (g : α → TouchdbVal → Option TouchdbVal) (x : α) (w : TouchdbVal) :
    α × TouchdbVal := (f x w, (g x w).getD w)

/-- What a callback makes of a node. -/
def renode (f : α → TouchdbVal → α) (g : α → TouchdbVal → Option TouchdbVal) (x : α) (n : ListNode) :
    α × ListNode := (f x n.val, ⟨n.blk, (g x n.val).getD n.val⟩)

theorem visit_blks (x : α) (q : List ListNode) :
    (visit (renode f g) x q).2.map ListNode.blk = q.map ListNode.blk := by
  induction q generalizing x with
  | nil => rfl
  | cons n q ih =>
    rw [visit, List.map_cons, List.map_cons, ih]
    rfl

theorem visit_vals (x : α) (q : List ListNode) :
    (visit (renode f g) x q).1 = (visit (revalue f g) x (q.map ListNode.val)).1 ∧
      (visit (renode f g) x q).2.map ListNode.val =
        (visit (revalue f g) x (q.map ListNode.val)).2 := by
  induction q generalizing x with
  | nil => exact ⟨rfl, rfl⟩
  | cons n q ih =>
    obtain ⟨h1, h2⟩ := ih (f x n.val)
    refine ⟨h1, ?_⟩
    rw [List.map_cons, visit, visit, List.map_cons]
    exact congrArg₂ List.cons rfl h2

end

section
variable {α : Type} {iter : α → ℕ → M α} {f : α → TouchdbVal → α}
variable {g : α → TouchdbVal → Option TouchdbVal} {x : α} {B o : ℕ} {s t : Touchdb} {a : PoolAlloc}
variable {C : ℕ} {q r : List ListNode} {w : TouchdbVal} {T : List ℕ}

/-- One call of the callback, on the value of a node. -/
theorem Rewrites.wp_call {Q : α → Touchdb → Prop} (hr : Rewrites iter f g) (h : Heap B s a)
    (ho : Owns a o touchdbChainNodeSize) (hw : s.field (B + o) ChainNode.val = w)
    (hQ : ∀ t, Heap B t a → Frame B s a t a [o] →
      t.field (B + o) ChainNode.next = s.field (B + o) ChainNode.next →
      t.field (B + o) ChainNode.val = (g x w).getD w → Q (f x w) t) :
    wp anyEvent (iter x (B + o + ChainNode.val.off)) Q s := by
  have hb := ho.bounds
  have hload : (load (B + o + ChainNode.val.off) Val.all).run s = .ok (w, s) := by
    refine run_ok (l := []) ?_
    rw [load_shift (by omega)]
    exact hw ▸ h.load_ok ho (by decide)
  have hcall := hr x _ w s hload
  have hall : ∀ e, anyEvent.emits e := fun _ => trivial
  rcases hg : g x w with _ | w'
  · rw [hg] at hcall hQ
    exact wp_of_run hcall hall (hQ s h (.refl B s a [o]) rfl hw)
  · rw [hg] at hcall hQ
    have hk : ChainNode.val.off + size TouchdbVal ≤ touchdbChainNodeSize := by decide
    have hlen : ChainNode.val.off + (enc w').length ≤ touchdbChainNodeSize := by simpa using hk
    obtain ⟨h', hF⟩ := h.write ho hlen
    have hstore : store (B + o + ChainNode.val.off) Val.all w' s =
        .ok ((), s.write (B + o + ChainNode.val.off) (enc w'),
          [.store (B + o + ChainNode.val.off) (size TouchdbVal)
            (s.write (B + o + ChainNode.val.off) (enc w'))]) := by
      rw [store_shift (by omega)]
      exact h.store_ok ho hk
    refine wp_of_run (hcall.trans (run_ok (ok_bind hstore rfl))) hall (hQ _ h' hF
      (field_write_apart (.inl (by decide))) (field_write_same s (B + o) ChainNode.val w'))

/-- What a walk over the nodes `r` has done. -/
structure Walk (f : α → TouchdbVal → α) (g : α → TouchdbVal → Option TouchdbVal) (x : α) (B : ℕ)
    (s : Touchdb) (a : PoolAlloc) (r : List ListNode) (t : Touchdb) : Prop where
  heap : Heap B t a
  frame : Frame B s a t a (r.map ListNode.blk)
  next : ∀ n ∈ r, t.field (B + n.blk) ChainNode.next = s.field (B + n.blk) ChainNode.next
  val : ∀ n ∈ (visit (renode f g) x r).2, t.field (B + n.blk) ChainNode.val = n.val

theorem Walk.cons {n : ListNode} {u : Touchdb} (h : Walk f g (f x n.val) B t a r u)
    (hF : Frame B s a t a [n.blk]) (hO : ∀ m ∈ n :: r, Owns a m.blk touchdbChainNodeSize)
    (hn : n.blk ∉ r.map ListNode.blk)
    (hnext : t.field (B + n.blk) ChainNode.next = s.field (B + n.blk) ChainNode.next)
    (hval : t.field (B + n.blk) ChainNode.val = (g x n.val).getD n.val) :
    Walk f g x B s a (n :: r) u where
  heap := h.heap
  frame := hF.trans h.frame
  next m hm := by
    have hO' := hO m hm
    rcases List.mem_cons.mp hm with rfl | hm
    · exact (h.frame.field hn hO' (by decide)).trans hnext
    · have hne : m.blk ≠ n.blk := fun hc => hn (hc ▸ List.mem_map_of_mem hm)
      exact (h.next m hm).trans (hF.field (by simpa using hne) hO' (by decide))
  val m hm := by
    rcases List.mem_cons.mp hm with rfl | hm
    · exact (h.frame.field hn (hO n List.mem_cons_self) (by decide)).trans hval
    · exact h.val m hm

/-- The loop from the first node of `r` on. -/
theorem wp_chainIterLoop {Q : α → Touchdb → Prop} {rounds p : ℕ} (hr : Rewrites iter f g)
    (h : Heap B s a) (hl : Linked (nodeNext B s) (r.map ListNode.blk))
    (hO : ∀ n ∈ r, Owns a n.blk touchdbChainNodeSize)
    (hv : ∀ n ∈ r, s.field (B + n.blk) ChainNode.val = n.val) (hn : (r.map ListNode.blk).Nodup)
    (hlen : r.length < rounds) (hp : p = ((r.head?.map fun n => B + n.blk)).getD NULL)
    (hQ : ∀ t, Walk f g x B s a r t → Q (visit (renode f g) x r).1 t) :
    wp anyEvent (chainIterLoop iter rounds p x) Q s := by
  induction r generalizing rounds p x s with
  | nil =>
    obtain rfl : p = NULL := hp
    obtain ⟨rounds, rfl⟩ : ∃ m, rounds = m + 1 := ⟨rounds - 1, by simp at hlen; omega⟩
    unfold chainIterLoop
    rw [if_neg (by simp)]
    exact wp_pure (hQ s ⟨h, .refl B s a [], by simp, by simp [visit]⟩)
  | cons n r ih =>
    obtain rfl : p = B + n.blk := hp
    obtain ⟨hnr, hn⟩ := List.nodup_cons.mp hn
    have hnO := hO n List.mem_cons_self
    have hout {m : ListNode} (hm : m ∈ r) : m.blk ∉ [n.blk] := by
      have hne : m.blk ≠ n.blk := fun hc => hnr (hc ▸ List.mem_map_of_mem hm)
      simpa using hne
    have hO' {m : ListNode} (hm : m ∈ r) := hO m (List.mem_cons_of_mem _ hm)
    simp only [List.length_cons] at hlen
    obtain ⟨rounds, rfl⟩ : ∃ m, rounds = m + 1 := ⟨rounds - 1, by omega⟩
    unfold chainIterLoop
    rw [if_pos (hnO.ptr_ne B)]
    refine wp_bind (hr.wp_call h hnO (hv n List.mem_cons_self) fun t ht hF hnext hval => ?_)
    -- the callback leaves the rest of the chain as it was
    have hl' : Linked (nodeNext B t) (r.map ListNode.blk) := hl.2.congr fun o ho => by
      obtain ⟨m, hm, rfl⟩ := List.mem_map.mp ho
      exact congrArg linkOf (hF.field (hout hm) (hO' hm) (by decide))
    have hv' : ∀ m ∈ r, t.field (B + m.blk) ChainNode.val = m.val := fun m hm =>
      (hF.field (hout hm) (hO' hm) (by decide)).trans (hv m (List.mem_cons_of_mem _ hm))
    have hgo {p : ℕ} (hp : p = ((r.head?.map fun n => B + n.blk)).getD NULL) :
        wp anyEvent (chainIterLoop iter rounds p (f x n.val)) Q t :=
      ih ht hl' (fun m hm => hO' hm) hv' hn (by omega) hp fun u hu =>
        hQ u (hu.cons hF hO hnr hnext hval)
    have hlink : linkOf (t.field (B + n.blk) ChainNode.next) = (r.map ListNode.blk).head? := by
      rw [hnext]
      exact hl.1
    cases r with
    | nil => exact wp_bind (wp_followLink_nil ht hnO (by decide) hlink (hgo rfl))
    | cons m r =>
      have hm := hO' List.mem_cons_self
      exact wp_bind (wp_followLink ht (fun _ _ _ => trivial) hnO (by decide) hm
        (linkOf_eq_some hlink hm.lt) (hgo rfl))

theorem wp_touchdbChainIter {Q : α → Touchdb → Prop} (hr : Rewrites iter f g) (h : Heap B s a)
    (hC : ChainRep B s a C q)
    (hQ : ∀ t, Walk f g x B s a q t → Q (visit (renode f g) x q).1 t) :
    wp anyEvent (touchdbChainIter (B + C) iter x) Q s := by
  have hloop {p : ℕ} (hp : p = ((q.head?.map fun n => B + n.blk)).getD NULL) :=
    wp_chainIterLoop hr h hC.next hC.node hC.val hC.nodup hC.length_lt hp hQ
  unfold touchdbChainIter
  cases q with
  | nil => exact wp_bind (wp_followLink_nil h hC.chain (by decide) hC.header (hloop rfl))
  | cons n q =>
    exact wp_bind (wp_followLink h (fun _ _ _ => trivial) hC.chain (by decide)
      (hC.node n List.mem_cons_self) hC.header_cons (hloop rfl))

/-- The chain has the nodes that the callback has made. -/
theorem Walk.rep (h : Walk f g x B s a q t) (hC : ChainRep B s a C q) :
    ChainRep B t a C (visit (renode f g) x q).2 := by
  have hblk := visit_blks (f := f) (g := g) x q
  have hCq : C ∉ q.map ListNode.blk := (List.nodup_cons.mp hC.apart).1
  have hlen : (visit (renode f g) x q).2.length = q.length := by
    simpa using congrArg List.length hblk
  refine ⟨⟨?_, ?_, h.val⟩, hC.chain, ?_, ?_, fun n hn => ?_, by rw [hblk]; exact hC.apart⟩
  · rw [hblk, h.frame.field hCq hC.chain (by decide)]
    exact hC.header
  · rw [hblk]
    refine hC.next.congr fun o ho => ?_
    obtain ⟨n, hn, rfl⟩ := List.mem_map.mp ho
    exact congrArg linkOf (h.next n hn)
  · rw [hblk, h.frame.field hCq hC.chain (by decide)]
    exact hC.tail
  · rw [hlen, h.frame.field hCq hC.chain (by decide)]
    exact hC.size
  · obtain ⟨m, hm, he⟩ := List.mem_map.mp (hblk ▸ List.mem_map_of_mem hn)
    exact he ▸ hC.node m hm

/-- The walk is over one chain of a family; the others are as before. -/
theorem FamilyRep.walked {L : Prop} {cs : List ChainCells} {vs : List ValCell} {ss : List StrCell}
    {y z : ChainCells} (hf : FamilyRep L B s a (y :: cs) vs ss) (h : Walk f g x B s a y.nodes t)
    (hz : z ∈ cs) : ChainRep B t a z.blk z.nodes := by
  have hap := List.nodup_append.mp hf.apart_chain
  have hout {o : ℕ} (ho : o ∈ z.blocks) : o ∉ y.nodes.map ListNode.blk := fun hc =>
    hap.2.2 o (List.mem_cons_of_mem _ hc) o (mem_familyBlocks.mpr (.inl ⟨z, hz, ho⟩)) rfl
  exact (hf.chains z (List.mem_cons_of_mem _ hz)).chain.frame h.frame (hout List.mem_cons_self)
    fun n hn => hout (ChainCells.node_mem hn)

theorem ChainRep.queueAt (h : ChainRep B s a C q) (hh : Heap B s a) :
    QueueAt s (B + C) (q.map ListNode.val) := by
  have hnil : q.map ListNode.val = [] ↔ q = [] := List.map_eq_nil_iff
  obtain ⟨h1, h2, h3⟩ := h.ends
  exact ⟨h.toWalked.sees hh.base_eq, h1.trans hnil.symm, h2.trans hnil.symm, h3.trans hnil.symm⟩

/-- A walk over the chain at place `c` of a client. -/
theorem ClientInv.wp_iter {L : Prop} {p : ChainPlan} {r : ChainClient} {cs : List ChainCells}
    {vs : List ValCell} {ss : List StrCell} {c P : ℕ} (hi : ClientInv L B p r s a cs vs ss)
    (hr : Rewrites iter f g) (hP : r.chains[c]? = some P) :
    wp anyEvent (touchdbChainIter P iter x) (fun x' t =>
      x' = (visit (revalue f g) x (queueOf cs c)).1 ∧ ∀ d D, r.chains[d]? = some D → QueueAt t D
        (Function.update (queueOf cs) c (visit (revalue f g) x (queueOf cs c)).2 d)) s := by
  rw [hi.chains, List.getElem?_map] at hP
  obtain ⟨y, hy, rfl⟩ := Option.map_eq_some_iff.mp hP
  have hff := hi.family.front hy
  have hY := (hff.chains y List.mem_cons_self).chain
  obtain ⟨h1, h2⟩ := visit_vals (f := f) (g := g) x y.nodes
  refine wp_touchdbChainIter hr hff.heap hY fun t ht => ⟨?_, fun d D hD => ?_⟩
  · rw [queueOf_eq hy]
    exact h1
  · rw [hi.chains, List.getElem?_map] at hD
    obtain ⟨z, hz, rfl⟩ := Option.map_eq_some_iff.mp hD
    by_cases hdc : d = c
    · subst hdc
      obtain rfl : y = z := Option.some.inj (hy.symm.trans hz)
      rw [Function.update_self, queueOf_eq hy, ChainCells.vals, ← h2]
      exact (ht.rep hY).queueAt ht.heap
    · rw [Function.update_of_ne hdc, queueOf_eq hz]
      exact (hff.walked ht (List.mem_eraseIdx_iff_getElem?.mpr ⟨d, hdc, hz⟩)).queueAt ht.heap

end

/-- After every run the iteration of a chain ends. It meets each value that waits there once, from
the oldest to the newest; what the callback writes is there afterwards, and nothing else. -/
theorem chains_iter {α : Type} (f : NewFiles) (ops : List ChainOp) (hd : Disciplined ops)
    (hf : ∀ c, .pullTail c ∉ ops) (iter : α → ℕ → M α) (next : α → TouchdbVal → α)
    (out : α → TouchdbVal → Option TouchdbVal) (hr : Rewrites iter next out) (x : α) :
    Run.Post (fun e => e = .noBlock) (runChains f ops) fun r => ∃ q, Queues r q ∧
      ∀ c p, r.1.chains[c]? = some p → ∃ t,
        (touchdbChainIter p iter x).run r.2 = .ok ((visit (revalue next out) x (q c)).1, t) ∧
        ∀ d u, r.1.chains[d]? = some u → QueueAt t u
          (Function.update q c (visit (revalue next out) x (q c)).2 d) := by
  obtain ⟨p, hp⟩ := Option.isSome_iff_exists.mp hd
  refine (runChains_inv f hp (allowed_of_fifo hf .zero)).mono fun r h => ?_
  obtain ⟨a, cs, vs, ss, hi⟩ := h
  refine ⟨_, hi.queuesAt not_false, fun c P hP => ?_⟩
  obtain ⟨_, t, l, hrun, -, rfl, ht⟩ := wp_ends (hi.wp_iter (x := x) hr hP) fun _ => id
  exact ⟨t, run_ok hrun, ht⟩

/-- A callback that counts the values, and writes an integer over each value that is not one. -/
def resetVals (x v : ℕ) : M ℕ := do
  let w ← load v Val.all
  rewrite v (if w.type = .int then none else some ⟨.int, nullAddr⟩)
  return x + 1

theorem resetVals_rewrites : Rewrites resetVals (fun x _ => x + 1)
    (fun _ w => if w.type = .int then none else some ⟨.int, nullAddr⟩) := by
  intro x v w s h
  unfold resetVals
  rw [run_bind, h]

/-- Two values, one of which is a string, in the first of two chains. -/
theorem chains_iter_reset : ∃ r, runChains .page [.newChain, .newChain, .newStr (text 3 97), .push 0 0,
      .newVal ⟨⟨.int, nullAddr⟩, by decide⟩, .push 0 1, .push 1 0] = .ok r ∧
    ∃ q, Queues r q ∧ ∀ c p, r.1.chains[c]? = some p → ∃ t,
      (touchdbChainIter p resetVals 0).run r.2 = .ok ((visit (revalue (fun x _ => x + 1)
        fun _ w => if w.type = .int then none else some ⟨.int, nullAddr⟩) 0 (q c)).1, t) ∧
      ∀ d u, r.1.chains[d]? = some u → QueueAt t u (Function.update q c (visit (revalue
        (fun x _ => x + 1) fun _ w => if w.type = .int then none else some ⟨.int, nullAddr⟩) 0 (q c)).2 d) :=
  runChains_ends (chains_iter .page _ (by decide) (by simp) resetVals _ _ resetVals_rewrites 0) (by decide)

end TouchDb
