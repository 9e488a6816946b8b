import TouchDb.Chain.Queues
import Mathlib.Data.List.Induction

/-! Chains from both ends. A pull repairs one end of the chain only, so that the next node, if
there is one, keeps a link to the node that has been released. -/
namespace TouchDb
open Prog Layout

/-- The chain at `p` is a list of nodes in use, linked both ways, with the values `l`. -/
structure DequeAt (s : Touchdb) (p : ℕ) (l : List TouchdbVal) (ns : List ℕ) : Prop where
  header : linkOf (s.field p Chain.header) = ns.head?
  tail : linkOf (s.field p Chain.tail) = ns.getLast?
  next : Linked (nodeNext (s.base 0) s) ns
  prev : Linked (nodePrev (s.base 0) s) ns.reverse
  vals : ns.map (fun o => s.field (s.base 0 + o) ChainNode.val) = l
  size : (s.field p Chain.size).toInt = ns.length
  used : ∀ o ∈ ns, Allocated s o touchdbChainNodeSize

/-- What the chains have answered is what double-ended queues answer, every value that was pushed
has been pulled once or is still there, and each chain is linked both ways. -/
structure BothEnds (r : ChainRun) (q : ℕ → List TouchdbVal) : Prop where
  acts : Deques.Accepts r.1.acts q
  once : ∀ c, (Deques.pushed c r.1.acts).Perm (Deques.pulled c r.1.acts ++ q c)
  chains : ∀ c p, r.1.chains[c]? = some p → ∃ ns, DequeAt r.2 p (q c) ns

/-- Every pull finds one value in its chain at most. -/
def PullsLast (ops : List ChainOp) : Prop := AllowedRun True ops .zero

section
variable {L : Prop} {B : ℕ} {p p' : ChainPlan} {r : ChainClient} {s u : Touchdb} {a a' : PoolAlloc}
variable {cs : List ChainCells} {vs : List ValCell} {ss : List StrCell} {ops : List ChainOp}

theorem ClientInv.bothEnds (hi : ClientInv True B p r s a cs vs ss) : BothEnds (r, s) (queueOf cs) where
  acts := hi.acts
  once c := hi.acts.perm c
  chains c p hp := by
    rw [hi.chains, List.getElem?_map] at hp
    obtain ⟨x, hx, rfl⟩ := Option.map_eq_some_iff.mp hp
    have hX := hi.family.chains x (List.mem_of_getElem? hx)
    have hB := hi.family.heap.base_eq
    refine ⟨x.nodes.map ListNode.blk, hX.chain.header, hX.chain.tail, by rw [hB]; exact hX.chain.next,
      by rw [hB]; exact hX.prev trivial, ?_, ?_, fun o ho => ?_⟩
    · rw [queueOf_eq hx, List.map_map, hB]
      exact List.map_congr_left hX.chain.val
    · rw [hX.chain.size, Int32.toInt_ofNat_of_lt hX.chain.length_lt_word, List.length_map]
    · obtain ⟨n, hn, rfl⟩ := List.mem_map.mp ho
      exact hi.family.heap.allocated_iff.mpr (hX.chain.node n hn)

/-- The list from which a chain that is linked both ways is read. -/
theorem DequeAt.reaches {l : List TouchdbVal} {ns : List ℕ} {C o : ℕ} (h : DequeAt u (B + C) l ns)
    (hB : u.base 0 = B)
    (ho : Linked.Reaches (nodeNext B u) (linkOf (u.field (B + C) Chain.header)) o) : o ∈ ns := by
  have hnext := h.next
  rw [hB] at hnext
  rw [h.header] at ho
  exact hnext.reaches_iff.mp ho

/-- The new first node still points to the old one. -/
theorem wp_pullHead_leaves {c C : ℕ} {y z : Cell} {ys : List Cell} (hi : ClientInv True B p r s a cs vs ss)
    (hx : cs[c]? = some ⟨C, y :: z :: ys⟩) (hop : p.step (.pullHead c) = some p') :
    wp served ((ChainOp.pullHead c).run r) (fun r' u => ∀ q, ¬ BothEnds (r', u) q) s := by
  have hall : ∀ e, served.emits e := fun _ => trivial
  obtain ⟨h1, h2⟩ := hi.chain_at hx
  simp only [ChainPlan.step, h2] at hop
  have hf := hi.family.front hx
  have hX := hf.chains _ List.mem_cons_self
  obtain ⟨l, ss', hg, -⟩ := hi.gives (hX.kinds y List.mem_cons_self) hop
  have hzO := hX.chain.node z.node (by simp [ChainCells.nodes])
  simp only [ChainOp.run, h1]
  refine wp_bind (wp_touchdbChainPullHead hf.heap hX.chain hg.val ⟨hg.notMem hf (ChainCells.node_mem List.mem_cons_self),
      hg.notMem hf List.mem_cons_self⟩
    (fun m hm => hg.notMem hf (ChainCells.node_mem (List.mem_cons_of_mem _ hm))) (.of_all hall)
    (.of_stops rfl _ _) (List.mem_singleton_self _) fun R u a' hp hr => wp_bind (wp_readVal hp.heap hp.result
      (wp_pure fun q hq => ?_)))
  obtain ⟨ns, hd⟩ := hq.chains c (B + C) h1
  have hB := hp.heap.base_eq
  have hnext := hd.next
  have hprev := hd.prev
  rw [hB] at hnext hprev
  obtain rfl : ns = ((z :: ys).map Cell.node).map ListNode.blk :=
    hnext.unique hr.next (hd.header.symm.trans hr.header)
  have hnone : nodePrev B u z.node.blk = none := hprev.last (by simp)
  have hold : nodePrev B s z.node.blk = some y.node.blk := by
    have h3 := hX.prev trivial
    simp only [ChainCells.nodes, List.map_cons, List.reverse_cons, List.append_assoc, List.cons_append,
      List.nil_append] at h3
    exact h3.right.1
  have hT : z.node.blk ∉ C :: y.node.blk :: l := by
    have hz : z.node ∈ ChainCells.nodes ⟨C, y :: z :: ys⟩ := by simp [ChainCells.nodes]
    have hne := (List.nodup_cons.mp hX.chain.nodup).1
    simp only [List.mem_cons, not_or]
    refine ⟨hX.chain.blk_ne hz, fun hc => hne ?_, hg.notMem hf (ChainCells.node_mem hz)⟩
    rw [← hc]
    exact List.mem_cons_self
  have hkeep : nodePrev B u z.node.blk = nodePrev B s z.node.blk :=
    congrArg linkOf (hp.frame.field hT hzO (by decide))
  rw [hkeep, hold] at hnone
  cases hnone

/-- The new last node still points to the old one. -/
theorem wp_pullTail_leaves {c C : ℕ} {y : Cell} {ys : List Cell} (hi : ClientInv True B p r s a cs vs ss)
    (hx : cs[c]? = some ⟨C, ys ++ [y]⟩) (hne : ys ≠ []) (hop : p.step (.pullTail c) = some p') :
    wp served ((ChainOp.pullTail c).run r) (fun r' u => ∀ q, ¬ BothEnds (r', u) q) s := by
  have hall : ∀ e, served.emits e := fun _ => trivial
  obtain ⟨h1, h2⟩ := hi.chain_at hx
  have hk : ChainCells.kinds ⟨C, ys ++ [y]⟩ = ys.map Cell.kind ++ [y.kind] := by
    simp [ChainCells.kinds]
  simp only [ChainPlan.step, h2, hk, List.getLast?_concat, List.dropLast_concat] at hop
  have hf := hi.family.front hx
  have hX := hf.chains _ List.mem_cons_self
  obtain ⟨l, ss', hg, -⟩ := hi.gives (hX.kinds y (by simp)) hop
  have hn : ChainCells.nodes ⟨C, ys ++ [y]⟩ = ys.map Cell.node ++ [y.node] := by
    simp [ChainCells.nodes]
  have hchain := hX.chain
  have hprev := hX.prev trivial
  have hbl {n : ListNode} (hm : n ∈ ys.map Cell.node ++ [y.node]) : n.blk ∉ l :=
    hg.notMem hf (ChainCells.node_mem (hn ▸ hm))
  rw [hn] at hchain hprev
  have hlast : nodePrev B s y.node.blk = ((ys.map Cell.node).map ListNode.blk).getLast? := by
    rw [List.map_append, List.reverse_append] at hprev
    exact hprev.1.trans List.head?_reverse
  simp only [ChainOp.run, h1]
  refine wp_bind (wp_touchdbChainPullTail hf.heap hchain hlast hg.val
    ⟨hbl (by simp), hg.notMem hf List.mem_cons_self⟩ hall (.of_stops rfl _ _) fun R u a' hp _ hkeep =>
      wp_bind (wp_readVal hp.heap hp.result (wp_pure fun q hq => ?_)))
  obtain ⟨ns, hd⟩ := hq.chains c (B + C) h1
  -- the old last node can still be reached from the header
  have hreach : Linked.Reaches (nodeNext B u) (linkOf (u.field (B + C) Chain.header)) y.node.blk := by
    have hnext := hchain.next
    rw [hkeep (by simpa using hne), hchain.header]
    rw [List.map_append] at hnext ⊢
    refine hnext.reaches_last fun o ho => ?_
    obtain ⟨n, hn', rfl⟩ := List.mem_map.mp ho
    have hmem : n ∈ ys.map Cell.node ++ [y.node] := List.mem_append_left _ hn'
    have hnd := hchain.nodup
    rw [List.map_append, List.nodup_append] at hnd
    refine congrArg linkOf (hp.frame.field ?_ (hchain.node n hmem) (by decide))
    simp only [List.mem_cons, not_or]
    exact ⟨hchain.blk_ne hmem, hnd.2.2 _ ho _ (by simp), hbl hmem⟩
  have hused := hp.heap.allocated_iff.mp (hd.used _ (hd.reaches hp.heap.base_eq hreach))
  exact ((hp.used _).mp hused.used).2 List.mem_cons_self

/-- A pull that leaves a value behind leaves a chain that is not linked as it should be. -/
theorem wp_run_leaves {op : ChainOp} (hi : ClientInv True B p r s a cs vs ss)
    (hop : p.step op = some p') (hno : ¬ Allowed True p op) :
    wp served (op.run r) (fun r' u => ∀ q, ¬ BothEnds (r', u) q) s := by
  have hchain {c : ℕ} (h : ¬ (p.queues[c]?.getD []).length ≤ 1) :
      ∃ C ys, cs[c]? = some ⟨C, ys⟩ ∧ 1 < ys.length := by
    rcases hx : cs[c]? with _ | ⟨C, ys⟩
    · rw [(hi.chain_none hx).2] at h
      exact absurd (Nat.zero_le 1) h
    · rw [(hi.chain_at hx).2] at h
      simp only [ChainCells.kinds, Option.getD_some, List.length_map] at h
      exact ⟨C, ys, rfl, by omega⟩
  cases op with
  | pullHead c =>
    obtain ⟨C, ys, hx, hlen⟩ := hchain fun hle => hno fun _ => hle
    obtain _ | ⟨y, _ | ⟨z, ys⟩⟩ := ys
    · exact absurd hlen (by simp)
    · exact absurd hlen (by simp)
    · exact wp_pullHead_leaves hi hx hop
  | pullTail c =>
    obtain ⟨C, ys, hx, hlen⟩ := hchain fun hle => hno ⟨trivial, hle⟩
    rcases List.eq_nil_or_concat ys with rfl | ⟨ys, y, rfl⟩
    · exact absurd hlen (by simp)
    · rw [List.concat_eq_append] at hx hlen
      refine wp_pullTail_leaves hi hx ?_ hop
      rintro rfl
      exact absurd hlen (by simp)
  | _ => exact absurd trivial hno

theorem allowedRun_append (xs ys : List ChainOp) :
    AllowedRun L (xs ++ ys) p ↔
      AllowedRun L xs p ∧ ∀ p', ChainPlan.run xs p = some p' → AllowedRun L ys p' := by
  induction xs generalizing p with
  | nil =>
    constructor
    · intro h
      refine ⟨trivial, fun p' hp => ?_⟩
      obtain rfl := Option.some.inj hp
      exact h
    · intro h
      exact h.2 p rfl
  | cons op xs ih =>
    constructor
    · rintro ⟨h1, h2⟩
      refine ⟨⟨h1, fun p₁ hp₁ => (ih.mp (h2 p₁ hp₁)).1⟩, fun p' hp => ?_⟩
      obtain ⟨p₁, hp₁, hp⟩ := Option.bind_eq_some_iff.mp hp
      exact (ih.mp (h2 p₁ hp₁)).2 p' hp
    · rintro ⟨⟨h1, h2⟩, h3⟩
      refine ⟨h1, fun p₁ hp₁ => ih.mpr ⟨h2 p₁ hp₁, fun p' hp => h3 p' ?_⟩⟩
      exact Option.bind_eq_some_iff.mpr ⟨p₁, hp₁, hp⟩

end

/-- In a run whose pulls leave no value behind, and take no string that another one has released,
the chains are double-ended queues. -/
theorem runChains_bothEnds {f : NewFiles} {ops : List ChainOp} {r : ChainRun} (hd : Disciplined ops)
    (hl : PullsLast ops) (hr : runChains f ops = .ok r) : ∃ q, BothEnds r q := by
  obtain ⟨p, hp⟩ := Option.isSome_iff_exists.mp hd
  obtain ⟨a, cs, vs, ss, hi⟩ := (runChains_inv f hp hl).ok hr
  exact ⟨_, hi.bothEnds⟩

/-- A pull that leaves a value behind spoils the chain. -/
theorem runChains_leaves {f : NewFiles} {pre : List ChainOp} {op : ChainOp} {r : ChainRun}
    (hd : Disciplined (pre ++ [op])) (hl : PullsLast pre) (hno : ¬ PullsLast (pre ++ [op]))
    (hr : runChains f (pre ++ [op]) = .ok r) : ∀ q, ¬ BothEnds r q := by
  obtain ⟨m, hm, hstep⟩ := runChains_append hr
  obtain ⟨p', hp'⟩ := Option.isSome_iff_exists.mp hd
  rw [ChainPlan.run_append] at hp'
  obtain ⟨p, hp, hop⟩ := Option.bind_eq_some_iff.mp hp'
  obtain ⟨p₁, hop, -⟩ := Option.bind_eq_some_iff.mp hop
  obtain ⟨a, cs, vs, ss, hi⟩ := (runChains_inv f hp hl).ok hm
  have hnot : ¬ Allowed True p op := by
    intro ha
    refine hno ((allowedRun_append pre [op]).mpr ⟨hl, fun q hq => ⟨?_, fun _ _ => trivial⟩⟩)
    obtain rfl : p = q := Option.some.inj (hp.symm.trans hq)
    exact ha
  have hw : Run.Post (fun e => e = .noBlock) (ChainRun.step op m) fun x => ∀ q, ¬ BothEnds x q :=
    .of_wp_run (wp_run_leaves hi hop hnot) fun _ h => h
  refine hw.ok ?_
  simp only [Run.exec] at hstep
  rcases hc : ChainRun.step op m with e | x
  · rw [hc] at hstep
    cases hstep
  · rw [hc] at hstep
    exact hstep

/-- Every state of a run in which no pull takes a string that another one has released is one
of double-ended queues if and only if no pull leaves a value behind in its chain. -/
theorem chains_bothEnds_iff (f : NewFiles) (ops : List ChainOp) (hd : Disciplined ops) :
    (∀ pre post r, ops = pre ++ post → runChains f pre = .ok r → ∃ q, BothEnds r q) ↔
      ∀ pre post r, ops = pre ++ post → runChains f pre = .ok r → PullsLast pre := by
  constructor
  · intro h pre
    induction pre using List.reverseRecOn with
    | nil => exact fun _ _ _ _ => trivial
    | append_singleton pre op ih =>
      intro post r heq hr
      obtain ⟨m, hm, -⟩ := runChains_append hr
      have hl := ih ([op] ++ post) m (by rw [heq, List.append_assoc]) hm
      by_contra hno
      obtain ⟨q, hq⟩ := h (pre ++ [op]) post r heq hr
      exact runChains_leaves (Disciplined.of_append (heq ▸ hd)) hl hno hr q hq
  · intro h pre post r heq hr
    exact runChains_bothEnds (Disciplined.of_append (heq ▸ hd)) (h pre post r heq hr) hr

/-- A value that is pushed after another one has been pulled, and pulled at the tail. -/
def pushAgain : List ChainOp := [.newChain, .newStr (text 3 98), .push 0 0, .pullHead 0,
  .newVal ⟨⟨.int, addrOf 0⟩, by decide⟩, .push 0 2, .pullTail 0]

theorem chains_bothEnds_iff_last : (∃ r, runChains .page pushAgain = .ok r) ∧
    ((∀ pre post r, pushAgain = pre ++ post → runChains .page pre = .ok r → ∃ q, BothEnds r q) ↔
      ∀ pre post r, pushAgain = pre ++ post → runChains .page pre = .ok r → PullsLast pre) := by
  refine ⟨?_, chains_bothEnds_iff .page _ (by decide)⟩
  obtain ⟨p, hp⟩ := Option.isSome_iff_exists.mp (show Disciplined pushAgain by decide)
  have hL : AllowedRun True pushAgain .zero := by
    simp [pushAgain, AllowedRun, Allowed, ChainPlan.step, ChainPlan.pull, ChainPlan.zero]
  obtain ⟨r, hr, -⟩ := runChains_ends (runChains_inv .page hp hL) (by decide)
  exact ⟨r, hr⟩

/-- Two values are pushed and one is pulled: the node that is left points back to the node that
has been released. -/
theorem chains_bothEnds_fails : ∃ r, runChains .page [.newChain,
      .newVal ⟨⟨.int, nullAddr⟩, by decide⟩, .push 0 0, .push 0 0, .pullHead 0] = .ok r ∧
    ∀ q, ¬ BothEnds r q := by
  obtain ⟨p, hp⟩ := Option.isSome_iff_exists.mp (show Disciplined [.newChain,
    .newVal ⟨⟨.int, nullAddr⟩, by decide⟩, .push 0 0, .push 0 0, .pullHead 0] by decide)
  obtain ⟨r, hr, -⟩ := runChains_ends (runChains_inv .page hp (allowed_of_fifo (by simp) .zero)) (by decide)
  refine ⟨r, hr, @runChains_leaves _ [.newChain, .newVal ⟨⟨.int, nullAddr⟩, by decide⟩,
    .push 0 0, .push 0 0] _ _ (by decide) ?_ ?_ hr⟩
  · simp [PullsLast, AllowedRun, Allowed]
  · simp [PullsLast, AllowedRun, Allowed, ChainPlan.step, ChainPlan.zero]

end TouchDb
