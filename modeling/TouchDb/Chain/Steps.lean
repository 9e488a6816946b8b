import TouchDb.Chain.Moves

/-! What one call of a client does to a family of chains. -/
namespace TouchDb
open Prog Layout

/-- The values in the chain at place `c`. -/
def queueOf (cs : List ChainCells) (c : ℕ) : List TouchdbVal := (cs[c]?.map ChainCells.vals).getD []

/-- The client knows the chains and the values of a family, their kinds are as planned, and the
chains have answered as double-ended queues do. -/
structure ClientInv (L : Prop) (B : ℕ) (p : ChainPlan) (r : ChainClient) (s : Touchdb) (a : PoolAlloc)
    (cs : List ChainCells) (vs : List ValCell) (ss : List StrCell) : Prop where
  family : FamilyRep L B s a cs vs ss
  chains : r.chains = cs.map fun x => B + x.blk
  vals : r.vals = vs.map fun v => B + v.blk
  queues : p.queues = cs.map ChainCells.kinds
  kinds : p.vals = vs.map ValCell.kind
  strs : p.strs = ss.map StrCell.live
  acts : Deques.Accepts r.acts (queueOf cs)
  fifo : ¬ L → Deques.Fifo r.acts

/-- The `prev` links stay right if no node is left behind. A pull at the tail needs them. -/
def Allowed (L : Prop) (p : ChainPlan) : ChainOp → Prop
  | .pullHead c => L → (p.queues[c]?.getD []).length ≤ 1
  | .pullTail c => L ∧ (p.queues[c]?.getD []).length ≤ 1
  | _ => True

section
variable {L : Prop} {B : ℕ} {p p' : ChainPlan} {r : ChainClient} {s : Touchdb} {a : PoolAlloc}
variable {cs : List ChainCells} {vs : List ValCell} {ss : List StrCell} {x : ChainCells} {c h : ℕ}

theorem queueOf_eq (hx : cs[c]? = some x) : queueOf cs c = x.vals := by
  unfold queueOf
  rw [hx]
  rfl

theorem queueOf_set (hx : cs[c]? = some x) (y : ChainCells) :
    queueOf (cs.set c y) = Function.update (queueOf cs) c y.vals := by
  funext d
  unfold queueOf
  by_cases hd : d = c
  · subst hd
    have hlt := (List.getElem?_eq_some_iff.mp hx).1
    rw [List.getElem?_set_self hlt, Function.update_self]
    rfl
  · rw [List.getElem?_set_ne (Ne.symm hd), Function.update_of_ne hd]

theorem queueOf_append (cs : List ChainCells) (C : ℕ) : queueOf (cs ++ [⟨C, []⟩]) = queueOf cs := by
  funext d
  unfold queueOf
  rcases Nat.lt_trichotomy d cs.length with hd | rfl | hd
  · rw [List.getElem?_append_left hd]
  · simp [ChainCells.vals, ChainCells.nodes]
  · rw [List.getElem?_eq_none (by simp; omega), List.getElem?_eq_none (by omega)]

/-- What the client is told of a value that it has pulled. -/
theorem wp_readVal {o : ℕ} {Q : Option TouchdbVal → Touchdb → Prop} {G : Guard Stop Event}
    (h : Heap B s a) (ho : Owns a o sizeofVal) (hQ : Q (some (s.field (B + o) Val.all)) s) :
    wp G (readVal (B + o)) Q s := by
  unfold readVal
  rw [if_neg (ho.ptr_ne B)]
  exact wp_bind (wp_loadCell h ho (by decide) (wp_pure hQ))

theorem wp_readVal_null {Q : Option TouchdbVal → Touchdb → Prop} {G : Guard Stop Event}
    (hQ : Q none s) : wp G (readVal NULL) Q s := by
  unfold readVal
  rw [if_pos rfl]
  exact wp_pure hQ

namespace ClientInv

/-- After the step the client knows a family again. -/
def Next (L : Prop) (B : ℕ) (p : ChainPlan) (r : ChainClient) (s : Touchdb) : Prop :=
  ∃ a cs vs ss, ClientInv L B p r s a cs vs ss

theorem wp_newChain (hi : ClientInv L B p r s a cs vs ss) :
    wp served (ChainOp.newChain.run r) (Next L B { p with queues := p.queues ++ [[]] }) s := by
  unfold ChainOp.run
  apply hi.family.wp_newChain (α := ChainClient)
    (k := fun C => pure { r with chains := r.chains ++ [C] }) (fun _ => trivial) (.of_stops rfl _ _)
  intro C a' t hf _ _ _
  refine wp_pure ⟨a', cs ++ [⟨C, []⟩], vs, ss, hf, ?_, hi.vals, ?_, hi.kinds, hi.strs, ?_, hi.fifo⟩
  · simp [hi.chains]
  · simp [hi.queues, ChainCells.kinds]
  · rw [queueOf_append]
    exact hi.acts

theorem wp_newStr (hi : ClientInv L B p r s a cs vs ss) (v : Text) :
    wp served ((ChainOp.newStr v).run r) (Next L B
      { p with vals := p.vals ++ [.str p.strs.length], strs := p.strs ++ [true] }) s := by
  unfold ChainOp.run
  apply hi.family.wp_newStr (α := ChainClient)
    (k := fun V => pure { r with vals := r.vals ++ [V] }) v (fun _ => trivial) (.of_stops rfl _ _)
  intro V S D a' t hf _ _ _
  refine wp_pure ⟨a', cs, vs ++ [⟨V, .str ss.length⟩], ss ++ [⟨S, D, true⟩], hf, hi.chains, ?_,
    hi.queues, ?_, ?_, hi.acts, hi.fifo⟩
  · simp [hi.vals]
  · simp [hi.kinds, hi.strs]
  · simp [hi.strs]

theorem wp_newVal (hi : ClientInv L B p r s a cs vs ss) (w : NonStr) :
    wp served ((ChainOp.newVal w).run r) (Next L B { p with vals := p.vals ++ [.plain] }) s := by
  have hall : ∀ e, served.emits e := fun _ => trivial
  unfold ChainOp.run
  refine wp_bind ((Work.start hi.family.heap).wp_malloc (T := []) (.of_all hall) (.of_stops rfl _ [_])
    (by decide) (by decide) fun V a₁ t hV hw hF => ?_)
  have hVO : Owns a₁ V sizeofVal := hV.owns (by decide)
  refine wp_bind (hw.wp_store (.of_all hall) hV.mine hVO (by decide) fun hw' hF' => wp_pure
    ⟨a₁, cs, vs ++ [⟨V, .plain⟩], ss, ?_, hi.chains, ?_, hi.queues, ?_, hi.strs, hi.acts, hi.fifo⟩)
  · refine ((hi.family.frame hw'.heap hw'.frame (by simp)).addVal (v := ⟨V, .plain⟩)
      (hi.family.fresh hV.not_used) ⟨hVO, ?_⟩).perm (.refl _) (List.perm_append_singleton _ _).symm
    rw [field_write_same]
    exact w.2
  · simp [hi.vals]
  · simp [hi.kinds]

theorem wp_alloc (hi : ClientInv L B p r s a cs vs ss) (n : PoolSize) :
    wp served ((ChainOp.alloc n).run r) (Next L B p) s := by
  unfold ChainOp.run
  refine wp_bind ((Work.start hi.family.heap).wp_malloc (T := []) (.of_all fun _ => trivial)
    (.of_stops rfl _ [_]) n.pos n.le fun N a₁ t hN hw hF => wp_pure ⟨a₁, cs, vs, ss, ?_, hi.chains,
      hi.vals, hi.queues, hi.kinds, hi.strs, hi.acts, hi.fifo⟩)
  exact hi.family.frame hw.heap hF (by simp)

theorem wp_drop (hi : ClientInv L B p r s a cs vs ss) (h : ℕ) :
    wp served ((ChainOp.drop h).run r) (Next L B { p with vals := p.vals.eraseIdx h }) s := by
  have hall : ∀ e, served.emits e := fun _ => trivial
  rcases hv : vs[h]? with _ | v
  · have hr : r.vals[h]? = none := by simp [hi.vals, hv]
    have hp : p.vals.eraseIdx h = p.vals := by
      rw [List.eraseIdx_of_length_le]
      rw [hi.kinds, List.length_map]
      exact List.getElem?_eq_none_iff.mp hv
    simp only [ChainOp.run, hr, hp]
    exact wp_pure ⟨a, cs, vs, ss, hi⟩
  · have hr : r.vals[h]? = some (B + v.blk) := by simp [hi.vals, hv]
    simp only [ChainOp.run, hr]
    refine hi.family.wp_drop hv (fun _ => trivial) fun a' t hf _ => wp_pure
      ⟨a', cs, vs.eraseIdx h, ss, hf, hi.chains, ?_, hi.queues, ?_, hi.strs, hi.acts, hi.fifo⟩
    · simp [hi.vals, List.eraseIdx_map]
    · simp [hi.kinds, List.eraseIdx_map]

theorem chain_at (hi : ClientInv L B p r s a cs vs ss) (hx : cs[c]? = some x) :
    r.chains[c]? = some (B + x.blk) ∧ p.queues[c]? = some x.kinds := by
  simp [hi.chains, hi.queues, hx]

theorem chain_none (hi : ClientInv L B p r s a cs vs ss) (hx : cs[c]? = none) :
    r.chains[c]? = none ∧ p.queues[c]? = none := by
  simp [hi.chains, hi.queues, hx]

theorem val_at (hi : ClientInv L B p r s a cs vs ss) {v : ValCell} (hv : vs[h]? = some v) :
    r.vals[h]? = some (B + v.blk) ∧ p.vals[h]? = some v.kind := by
  simp [hi.vals, hi.kinds, hv]

theorem val_none (hi : ClientInv L B p r s a cs vs ss) (hv : vs[h]? = none) :
    r.vals[h]? = none ∧ p.vals[h]? = none := by
  simp [hi.vals, hi.kinds, hv]

theorem wp_push (hi : ClientInv L B p r s a cs vs ss) (hop : p.step (.push c h) = some p') :
    wp served ((ChainOp.push c h).run r) (Next L B p') s := by
  have hall : ∀ e, served.emits e := fun _ => trivial
  rcases hx : cs[c]? with _ | x
  · obtain ⟨h1, h2⟩ := hi.chain_none hx
    simp only [ChainPlan.step, h2, Option.some.injEq] at hop
    simp only [ChainOp.run, h1]
    exact wp_pure ⟨a, cs, vs, ss, hop ▸ hi⟩
  obtain ⟨h1, h2⟩ := hi.chain_at hx
  rcases hv : vs[h]? with _ | v
  · obtain ⟨h3, h4⟩ := hi.val_none hv
    simp only [ChainPlan.step, h2, h4, Option.some.injEq] at hop
    simp only [ChainOp.run, h1, h3]
    exact wp_pure ⟨a, cs, vs, ss, hop ▸ hi⟩
  obtain ⟨h3, h4⟩ := hi.val_at hv
  simp only [ChainPlan.step, h2, h4, Option.some.injEq] at hop
  subst hop
  have hV := hi.family.vals v (List.mem_of_getElem? hv)
  simp only [ChainOp.run, h1, h3]
  refine wp_bind (wp_loadCell hi.family.heap hV.owns (by decide) (wp_bind ?_))
  refine hi.family.wp_push hx (List.mem_of_getElem? hv) (fun _ => trivial) (.of_stops rfl _ _)
    fun N a' u hf _ _ _ => wp_pure ⟨a', cs.set c
      ⟨x.blk, x.cells ++ [⟨⟨N, s.field (B + v.blk) Val.all⟩, v.kind⟩]⟩, vs, ss, hf, ?_, hi.vals, ?_,
      hi.kinds, hi.strs, ?_, fun hl => (hi.fifo hl).snoc (by simp)⟩
  · exact hi.chains.trans (map_set_eq hx (by rfl)).symm
  · simp [hi.queues, ChainCells.kinds]
  · have hvals : ChainCells.vals ⟨x.blk, x.cells ++ [⟨⟨N, s.field (B + v.blk) Val.all⟩, v.kind⟩]⟩ =
        queueOf cs c ++ [s.field (B + v.blk) Val.all] := by
      rw [queueOf_eq hx]
      simp [ChainCells.vals, ChainCells.nodes]
    rw [queueOf_set hx, hvals]
    exact hi.acts.snoc (.push _ c _)

/-- The blocks `l` of a value of kind `k` that the plan lets a chain give away, and the strings
that are left. -/
structure Gives (B : ℕ) (s : Touchdb) (a : PoolAlloc) (ss : List StrCell) (w : TouchdbVal)
    (l : List ℕ) (ss' : List StrCell) : Prop where
  val : ValRep B s a w l
  grown : Grown ss ss'
  live : ∀ z ∈ ss', z.live → z ∈ ss
  perm : (ss.flatMap StrCell.blocks).Perm (l ++ ss'.flatMap StrCell.blocks)

theorem gives (hi : ClientInv L B p r s a cs vs ss) {w : TouchdbVal} {k : ValKind} {q : List ValKind}
    (hw : IsVal ss w k) (hop : p.pull c (some k) q = some p') :
    ∃ l ss', Gives B s a ss w l ss' ∧
      p' = ⟨p.queues.set c q, p.vals ++ [k], ss'.map StrCell.live⟩ := by
  cases k with
  | plain =>
    refine ⟨[], ss, ⟨.plain hw, .refl ss, fun _ hz _ => hz, .refl _⟩, ?_⟩
    rw [← hi.strs]
    exact (Option.some.inj hop).symm
  | str i =>
    obtain ⟨z, hz, rfl⟩ := hw
    have hps : p.strs[i]? = some z.live := by simp [hi.strs, hz]
    simp only [ChainPlan.pull, hps, Option.some.injEq] at hop
    split_ifs at hop with hl
    obtain ⟨v, hv⟩ := hi.family.strs z (List.mem_of_getElem? hz) hl
    obtain ⟨h1, h2, h3⟩ := FamilyRep.release hz hl
    refine ⟨[z.blk, z.chars], _, ⟨.str hv, h1, h2, h3⟩, ?_⟩
    rw [← Option.some.inj hop, hi.strs, List.map_set]

/-- The strings have no block of a chain. -/
theorem Gives.notMem {w : TouchdbVal} {l : List ℕ} {ss' : List StrCell} {o : ℕ}
    (h : Gives B s a ss w l ss') (hf : FamilyRep L B s a (x :: cs) vs ss) (ho : o ∈ x.blocks) : o ∉ l := by
  intro hl
  have hm : o ∈ ss.flatMap StrCell.blocks := h.perm.mem_iff.mpr (List.mem_append_left _ hl)
  obtain ⟨z, hz, hoz⟩ := List.mem_flatMap.mp hm
  exact (List.nodup_append.mp hf.apart_chain).2.2 o ho o
    (mem_familyBlocks.mpr (.inr (.inr ⟨z, hz, hoz⟩))) rfl

/-- After the value of `y` has come out of the chain at `c`. -/
theorem pulled {C R : ℕ} {y : Cell} {ys zs : List Cell} {ss' : List StrCell} {u : Touchdb} {a' : PoolAlloc} {act : Deques.Act TouchdbVal}
    (hi : ClientInv L B p r s a cs vs ss) (hx : cs[c]? = some ⟨C, zs⟩)
    (hfam : FamilyRep L B u a' (⟨C, ys⟩ :: cs.eraseIdx c) (⟨R, y.kind⟩ :: vs) ss')
    (hacts : Deques.Accepts (r.acts ++ [act]) (Function.update (queueOf cs) c (ChainCells.vals ⟨C, ys⟩)))
    (hfifo : ¬ L → Deques.Fifo (r.acts ++ [act])) (hR : B + R ≠ NULL) :
    Next L B ⟨p.queues.set c (ys.map Cell.kind), p.vals ++ [y.kind], ss'.map StrCell.live⟩
      { r with
        vals := if B + R = NULL then r.vals else r.vals ++ [B + R], acts := r.acts ++ [act] } u := by
  obtain ⟨hlc, hxc⟩ := List.getElem?_eq_some_iff.mp hx
  refine ⟨a', cs.set c ⟨C, ys⟩, vs ++ [⟨R, y.kind⟩], ss', ?_, ?_, ?_, ?_, ?_, rfl, ?_, hfifo⟩
  · exact hfam.perm (List.set_perm_cons_eraseIdx hlc _).symm (List.perm_append_singleton _ _).symm
  · exact hi.chains.trans (map_set_eq hx (by rfl)).symm
  · rw [if_neg hR]
    simp [hi.vals]
  · simp [hi.queues, ChainCells.kinds]
  · simp [hi.kinds]
  · rw [queueOf_set hx]
    exact hacts

theorem wp_pullHead (hi : ClientInv L B p r s a cs vs ss) (hop : p.step (.pullHead c) = some p')
    (hL : Allowed L p (.pullHead c)) :
    wp served ((ChainOp.pullHead c).run r) (Next L B p') s := by
  have hall : ∀ e, served.emits e := fun _ => trivial
  rcases hx : cs[c]? with _ | ⟨C, ys⟩
  · obtain ⟨h1, h2⟩ := hi.chain_none hx
    simp only [ChainPlan.step, h2, Option.some.injEq] at hop
    simp only [ChainOp.run, h1]
    exact wp_pure ⟨a, cs, vs, ss, hop ▸ hi⟩
  obtain ⟨h1, h2⟩ := hi.chain_at hx
  simp only [ChainPlan.step, h2] at hop
  have hf := hi.family.front hx
  have hX := hf.chains _ List.mem_cons_self
  simp only [ChainOp.run, h1]
  cases ys with
  | nil =>
    refine wp_bind (wp_touchdbChainPullHead_nil hf.heap hX.chain (wp_bind (wp_readVal_null (wp_pure
      ⟨a, cs, vs, ss, hi.family, hi.chains, ?_, ?_, ?_, ?_, hi.acts.pullHead_nil (queueOf_eq hx),
        fun hl => (hi.fifo hl).snoc (by simp)⟩))))
    all_goals obtain rfl := Option.some.inj hop
    · rw [if_pos rfl]
      exact hi.vals
    · exact hi.queues
    · exact hi.kinds
    · exact hi.strs
  | cons y ys =>
    obtain ⟨l, ss', hg, rfl⟩ := hi.gives (hX.kinds y List.mem_cons_self) hop
    have hlen : L → ys = [] := fun hl => by
      have h3 := hL hl
      rw [h2] at h3
      simp only [ChainCells.kinds, Option.getD_some, List.map_cons, List.length_cons, List.length_map]
        at h3
      exact List.length_eq_zero_iff.mp (by omega)
    refine wp_bind (wp_touchdbChainPullHead hf.heap hX.chain hg.val
      ⟨hg.notMem hf (ChainCells.node_mem List.mem_cons_self), hg.notMem hf List.mem_cons_self⟩
      (fun m hm => hg.notMem hf (ChainCells.node_mem (List.mem_cons_of_mem _ hm))) (.of_all hall)
      (.of_stops rfl _ _) (List.mem_singleton_self _) fun R u a' hp hr => wp_bind (wp_readVal hp.heap hp.result
        (wp_pure (hi.pulled hx (hf.pull hp hr hlen hg.grown hg.live hg.perm) ?_
          (fun hl => (hi.fifo hl).snoc (by simp)) (hp.result.ptr_ne B)))))
    rw [hp.val]
    exact hi.acts.pullHead_cons (queueOf_eq hx)

theorem wp_pullTail (hi : ClientInv L B p r s a cs vs ss) (hop : p.step (.pullTail c) = some p')
    (hL : Allowed L p (.pullTail c)) :
    wp served ((ChainOp.pullTail c).run r) (Next L B p') s := by
  have hall : ∀ e, served.emits e := fun _ => trivial
  rcases hx : cs[c]? with _ | ⟨C, ys⟩
  · obtain ⟨h1, h2⟩ := hi.chain_none hx
    simp only [ChainPlan.step, h2, Option.some.injEq] at hop
    simp only [ChainOp.run, h1]
    exact wp_pure ⟨a, cs, vs, ss, hop ▸ hi⟩
  obtain ⟨h1, h2⟩ := hi.chain_at hx
  simp only [ChainPlan.step, h2] at hop
  have hf := hi.family.front hx
  have hX := hf.chains _ List.mem_cons_self
  obtain ⟨hl, hlen⟩ := hL
  simp only [h2, ChainCells.kinds, Option.getD_some, List.length_map] at hlen
  simp only [ChainOp.run, h1]
  rcases ys with _ | ⟨y, _ | ⟨z, ys⟩⟩
  · refine wp_bind (wp_touchdbChainPullTail_nil hf.heap hX.chain (wp_bind (wp_readVal_null (wp_pure
      ⟨a, cs, vs, ss, hi.family, hi.chains, ?_, ?_, ?_, ?_, hi.acts.pullTail_nil (queueOf_eq hx),
        fun hn => absurd hl hn⟩))))
    all_goals obtain rfl := Option.some.inj hop
    · rw [if_pos rfl]
      exact hi.vals
    · exact hi.queues
    · exact hi.kinds
    · exact hi.strs
  · obtain ⟨l, ss', hg, rfl⟩ := hi.gives (hX.kinds y List.mem_cons_self) hop
    refine wp_bind (wp_touchdbChainPullTail (q := []) hf.heap hX.chain (hX.prev hl).1
      hg.val ⟨hg.notMem hf (ChainCells.node_mem List.mem_cons_self), hg.notMem hf List.mem_cons_self⟩ hall
      (.of_stops rfl _ _) fun R u a' hp hr _ => wp_bind (wp_readVal hp.heap hp.result (wp_pure
        (hi.pulled hx (hf.pull hp (hr rfl) (fun _ => (rfl : ([] : List Cell) = [])) hg.grown hg.live
          hg.perm) ?_
          (fun hn => absurd hl hn) (hp.result.ptr_ne B)))))
    rw [hp.val]
    exact hi.acts.pullTail_concat (queueOf_eq hx)
  · simp only [List.length_cons] at hlen
    omega

/-- The struct that a search of a chain returns is that of the node. -/
theorem nth_nodes (q : List ListNode) (i : ℤ) :
    Deques.nth (q.map ListNode.val) i = (Deques.nth q i).map ListNode.val := Deques.nth_map ListNode.val q i

theorem wp_nodeIdx (hi : ClientInv L B p r s a cs vs ss) (i : ChainIdx) :
    wp served ((ChainOp.nodeIdx c i).run r) (Next L B p) s := by
  rcases hx : cs[c]? with _ | x
  · simp only [ChainOp.run, (hi.chain_none hx).1]
    exact wp_pure ⟨a, cs, vs, ss, hi⟩
  have hX := (hi.family.chains x (List.mem_of_getElem? hx)).chain
  simp only [ChainOp.run, (hi.chain_at hx).1]
  refine wp_bind (wp_touchdbChainNodeIdx hi.family.heap (fun _ _ _ => trivial) hX i.lt (wp_bind ?_))
  have hacts := hi.acts.snoc (.nth _ c i.idx.toInt)
  rw [queueOf_eq hx, ChainCells.vals, nth_nodes] at hacts
  rcases hn : Deques.nth x.nodes i.idx.toInt with _ | n
  · rw [hn] at hacts
    exact wp_readVal_null (wp_pure ⟨a, cs, vs, ss, hi.family, hi.chains, hi.vals, hi.queues, hi.kinds,
      hi.strs, hacts,
      fun hl => (hi.fifo hl).snoc (by simp)⟩)
  · have hmem : n ∈ x.nodes := by
      unfold Deques.nth at hn
      split_ifs at hn
      exact List.mem_of_getElem? hn
    have hO := hX.node n hmem
    have hB := hi.family.heap.base_pos'
    rw [hn] at hacts
    unfold readVal
    rw [if_neg (by simp only [valPtr, NULL]; omega)]
    refine wp_bind (wp_load_shift (by omega) (wp_loadCell hi.family.heap hO (by decide) (wp_pure
      (wp_pure ⟨a, cs, vs, ss, hi.family, hi.chains, hi.vals, hi.queues, hi.kinds,
        hi.strs, ?_,
        fun hl => (hi.fifo hl).snoc (by simp)⟩))))
    have hv : s.field (B + n.blk) (⟨ChainNode.val.off + Val.all.off⟩ : Field TouchdbVal) = n.val :=
      hX.val n hmem
    rw [hv]
    exact hacts

theorem wp_size (hi : ClientInv L B p r s a cs vs ss) :
    wp served ((ChainOp.size c).run r) (Next L B p) s := by
  rcases hx : cs[c]? with _ | x
  · simp only [ChainOp.run, (hi.chain_none hx).1]
    exact wp_pure ⟨a, cs, vs, ss, hi⟩
  have hX := (hi.family.chains x (List.mem_of_getElem? hx)).chain
  simp only [ChainOp.run, (hi.chain_at hx).1]
  refine wp_bind (wp_touchdbChainSize hi.family.heap hX (wp_pure
    ⟨a, cs, vs, ss, hi.family, hi.chains, hi.vals, hi.queues, hi.kinds,
        hi.strs, ?_,
        fun hl => (hi.fifo hl).snoc (by simp)⟩))
  have hacts := hi.acts.snoc (.length _ c)
  rw [queueOf_eq hx, ChainCells.vals, List.length_map] at hacts
  rw [Int32.toInt_ofNat_of_lt hX.length_lt_word]
  exact hacts

/-- Each call keeps the family, if it is one that the plan has and that leaves the links right. -/
theorem wp_run {op : ChainOp} (hi : ClientInv L B p r s a cs vs ss) (hop : p.step op = some p')
    (hL : Allowed L p op) : wp served (op.run r) (Next L B p') s := by
  cases op with
  | newChain => exact Option.some.inj hop ▸ hi.wp_newChain
  | newStr v => exact Option.some.inj hop ▸ hi.wp_newStr v
  | newVal w => exact Option.some.inj hop ▸ hi.wp_newVal w
  | alloc n => exact Option.some.inj hop ▸ hi.wp_alloc n
  | drop h => exact Option.some.inj hop ▸ hi.wp_drop h
  | push c h => exact hi.wp_push hop
  | pullHead c => exact hi.wp_pullHead hop hL
  | pullTail c => exact hi.wp_pullTail hop hL
  | nodeIdx c i => exact Option.some.inj hop ▸ hi.wp_nodeIdx i
  | size c => exact Option.some.inj hop ▸ hi.wp_size

end ClientInv

end

end TouchDb
