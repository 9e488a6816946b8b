import TouchDb.Chain.Queues

/-! Readers of a chain during a push or a pull: at every point between two stores they meet the
values before the call or those after it. -/
namespace TouchDb
open Prog Layout

/-- At every point of the call `op` on the chain at `p`, its readers meet the values `old` or
`new`; these are the values before the call, and those after it if it returns. -/
structure SeenOr (r : ChainRun) (op : ChainOp) (p : ℕ) (old new : List TouchdbVal) : Prop where
  before : Sees r.2 p old
  after : ∀ t, (op.run r.1).next r.2 = .ok t → Sees t p new
  between : ∀ pre post, (op.run r.1).trace r.2 = pre ++ post →
    Sees (viewAt r.2 pre) p old ∨ Sees (viewAt r.2 pre) p new

/-- The calls that change a chain as a queue. -/
def ChainOp.changes (c : ℕ) : ChainOp → Prop
  | .push d _ => d = c
  | .pullHead d => d = c
  | _ => False

/-- Readers of each chain that the call changes meet the old values or the new ones. -/
def ListSafe (r : ChainRun) (op : ChainOp) : Prop :=
  ∀ c p, r.1.chains[c]? = some p → op.changes c → ∃ old new, SeenOr r op p old new

/-- Every store leaves the old values or the new ones in sight. -/
def seeing (p : ℕ) (old new : List TouchdbVal) : Guard Stop Event :=
  ⟨fun _ => True, fun e => ∀ u, e.after = some u → Sees u p old ∨ Sees u p new⟩

section
variable {L : Prop} {B : ℕ} {p p' : ChainPlan} {r : ChainClient} {s u : Touchdb} {a a' : PoolAlloc}
variable {cs : List ChainCells} {vs : List ValCell} {ss : List StrCell} {op : ChainOp} {c h : ℕ}

theorem showing_seeing (p : ℕ) (old new : List TouchdbVal) :
    Showing (seeing p old new) p [old, new] := by
  intro e he u hu
  obtain ⟨l, hl, hs⟩ := he u hu
  rcases List.mem_pair.mp hl with rfl | rfl
  · exact .inl hs
  · exact .inr hs

theorem seenOr_of_wp {x : ℕ} {old : List TouchdbVal} (new : List TouchdbVal) (hs : Sees s x old)
    (hw : wp (seeing x old new) (op.run r) (fun _ t => Sees t x new) s) :
    SeenOr (r, s) op x old new := by
  refine ⟨hs, fun t ht => ?_, fun pre post hpre => ?_⟩
  · have hp : Run.Post (fun _ => True) ((op.run r).next s) fun t => Sees t x new :=
      .of_wp hw (fun _ _ => trivial) fun _ _ h => h
    exact hp.ok ht
  · rcases viewAt_cases s pre with hv | ⟨e, he, hv⟩
    · exact .inl ((congrArg (Sees · x old) hv).mpr hs)
    · refine wp_trace hw e ?_ _ hv
      rw [hpre]
      exact List.mem_append_left _ he

theorem ClientInv.push_seenOr {x : ChainCells} (hi : ClientInv L B p r s a cs vs ss)
    (hx : cs[c]? = some x) : ∃ old new, SeenOr (r, s) (.push c h) (B + x.blk) old new := by
  have hX := (hi.family.chains x (List.mem_of_getElem? hx)).chain
  have hsee := hX.toWalked.sees hi.family.heap.base_eq
  have h1 := (hi.chain_at hx).1
  rcases hv : vs[h]? with _ | v
  · refine ⟨_, _, seenOr_of_wp x.vals hsee ?_⟩
    simp only [ChainOp.run, h1, (hi.val_none hv).1]
    exact wp_pure hsee
  · have hV := (hi.family.vals v (List.mem_of_getElem? hv)).owns
    refine ⟨x.vals, x.vals ++ [s.field (B + v.blk) Val.all], seenOr_of_wp _ hsee ?_⟩
    simp only [ChainOp.run, h1, (hi.val_at hv).1]
    refine wp_bind (wp_loadCell hi.family.heap hV (by decide) (wp_bind ?_))
    refine wp_touchdbChainPushTail hi.family.heap hX hV (showing_seeing _ _ _) (.of_stops trivial _ _)
      List.mem_cons_self (List.mem_cons_of_mem _ List.mem_cons_self) fun N u a' hp => wp_pure ?_
    have hnew := hp.rep.toWalked.sees hp.heap.base_eq
    rwa [List.map_append] at hnew

theorem ClientInv.pullHead_seenOr {x : ChainCells} (hi : ClientInv L B p r s a cs vs ss)
    (hx : cs[c]? = some x) (hop : p.step (.pullHead c) = some p') :
    ∃ old new, SeenOr (r, s) (.pullHead c) (B + x.blk) old new := by
  obtain ⟨C, ys⟩ := x
  have hf := hi.family.front hx
  have hX := hf.chains _ List.mem_cons_self
  have hsee := hX.chain.toWalked.sees hi.family.heap.base_eq
  obtain ⟨h1, h2⟩ := hi.chain_at hx
  cases ys with
  | nil =>
    refine ⟨_, _, seenOr_of_wp [] hsee ?_⟩
    simp only [ChainOp.run, h1]
    exact wp_bind (wp_touchdbChainPullHead_nil hf.heap hX.chain (wp_bind (wp_readVal_null (wp_pure hsee))))
  | cons y ys =>
    simp only [ChainPlan.step, h2] at hop
    obtain ⟨l, ss', hg, -⟩ := hi.gives (hX.kinds y List.mem_cons_self) hop
    refine ⟨_, _, seenOr_of_wp ((ys.map Cell.node).map ListNode.val) hsee ?_⟩
    simp only [ChainOp.run, h1]
    exact wp_bind (wp_touchdbChainPullHead hf.heap hX.chain hg.val
      ⟨hg.notMem hf (ChainCells.node_mem List.mem_cons_self), hg.notMem hf List.mem_cons_self⟩
      (fun m hm => hg.notMem hf (ChainCells.node_mem (List.mem_cons_of_mem _ hm)))
      (showing_seeing _ _ _) (.of_stops trivial _ _) (List.mem_cons_of_mem _ List.mem_cons_self)
      fun R u a' hp hr => wp_bind (wp_readVal hp.heap hp.result
        (wp_pure (hr.toWalked.sees hp.heap.base_eq))))

theorem ClientInv.listSafe (hi : ClientInv L B p r s a cs vs ss) (hop : p.step op = some p') :
    ListSafe (r, s) op := by
  intro c q hq hc
  rw [hi.chains, List.getElem?_map] at hq
  obtain ⟨x, hx, rfl⟩ := Option.map_eq_some_iff.mp hq
  cases op with
  | push d h =>
    obtain rfl : d = c := hc
    exact hi.push_seenOr hx
  | pullHead d =>
    obtain rfl : d = c := hc
    exact hi.pullHead_seenOr hx hop
  | _ => exact hc.elim

end

/-- In every run without pulls at the tail in which no pull takes a string that another one has
released, readers meet the old list or the new one at every point of every call. -/
theorem runChains_listSafe (f : NewFiles) (ops : List ChainOp) (op : ChainOp)
    (hd : Disciplined (ops ++ [op])) (hf : ∀ c, .pullTail c ∉ ops) :
    Run.Post (fun e => e = .noBlock) (runChains f ops) fun r => ListSafe r op := by
  obtain ⟨p', hp'⟩ := Option.isSome_iff_exists.mp hd
  rw [ChainPlan.run_append] at hp'
  obtain ⟨p, hp, hop⟩ := Option.bind_eq_some_iff.mp hp'
  obtain ⟨p₁, hop, -⟩ := Option.bind_eq_some_iff.mp hop
  refine (runChains_inv f hp (allowed_of_fifo hf .zero)).mono fun r h => ?_
  obtain ⟨a, cs, vs, ss, hi⟩ := h
  exact hi.listSafe hop

/-- A string is pulled while another value waits behind it. -/
theorem runChains_listSafe_pull : ∃ r, runChains .page [.newChain, .newStr (text 3 97),
      .newVal ⟨⟨.int, nullAddr⟩, by decide⟩, .push 0 0, .push 0 1] = .ok r ∧ ListSafe r (.pullHead 0) :=
  runChains_ends (runChains_listSafe .page _ (.pullHead 0) (by decide) (by simp)) (by decide)

/-- A string that has been popped is pushed again, and popped again: its characters are released
once more, although a node has taken their place by then. The next push gets that node, and links
it to itself. -/
def popTwice : List ChainOp := [.newChain, .newStr (text 27 97), .push 0 0, .pullHead 0,
  .alloc ⟨12, by decide, by decide⟩, .newVal ⟨⟨.int, nullAddr⟩, by decide⟩, .push 0 2, .push 0 1,
  .pullHead 0, .push 0 2, .pullHead 0]

/-- The header of the chain leads to a node that points to itself. -/
def circular (s : Touchdb) (p : ℕ) : Bool :=
  (linkOf (s.field p Chain.header)).any fun o => nodeNext (s.base 0) s o == some o

theorem not_sees_of_circular {s : Touchdb} {p : ℕ} (h : circular s p) (l : List TouchdbVal) :
    ¬ Sees s p l := by
  rintro ⟨ns, hhead, hns, -⟩
  unfold circular at h
  rcases ho : linkOf (s.field p Chain.header) with _ | o
  · simp [ho] at h
  · rw [ho] at h hhead
    exact hns.head_ne_of_loop (by simpa using h) hhead.symm

/-- The call returns, and leaves the first chain circular. -/
def ChainRun.loops (r : ChainRun) (op : ChainOp) : Bool :=
  match (op.run r.1).next r.2 with
  | .ok t => r.1.chains.head?.any (circular t)
  | .error _ => false

theorem ChainRun.not_listSafe_of_loops {r : ChainRun} {h : ℕ} (hl : r.loops (.push 0 h)) :
    ¬ ListSafe r (.push 0 h) := by
  intro hsafe
  unfold ChainRun.loops at hl
  split at hl
  · rename_i t ht
    obtain ⟨p, hp, hcirc⟩ := Option.any_eq_true _ _ |>.mp hl
    obtain ⟨old, new, hs⟩ := hsafe 0 p (List.head?_eq_getElem? ▸ hp) rfl
    exact not_sees_of_circular hcirc new (hs.after t ht)
  · cases hl

set_option maxRecDepth 100000 in
theorem runChains_listSafe_fails :
    ∃ r, runChains .page popTwice = .ok r ∧ ¬ ListSafe r (.push 0 2) := by
  have hl : (runChains .page popTwice).toOption.any (·.loops (.push 0 2)) := by decide +kernel
  obtain ⟨r, hr, hl⟩ := Option.any_eq_true _ _ |>.mp hl
  refine ⟨r, ?_, r.not_listSafe_of_loops hl⟩
  rcases hrun : runChains .page popTwice with e | r'
  · rw [hrun] at hr
    cases hr
  · rw [hrun] at hr
    cases hr
    rfl

end TouchDb
