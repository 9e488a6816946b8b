import TouchDb.Store.Costs
import TouchDb.Store.KeyedSteps
import TouchDb.Chain.Queues

/-! Runs of clients on a new store: the lists are queues, each under its key. -/
namespace TouchDb
open Prog Layout

/-- What the lists have answered is what queues answer, and what was pushed under a key since a string
was last put there has been popped in its turn or waits. The store finds the queue of a key, and
faults where the bucket has no key. -/
structure ListsOk (r : KeyedRun) (p : KeyedPlan) (q : Text → Option (List TouchdbVal)) : Prop where
  acts : KeyedQueues.Accepts r.1.acts q
  order : ∀ k, KeyedQueues.pushed k (KeyedQueues.since k r.1.acts) =
    KeyedQueues.popped k (KeyedQueues.since k r.1.acts) ++ (q k).getD []
  lists : ∀ k l, q k = some l → ∃ c, (getChain k.1).run r.2 = .ok (c, r.2) ∧ QueueAt r.2 c l
  others : ∀ k, q k = none →
    (getChain k.1).run r.2 = if p.ready k then .ok (NULL, r.2) else .error .fault

section
variable {B : ℕ} {p p' : KeyedPlan} {r : KeyedClient} {s : Touchdb} {a : PoolAlloc} {ix : Index}
variable {ls : KeyedChains} {vs : List ValCell} {ss : List StrCell} {ops : List KeyedOp} {k : Text}

/-- A search that cannot stop. -/
theorem run_getChain {Q : ℕ → Prop} (h : wp anyEvent (getChain k.1) (fun c t => t = s ∧ Q c) s) :
    ∃ c, (getChain k.1).run s = .ok (c, s) ∧ Q c := by
  obtain ⟨c, t, l, hc, -, rfl, hq⟩ := wp_ends h fun _ h => h
  exact ⟨c, run_ok hc, hq⟩

theorem KeyedInv.listsOk (hi : KeyedInv B p r s a ix ls vs ss) :
    ListsOk (r, s) p (KeyedQueues.table ChainCells.vals ls) where
  acts := hi.acts
  order := hi.acts.order
  lists k l hl := by
    obtain ⟨x, hx, rfl⟩ := Option.map_eq_some_iff.mp hl
    have hxm := List.of_mem_dlookup (Option.mem_def.mpr hx)
    obtain ⟨e, he, -⟩ := hi.rep.named.entry _ hxm
    have hno : k ∈ ls.keys := List.mem_keys_of_mem hxm
    obtain ⟨c, hc, rfl⟩ := run_getChain (Q := fun c => c = B + x.blk)
      (hi.rep.wp_getChain (fun _ _ _ => trivial) (bucket_ne_nil he)
        (fun y hy => ⟨rfl, by rw [Option.some.inj (hx.symm.trans hy)]⟩) fun h => absurd hno h)
    have hX := (hi.rep.family.chains x (List.mem_map_of_mem hxm)).chain
    have hnil : x.vals = [] ↔ x.nodes = [] := List.map_eq_nil_iff
    obtain ⟨h1, h2, h3⟩ := hX.ends
    exact ⟨_, hc, hX.toWalked.sees hi.rep.family.heap.base_eq, h1.trans hnil.symm, h2.trans hnil.symm,
      h3.trans hnil.symm⟩
  others k hk := by
    have hno : ls.dlookup k = none := Option.map_eq_none_iff.mp hk
    split_ifs with hready
    · obtain ⟨c, hc, rfl⟩ := run_getChain (Q := fun c => c = NULL)
        (hi.rep.wp_getChain (fun _ _ _ => trivial) ((hi.ready_iff k).mp hready)
          (fun x hx => by rw [hno] at hx; cases hx) fun _ => ⟨rfl, rfl⟩)
      exact hc
    · have hempty : ix.bucket (ix.bucketOf k.1) = [] := by
        by_contra hne
        exact hready ((hi.ready_iff k).mpr hne)
      have hrun := getEntry_empty hi.rep.family.heap hi.rep.index hempty
      unfold getChain touchdbMapGet2
      rw [run_bind, run_bind, hrun]

theorem KeyedInv.Next.run (h : KeyedInv.Next B p r s) (hp : KeyedPlan.run ops p = some p') :
    Run.Post (fun e => e = .noBlock) (Run.exec KeyedRun.step ops (r, s)) fun x =>
      KeyedInv.Next B p' x.1 x.2 := by
  induction ops generalizing p r s with
  | nil =>
    obtain rfl : p = p' := Option.some.inj hp
    exact h
  | cons op ops ih =>
    obtain ⟨p₁, hp₁, hp⟩ := Option.bind_eq_some_iff.mp hp
    obtain ⟨a, ix, ls, vs, ss, hi⟩ := h
    have h1 : Run.Post (fun e => e = .noBlock) (KeyedRun.step op (r, s)) fun x =>
        KeyedInv.Next B p₁ x.1 x.2 := .of_wp_run (hi.wp_run hp₁) fun _ h => h
    simp only [Run.exec]
    rcases hs : KeyedRun.step op (r, s) with e | ⟨r', s'⟩
    · rwa [hs] at h1
    · rw [hs] at h1
      exact ih h1 hp

/-- A new store has no lists. -/
theorem runKeyed_start (f : NewFiles) : Run.Post (fun e => e = .noBlock) ((touchdbNew f.ptr).next f.db)
    fun s => KeyedInv.Next f.ptr .zero .zero s := by
  refine .of_wp (G := served) (P := fun _ s => KeyedInv.Next f.ptr .zero .zero s)
    (wp_touchdbNew (fun _ => trivial) (.of_stops rfl _ _) fun tbl a u _ hu hm => ?_) (fun _ h => h)
    fun _ _ h => h
  have hf : FamilyRep False f.ptr u a [] [] [] :=
    ⟨hu, by simp, by simp, by simp, by simp [familyBlocks]⟩
  have hn : Named (fun e => u.field (f.ptr + e.blk) MapEntry.val) (Index.empty tbl 10 (by decide)) [] :=
    ⟨List.nodupKeys_nil, by simp, by simp [Index.find, Index.empty]⟩
  exact ⟨a, _, [], [], [], ⟨hf, hm, by simp [familyBlocks, KeyedChains.cells], hn⟩, rfl,
    by simp [Index.empty, KeyedPlan.zero], rfl, rfl, rfl, .nil, by simp [Texts, KeyedPlan.zero], .nil⟩

end

/-- In every run on a new store in which each list call finds a key in its bucket, and no pop takes a
string that another one has released, the lists of the store are queues, whatever is put beside
them. -/
theorem lists_queues (f : NewFiles) (ops : List KeyedOp) {p : KeyedPlan}
    (hp : KeyedPlan.run ops .zero = some p) :
    Run.Post (fun e => e = .noBlock) (runKeyed f ops) fun r => ∃ q, ListsOk r p q := by
  have h : Run.Post (fun e => e = .noBlock) (runKeyed f ops) fun x => KeyedInv.Next f.ptr p x.1 x.2 := by
    have hnew := runKeyed_start f
    unfold runKeyed
    rcases hs : (touchdbNew f.ptr).next f.db with e | s
    · rwa [hs] at hnew
    · rw [hs] at hnew
      exact KeyedInv.Next.run hnew hp
  exact h.mono fun r ⟨_, _, _, _, _, hi⟩ => ⟨_, hi.listsOk⟩

/-- A list takes the place of a string, is emptied in part, and gives way to a string. -/
theorem lists_queues_one : ∃ p r, runKeyed .page [.put (text 1 97) (text 1 120), .newStr (text 3 97),
    .newVal ⟨⟨.int, nullAddr⟩, by decide⟩, .push (text 1 97) 0, .push (text 1 97) 1, .size (text 1 97),
    .pop (text 1 97), .putStr (text 1 97) (text 2 98), .pop (text 1 97)] = .ok r ∧
      ∃ q, ListsOk r p q := by
  have h := lists_queues .page [.put (text 1 97) (text 1 120), .newStr (text 3 97),
    .newVal ⟨⟨.int, nullAddr⟩, by decide⟩, .push (text 1 97) 0, .push (text 1 97) 1, .size (text 1 97),
    .pop (text 1 97), .putStr (text 1 97) (text 2 98), .pop (text 1 97)] (Option.some_get (by decide)).symm
  exact ⟨_, h.ends (runKeyed_supplied .page _ (by decide))⟩

end TouchDb
