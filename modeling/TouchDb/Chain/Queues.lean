import TouchDb.Chain.Costs
import TouchDb.Chain.Steps

/-! Runs of clients on a new pool: without pulls at the tail, the chains are queues. -/
namespace TouchDb
open Prog Layout

/-- Every call of the run leaves the links right, as far as `L` asks for it. -/
def AllowedRun (L : Prop) : List ChainOp → ChainPlan → Prop
  | [], _ => True
  | op :: ops, p => Allowed L p op ∧ ∀ p', p.step op = some p' → AllowedRun L ops p'

section
variable {L : Prop} {B : ℕ} {p p' : ChainPlan} {r : ChainClient} {s : Touchdb} {a : PoolAlloc}
variable {cs : List ChainCells} {vs : List ValCell} {ss : List StrCell} {ops : List ChainOp}

theorem ClientInv.Next.run (h : ClientInv.Next L B p r s) (hp : ChainPlan.run ops p = some p')
    (hL : AllowedRun L ops p) :
    Run.Post (fun e => e = .noBlock) (Run.exec ChainRun.step ops (r, s)) fun x =>
      ClientInv.Next L B p' x.1 x.2 := by
  induction ops generalizing p r s with
  | nil =>
    obtain rfl : p = p' := Option.some.inj hp
    exact h
  | cons op ops ih =>
    obtain ⟨hop, hL⟩ := hL
    obtain ⟨p₁, hp₁, hp⟩ := Option.bind_eq_some_iff.mp hp
    obtain ⟨a, cs, vs, ss, hi⟩ := h
    have h1 : Run.Post (fun e => e = .noBlock) (ChainRun.step op (r, s)) fun x =>
        ClientInv.Next L B p₁ x.1 x.2 := .of_wp_run (hi.wp_run hp₁ hop) fun _ h => h
    simp only [Run.exec]
    rcases hs : ChainRun.step op (r, s) with e | ⟨r', s'⟩
    · rwa [hs] at h1
    · rw [hs] at h1
      exact ih h1 hp (hL p₁ hp₁)

/-- A new pool has no chains. -/
theorem runChains_start (f : NewFiles) :
    ∃ s, (touchdbPoolInit 0 f.ptr false).next f.db = .ok s ∧
      ClientInv.Next L f.ptr .zero .zero s := by
  have hw := wp_touchdbPoolInit (G := anyEvent) (s := f.db) (j := 0)
    (by simp [PoolIdxOk, NewFiles.db, Touchdb.zero, touchdbPoolListSize]) f.pos fun _ => trivial
  obtain ⟨_, s, hs, hr, hb, -, -⟩ := next_ends hw fun _ h => h
  refine ⟨s, hs, freshAlloc, [], [], [], ⟨⟨hr, hb⟩, by simp, by simp, by simp,
    by simp [familyBlocks]⟩, rfl, rfl, rfl, rfl, rfl, ?_, ?_⟩
  · have hq : queueOf [] = fun _ => [] := by
      funext c
      rfl
    rw [hq]
    exact .nil
  · intro _ c r hm
    cases hm

theorem runChains_inv (f : NewFiles) (hp : ChainPlan.run ops .zero = some p)
    (hL : AllowedRun L ops .zero) :
    Run.Post (fun e => e = .noBlock) (runChains f ops) fun x => ClientInv.Next L f.ptr p x.1 x.2 := by
  obtain ⟨s, hs, h⟩ := runChains_start (L := L) f
  unfold runChains
  rw [hs]
  exact h.run hp hL

/-- A run that has room for its blocks ends. -/
theorem runChains_ends {f : NewFiles} {P : ChainRun → Prop}
    (h : Run.Post (fun e => e = .noBlock) (runChains f ops) P)
    (hroom : chainsRoom ops ≤ touchdbDefaultPoolSize) : ∃ r, runChains f ops = .ok r ∧ P r :=
  h.ends (runChains_supplied f ops hroom)

theorem ChainPlan.run_append (xs ys : List ChainOp) (p : ChainPlan) :
    ChainPlan.run (xs ++ ys) p = (ChainPlan.run xs p).bind (ChainPlan.run ys) := by
  induction xs generalizing p with
  | nil => rfl
  | cons op xs ih =>
    simp only [List.cons_append, ChainPlan.run, Option.bind_assoc]
    exact congrArg _ (funext ih)

theorem Disciplined.of_append {xs ys : List ChainOp} (h : Disciplined (xs ++ ys)) : Disciplined xs := by
  unfold Disciplined at *
  rw [ChainPlan.run_append] at h
  obtain ⟨p, hp⟩ := Option.isSome_iff_exists.mp h
  obtain ⟨p₁, hp₁, -⟩ := Option.bind_eq_some_iff.mp hp
  rw [hp₁]
  rfl

theorem runChains_append {f : NewFiles} {xs ys : List ChainOp} {x : ChainRun}
    (h : runChains f (xs ++ ys) = .ok x) :
    ∃ m, runChains f xs = .ok m ∧ Run.exec ChainRun.step ys m = .ok x := by
  unfold runChains at *
  obtain ⟨s, hs, -⟩ := runChains_start (L := False) f
  rw [hs] at h ⊢
  exact Run.exec_append_ok h

theorem allowed_of_fifo (h : ∀ c, .pullTail c ∉ ops) (p : ChainPlan) : AllowedRun False ops p := by
  induction ops generalizing p with
  | nil => trivial
  | cons op ops ih =>
    refine ⟨?_, fun p' _ => ih (fun c hc => h c (List.mem_cons_of_mem _ hc)) p'⟩
    cases op with
    | pullTail c => exact absurd List.mem_cons_self (h c)
    | pullHead c => exact fun hf => hf.elim
    | _ => trivial

end

/-- The chain at `p` has the values `l`, and its record says in three ways whether there are any. -/
structure QueueAt (s : Touchdb) (p : ℕ) (l : List TouchdbVal) : Prop where
  sees : Sees s p l
  header : (s.field p Chain.header).offset = NIL ↔ l = []
  tail : (s.field p Chain.tail).offset = NIL ↔ l = []
  size : s.field p Chain.size = 0 ↔ l = []

/-- What the chains have answered is what queues answer, every value that was pushed has been
pulled in its turn or waits, and each chain has the values that wait in it. -/
structure Queues (r : ChainRun) (q : ℕ → List TouchdbVal) : Prop where
  acts : Deques.Accepts r.1.acts q
  order : ∀ c, Deques.pushed c r.1.acts = Deques.pulled c r.1.acts ++ q c
  chains : ∀ c p, r.1.chains[c]? = some p → QueueAt r.2 p (q c)

theorem ClientInv.queuesAt {L : Prop} {B : ℕ} {p : ChainPlan} {r : ChainClient} {s : Touchdb}
    {a : PoolAlloc} {cs : List ChainCells} {vs : List ValCell} {ss : List StrCell} (hi : ClientInv L B p r s a cs vs ss)
    (hL : ¬ L) : Queues (r, s) (queueOf cs) where
  acts := hi.acts
  order c := hi.acts.fifo (hi.fifo hL) c
  chains c p hp := by
    rw [hi.chains, List.getElem?_map] at hp
    obtain ⟨x, hx, rfl⟩ := Option.map_eq_some_iff.mp hp
    have hX := (hi.family.chains x (List.mem_of_getElem? hx)).chain
    have hnil : x.vals = [] ↔ x.nodes = [] := List.map_eq_nil_iff
    obtain ⟨h1, h2, h3⟩ := hX.ends
    rw [queueOf_eq hx]
    exact ⟨hX.toWalked.sees hi.family.heap.base_eq, h1.trans hnil.symm, h2.trans hnil.symm,
      h3.trans hnil.symm⟩

/-- Chains are queues, whatever else happens in their pool: in every run without pulls at the
tail in which no pull takes a string that another one has released. -/
theorem chains_queues (f : NewFiles) (ops : List ChainOp) (hd : Disciplined ops)
    (hf : ∀ c, .pullTail c ∉ ops) :
    Run.Post (fun e => e = .noBlock) (runChains f ops) fun r => ∃ q, Queues r q := by
  obtain ⟨p, hp⟩ := Option.isSome_iff_exists.mp hd
  refine (runChains_inv f hp (allowed_of_fifo hf .zero)).mono fun r h => ?_
  obtain ⟨a, cs, vs, ss, hi⟩ := h
  exact ⟨_, hi.queuesAt not_false⟩

/-- Two chains, one of which is emptied and filled again. -/
theorem chains_queues_two : ∃ r, runChains .page [.newChain, .newChain, .newStr (text 3 97), .push 0 0,
      .pullHead 0, .newStr (text 5 98), .newVal ⟨⟨.int, nullAddr⟩, by decide⟩, .push 1 3, .push 0 2,
      .push 0 3] = .ok r ∧ ∃ q, Queues r q :=
  runChains_ends (chains_queues .page _ (by decide) (by simp)) (by decide)

end TouchDb
