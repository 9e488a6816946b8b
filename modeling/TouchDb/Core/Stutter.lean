import TouchDb.Core.Lockstep
import Mathlib.Data.List.ReduceOption

/-! Two machines in step, where some of the steps of the first are idle for the second. -/

namespace Run
open Prog
variable {ε ε' ω ω' σ τ α ι κ γ : Type}

/-- What the steps of a run answer, and the state that it ends in or the reason that it stops for. -/
def history (step : ι → Prog ε ω σ α) : List ι → σ → List α × Except ε σ
  | [], s => ([], .ok s)
  | op :: ops, s =>
    match (step op).run s with
    | .error e => ([], .error e)
    | .ok (a, t) => (a :: (history step ops t).1, (history step ops t).2)

theorem history_ok {step : ι → Prog ε ω σ α} {op : ι} {s t : σ} {a : α} (ops : List ι)
    (h : (step op).run s = .ok (a, t)) :
    history step (op :: ops) s = (a :: (history step ops t).1, (history step ops t).2) := by
  rw [history, h]

theorem history_error {step : ι → Prog ε ω σ α} {op : ι} {s : σ} {e : ε} (ops : List ι)
    (h : (step op).run s = .error e) : history step (op :: ops) s = ([], .error e) := by
  rw [history, h]

theorem next_of_run (c : Prog ε ω σ α) (s : σ) : c.next s = (c.run s).map Prod.snd := by
  unfold next run
  rcases c s with e | ⟨a, t, l⟩ <;> rfl

/-- The state that a run ends in. -/
theorem history_end (step : ι → Prog ε ω σ α) (ops : List ι) (s : σ) :
    (history step ops s).2 = exec (fun op => (step op).next) ops s := by
  induction ops generalizing s with
  | nil => rfl
  | cons op ops ih =>
    unfold exec
    rcases hr : (step op).run s with e | ⟨a, t⟩
    · rw [history_error ops hr, next_of_run, hr]
      rfl
    · rw [history_ok ops hr, next_of_run, hr]
      exact ih t

/-- Steps that change nothing may be left out of a run that ends: the others answer as before. -/
theorem history_filter {step : ι → Prog ε ω σ α} {keep : ι → Bool}
    (h : ∀ op, keep op = false → ∀ s a t, (step op).run s = .ok (a, t) → t = s) (ops : List ι)
    {s t : σ} (he : (history step ops s).2 = .ok t) : history step (ops.filter keep) s =
      (((ops.zip (history step ops s).1).filter fun x => keep x.1).map Prod.snd, .ok t) := by
  induction ops generalizing s with
  | nil => exact congrArg (([], ·)) he
  | cons op ops ih =>
    rcases hr : (step op).run s with e | ⟨a, u⟩
    · rw [history_error ops hr] at he
      cases he
    · rw [history_ok ops hr] at he ⊢
      have h1 := ih he
      rw [List.zip_cons_cons]
      by_cases hk : keep op = true
      · rw [List.filter_cons_of_pos hk, history_ok _ hr, h1]
        simp [hk]
      · obtain rfl := h op (by simpa using hk) s a u hr
        rw [List.filter_cons_of_neg hk, h1]
        simp [hk]

/-- Two runs that end in related states, or stop for the same reason. -/
inductive SameEnd (E : ε' → ε) (R : σ → τ → Prop) : Except ε σ → Except ε' τ → Prop
  | ok {s t} (h : R s t) : SameEnd E R (.ok s) (.ok t)
  | error (e : ε') : SameEnd E R (.error (E e)) (.error e)

theorem SameEnd.mono {E : ε' → ε} {R S : σ → τ → Prop} {x : Except ε σ} {y : Except ε' τ}
    (h : SameEnd E R x y) (hRS : ∀ s t, R s t → S s t) : SameEnd E S x y := by
  cases h with
  | ok h => exact .ok (hRS _ _ h)
  | error e => exact .error e

/-- Two steps that give one answer, or stop for the same reason. -/
inductive SameStep (E : ε' → ε) (R : σ → τ → Prop) :
    Except ε (Option α × σ) → Except ε' (α × τ) → Prop
  | ok {s t} (a : α) (h : R s t) : SameStep E R (.ok (some a, s)) (.ok (a, t))
  | error (e : ε') : SameStep E R (.error (E e)) (.error e)

/-- The steps that the second machine takes. What it sees of a step depends on the steps before. -/
def trail (move : γ → ι → γ) (seen : γ → ι → Option κ) : γ → List ι → List κ
  | _, [] => []
  | c, op :: ops => (seen c op).toList ++ trail move seen (move c op) ops

/-- A step that is seen is a step of both machines; any other is idle. -/
structure Mimics (E : ε' → ε) (Allowed : ι → Prop) (move : γ → ι → γ) (seen : γ → ι → Option κ)
    (R : γ → σ → τ → Prop) (step : ι → Prog ε ω σ (Option α)) (step' : κ → Prog ε' ω' τ α) :
    Prop where
  idle : ∀ c op s t, Allowed op → R c s t → seen c op = none →
    ∃ u, (step op).run s = .ok (none, u) ∧ R (move c op) u t
  same : ∀ c op k s t, Allowed op → R c s t → seen c op = some k →
    SameStep E (R (move c op)) ((step op).run s) ((step' k).run t)

/-- Both runs give the same answers, and come to the same end. -/
theorem Mimics.history {E : ε' → ε} {Allowed : ι → Prop} {move : γ → ι → γ}
    {seen : γ → ι → Option κ} {R : γ → σ → τ → Prop} {step : ι → Prog ε ω σ (Option α)}
    {step' : κ → Prog ε' ω' τ α} (h : Mimics E Allowed move seen R step step') {ops : List ι}
    (ha : ∀ op ∈ ops, Allowed op) {c : γ} {s : σ} {t : τ} (hR : R c s t) :
    (history step ops s).1.reduceOption = (history step' (trail move seen c ops) t).1 ∧
      SameEnd E (R (ops.foldl move c)) (history step ops s).2
        (history step' (trail move seen c ops) t).2 := by
  induction ops generalizing c s t with
  | nil => exact ⟨rfl, .ok hR⟩
  | cons op ops ih =>
    have hop := ha op List.mem_cons_self
    have hops : ∀ x ∈ ops, Allowed x := fun x hx => ha x (List.mem_cons_of_mem _ hx)
    unfold trail
    rcases hs : seen c op with _ | k
    · obtain ⟨u, hu, hR'⟩ := h.idle c op s t hop hR hs
      rw [history_ok ops hu]
      exact ih hops hR'
    · have h1 := h.same c op k s t hop hR hs
      generalize hx : (step op).run s = x at h1
      generalize hy : (step' k).run t = y at h1
      cases h1 with
      | error e =>
        rw [history_error ops hx]
        change _ = (Run.history step' (k :: trail move seen (move c op) ops) t).1 ∧ SameEnd E _ _
          (Run.history step' (k :: trail move seen (move c op) ops) t).2
        rw [history_error _ hy]
        exact ⟨rfl, .error e⟩
      | ok a hR' =>
        rw [history_ok ops hx]
        change _ = (Run.history step' (k :: trail move seen (move c op) ops) t).1 ∧ SameEnd E _ _
          (Run.history step' (k :: trail move seen (move c op) ops) t).2
        rw [history_ok _ hy]
        obtain ⟨h1, h2⟩ := ih hops hR'
        exact ⟨congrArg (a :: ·) h1, h2⟩

end Run
