import TouchDb.Core.Prog

/-! Two programs in lockstep: from related states both stop for the same reason, or both end
with related values in related states. -/

namespace Prog
variable {ε ω σ α β γ δ : Type}

/-- Two runs agree. -/
inductive Agree (R : σ → σ → Prop) (V : α → β → Prop) :
    Except ε (α × σ) → Except ε (β × σ) → Prop
  | ok {a b s t} (hV : V a b) (hR : R s t) : Agree R V (.ok (a, s)) (.ok (b, t))
  | error (e : ε) : Agree R V (.error e) (.error e)

theorem Agree.mono {R S : σ → σ → Prop} {V W : α → β → Prop} {x : Except ε (α × σ)}
    {y : Except ε (β × σ)} (h : Agree R V x y) (hV : ∀ a b, V a b → W a b)
    (hR : ∀ s t, R s t → S s t) : Agree S W x y := by
  cases h with
  | ok hv hr => exact .ok (hV _ _ hv) (hR _ _ hr)
  | error e => exact .error e

def Lockstep (R : σ → σ → Prop) (V : α → β → Prop) (c : Prog ε ω σ α) (d : Prog ε ω σ β) :
    Prop := ∀ s t, R s t → Agree R V (c.run s) (d.run t)

theorem run_error {c : Prog ε ω σ α} {s : σ} {e : ε} {l : List ω} (h : c s = .error (e, l)) :
    c.run s = .error e := by
  unfold run
  rw [h]

namespace Lockstep
variable {R : σ → σ → Prop} {U : α → β → Prop} {V : γ → δ → Prop}
  {c : Prog ε ω σ α} {d : Prog ε ω σ β}

/-- Both programs end. -/
theorem agree_ok {a : α} {b : β} {s t s' t' : σ} {l l' : List ω} (hc : c s = .ok (a, s', l))
    (hd : d t = .ok (b, t', l')) (hV : U a b) (hR : R s' t') : Agree R U (c.run s) (d.run t) := by
  rw [run_ok hc, run_ok hd]
  exact .ok hV hR

/-- Both programs stop. -/
theorem agree_error {e : ε} {s t : σ} {l l' : List ω} (hc : c s = .error (e, l))
    (hd : d t = .error (e, l')) : Agree R U (c.run s) (d.run t) := by
  rw [run_error hc, run_error hd]
  exact .error e

theorem pure {a : α} {b : β} (h : U a b) :
    Lockstep R U (Pure.pure a : Prog ε ω σ α) (Pure.pure b) := by
  intro s t hst
  exact .ok h hst

theorem stop (e : ε) : Lockstep R U (Prog.stop e : Prog ε ω σ α) (Prog.stop e) := by
  intro s t _
  exact .error e

theorem update {f g : σ → σ} {ev ev' : σ → List ω} (h : ∀ s t, R s t → R (f s) (g t)) :
    Lockstep R Eq (Prog.update f ev : Prog ε ω σ Unit) (Prog.update g ev') := by
  intro s t hst
  exact .ok rfl (h s t hst)

theorem bind {f : α → Prog ε ω σ γ} {g : β → Prog ε ω σ δ} (h : Lockstep R U c d)
    (hfg : ∀ a b, U a b → Lockstep R V (f a) (g b)) : Lockstep R V (c >>= f) (d >>= g) := by
  intro s t hst
  have h1 := h s t hst
  rw [run_bind, run_bind]
  generalize c.run s = x at h1 ⊢
  generalize d.run t = y at h1 ⊢
  cases h1 with
  | error e => exact .error e
  | ok hU hR => exact hfg _ _ hU _ _ hR

/-- Sequencing where both first programs give the same value. -/
theorem bind_eq {c d : Prog ε ω σ α} {f : α → Prog ε ω σ γ} {g : α → Prog ε ω σ δ}
    (h : Lockstep R Eq c d) (hfg : ∀ a, Lockstep R V (f a) (g a)) :
    Lockstep R V (c >>= f) (d >>= g) := by
  apply h.bind
  rintro a b rfl
  exact hfg a

theorem ite {p q : Prop} [Decidable p] [Decidable q] {c' : Prog ε ω σ α} {d' : Prog ε ω σ β}
    (hpq : p ↔ q) (ht : p → q → Lockstep R U c d) (hf : ¬ p → ¬ q → Lockstep R U c' d') :
    Lockstep R U (if p then c else c') (if q then d else d') := by
  by_cases hp : p
  · have hq := hpq.mp hp
    rw [if_pos hp, if_pos hq]
    exact ht hp hq
  · have hq : ¬ q := fun hq => hp (hpq.mpr hq)
    rw [if_neg hp, if_neg hq]
    exact hf hp hq

theorem mono {W : α → β → Prop} (h : Lockstep R U c d) (hUW : ∀ a b, U a b → W a b) :
    Lockstep R W c d := by
  intro s t hst
  exact (h s t hst).mono hUW fun _ _ hR => hR

end Lockstep
end Prog

namespace Run
open Prog
variable {ε ω σ α β ι : Type}

/-- What each step of a run comes to, up to the first that stops. -/
def results (step : ι → Prog ε ω σ α) : List ι → σ → List (Except ε (α × σ))
  | [], _ => []
  | op :: ops, s =>
    match (step op).run s with
    | .error e => [.error e]
    | .ok (a, t) => .ok (a, t) :: results step ops t

/-- Runs whose steps are in lockstep agree after each step. -/
theorem results_lockstep {R : σ → σ → Prop} {V : α → β → Prop} {step : ι → Prog ε ω σ α}
    {step' : ι → Prog ε ω σ β} (h : ∀ op, Lockstep R V (step op) (step' op)) (ops : List ι) :
    ∀ s t, R s t → List.Forall₂ (Agree R V) (results step ops s) (results step' ops t) := by
  induction ops with
  | nil => exact fun _ _ _ => .nil
  | cons op ops ih =>
    intro s t hst
    have h1 := h op s t hst
    unfold results
    generalize (step op).run s = x at h1 ⊢
    generalize (step' op).run t = y at h1 ⊢
    cases h1 with
    | error e => exact .cons (.error e) .nil
    | ok hV hR => exact .cons (.ok hV hR) (ih _ _ hR)

end Run
