import Mathlib.Data.List.Basic

/-! Programs over an explicit state, with a reason to stop and a trace of events, and
their weakest preconditions. A postcondition speaks of the value and the final state;
the guard of a weakest precondition bounds the events emitted on the way and the
reasons a program may stop for. -/

/-- A program either stops for a reason `ε` or ends with a value and the next state; in both
cases it has emitted events, oldest first. -/
def Prog (ε ω σ α : Type) : Type := σ → Except (ε × List ω) (α × σ × List ω)

namespace Prog
variable {ε ω σ α β : Type}

protected def pure (a : α) : Prog ε ω σ α := fun s => .ok (a, s, [])

protected def bind (c : Prog ε ω σ α) (f : α → Prog ε ω σ β) : Prog ε ω σ β := fun s =>
  match c s with
  | .error e => .error e
  | .ok (a, s₁, l₁) =>
    match f a s₁ with
    | .error (e, l₂) => .error (e, l₁ ++ l₂)
    | .ok (b, s₂, l₂) => .ok (b, s₂, l₁ ++ l₂)

instance : Monad (Prog ε ω σ) where
  pure := Prog.pure
  bind := Prog.bind

def stop (e : ε) : Prog ε ω σ α := fun _ => .error (e, [])

def get : Prog ε ω σ σ := fun s => .ok (s, s, [])

/-- Change the state and emit the events that the new state determines. -/
def update (f : σ → σ) (ev : σ → List ω) : Prog ε ω σ Unit := fun s => .ok ((), f s, ev (f s))

/-- The value and the next state, without the events. -/
def run (c : Prog ε ω σ α) (s : σ) : Except ε (α × σ) :=
  match c s with
  | .error (e, _) => .error e
  | .ok (a, t, _) => .ok (a, t)

/-- The next state alone. -/
def next (c : Prog ε ω σ α) (s : σ) : Except ε σ :=
  match c s with
  | .error (e, _) => .error e
  | .ok (_, t, _) => .ok t

/-- The events of a run, whether it ends or not. -/
def trace (c : Prog ε ω σ α) (s : σ) : List ω :=
  match c s with
  | .error (_, l) => l
  | .ok (_, _, l) => l

theorem bind_eq (c : Prog ε ω σ α) (f : α → Prog ε ω σ β) (s : σ) :
    (c >>= f) s = match c s with
      | .error e => .error e
      | .ok (a, s₁, l₁) =>
        match f a s₁ with
        | .error (e, l₂) => .error (e, l₁ ++ l₂)
        | .ok (b, s₂, l₂) => .ok (b, s₂, l₁ ++ l₂) := rfl

/-- The two stretches of a sequence that ended. -/
theorem bind_ok {c : Prog ε ω σ α} {f : α → Prog ε ω σ β} {s t : σ} {b : β} {l : List ω}
    (h : (c >>= f) s = .ok (b, t, l)) :
    ∃ a s₁ l₁ l₂, c s = .ok (a, s₁, l₁) ∧ f a s₁ = .ok (b, t, l₂) ∧ l = l₁ ++ l₂ := by
  rw [bind_eq] at h
  rcases hc : c s with e | ⟨a, s₁, l₁⟩
  · simp [hc] at h
  · simp only [hc] at h
    rcases hf : f a s₁ with ⟨e, l₂⟩ | ⟨b', s₂, l₂⟩
    · simp [hf] at h
    · simp only [hf, Except.ok.injEq, Prod.mk.injEq] at h
      obtain ⟨rfl, rfl, rfl⟩ := h
      exact ⟨a, s₁, l₁, l₂, rfl, hf, rfl⟩

theorem ok_bind {c : Prog ε ω σ α} {f : α → Prog ε ω σ β} {s s₁ t : σ} {a : α} {b : β}
    {l₁ l₂ : List ω} (hc : c s = .ok (a, s₁, l₁)) (hf : f a s₁ = .ok (b, t, l₂)) :
    (c >>= f) s = .ok (b, t, l₁ ++ l₂) := by
  rw [bind_eq, hc]
  dsimp only
  rw [hf]

theorem run_ok {c : Prog ε ω σ α} {s t : σ} {a : α} {l : List ω} (h : c s = .ok (a, t, l)) :
    c.run s = .ok (a, t) := by
  unfold run
  rw [h]

theorem of_run {c : Prog ε ω σ α} {s t : σ} {a : α} (h : c.run s = .ok (a, t)) :
    ∃ l, c s = .ok (a, t, l) := by
  unfold run at h
  rcases hc : c s with e | ⟨b, u, l⟩
  · simp [hc] at h
  · simp only [hc, Except.ok.injEq, Prod.mk.injEq] at h
    obtain ⟨rfl, rfl⟩ := h
    exact ⟨l, rfl⟩

theorem run_bind (c : Prog ε ω σ α) (f : α → Prog ε ω σ β) (s : σ) :
    (c >>= f).run s = match c.run s with
      | .error e => .error e
      | .ok (a, t) => (f a).run t := by
  unfold run
  rw [bind_eq]
  rcases c s with e | ⟨a, t, l⟩
  · rfl
  · dsimp only
    rcases f a t with e | ⟨b, u, l'⟩ <;> rfl

/-- A first program that emits nothing. -/
theorem bind_silent {c : Prog ε ω σ α} {f : α → Prog ε ω σ β} {s s₁ : σ} {a : α}
    (h : c s = .ok (a, s₁, [])) : (c >>= f) s = f a s₁ := by
  rw [bind_eq, h]
  dsimp only
  rcases f a s₁ with ⟨e, l⟩ | ⟨b, s₂, l⟩ <;> rfl

theorem pure_then (a : α) (f : α → Prog ε ω σ β) : (Pure.pure a >>= f) = f a := by
  funext s
  exact bind_silent rfl

theorem bind_then {γ : Type} (c : Prog ε ω σ α) (f : α → Prog ε ω σ β) (g : β → Prog ε ω σ γ) :
    ((c >>= f) >>= g) = c >>= fun a => f a >>= g := by
  funext s
  simp only [bind_eq]
  rcases c s with ⟨e, l⟩ | ⟨a, s₁, l₁⟩
  · rfl
  · dsimp only
    rcases f a s₁ with ⟨e, l₂⟩ | ⟨b, s₂, l₂⟩
    · rfl
    · dsimp only
      rcases g b s₂ with ⟨e, l₃⟩ | ⟨d, s₃, l₃⟩
      · simp only [List.append_assoc]
      · simp only [List.append_assoc]

section Trace
variable {c : Prog ε ω σ α} {f : α → Prog ε ω σ β} {s s₁ : σ} {a : α} {l : List ω}

theorem trace_bind (h : c s = .ok (a, s₁, l)) : (c >>= f).trace s = l ++ (f a).trace s₁ := by
  unfold trace
  rw [bind_eq, h]
  dsimp only
  rcases f a s₁ with ⟨e, l₂⟩ | ⟨b, s₂, l₂⟩ <;> rfl

theorem trace_bind_error {e : ε} (h : c s = .error (e, l)) : (c >>= f).trace s = l := by
  unfold trace
  rw [bind_eq, h]

theorem next_bind (h : c s = .ok (a, s₁, l)) : (c >>= f).next s = (f a).next s₁ := by
  unfold next
  rw [bind_eq, h]
  dsimp only
  rcases f a s₁ with ⟨e, l₂⟩ | ⟨b, s₂, l₂⟩ <;> rfl

theorem next_bind_error {e : ε} (h : c s = .error (e, l)) : (c >>= f).next s = .error e := by
  unfold next
  rw [bind_eq, h]

/-- A sequence begins with the events of its first program. -/
theorem trace_prefix (c : Prog ε ω σ α) (f : α → Prog ε ω σ β) (s : σ) :
    ∃ l, (c >>= f).trace s = c.trace s ++ l := by
  rcases hc : c s with ⟨e, l⟩ | ⟨a, s₁, l⟩
  · refine ⟨[], ?_⟩
    rw [trace_bind_error hc, List.append_nil]
    unfold trace
    rw [hc]
  · refine ⟨(f a).trace s₁, ?_⟩
    rw [trace_bind hc]
    unfold trace
    rw [hc]

/-- At some point of the program the events so far are as `Q` says. -/
def Passes (c : Prog ε ω σ α) (s : σ) (Q : List ω → Prop) : Prop :=
  ∃ pre post, c.trace s = pre ++ post ∧ Q pre

theorem Passes.here {Q : List ω → Prop} (h : Q []) : Passes c s Q := ⟨[], _, rfl, h⟩

theorem Passes.mono {P Q : List ω → Prop} (h : Passes c s P) (hpq : ∀ l, P l → Q l) :
    Passes c s Q := by
  obtain ⟨pre, post, hl, hp⟩ := h
  exact ⟨pre, post, hl, hpq pre hp⟩

/-- A point of the first program. -/
theorem Passes.left {Q : List ω → Prop} (h : Passes c s Q) : Passes (c >>= f) s Q := by
  obtain ⟨pre, post, hl, hq⟩ := h
  obtain ⟨l, hl'⟩ := trace_prefix c f s
  exact ⟨pre, post ++ l, by rw [hl', hl, List.append_assoc], hq⟩

/-- A point after the first program. -/
theorem Passes.bind {Q : List ω → Prop} (hc : c s = .ok (a, s₁, l))
    (h : Passes (f a) s₁ fun r => Q (l ++ r)) : Passes (c >>= f) s Q := by
  obtain ⟨pre, post, hl, hq⟩ := h
  exact ⟨l ++ pre, post, by rw [trace_bind hc, hl, List.append_assoc], hq⟩

end Trace

/-- The reasons a program may stop for and the events it may emit. -/
structure Guard (ε ω : Type) where
  stops : ε → Prop
  emits : ω → Prop

/-- From `s` the program stops only as the guard allows, emits only what the guard
allows, and ends in the postcondition. -/
def wp (G : Guard ε ω) (c : Prog ε ω σ α) (Q : α → σ → Prop) (s : σ) : Prop :=
  match c s with
  | .error (e, l) => (∀ x ∈ l, G.emits x) ∧ G.stops e
  | .ok (a, s₁, l) => (∀ x ∈ l, G.emits x) ∧ Q a s₁

variable {G : Guard ε ω} {c : Prog ε ω σ α} {f : α → Prog ε ω σ β} {s : σ}

theorem wp_error {Q : α → σ → Prop} {e : ε} {l : List ω} (h : c s = .error (e, l)) :
    wp G c Q s ↔ (∀ x ∈ l, G.emits x) ∧ G.stops e := by
  simp [wp, h]

theorem wp_ok {Q : α → σ → Prop} {a : α} {s₁ : σ} {l : List ω} (h : c s = .ok (a, s₁, l)) :
    wp G c Q s ↔ (∀ x ∈ l, G.emits x) ∧ Q a s₁ := by
  simp [wp, h]

theorem wp_pure {Q : α → σ → Prop} {a : α} (h : Q a s) :
    wp G (Pure.pure a : Prog ε ω σ α) Q s :=
  ⟨by simp, h⟩

theorem wp_stop {Q : α → σ → Prop} {e : ε} (h : G.stops e) :
    wp G (stop e : Prog ε ω σ α) Q s := ⟨by simp, h⟩

/-- A program that stops at once. -/
theorem wp_fail {Q : α → σ → Prop} {e : ε} (hc : c s = .error (e, [])) (h : G.stops e) :
    wp G c Q s := (wp_error hc).mpr ⟨by simp, h⟩

theorem wp_update {Q : Unit → σ → Prop} {g : σ → σ} {ev : σ → List ω}
    (he : ∀ e ∈ ev (g s), G.emits e) (h : Q () (g s)) :
    wp G (update g ev : Prog ε ω σ Unit) Q s := ⟨he, h⟩

theorem wp_bind {Q : β → σ → Prop} (h : wp G c (fun a s₁ => wp G (f a) Q s₁) s) :
    wp G (c >>= f) Q s := by
  unfold wp at h ⊢
  rw [bind_eq]
  rcases hc : c s with ⟨e, l₁⟩ | ⟨a, s₁, l₁⟩
  · simpa [hc] using h
  · simp only [hc] at h ⊢
    obtain ⟨hl, h⟩ := h
    rcases hf : f a s₁ with ⟨e, l₂⟩ | ⟨b, s₂, l₂⟩
    · simp only [hf] at h ⊢
      exact ⟨fun e he => (List.mem_append.mp he).elim (hl e) (h.1 e), h.2⟩
    · simp only [hf] at h ⊢
      exact ⟨fun e he => (List.mem_append.mp he).elim (hl e) (h.1 e), h.2⟩

theorem wp_mono {P Q : α → σ → Prop} (h : wp G c P s) (hpq : ∀ a s₁, P a s₁ → Q a s₁) :
    wp G c Q s := by
  unfold wp at h ⊢
  rcases hc : c s with ⟨e, l⟩ | ⟨a, s₁, l⟩
  · simpa [hc] using h
  · simp only [hc] at h ⊢
    exact ⟨h.1, hpq a s₁ h.2⟩

/-- Sequencing through a known postcondition of the first program. -/
theorem wp_bind_iff {Q : β → σ → Prop} :
    wp G (c >>= f) Q s ↔ wp G c (fun a s₁ => wp G (f a) Q s₁) s := by
  refine ⟨fun h => ?_, wp_bind⟩
  unfold wp at h ⊢
  rw [bind_eq] at h
  rcases hc : c s with ⟨e, l₁⟩ | ⟨a, s₁, l₁⟩
  · simpa [hc] using h
  · simp only [hc] at h ⊢
    rcases hf : f a s₁ with ⟨e, l₂⟩ | ⟨b, s₂, l₂⟩
    · simp only [hf] at h ⊢
      exact ⟨fun x hx => h.1 x (List.mem_append_left _ hx), fun x hx => h.1 x (List.mem_append_right _ hx), h.2⟩
    · simp only [hf] at h ⊢
      exact ⟨fun x hx => h.1 x (List.mem_append_left _ hx), fun x hx => h.1 x (List.mem_append_right _ hx), h.2⟩

theorem wp_seq {P : α → σ → Prop} {Q : β → σ → Prop} (h : wp G c P s)
    (hf : ∀ a s₁, P a s₁ → wp G (f a) Q s₁) : wp G (c >>= f) Q s :=
  wp_bind (wp_mono h hf)

theorem wp_ite {Q : α → σ → Prop} {p : Prop} [Decidable p] {c d : Prog ε ω σ α}
    (ht : p → wp G c Q s) (hf : ¬ p → wp G d Q s) : wp G (if p then c else d) Q s := by
  split_ifs with hp
  · exact ht hp
  · exact hf hp

/-- What a weakest precondition says of a run that ended. -/
theorem wp_elim {Q : α → σ → Prop} {a : α} {s₁ : σ} {l : List ω} (h : wp G c Q s)
    (hc : c s = .ok (a, s₁, l)) : (∀ e ∈ l, G.emits e) ∧ Q a s₁ := (wp_ok hc).mp h

/-- A run that stops for no allowed reason ends. -/
theorem wp_ends {Q : α → σ → Prop} (h : wp G c Q s) (hs : ∀ e, ¬ G.stops e) :
    ∃ a s₁ l, c s = .ok (a, s₁, l) ∧ (∀ e ∈ l, G.emits e) ∧ Q a s₁ := by
  rcases hc : c s with ⟨e, l⟩ | ⟨a, s₁, l⟩
  · exact absurd ((wp_error hc).mp h).2 (hs e)
  · exact ⟨a, s₁, l, rfl, wp_elim h hc⟩

/-- What a weakest precondition says of a run whose events are left out. -/
theorem wp_run {Q : α → σ → Prop} {a : α} {t : σ} (h : wp G c Q s) (hc : c.run s = .ok (a, t)) :
    Q a t := by
  obtain ⟨l, hl⟩ := of_run hc
  exact (wp_elim h hl).2

/-- A run that is known, with whatever events. -/
theorem wp_of_run {Q : α → σ → Prop} {a : α} {t : σ} (hc : c.run s = .ok (a, t))
    (hG : ∀ e, G.emits e) (hQ : Q a t) : wp G c Q s := by
  obtain ⟨l, hl⟩ := of_run hc
  exact (wp_ok hl).mpr ⟨fun e _ => hG e, hQ⟩

/-- A run whose value and next state are known. -/
theorem run_eq {a : α} {t : σ} (h : wp G c (fun b u => b = a ∧ u = t) s) (hs : ∀ e, ¬ G.stops e) :
    c.run s = .ok (a, t) := by
  obtain ⟨b, u, l, hc, -, rfl, rfl⟩ := wp_ends h hs
  exact run_ok hc

theorem next_ends {Q : α → σ → Prop} (h : wp G c Q s) (hs : ∀ e, ¬ G.stops e) :
    ∃ a t, c.next s = .ok t ∧ Q a t := by
  obtain ⟨a, t, l, hc, -, hq⟩ := wp_ends h hs
  refine ⟨a, t, ?_, hq⟩
  unfold next
  rw [hc]

theorem wp_trace {Q : α → σ → Prop} (h : wp G c Q s) : ∀ e ∈ c.trace s, G.emits e := by
  unfold trace
  unfold wp at h
  rcases hc : c s with ⟨e, l⟩ | ⟨a, s₁, l⟩
  · simp only [hc] at h
    exact h.1
  · simp only [hc] at h
    exact h.1

end Prog

/-! Runs: a partial step function folded over a list of operations. -/
namespace Run
variable {ε σ ι : Type}

/-- Either the run stopped for an allowed reason, or it ended in the postcondition. -/
def Post (A : ε → Prop) (r : Except ε σ) (Q : σ → Prop) : Prop :=
  match r with
  | .error e => A e
  | .ok s => Q s

def exec (step : ι → σ → Except ε σ) : List ι → σ → Except ε σ
  | [], s => .ok s
  | op :: ops, s =>
    match step op s with
    | .error e => .error e
    | .ok s₁ => exec step ops s₁

theorem exec_append (step : ι → σ → Except ε σ) (xs ys : List ι) (s : σ) :
    exec step (xs ++ ys) s = match exec step xs s with
      | .error e => .error e
      | .ok s₁ => exec step ys s₁ := by
  induction xs generalizing s with
  | nil => rfl
  | cons x xs ih =>
    simp only [List.cons_append, exec]
    cases step x s with
    | error e => rfl
    | ok s₁ => exact ih s₁

theorem exec_append_ok {step : ι → σ → Except ε σ} {xs ys : List ι} {s t : σ}
    (h : exec step (xs ++ ys) s = .ok t) :
    ∃ m, exec step xs s = .ok m ∧ exec step ys m = .ok t := by
  rw [exec_append] at h
  cases hx : exec step xs s with
  | error e => simp [hx] at h
  | ok m => exact ⟨m, rfl, by simpa [hx] using h⟩

theorem exec_map {κ : Type} (step : ι → σ → Except ε σ) (g : κ → ι) (xs : List κ) (s : σ) :
    exec step (xs.map g) s = exec (fun x => step (g x)) xs s := by
  induction xs generalizing s with
  | nil => rfl
  | cons x xs ih =>
    simp only [List.map_cons, exec]
    cases step (g x) s with
    | error e => rfl
    | ok s₁ => exact ih s₁

/-- An invariant indexed by the operations done so far: it holds at the start, and each
step of the run that is still to come extends it. -/
theorem exec_invariant {A : ε → Prop} {step : ι → σ → Except ε σ} {I : List ι → σ → Prop}
    (hstep : ∀ pre op s, I pre s → Post A (step op s) (I (pre ++ [op])))
    (ops pre : List ι) (s : σ) (h : I pre s) :
    Post A (exec step ops s) (I (pre ++ ops)) := by
  induction ops generalizing pre s with
  | nil => simpa [exec, Post] using h
  | cons op ops ih =>
    have h1 := hstep pre op s h
    simp only [exec]
    cases hs : step op s with
    | error e => simpa [hs, Post] using h1
    | ok s₁ =>
      rw [hs] at h1
      simpa using ih (pre ++ [op]) s₁ h1

theorem Post.ok {A : ε → Prop} {r : Except ε σ} {Q : σ → Prop} {s : σ} (h : Post A r Q)
    (hr : r = .ok s) : Q s := by
  subst hr
  exact h

theorem Post.mono {A : ε → Prop} {r : Except ε σ} {P Q : σ → Prop} (h : Post A r P)
    (hpq : ∀ s, P s → Q s) : Post A r Q := by
  cases r with
  | error e => exact h
  | ok s => exact hpq s h

/-- A program as a step of a run. -/
theorem Post.of_wp {ω α : Type} {A : ε → Prop} {G : Prog.Guard ε ω} {c : Prog ε ω σ α}
    {P : α → σ → Prop} {Q : σ → Prop} {s : σ} (h : Prog.wp G c P s) (hA : ∀ e, G.stops e → A e)
    (hpq : ∀ a t, P a t → Q t) : Post A (c.next s) Q := by
  unfold Prog.next
  rcases hc : c s with ⟨e, l⟩ | ⟨a, t, l⟩
  · exact hA e ((Prog.wp_error hc).mp h).2
  · exact hpq a t (Prog.wp_elim h hc).2

/-- A program with its value as a step of a run. -/
theorem Post.of_wp_run {ω α : Type} {A : ε → Prop} {G : Prog.Guard ε ω} {c : Prog ε ω σ α}
    {Q : α × σ → Prop} {s : σ} (h : Prog.wp G c (fun a t => Q (a, t)) s)
    (hA : ∀ e, G.stops e → A e) : Post A (c.run s) Q := by
  unfold Prog.run
  rcases hc : c s with ⟨e, l⟩ | ⟨a, t, l⟩
  · exact hA e ((Prog.wp_error hc).mp h).2
  · exact (Prog.wp_elim h hc).2

end Run
