import TouchDb.Core.Prog

/-! Programs that show more of what they do than others with the same results, and the exact
events of a run. -/
namespace Prog
variable {ε ω ω' σ α β : Type}

/-- The program with its events left out. -/
def silent (c : Prog ε ω σ α) : Prog ε ω' σ α := fun s =>
  match c s with
  | .error (e, _) => .error (e, [])
  | .ok (a, t, _) => .ok (a, t, [])

/-- Emit the events and change nothing. -/
def say (l : List ω) : Prog ε ω σ Unit := update id fun _ => l

/-- The two programs have the same results, whatever they show. -/
def Agrees (c : Prog ε ω σ α) (d : Prog ε ω' σ α) : Prop := ∀ s, c.run s = d.run s

/-- From `s` the program ends in the postcondition, and emits exactly `l`. -/
def Emits (c : Prog ε ω σ α) (s : σ) (l : List ω) (Q : α → σ → Prop) : Prop :=
  ∃ a t, c s = .ok (a, t, l) ∧ Q a t

section
variable {c : Prog ε ω σ α} {d : Prog ε ω' σ α} {f : α → Prog ε ω σ β} {g : α → Prog ε ω' σ β}
variable {s t : σ} {a : α} {l l' : List ω}

namespace Agrees

theorem silent (d : Prog ε ω' σ α) : Agrees (d.silent : Prog ε ω σ α) d := by
  intro s
  unfold run Prog.silent
  rcases d s with ⟨e, l⟩ | ⟨a, t, l⟩ <;> rfl

theorem pure (a : α) : Agrees (Pure.pure a : Prog ε ω σ α) (Pure.pure a : Prog ε ω' σ α) :=
  fun _ => rfl

theorem stop (e : ε) : Agrees (stop e : Prog ε ω σ α) (stop e : Prog ε ω' σ α) := fun _ => rfl

theorem bind (h : Agrees c d) (hf : ∀ a, Agrees (f a) (g a)) : Agrees (c >>= f) (d >>= g) := by
  intro s
  rw [run_bind, run_bind, h s]
  rcases d.run s with e | ⟨a, t⟩
  · rfl
  · exact hf a t

/-- What is said first changes no result. -/
theorem say {c : Prog ε ω σ α} (l : List ω) (h : Agrees c d) :
    Agrees (Prog.say l >>= fun _ => c) d := by
  intro s
  rw [run_bind]
  exact h s

theorem ite {p : Prop} [Decidable p] {c' : Prog ε ω σ α} {d' : Prog ε ω' σ α} (h : Agrees c d)
    (h' : Agrees c' d') : Agrees (if p then c else c') (if p then d else d') := by
  by_cases hp : p
  · rw [if_pos hp, if_pos hp]
    exact h
  · rw [if_neg hp, if_neg hp]
    exact h'

end Agrees

namespace Emits

theorem pure {Q : α → σ → Prop} (h : Q a s) : Emits (Pure.pure a : Prog ε ω σ α) s [] Q :=
  ⟨a, s, rfl, h⟩

theorem bind {P : α → σ → Prop} {Q : β → σ → Prop} (h : Emits c s l P)
    (hf : ∀ a t, P a t → Emits (f a) t l' Q) : Emits (c >>= f) s (l ++ l') Q := by
  obtain ⟨a, t, hc, hp⟩ := h
  obtain ⟨b, u, hb, hq⟩ := hf a t hp
  exact ⟨b, u, ok_bind hc hb, hq⟩

theorem say {Q : Unit → σ → Prop} (h : Q () s) : Emits (Prog.say l : Prog ε ω σ Unit) s l Q :=
  ⟨(), s, rfl, h⟩

/-- A program whose run is known, with nothing shown. -/
theorem silent_run {Q : α → σ → Prop} (h : d.run s = .ok (a, t)) (hq : Q a t) :
    Emits (d.silent : Prog ε ω σ α) s [] Q := by
  obtain ⟨l, hd⟩ := of_run h
  refine ⟨a, t, ?_, hq⟩
  unfold Prog.silent
  rw [hd]

theorem silent {G : Guard ε ω'} {Q : α → σ → Prop} (h : wp G d Q s) (hs : ∀ e, ¬ G.stops e) :
    Emits (d.silent : Prog ε ω σ α) s [] Q := by
  obtain ⟨a, t, l, hd, -, hq⟩ := wp_ends h hs
  exact silent_run (run_ok hd) hq

end Emits
end
end Prog
