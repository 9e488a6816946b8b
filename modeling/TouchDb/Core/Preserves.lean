import TouchDb.Core.Prog

/-! Programs that keep a property of the state, emit only some events, and stop for some reasons only. -/

namespace Prog
variable {ε ω σ α β : Type}

/-- From a state with the property `I` the program stops and emits only as the guard allows, and a
state that it ends in has the property. -/
def Preserves (G : Guard ε ω) (I : σ → Prop) (c : Prog ε ω σ α) : Prop :=
  ∀ s, I s → wp G c (fun _ => I) s

namespace Preserves
variable {G : Guard ε ω} {I : σ → Prop} {c d : Prog ε ω σ α} {f : α → Prog ε ω σ β} {s t : σ} {a : α}

protected theorem pure (a : α) : Preserves G I (Pure.pure a : Prog ε ω σ α) := fun _ hs => wp_pure hs

protected theorem stop {e : ε} (h : G.stops e) : Preserves G I (Prog.stop e : Prog ε ω σ α) :=
  fun _ _ => wp_stop h

protected theorem update {g : σ → σ} {ev : σ → List ω} (hE : ∀ s, I s → ∀ e ∈ ev (g s), G.emits e)
    (hI : ∀ s, I s → I (g s)) : Preserves G I (Prog.update g ev : Prog ε ω σ Unit) :=
  fun s hs => wp_update (hE s hs) (hI s hs)

protected theorem bind (h : Preserves G I c) (hf : ∀ a, Preserves G I (f a)) :
    Preserves G I (c >>= f) := fun s hs => wp_seq (h s hs) fun a t ht => hf a t ht

protected theorem ite {p : Prop} [Decidable p] (hc : p → Preserves G I c)
    (hd : ¬ p → Preserves G I d) : Preserves G I (if p then c else d) := by
  split_ifs with hp
  · exact hc hp
  · exact hd hp

/-- A program that reads the state, and may stop. -/
protected theorem read (h : ∀ s, (∃ a, c s = .ok (a, s, [])) ∨ ∃ e, G.stops e ∧ c s = .error (e, [])) :
    Preserves G I c := by
  intro s hs
  rcases h s with ⟨a, ha⟩ | ⟨e, hG, he⟩
  · exact (wp_ok ha).mpr ⟨by simp, hs⟩
  · exact (wp_error he).mpr ⟨by simp, hG⟩

/-- Less is asked for. -/
theorem mono {G' : Guard ε ω} (h : Preserves G I c) (hs : ∀ e, G.stops e → G'.stops e)
    (he : ∀ e, G.emits e → G'.emits e) : Preserves G' I c := by
  intro s hI
  have h1 := h s hI
  unfold wp at h1 ⊢
  rcases hc : c s with ⟨e, l⟩ | ⟨a, t, l⟩
  · rw [hc] at h1
    exact ⟨fun x hx => he x (h1.1 x hx), hs e h1.2⟩
  · rw [hc] at h1
    exact ⟨fun x hx => he x (h1.1 x hx), h1.2⟩

theorem run (h : Preserves G I c) (hs : I s) (hc : c.run s = .ok (a, t)) : I t :=
  wp_run (h s hs) hc

theorem trace (h : Preserves G I c) (hs : I s) : ∀ e ∈ c.trace s, G.emits e := wp_trace (h s hs)

end Preserves
end Prog
