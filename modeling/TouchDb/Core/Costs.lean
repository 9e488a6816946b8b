import TouchDb.Core.Preserves
import Mathlib.Algebra.BigOperators.Group.List.Basic
import Mathlib.Algebra.GroupWithZero.Nat

/-! Programs that use up a resource. A state that has the property `I n` has `n` units of it left. -/

namespace Prog
variable {ε ω σ α β : Type}

/-- The program uses up `n` units at most. Where they are left, it stops and emits only as the guard
allows. -/
def Costs (G : Guard ε ω) (I : ℕ → σ → Prop) (n : ℕ) (c : Prog ε ω σ α) : Prop :=
  ∀ m s, I (n + m) s → wp G c (fun _ => I m) s

namespace Costs
variable {G : Guard ε ω} {I : ℕ → σ → Prop} {m n : ℕ} {c d : Prog ε ω σ α} {f : α → Prog ε ω σ β}

/-- A program that keeps whatever is left. -/
theorem of_preserves (h : ∀ m, Preserves G (I m) c) : Costs G I 0 c := by
  intro m s hs
  rw [Nat.zero_add] at hs
  exact h m s hs

protected theorem bind (h : Costs G I m c) (hf : ∀ a, Costs G I n (f a)) :
    Costs G I (m + n) (c >>= f) := by
  intro k s hs
  rw [Nat.add_assoc] at hs
  exact wp_seq (h (n + k) s hs) fun a t ht => hf a k t ht

protected theorem ite {p : Prop} [Decidable p] (hc : p → Costs G I n c) (hd : ¬ p → Costs G I n d) :
    Costs G I n (if p then c else d) := by
  split_ifs with hp
  · exact hc hp
  · exact hd hp

/-- More is allowed for. -/
theorem mono (hI : ∀ {m n s}, m ≤ n → I n s → I m s) (h : Costs G I m c) (hmn : m ≤ n) :
    Costs G I n c := fun k s hs => h k s (hI (Nat.add_le_add_right hmn k) hs)

end Costs
end Prog

namespace Run
variable {ε σ ι : Type} {A : ε → Prop} {I : ℕ → σ → Prop} {cost : ι → ℕ} {step : ι → σ → Except ε σ}

/-- A run uses up what its steps do. -/
theorem exec_costs (h : ∀ op m s, I (cost op + m) s → Post A (step op s) (I m)) (ops : List ι) {m : ℕ}
    {s : σ} (hs : I ((ops.map cost).sum + m) s) : Post A (exec step ops s) (I m) := by
  induction ops generalizing s with
  | nil => simpa [exec, Post] using hs
  | cons op ops ih =>
    rw [List.map_cons, List.sum_cons, Nat.add_assoc] at hs
    have h1 := h op _ s hs
    unfold exec
    rcases hop : step op s with e | t
    · rwa [hop] at h1
    · rw [hop] at h1
      exact ih h1

/-- A run that can stop for one reason only, and does not, ends. -/
theorem Post.ends {e : ε} {r : Except ε σ} {P Q : σ → Prop} (h : Post (fun e' => e' = e) r P)
    (hne : Post (fun e' => e' ≠ e) r Q) : ∃ s, r = .ok s ∧ P s := by
  cases r with
  | error e' => exact absurd h hne
  | ok s => exact ⟨s, rfl, h⟩

end Run
