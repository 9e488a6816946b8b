import Mathlib.Data.List.Lex
import Mathlib.Order.Lattice

/-! Sequences that end in a mark, compared element by element. If the mark is the least element, the
order is the lexicographic one of what stands before it. -/

namespace Terminated
variable {α : Type} [LinearOrder α] {z : α} {l m : List α}

/-- The first two elements that differ. A sequence that has come to its end shows the mark `z`. -/
def parts (z : α) : List α → List α → α × α
  | [], [] => (z, z)
  | [], d :: _ => (z, d)
  | c :: _, [] => (c, z)
  | c :: l, d :: m => if c = d then parts z l m else (c, d)

theorem parts_eq (hl : ∀ c ∈ l, z < c) (hm : ∀ d ∈ m, z < d) :
    (parts z l m).1 = (parts z l m).2 ↔ l = m := by
  induction l generalizing m with
  | nil =>
    cases m with
    | nil => simp [parts]
    | cons d m => simpa [parts] using (hm d List.mem_cons_self).ne
  | cons c l ih =>
    cases m with
    | nil => simpa [parts] using (hl c List.mem_cons_self).ne'
    | cons d m =>
      unfold parts
      split_ifs with hcd
      · rw [ih (fun x hx => hl x (List.mem_cons_of_mem _ hx)) fun x hx => hm x (List.mem_cons_of_mem _ hx)]
        simp [hcd]
      · simp [hcd]

theorem parts_lt (hl : ∀ c ∈ l, z < c) (hm : ∀ d ∈ m, z < d) :
    (parts z l m).1 < (parts z l m).2 ↔ l < m := by
  induction l generalizing m with
  | nil =>
    cases m with
    | nil => simp [parts]
    | cons d m => simpa [parts] using hm d List.mem_cons_self
  | cons c l ih =>
    cases m with
    | nil => simpa [parts] using (hl c List.mem_cons_self).le
    | cons d m =>
      unfold parts
      rw [List.cons_lt_cons_iff]
      split_ifs with hcd
      · rw [ih (fun x hx => hl x (List.mem_cons_of_mem _ hx)) fun x hx => hm x (List.mem_cons_of_mem _ hx)]
        simp [hcd]
      · simp [hcd]

theorem parts_mem : (parts z l m).1 ∈ z :: l ∧ (parts z l m).2 ∈ z :: m := by
  induction l generalizing m with
  | nil => cases m <;> simp [parts]
  | cons c l ih =>
    cases m with
    | nil => simp [parts]
    | cons d m =>
      unfold parts
      split_ifs
      · have hsub {x y : α} {q : List α} (h : x ∈ z :: q) : x ∈ z :: y :: q :=
          (List.mem_cons.mp h).elim (fun h => h ▸ List.mem_cons_self)
            fun h => List.mem_cons_of_mem _ (List.mem_cons_of_mem _ h)
        exact ⟨hsub ih.1, hsub ih.2⟩
      · simp

/-- What a comparison of the two elements tells about the sequences. -/
theorem parts_trichotomy (hl : ∀ c ∈ l, z < c) (hm : ∀ d ∈ m, z < d) :
    ((parts z l m).1 < (parts z l m).2 ↔ l < m) ∧ ((parts z l m).1 = (parts z l m).2 ↔ l = m) ∧
      ((parts z l m).2 < (parts z l m).1 ↔ m < l) := by
  have h1 := parts_lt hl hm
  have h2 := parts_eq hl hm
  refine ⟨h1, h2, ?_⟩
  rw [← not_le, ← not_le, le_iff_lt_or_eq, le_iff_lt_or_eq, h1, h2]

end Terminated
