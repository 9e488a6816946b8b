import Mathlib.Data.List.Basic
import Mathlib.Data.List.Perm.Basic
import Mathlib.Logic.Function.Basic
import Mathlib.Data.Int.Notation
import Mathlib.Tactic.Common

/-! Families of double-ended queues: what they are asked and what they answer. A history of
questions and answers is accepted if every answer is the right one. -/

namespace Deques
variable {ν : Type}

/-- A question to the deque `c`, with its answer. -/
inductive Act (ν : Type) where
  | push (c : ℕ) (v : ν)
  | pullHead (c : ℕ) (r : Option ν)
  | pullTail (c : ℕ) (r : Option ν)
  | nth (c : ℕ) (i : ℤ) (r : Option ν)
  | length (c : ℕ) (n : ℤ)

/-- The `i`-th oldest element, counted from one. -/
def nth (q : List ν) (i : ℤ) : Option ν := if 1 ≤ i then q[(i - 1).toNat]? else none

theorem nth_map {μ : Type} (f : ν → μ) (q : List ν) (i : ℤ) : nth (q.map f) i = (nth q i).map f := by
  unfold nth
  split_ifs
  · rw [List.getElem?_map]
  · rfl

/-- Elements at the same place are related. -/
theorem nth_rel {μ : Type} {R : ν → μ → Prop} {q : List ν} {l : List μ} (h : List.Forall₂ R q l) (i : ℤ) :
    Option.Rel R (nth q i) (nth l i) := by
  unfold nth
  split_ifs
  · generalize (i - 1).toNat = n
    induction h generalizing n with
    | nil => exact .none
    | cons hr _ ih =>
      cases n with
      | zero => exact .some hr
      | succ n => exact ih n
  · exact .none

/-- What each act leaves of the family, and the one answer it may have. -/
inductive Step : (ℕ → List ν) → Act ν → (ℕ → List ν) → Prop
  | push (q : ℕ → List ν) (c : ℕ) (v : ν) :
      Step q (.push c v) (Function.update q c (q c ++ [v]))
  | pullHead (q : ℕ → List ν) (c : ℕ) :
      Step q (.pullHead c (q c).head?) (Function.update q c (q c).tail)
  | pullTail (q : ℕ → List ν) (c : ℕ) :
      Step q (.pullTail c (q c).getLast?) (Function.update q c (q c).dropLast)
  | nth (q : ℕ → List ν) (c : ℕ) (i : ℤ) : Step q (.nth c i (nth (q c) i)) q
  | length (q : ℕ → List ν) (c : ℕ) : Step q (.length c (q c).length) q

/-- The histories of a family that is empty at first, and what each leaves in the deques. -/
inductive Accepts : List (Act ν) → (ℕ → List ν) → Prop
  | nil : Accepts [] fun _ => []
  | snoc {l : List (Act ν)} {q q' : ℕ → List ν} {x : Act ν} :
      Accepts l q → Step q x q' → Accepts (l ++ [x]) q'

/-- The elements pushed to `c`, oldest first. -/
def pushed (c : ℕ) (l : List (Act ν)) : List ν := l.filterMap fun
  | .push d v => if d = c then some v else none
  | _ => none

/-- The elements pulled from `c`, at either end. -/
def pulled (c : ℕ) (l : List (Act ν)) : List ν := l.filterMap fun
  | .pullHead d r => if d = c then r else none
  | .pullTail d r => if d = c then r else none
  | _ => none

/-- No act takes from the newer end. -/
def Fifo (l : List (Act ν)) : Prop := ∀ c r, Act.pullTail c r ∉ l

section
variable {l : List (Act ν)} {q : ℕ → List ν} {x : Act ν} {c : ℕ}

theorem pushed_snoc : pushed c (l ++ [x]) = pushed c l ++ pushed c [x] := List.filterMap_append

theorem pulled_snoc : pulled c (l ++ [x]) = pulled c l ++ pulled c [x] := List.filterMap_append

theorem Fifo.snoc (h : Fifo l) (hx : ∀ c r, x ≠ .pullTail c r) : Fifo (l ++ [x]) := by
  intro c r hm
  rcases List.mem_append.mp hm with hm | hm
  · exact h c r hm
  · exact hx c r (List.mem_singleton.mp hm).symm

theorem Accepts.pullHead_nil (h : Accepts l q) (hq : q c = []) :
    Accepts (l ++ [.pullHead c none]) q := by
  have h1 := h.snoc (.pullHead q c)
  rwa [hq, List.head?_nil, List.tail_nil, ← hq, Function.update_eq_self] at h1

theorem Accepts.pullTail_nil (h : Accepts l q) (hq : q c = []) :
    Accepts (l ++ [.pullTail c none]) q := by
  have h1 := h.snoc (.pullTail q c)
  rwa [hq, List.getLast?_nil, List.dropLast_nil, ← hq, Function.update_eq_self] at h1

theorem Accepts.pullHead_cons {v : ν} {r : List ν} (h : Accepts l q) (hq : q c = v :: r) :
    Accepts (l ++ [.pullHead c (some v)]) (Function.update q c r) := by
  have h1 := h.snoc (.pullHead q c)
  rwa [hq] at h1

theorem Accepts.pullTail_concat {v : ν} {r : List ν} (h : Accepts l q) (hq : q c = r ++ [v]) :
    Accepts (l ++ [.pullTail c (some v)]) (Function.update q c r) := by
  have h1 := h.snoc (.pullTail q c)
  rwa [hq, List.getLast?_concat, List.dropLast_concat] at h1

/-- Every element that was pushed is still there, or was pulled once. -/
theorem Accepts.perm (h : Accepts l q) (c : ℕ) : (pushed c l).Perm (pulled c l ++ q c) := by
  induction h with
  | nil => exact .refl _
  | @snoc l q q' x _ hs ih =>
    rw [pushed_snoc, pulled_snoc]
    cases hs with
    | push d v =>
      by_cases hd : d = c
      · subst hd
        simpa [pushed, pulled, ← List.append_assoc] using ih.append_right [v]
      · simpa [pushed, pulled, hd, Function.update_of_ne (Ne.symm hd)] using ih
    | pullHead d =>
      by_cases hd : d = c
      · subst hd
        rcases hq : q d with _ | ⟨v, r⟩
        · simpa [pushed, pulled, hq] using ih
        · simpa [pushed, pulled, hq] using ih
      · simpa [pushed, pulled, hd, Function.update_of_ne (Ne.symm hd)] using ih
    | pullTail d =>
      by_cases hd : d = c
      · subst hd
        rcases List.eq_nil_or_concat (q d) with hq | ⟨r, v, hq⟩
        · simpa [pushed, pulled, hq] using ih
        · rw [List.concat_eq_append] at hq
          rw [hq] at ih
          have hp : (pulled d l ++ (r ++ [v])).Perm (pulled d l ++ ([v] ++ r)) :=
            List.perm_append_comm.append_left _
          simpa [pushed, pulled, hq] using ih.trans hp
      · simpa [pushed, pulled, hd, Function.update_of_ne (Ne.symm hd)] using ih
    | nth d i => simpa [pushed, pulled] using ih
    | length d => simpa [pushed, pulled] using ih

/-- Without pulls at the newer end, elements leave in the order in which they came. -/
theorem Accepts.fifo (h : Accepts l q) (hf : Fifo l) (c : ℕ) :
    pushed c l = pulled c l ++ q c := by
  induction h with
  | nil => rfl
  | @snoc l q q' x _ hs ih =>
    have hl := ih fun d r hm => hf d r (List.mem_append_left _ hm)
    rw [pushed_snoc, pulled_snoc]
    cases hs with
    | push d v =>
      by_cases hd : d = c
      · subst hd
        have h1 : pushed d [Act.push d v] = [v] := by simp [pushed]
        have h2 : pulled d [Act.push d v] = [] := rfl
        rw [h1, h2, hl]
        simp
      · simpa [pushed, pulled, hd, Function.update_of_ne (Ne.symm hd)] using hl
    | pullHead d =>
      by_cases hd : d = c
      · subst hd
        rcases hq : q d with _ | ⟨v, r⟩
        · simpa [pushed, pulled, hq] using hl
        · simpa [pushed, pulled, hq] using hl
      · simpa [pushed, pulled, hd, Function.update_of_ne (Ne.symm hd)] using hl
    | pullTail d => exact absurd (List.mem_append_right _ List.mem_cons_self) (hf d _)
    | nth d i => simpa [pushed, pulled] using hl
    | length d => simpa [pushed, pulled] using hl

end

end Deques
