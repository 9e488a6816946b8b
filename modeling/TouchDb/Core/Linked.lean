import Mathlib.Data.List.Basic
import Mathlib.Data.List.Nodup

/-! Singly linked lists given by a successor function. A doubly linked list is one whose
nodes are linked in order by `next` and in reverse order by `prev`. -/

/-- The nodes of the list follow each other by `next`, and the last one has no successor. -/
def Linked {ι : Type} (next : ι → Option ι) : List ι → Prop
  | [] => True
  | x :: l => next x = l.head? ∧ Linked next l

namespace Linked
variable {ι : Type} {f g : ι → Option ι} {l : List ι} {x y : ι}

@[simp] theorem nil : Linked f [] := trivial

@[simp] theorem singleton : Linked f [x] ↔ f x = none := by simp [Linked]

theorem congr (h : Linked f l) (hg : ∀ y ∈ l, g y = f y) : Linked g l := by
  induction l with
  | nil => trivial
  | cons x l ih =>
    exact ⟨(hg x (by simp)).trans h.1, ih h.2 fun y hy => hg y (by simp [hy])⟩

/-- A node is appended: the old last node points to it and nothing else changes. -/
theorem snoc (h : Linked f l) (hn : l.Nodup) (hx : g x = none)
    (hlast : ∀ y, l.getLast? = some y → g y = some x)
    (hkeep : ∀ y ∈ l, l.getLast? ≠ some y → g y = f y) : Linked g (l ++ [x]) := by
  induction l with
  | nil => simpa using hx
  | cons a l ih =>
    obtain ⟨ha, hl⟩ := h
    obtain ⟨hal, hn⟩ := List.nodup_cons.mp hn
    cases l with
    | nil =>
      have h1 : g a = some x := hlast a (by simp)
      simp [Linked, h1, hx]
    | cons b l =>
      have hl2 : (a :: b :: l).getLast? = (b :: l).getLast? := by simp
      have hne : (a :: b :: l).getLast? ≠ some a := by
        rw [hl2]
        intro hc
        exact hal (List.mem_of_getLast? hc)
      refine ⟨?_, ih hl hn (fun y hy => hlast y (hl2.trans hy)) fun y hy hy' =>
        hkeep y (by simp [hy]) (by rwa [hl2])⟩
      rw [hkeep a (by simp) hne, ha]
      simp

/-- The last node is dropped: the node before it ends the list. -/
theorem dropLast (h : Linked f (l ++ [x])) (hn : l.Nodup)
    (hlast : ∀ y, l.getLast? = some y → g y = none)
    (hkeep : ∀ y ∈ l, l.getLast? ≠ some y → g y = f y) : Linked g l := by
  induction l with
  | nil => trivial
  | cons a l ih =>
    obtain ⟨ha, hl⟩ := h
    obtain ⟨hal, hn⟩ := List.nodup_cons.mp hn
    cases l with
    | nil => simpa using hlast a (by simp)
    | cons b l =>
      have hl2 : (a :: b :: l).getLast? = (b :: l).getLast? := by simp
      have hne : (a :: b :: l).getLast? ≠ some a := by
        rw [hl2]
        intro hc
        exact hal (List.mem_of_getLast? hc)
      refine ⟨?_, ih hl hn (fun y hy => hlast y (hl2.trans hy)) fun y hy hy' =>
        hkeep y (by simp [hy]) (by rwa [hl2])⟩
      rw [hkeep a (by simp) hne, ha]
      simp

/-- The end of a list. -/
theorem right {r : List ι} (h : Linked f (l ++ r)) : Linked f r := by
  induction l with
  | nil => exact h
  | cons a l ih => exact ih h.2

theorem last (h : Linked f l) (hy : l.getLast? = some y) : f y = none := by
  induction l with
  | nil => simp at hy
  | cons a l ih =>
    cases l with
    | nil =>
      obtain rfl : a = y := by simpa using hy
      simpa using h
    | cons b l => exact ih h.2 (by simpa using hy)

/-- A link leads to one list at most. -/
theorem unique {l' : List ι} (h : Linked f l) (h' : Linked f l') (hh : l.head? = l'.head?) :
    l = l' := by
  induction l generalizing l' with
  | nil =>
    cases l' with
    | nil => rfl
    | cons y l' => simp at hh
  | cons x l ih =>
    cases l' with
    | nil => simp at hh
    | cons y l' =>
      obtain rfl : x = y := by simpa using hh
      rw [ih h.2 h'.2 (h.1.symm.trans h'.1)]

/-- A node that points to itself begins no list. -/
theorem head_ne_of_loop (hx : f x = some x) (h : Linked f l) : l.head? ≠ some x := by
  induction l with
  | nil => simp
  | cons y l ih =>
    intro hy
    obtain rfl : y = x := Option.some.inj hy
    exact ih h.2 (h.1.symm.trans hx)

/-- The nodes met in at most `n` steps, and the link at which the walk then stands. -/
def walk (next : ι → Option ι) : ℕ → Option ι → List ι × Option ι
  | 0, p => ([], p)
  | _ + 1, none => ([], none)
  | n + 1, some x => let r := walk next n (next x); (x :: r.1, r.2)

theorem walk_eq (h : Linked f l) : walk f l.length l.head? = (l, none) := by
  induction l with
  | nil => rfl
  | cons x l ih => simp [walk, h.1, ih h.2]

/-- A walk with more steps than nodes ends all the same. -/
theorem walk_of_le {n : ℕ} (h : Linked f l) (hn : l.length ≤ n) : walk f n l.head? = (l, none) := by
  induction l generalizing n with
  | nil => cases n <;> rfl
  | cons x l ih =>
    obtain ⟨m, rfl⟩ : ∃ m, n = m + 1 := ⟨n - 1, by simp only [List.length_cons] at hn; omega⟩
    simp [walk, h.1, ih h.2 (by simpa using hn)]

theorem mem_walk_head {n : ℕ} (hn : 0 < n) : x ∈ (walk f n (some x)).1 := by
  cases n with
  | zero => omega
  | succ n => exact List.mem_cons_self

/-- A walk goes on to the node that the old last one points to. -/
theorem mem_walk {n : ℕ} (h : Linked f l) (hn : l.Nodup) (hl : l ≠ []) (hlen : l.length < n)
    (hlast : ∀ y, l.getLast? = some y → g y = some x)
    (hkeep : ∀ y ∈ l, l.getLast? ≠ some y → g y = f y) : x ∈ (walk g n l.head?).1 := by
  induction l generalizing n with
  | nil => exact absurd rfl hl
  | cons a l ih =>
    obtain ⟨ha, hl⟩ := h
    obtain ⟨hal, hn⟩ := List.nodup_cons.mp hn
    obtain ⟨m, rfl⟩ : ∃ m, n = m + 1 := ⟨n - 1, by simp only [List.length_cons] at hlen; omega⟩
    rw [List.length_cons, Nat.add_lt_add_iff_right] at hlen
    simp only [List.head?_cons, walk]
    refine List.mem_cons_of_mem _ ?_
    cases l with
    | nil =>
      obtain ⟨m, rfl⟩ : ∃ k, m = k + 1 := ⟨m - 1, by simp only [List.length_nil] at hlen; omega⟩
      rw [hlast a (by simp)]
      exact List.mem_cons_self
    | cons b l =>
      have hl2 : (a :: b :: l).getLast? = (b :: l).getLast? := by simp
      have hne : (a :: b :: l).getLast? ≠ some a := by
        rw [hl2]
        intro hc
        exact hal (List.mem_of_getLast? hc)
      rw [hkeep a (by simp) hne, ha]
      exact ih hl hn (by simp) hlen (fun y hy => hlast y (hl2.trans hy)) fun y hy hy' =>
        hkeep y (by simp [hy]) (by rwa [hl2])

/-- A node that some number of steps from a link reaches. -/
inductive Reaches (next : ι → Option ι) : Option ι → ι → Prop
  | here (x : ι) : Reaches next (some x) x
  | step {x y : ι} : Reaches next (next x) y → Reaches next (some x) y

/-- A walk goes on to a node that the last one points to, whatever that node is. -/
theorem reaches_last (h : Linked f (l ++ [x])) (hg : ∀ y ∈ l, g y = f y) :
    Reaches g (l ++ [x]).head? x := by
  induction l with
  | nil => exact .here x
  | cons y l ih =>
    obtain ⟨hy, hl⟩ := h
    refine .step ?_
    rw [hg y List.mem_cons_self, hy]
    exact ih hl fun z hz => hg z (List.mem_cons_of_mem _ hz)

theorem reaches_iff (h : Linked f l) : Reaches f l.head? y ↔ y ∈ l := by
  induction l with
  | nil =>
    simp only [List.head?_nil, List.not_mem_nil, iff_false]
    intro hr
    cases hr
  | cons x l ih =>
    simp only [List.head?_cons, List.mem_cons]
    rw [← ih h.2, ← h.1]
    constructor
    · intro hr
      cases hr with
      | here => exact .inl rfl
      | step hr => exact .inr hr
    · rintro (rfl | hr)
      · exact .here _
      · exact .step hr

end Linked
