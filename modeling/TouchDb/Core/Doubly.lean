import TouchDb.Core.Linked
import Mathlib.Data.List.Induction

/-! Doubly linked lists given by two link functions. A stretch of such a list is described
between the node before it and the node after it, so that a splice is an append. -/

/-- The nodes follow each other by `next` and precede each other by `prev`; `p` comes before
the first one and `e` after the last one. -/
def Stretch {ι : Type} (next prev : ι → Option ι) : Option ι → List ι → Option ι → Prop
  | _, [], _ => True
  | p, x :: l, e => prev x = p ∧ next x = l.head?.or e ∧ Stretch next prev (some x) l e

/-- A list that is linked both ways. -/
abbrev Doubly {ι : Type} (next prev : ι → Option ι) (l : List ι) : Prop :=
  Stretch next prev none l none

namespace Stretch
variable {ι : Type} {f g f' g' : ι → Option ι} {l r : List ι} {p e p' e' : Option ι} {x y : ι}

@[simp] theorem nil : Stretch f g p [] e := trivial

theorem cons_iff :
    Stretch f g p (x :: l) e ↔ g x = p ∧ f x = l.head?.or e ∧ Stretch f g (some x) l e := Iff.rfl

theorem append_iff :
    Stretch f g p (l ++ r) e ↔ Stretch f g p l (r.head?.or e) ∧ Stretch f g (l.getLast?.or p) r e := by
  induction l generalizing p with
  | nil => simp
  | cons x l ih =>
    have hlast : ((x :: l).getLast?.or p) = l.getLast?.or (some x) := by
      rw [List.getLast?_cons]
      cases l.getLast? <;> rfl
    rw [List.cons_append, cons_iff, cons_iff, ih, hlast, List.head?_append, Option.or_assoc]
    tauto

theorem congr (h : Stretch f g p l e) (hf : ∀ y ∈ l, f' y = f y) (hg : ∀ y ∈ l, g' y = g y) :
    Stretch f' g' p l e := by
  induction l generalizing p with
  | nil => trivial
  | cons x l ih =>
    obtain ⟨h1, h2, h3⟩ := h
    refine ⟨(hg x List.mem_cons_self).trans h1, (hf x List.mem_cons_self).trans h2, ?_⟩
    apply ih h3
    · intro y hy
      exact hf y (List.mem_cons_of_mem _ hy)
    · intro y hy
      exact hg y (List.mem_cons_of_mem _ hy)

/-- The first node gets another predecessor. -/
theorem setFirst (h : Stretch f g p l e) (hn : l.Nodup) (hf : ∀ y ∈ l, f' y = f y)
    (hfirst : ∀ y, l.head? = some y → g' y = p')
    (hg : ∀ y ∈ l, l.head? ≠ some y → g' y = g y) : Stretch f' g' p' l e := by
  cases l with
  | nil => trivial
  | cons x l =>
    obtain ⟨h1, h2, h3⟩ := h
    refine ⟨hfirst x rfl, (hf x List.mem_cons_self).trans h2, ?_⟩
    apply h3.congr
    · intro y hy
      exact hf y (List.mem_cons_of_mem _ hy)
    · intro y hy
      apply hg y (List.mem_cons_of_mem _ hy)
      intro hc
      obtain rfl : x = y := Option.some.inj hc
      exact (List.nodup_cons.mp hn).1 hy

/-- The last node gets another successor. -/
theorem setLast (h : Stretch f g p l e) (hn : l.Nodup) (hg : ∀ y ∈ l, g' y = g y)
    (hlast : ∀ y, l.getLast? = some y → f' y = e')
    (hf : ∀ y ∈ l, l.getLast? ≠ some y → f' y = f y) : Stretch f' g' p l e' := by
  rcases List.eq_nil_or_concat l with rfl | ⟨r, x, rfl⟩
  · trivial
  · rw [List.concat_eq_append] at *
    obtain ⟨h1, h2, -, h3⟩ := append_iff.mp h
    have hx : (r ++ [x]).getLast? = some x := List.getLast?_concat
    apply append_iff.mpr
    refine ⟨?_, (hg x (by simp)).trans h2, hlast x hx, trivial⟩
    apply h1.congr
    · intro y hy
      apply hf y (List.mem_append_left _ hy)
      intro hc
      obtain rfl : x = y := Option.some.inj (hx.symm.trans hc)
      exact (List.nodup_append.mp hn).2.2 x hy x (by simp) rfl
    · intro y hy
      exact hg y (List.mem_append_left _ hy)

theorem linked (h : Stretch f g p l none) : Linked f l := by
  induction l generalizing p with
  | nil => trivial
  | cons x l ih =>
    obtain ⟨-, h2, h3⟩ := h
    exact ⟨by rw [h2, Option.or_none], ih h3⟩

theorem linked_reverse (h : Stretch f g none l e) : Linked g l.reverse := by
  induction l using List.reverseRecOn generalizing e with
  | nil => trivial
  | append_singleton l x ih =>
    obtain ⟨h1, h2, -⟩ := append_iff.mp h
    rw [List.reverse_append]
    refine ⟨?_, ih h1⟩
    rw [h2]
    simp

/-- A list whose nodes have the right neighbours. -/
theorem of_splits (h : ∀ l₁ x l₂, l = l₁ ++ x :: l₂ → g x = l₁.getLast?.or p ∧ f x = l₂.head?.or e) :
    Stretch f g p l e := by
  induction l generalizing p with
  | nil => trivial
  | cons x l ih =>
    obtain ⟨h1, h2⟩ := h [] x l rfl
    refine ⟨h1, h2, ?_⟩
    apply ih
    intro l₁ y l₂ hl
    obtain ⟨h3, h4⟩ := h (x :: l₁) y l₂ (by rw [hl, List.cons_append])
    refine ⟨?_, h4⟩
    rw [h3, List.getLast?_cons]
    cases l₁.getLast? <;> rfl

/-- A list that is linked in order by `next` and in reverse order by `prev`. -/
theorem of_linked (h : Linked f l) (hr : Linked g l.reverse) : Doubly f g l := by
  apply of_splits
  rintro l₁ x l₂ rfl
  have hr' : Linked g (l₂.reverse ++ x :: l₁.reverse) := by simpa using hr
  have h1 := hr'.right.1
  have h2 := h.right.1
  rw [List.head?_reverse] at h1
  exact ⟨by rw [h1, Option.or_none], by rw [h2, Option.or_none]⟩

/-- The neighbours of a node. -/
theorem node (h : Stretch f g p (l ++ x :: r) e) :
    g x = l.getLast?.or p ∧ f x = r.head?.or e := by
  obtain ⟨-, h1, h2, -⟩ := append_iff.mp h
  exact ⟨h1, h2⟩

/-- A node is taken out: its neighbours are linked to each other. -/
theorem remove (h : Doubly f g (l ++ x :: r)) (hn : (l ++ x :: r).Nodup)
    (hlast : ∀ y, l.getLast? = some y → f' y = f x) (hfirst : ∀ y, r.head? = some y → g' y = g x)
    (hf : ∀ y ∈ l ++ r, l.getLast? ≠ some y → f' y = f y)
    (hg : ∀ y ∈ l ++ r, r.head? ≠ some y → g' y = g y) : Doubly f' g' (l ++ r) := by
  obtain ⟨hgx, hfx⟩ := h.node
  obtain ⟨hl, -, -, hr⟩ := append_iff.mp h
  obtain ⟨hnl, hnr, hd⟩ := List.nodup_append.mp hn
  obtain ⟨-, hnr⟩ := List.nodup_cons.mp hnr
  have hlr {y : ι} (hy : y ∈ l) (hy' : y ∈ r) : False := hd y hy y (List.mem_cons_of_mem _ hy') rfl
  apply append_iff.mpr
  constructor
  · apply hl.setLast hnl
    · intro y hy
      apply hg y (List.mem_append_left _ hy)
      intro hc
      exact hlr hy (List.mem_of_mem_head? hc)
    · intro y hy
      exact (hlast y hy).trans hfx
    · intro y hy
      exact hf y (List.mem_append_left _ hy)
  · apply hr.setFirst hnr
    · intro y hy
      apply hf y (List.mem_append_right _ hy)
      intro hc
      exact hlr (List.mem_of_getLast? hc) hy
    · intro y hy
      exact (hfirst y hy).trans hgx
    · intro y hy
      exact hg y (List.mem_append_right _ hy)

/-- A node is put between two others, or at an end. -/
theorem insert (h : Doubly f g (l ++ r)) (hn : (l ++ r).Nodup)
    (hx : g' x = l.getLast? ∧ f' x = r.head?)
    (hlast : ∀ y, l.getLast? = some y → f' y = some x)
    (hfirst : ∀ y, r.head? = some y → g' y = some x)
    (hf : ∀ y ∈ l ++ r, l.getLast? ≠ some y → f' y = f y)
    (hg : ∀ y ∈ l ++ r, r.head? ≠ some y → g' y = g y) : Doubly f' g' (l ++ x :: r) := by
  obtain ⟨hl, hr⟩ := append_iff.mp h
  obtain ⟨hnl, hnr, hd⟩ := List.nodup_append.mp hn
  have hlr {y : ι} (hy : y ∈ l) (hy' : y ∈ r) : False := hd y hy y hy' rfl
  apply append_iff.mpr
  refine ⟨?_, by rw [hx.1, Option.or_none], by rw [hx.2, Option.or_none], ?_⟩
  · apply hl.setLast hnl
    · intro y hy
      apply hg y (List.mem_append_left _ hy)
      intro hc
      exact hlr hy (List.mem_of_mem_head? hc)
    · exact hlast
    · intro y hy
      exact hf y (List.mem_append_left _ hy)
  · apply hr.setFirst hnr
    · intro y hy
      apply hf y (List.mem_append_right _ hy)
      intro hc
      exact hlr (List.mem_of_getLast? hc) hy
    · exact hfirst
    · intro y hy
      exact hg y (List.mem_append_right _ hy)

/-- The ends of a list without one of its nodes. -/
theorem ends_remove [DecidableEq ι] (hn : (l ++ x :: r).Nodup) :
    (if (l ++ x :: r).head? = some x then r.head? else (l ++ x :: r).head?) = (l ++ r).head? ∧
      (if (l ++ x :: r).getLast? = some x then l.getLast? else (l ++ x :: r).getLast?) =
        (l ++ r).getLast? := by
  have hl : x ∉ l := fun hm => (List.nodup_append.mp hn).2.2 x hm x List.mem_cons_self rfl
  have hr : x ∉ r := (List.nodup_cons.mp (List.nodup_append.mp hn).2.1).1
  constructor
  · cases l with
    | nil => simp
    | cons y l =>
      have hne : y ≠ x := fun hc => hl (hc ▸ List.mem_cons_self)
      simp [hne]
  · rcases List.eq_nil_or_concat r with rfl | ⟨r, y, rfl⟩
    · simp
    · have hne : y ≠ x := fun hc => hr (by simp [hc])
      simp [hne, List.getLast?_append, List.getLast?_cons]

end Stretch
