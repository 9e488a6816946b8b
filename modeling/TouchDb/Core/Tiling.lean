import Mathlib.Algebra.GroupWithZero.Nat
import Mathlib.Data.List.Basic
import Mathlib.Tactic.Common

/-! Consecutive intervals of natural numbers, the last one first. -/

/-- The intervals `[lo b, lo b + len b)` cover `[a, e)` without gap or overlap. -/
def Tiles {β : Type} (lo len : β → ℕ) (a : ℕ) : List β → ℕ → Prop
  | [], e => e = a
  | b :: bs, e => e = lo b + len b ∧ Tiles lo len a bs (lo b)

namespace Tiles
variable {β : Type} {lo len : β → ℕ} {a e : ℕ} {bs : List β} {b c : β}

theorem le (h : Tiles lo len a bs e) : a ≤ e := by
  induction bs generalizing e with
  | nil => exact Nat.le_of_eq (Eq.symm h)
  | cons b bs ih =>
    have h1 := ih h.2
    have h2 := h.1
    omega

theorem mem_bounds (h : Tiles lo len a bs e) (hb : b ∈ bs) : a ≤ lo b ∧ lo b + len b ≤ e := by
  induction bs generalizing e with
  | nil => simp at hb
  | cons c bs ih =>
    have h1 := h.1
    rcases List.mem_cons.mp hb with rfl | hb
    · exact ⟨le h.2, by omega⟩
    · have h2 := ih h.2 hb
      omega

/-- Two intervals of the tiling are the same one or do not meet. -/
theorem disjoint (h : Tiles lo len a bs e) (hb : b ∈ bs) (hc : c ∈ bs) :
    b = c ∨ lo b + len b ≤ lo c ∨ lo c + len c ≤ lo b := by
  induction bs generalizing e with
  | nil => simp at hb
  | cons d bs ih =>
    rcases List.mem_cons.mp hb with hbd | hb' <;> rcases List.mem_cons.mp hc with hcd | hc'
    · exact .inl (hbd.trans hcd.symm)
    · exact .inr (.inr (hbd ▸ (mem_bounds h.2 hc').2))
    · exact .inr (.inl (hcd ▸ (mem_bounds h.2 hb').2))
    · exact ih h.2 hb' hc'

theorem eq_of_lo (h : Tiles lo len a bs e) (hlen : ∀ b, 0 < len b) (hb : b ∈ bs) (hc : c ∈ bs)
    (he : lo b = lo c) : b = c := by
  have h1 := hlen b
  have h2 := hlen c
  rcases disjoint h hb hc with h3 | h3 | h3
  · exact h3
  · omega
  · omega

theorem nodup (h : Tiles lo len a bs e) (hlen : ∀ b, 0 < len b) : bs.Nodup := by
  induction bs generalizing e with
  | nil => exact List.nodup_nil
  | cons b bs ih =>
    refine List.nodup_cons.mpr ⟨fun hb => ?_, ih h.2⟩
    have h1 := (mem_bounds h.2 hb).2
    have h2 := hlen b
    omega

theorem length_le (h : Tiles lo len a bs e) {k : ℕ} (hlen : ∀ b, k ≤ len b) :
    a + k * bs.length ≤ e := by
  induction bs generalizing e with
  | nil => simpa using Nat.le_of_eq (Eq.symm h)
  | cons b bs ih =>
    have h1 := ih h.2
    have h2 := hlen b
    have h3 := h.1
    simp only [List.length_cons, Nat.mul_add, Nat.mul_one]
    omega

theorem eq_sum (h : Tiles lo len a bs e) : e = a + (bs.map len).sum := by
  induction bs generalizing e with
  | nil => exact h
  | cons b bs ih =>
    have h1 := ih h.2
    have h2 := h.1
    simp only [List.map_cons, List.sum_cons]
    omega

/-- Every point of `[a, e)` lies in exactly one interval. -/
theorem cover (h : Tiles lo len a bs e) {x : ℕ} (hx : a ≤ x ∧ x < e) :
    ∃ b ∈ bs, lo b ≤ x ∧ x < lo b + len b := by
  induction bs generalizing e with
  | nil =>
    have h1 : e = a := h
    omega
  | cons b bs ih =>
    have h1 := h.1
    by_cases hb : lo b ≤ x
    · exact ⟨b, by simp, hb, by omega⟩
    · obtain ⟨c, hc, hcx⟩ := ih h.2 (by omega)
      exact ⟨c, by simp [hc], hcx⟩

end Tiles

/-- The points met when stepping from `a` by the length found at each point, up to `e`. -/
inductive Steps (len : ℕ → ℕ) (a e : ℕ) : ℕ → Prop
  | start : Steps len a e a
  | next {x : ℕ} : Steps len a e x → x < e → Steps len a e (x + len x)

namespace Tiles
variable {β : Type} {lo len : β → ℕ} {a e : ℕ} {bs : List β} {l : ℕ → ℕ} {x : ℕ}

theorem steps_of_mem (h : Tiles lo len a bs e) (hl : ∀ b ∈ bs, l (lo b) = len b)
    (hpos : ∀ b, 0 < len b) {m : ℕ} (hm : e ≤ m) :
    Steps l a m e ∧ ∀ b ∈ bs, Steps l a m (lo b) := by
  induction bs generalizing e with
  | nil =>
    obtain rfl : e = a := h
    exact ⟨.start, by simp⟩
  | cons b bs ih =>
    obtain ⟨he, h⟩ := h
    have h1 := hpos b
    obtain ⟨hb, hbs⟩ := ih h (fun c hc => hl c (List.mem_cons_of_mem _ hc)) (by omega)
    refine ⟨?_, List.forall_mem_cons.mpr ⟨hb, hbs⟩⟩
    have h2 := hb.next (by omega)
    rwa [hl b List.mem_cons_self, ← he] at h2

/-- Stepping by the lengths of a tiling meets the start of each interval, and the end. -/
theorem steps_iff (h : Tiles lo len a bs e) (hl : ∀ b ∈ bs, l (lo b) = len b)
    (hpos : ∀ b, 0 < len b) : Steps l a e x ↔ x = e ∨ ∃ b ∈ bs, lo b = x := by
  obtain ⟨he, hbs⟩ := steps_of_mem h hl hpos (Nat.le_refl e)
  -- a point of the space that no interval meets in its inside starts an interval
  have hstart {y : ℕ} (hy : a ≤ y) (hle : y ≤ e)
      (hin : ∀ b ∈ bs, y ≤ lo b ∨ lo b + len b ≤ y) : y = e ∨ ∃ b ∈ bs, lo b = y := by
    by_cases hye : y = e
    · exact .inl hye
    · obtain ⟨b, hb, h1, h2⟩ := h.cover ⟨hy, by omega⟩
      have h3 := hin b hb
      exact .inr ⟨b, hb, by omega⟩
  constructor
  · intro hs
    induction hs with
    | start => exact hstart (Nat.le_refl a) h.le fun b hb => .inl (h.mem_bounds hb).1
    | next hs hlt ih =>
      rcases ih with rfl | ⟨b, hb, rfl⟩
      · omega
      · have hbb := h.mem_bounds hb
        rw [hl b hb]
        refine hstart (by omega) hbb.2 fun c hc => ?_
        have h1 := hpos b
        rcases h.disjoint hb hc with rfl | h2 | h2
        · exact .inr (Nat.le_refl _)
        · exact .inl h2
        · exact .inr (by omega)
  · rintro (rfl | ⟨b, hb, rfl⟩)
    · exact he
    · exact hbs b hb

end Tiles
