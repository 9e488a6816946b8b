import TouchDb.Map.Model
import TouchDb.Core.Words
import Mathlib.Order.Bounds.Basic

/-! The number of buckets of the index and the bucket of a key: the doubling loop of
`touchdb_map_init` stops at a power of two, and the mask of `index_for` is then a remainder. -/
namespace TouchDb
open Prog

namespace Touchdb

/-- `2 ^ j` buckets. -/
def withCount (s : Touchdb) (j : ℕ) : Touchdb :=
  s.setMap fun map => { map with bulkListCount := Int32.ofNat (2 ^ j) }

variable {s : Touchdb} {i j : ℕ}

theorem withCount_toInt (hj : j ≤ 30) : (s.withCount j).map.bulkListCount.toInt = 2 ^ j := by
  have hpow : 2 ^ j ≤ 2 ^ 30 := Nat.pow_le_pow_right (by decide) hj
  have h : (Int32.ofNat (2 ^ j)).toInt = ((2 ^ j : ℕ) : ℤ) := Int32.toInt_ofNat_of_lt (by omega)
  rw [Nat.cast_pow] at h
  exact h

end Touchdb

variable {s : Touchdb}

/-- The assignments of `n` counts, from `2 ^ i` buckets on. -/
def doublings (s : Touchdb) (i n : ℕ) : List Event :=
  (List.range' i n).map fun j => .assign (s.withCount j)

/-- The bucket counts that a run assigns one after the other. -/
def countsOf (l : List Event) : List ℤ :=
  (l.filterMap Event.after).map fun t => t.map.bulkListCount.toInt

theorem countsOf_doublings {i n : ℕ} (h : i + n ≤ 31) :
    countsOf (doublings s i n) = (List.range' i n).map fun j => 2 ^ j := by
  unfold countsOf doublings
  rw [List.filterMap_map]
  change (List.filterMap (fun j => some (s.withCount j)) _).map _ = _
  rw [List.filterMap_eq_map', List.map_map]
  apply List.map_congr_left
  intro j hj
  rw [List.mem_range'_1] at hj
  exact Touchdb.withCount_toInt (by omega)

/-- One round of the loop doubles the count. -/
theorem doubleCount_step {capacity : Int32} {j : ℕ} (rounds : ℕ) (hj : j ≤ 30)
    (hlt : 2 ^ j < capacity.toInt) {t : Touchdb} {l : List Event}
    (h : doubleCount capacity rounds (s.withCount (j + 1)) = .ok ((), t, l)) :
    doubleCount capacity (rounds + 1) (s.withCount j) =
      .ok ((), t, .assign (s.withCount (j + 1)) :: l) := by
  have hcond : (s.withCount j).map.bulkListCount < capacity := by
    rw [Int32.lt_iff_toInt_lt, Touchdb.withCount_toInt hj]
    exact hlt
  have hshift : Int32.ofNat (2 ^ j) <<< 1 = Int32.ofNat (2 ^ (j + 1)) := by
    rw [Words.ofNat_shiftLeft_one, Nat.pow_succ']
  have hassign : assignMap (fun map => { map with bulkListCount := map.bulkListCount <<< 1 })
      (s.withCount j) = .ok ((), s.withCount (j + 1), [.assign (s.withCount (j + 1))]) := by
    unfold assignMap assign Prog.update Touchdb.setMap Touchdb.withCount Touchdb.setMap
    dsimp only
    rw [hshift]
  unfold doubleCount
  rw [bind_silent (show getMap (s.withCount j) = .ok ((s.withCount j).map, s.withCount j, []) from rfl),
    if_pos hcond]
  exact ok_bind hassign h

/-- The loop ends as soon as the count reaches the capacity. -/
theorem doubleCount_done {capacity : Int32} {j : ℕ} (rounds : ℕ) (hj : j ≤ 30)
    (hge : capacity.toInt ≤ 2 ^ j) :
    doubleCount capacity (rounds + 1) (s.withCount j) = .ok ((), s.withCount j, []) := by
  have hcond : ¬ (s.withCount j).map.bulkListCount < capacity := by
    rw [Int32.lt_iff_toInt_lt, Touchdb.withCount_toInt hj]
    exact Int.not_lt.mpr hge
  unfold doubleCount
  rw [bind_silent (show getMap (s.withCount j) = .ok ((s.withCount j).map, s.withCount j, []) from rfl),
    if_neg hcond]
  rfl

/-- The whole loop, for a capacity that was clamped. -/
theorem doubleCount_run {capacity : Int32} (hcap : capacity.toInt ≤ 2 ^ 30) {rounds j : ℕ}
    (hj : j ≤ 30) (hr : 31 ≤ rounds + j) (hbelow : ∀ i < j, 2 ^ i < capacity.toInt) :
    ∃ n, j + n ≤ 30 ∧ capacity.toInt ≤ 2 ^ (j + n) ∧ (∀ i < j + n, 2 ^ i < capacity.toInt) ∧
      doubleCount capacity rounds (s.withCount j) =
        .ok ((), s.withCount (j + n), doublings s (j + 1) n) := by
  induction rounds generalizing j with
  | zero => omega
  | succ rounds ih =>
    by_cases hlt : 2 ^ j < capacity.toInt
    · have hj' : j + 1 ≤ 30 := by
        by_contra hc
        obtain rfl : j = 30 := by omega
        omega
      have hbelow' : ∀ i < j + 1, 2 ^ i < capacity.toInt := by
        intro i hi
        rcases Nat.lt_succ_iff_lt_or_eq.mp hi with hi | rfl
        · exact hbelow i hi
        · exact hlt
      obtain ⟨n, hn, hge, hb, hrun⟩ := ih hj' (by omega) hbelow'
      rw [Nat.add_assoc, Nat.add_comm 1 n] at hn hge hb hrun
      exact ⟨n + 1, hn, hge, hb, doubleCount_step rounds hj hlt hrun⟩
    · exact ⟨0, hj, Int.not_lt.mp hlt, hbelow, doubleCount_done rounds hj (Int.not_lt.mp hlt)⟩

/-- The clamp of the capacity. -/
theorem clamp_toInt (capacity : Int32) :
    (if capacity > maxCapacity then maxCapacity else capacity).toInt =
      min capacity.toInt (2 ^ 30) := by
  have hmax : maxCapacity.toInt = 2 ^ 30 := by decide
  split_ifs with h
  · rw [gt_iff_lt, Int32.lt_iff_toInt_lt, hmax] at h
    omega
  · rw [gt_iff_lt, Int32.lt_iff_toInt_lt, hmax] at h
    omega

/-- The count that `touchdb_map_init` computes. -/
theorem mapInitCount_run {capacity : Int32} (h : 0 ≤ capacity.toInt) :
    ∃ j ≤ 30, min capacity.toInt (2 ^ 30) ≤ 2 ^ j ∧
      (∀ i < j, 2 ^ i < min capacity.toInt (2 ^ 30)) ∧
      mapInitCount capacity s = .ok ((), s.withCount j, doublings s 0 (j + 1)) := by
  have hneg : ¬ capacity < 0 := by
    rw [Int32.lt_iff_toInt_lt]
    exact Int.not_lt.mpr h
  have hstart : assignMap (fun map => { map with bulkListCount := 1 }) s =
      .ok ((), s.withCount 0, [.assign (s.withCount 0)]) := rfl
  have hclamp : (if capacity > maxCapacity then maxCapacity else capacity).toInt ≤ 2 ^ 30 := by
    rw [clamp_toInt]
    exact min_le_right _ _
  have hdouble := fun hbelow => @doubleCount_run s _ hclamp 32 0 (by omega) (by omega) hbelow
  obtain ⟨j, hj, hge, hbelow, hrun⟩ := hdouble (by omega)
  rw [clamp_toInt] at hge hbelow
  simp only [Nat.zero_add] at hj hge hbelow hrun
  apply Exists.intro j
  refine ⟨hj, hge, hbelow, ?_⟩
  unfold mapInitCount
  rw [if_neg hneg]
  exact ok_bind hstart hrun

/-- The hash code is the polynomial of the characters, wrapped to 32 bits. -/
theorem hashCode_toInt (k : CStr) :
    (hashCode k).toInt =
      (k.chars.foldl (fun h c => 31 * h + c.toInt8.toInt) 0 : ℤ).bmod (2 ^ 32) := by
  have hfold (cs : List UInt8) (h : Int32) (z : ℤ) (hz : h.toInt = z.bmod (2 ^ 32)) :
      (cs.foldl (fun h c => 31 * h + c.toInt8.toInt32) h).toInt =
        (cs.foldl (fun h c => 31 * h + c.toInt8.toInt) z).bmod (2 ^ 32) := by
    induction cs generalizing h z with
    | nil => exact hz
    | cons c cs ih =>
      apply ih
      rw [Int32.toInt_add, Int32.toInt_mul, hz, Int8.toInt_toInt32]
      change ((31 * z.bmod (2 ^ 32)).bmod (2 ^ 32) + _).bmod (2 ^ 32) = _
      rw [Int.mul_bmod_bmod, Int.bmod_add_bmod]
  exact hfold k.chars 0 0 rfl

/-- The bucket of any hash is the Euclidean remainder. -/
theorem indexFor_toInt {j : ℕ} (hj : j ≤ 30) (h : Int32) :
    (indexFor (s.withCount j).map h).toInt = h.toInt % (s.withCount j).map.bulkListCount.toInt := by
  rw [Touchdb.withCount_toInt hj]
  have hmask := Words.and_mask_toInt h hj
  push_cast at hmask
  exact hmask

/-- The least power of two that is not below `n`. -/
def LeastPower (n m : ℤ) : Prop := IsLeast {p | (∃ j : ℕ, p = 2 ^ j) ∧ n ≤ p} m

theorem leastPower_of_below {n : ℤ} {j : ℕ} (hge : n ≤ 2 ^ j) (hbelow : ∀ i < j, 2 ^ i < n) :
    LeastPower (max 1 n) (2 ^ j) := by
  apply And.intro
  · exact ⟨⟨j, rfl⟩, max_le (one_le_pow₀ (by decide)) hge⟩
  · rintro p ⟨⟨i, rfl⟩, hp⟩
    apply pow_le_pow_right₀ (by decide)
    by_contra hlt
    exact absurd (hbelow i (Nat.not_le.mp hlt)) (Int.not_lt.mpr (le_of_max_le_right hp))

/-- For every capacity that is not negative the loop ends, its counts are the successive
powers of two as integers, and every key has its bucket. -/
theorem mapInitCount_buckets (s : Touchdb) (capacity : Int32) (h : 0 ≤ capacity.toInt) :
    ∃ t l j, mapInitCount capacity s = .ok ((), t, l) ∧
      LeastPower (max 1 (min capacity.toInt (2 ^ 30))) t.map.bulkListCount.toInt ∧
      countsOf l = (List.range (j + 1)).map (fun i => 2 ^ i) ∧
      t = { s with map := { s.map with bulkListCount := t.map.bulkListCount } } ∧
      ∀ k : CStr, (indexFor t.map (hash (hashCode k))).toInt =
          (hash (hashCode k)).toInt % t.map.bulkListCount.toInt ∧
        0 ≤ (indexFor t.map (hash (hashCode k))).toInt ∧
        (indexFor t.map (hash (hashCode k))).toInt < t.map.bulkListCount.toInt := by
  obtain ⟨j, hj, hge, hbelow, hrun⟩ := mapInitCount_run (s := s) h
  have hcount := Touchdb.withCount_toInt (s := s) hj
  have hpos : (0 : ℤ) < 2 ^ j := by positivity
  refine ⟨s.withCount j, doublings s 0 (j + 1), j, hrun, ?_, ?_, rfl, ?_⟩
  · rw [hcount]
    exact leastPower_of_below hge hbelow
  · rw [countsOf_doublings (by omega), List.range_eq_range']
  · intro k
    have hidx := indexFor_toInt (s := s) hj (hash (hashCode k))
    rw [hidx, hcount]
    exact ⟨rfl, Int.emod_nonneg _ hpos.ne', Int.emod_lt_of_pos _ hpos⟩

theorem mapInitCount_buckets_five :
    ∃ t l j, mapInitCount 5 Touchdb.zero = .ok ((), t, l) ∧
      LeastPower 5 t.map.bulkListCount.toInt ∧
      countsOf l = (List.range (j + 1)).map (fun i => 2 ^ i) := by
  obtain ⟨t, l, j, hrun, hleast, hl, -⟩ := mapInitCount_buckets Touchdb.zero 5 (by decide)
  have hfive : max 1 (min (5 : Int32).toInt (2 ^ 30)) = 5 := by decide
  rw [hfive] at hleast
  exact ⟨t, l, j, hrun, hleast, hl⟩

end TouchDb
