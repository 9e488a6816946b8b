import Mathlib.Tactic.Common
import Mathlib.Tactic.NormNum

/-! Signed 32-bit words that hold small natural numbers. -/
namespace Words
variable {m n : ℕ}

theorem ofNat_inj (hm : m < 2 ^ 31) (hn : n < 2 ^ 31) :
    Int32.ofNat m = Int32.ofNat n ↔ m = n := by
  rw [← Int32.toInt_inj, Int32.toInt_ofNat_of_lt hm, Int32.toInt_ofNat_of_lt hn]
  exact Int.ofNat_inj

theorem ofNat_eq_zero (hn : n < 2 ^ 31) : Int32.ofNat n = 0 ↔ n = 0 :=
  ofNat_inj hn (by decide)

/-- A shift to the left by a constant. -/
theorem ofNat_shiftLeft (n : ℕ) {k : Int32} {j : ℕ} (hk : (k.toBitVec.smod 32).toNat = j) :
    Int32.ofNat n <<< k = Int32.ofNat (2 ^ j * n) := by
  apply Int32.toBitVec_inj.mp
  rw [Int32.toBitVec_shiftLeft]
  apply BitVec.eq_of_toNat_eq
  rw [BitVec.shiftLeft_eq', BitVec.toNat_shiftLeft, Nat.shiftLeft_eq, hk]
  simp [Nat.mul_comm]

theorem ofNat_shiftLeft_three (n : ℕ) : Int32.ofNat n <<< (3 : Int32) = Int32.ofNat (8 * n) :=
  ofNat_shiftLeft n (j := 3) (by decide)

theorem ofNat_shiftLeft_one (n : ℕ) : Int32.ofNat n <<< (1 : Int32) = Int32.ofNat (2 * n) :=
  ofNat_shiftLeft n (j := 1) (by decide)

theorem ofNat_shiftRight_three (hn : n < 2 ^ 31) :
    Int32.ofNat n >>> (3 : Int32) = Int32.ofNat (n / 8) := by
  apply Int32.toBitVec_inj.mp
  have h3 : (3 : Int32).toBitVec.smod 32 = 3#32 := by decide
  rw [Int32.toBitVec_shiftRight, h3]
  apply BitVec.eq_of_toInt_eq
  have h1 : (Int32.ofNat n).toBitVec.toInt = n := Int32.toInt_ofNat_of_lt hn
  have h2 : (Int32.ofNat (n / 8)).toBitVec.toInt = (n / 8 : ℕ) :=
    Int32.toInt_ofNat_of_lt (by omega)
  rw [h2, BitVec.sshiftRight_eq', BitVec.toInt_sshiftRight, h1]
  simp [Int.shiftRight_eq_div_pow]

theorem ofNat_mod_eight (hn : n < 2 ^ 31) : Int32.ofNat n % 8 = 0 ↔ n % 8 = 0 := by
  have h1 : Int32.ofNat (n % 8) = Int32.ofNat n % 8 := Int32.ofNat_mod hn (by decide)
  rw [← h1]
  exact ofNat_inj (by omega) (by decide)

theorem ofNat_sub_one {n : ℕ} (h0 : 0 < n) (hn : n < 2 ^ 31) : Int32.ofNat n - 1 = Int32.ofNat (n - 1) := by
  have hk : (1 : Int32) = Int32.ofNat 1 := rfl
  rw [hk, ← Int32.ofNat_sub _ _ (by omega)]

/-- Masking the low bits is the remainder, of negative words too. -/
theorem and_mask_toInt (h : Int32) {m : ℕ} (hm : m ≤ 30) :
    (h &&& (Int32.ofNat (2 ^ m) - 1)).toInt = h.toInt % (2 ^ m : ℕ) := by
  have h1 : 2 ^ m ≤ 2 ^ 30 := Nat.pow_le_pow_right (by decide) hm
  have h0 : 0 < 2 ^ m := Nat.two_pow_pos m
  obtain ⟨d, hd⟩ : 2 ^ m ∣ 2 ^ 32 := Nat.pow_dvd_pow 2 (by omega)
  have hx : (h.toBitVec &&& (Int32.ofNat (2 ^ m - 1)).toBitVec).toNat = h.toBitVec.toNat % 2 ^ m := by
    have hk : (Int32.ofNat (2 ^ m - 1)).toBitVec.toNat = 2 ^ m - 1 :=
      Nat.mod_eq_of_lt (by omega)
    rw [BitVec.toNat_and, hk, Nat.and_two_pow_sub_one_eq_mod]
  have hlt := Nat.mod_lt h.toBitVec.toNat h0
  rw [ofNat_sub_one h0 (by omega)]
  change (h.toBitVec &&& (Int32.ofNat (2 ^ m - 1)).toBitVec).toInt = h.toBitVec.toInt % _
  rw [BitVec.toInt_eq_toNat_cond, hx, BitVec.toInt_eq_toNat_cond h.toBitVec]
  have hd' : ((2 ^ 32 : ℕ) : Int) = (2 ^ m : ℕ) * d := by exact_mod_cast hd
  split_ifs with h2 h3 h3
  · exact Int.natCast_emod _ _
  · rw [hd', Int.sub_mul_emod_self_left]
    exact Int.natCast_emod _ _
  · omega
  · omega

/-- The remainder of a signed word by a power of two reads its low bits. -/
theorem toInt_emod (h : Int32) {m : ℕ} (hm : m ≤ 32) : h.toInt % 2 ^ m = (h.toBitVec.toNat % 2 ^ m : ℕ) := by
  obtain ⟨d, hd⟩ : 2 ^ m ∣ 2 ^ 32 := Nat.pow_dvd_pow 2 hm
  have hd' : ((2 ^ 32 : ℕ) : ℤ) = 2 ^ m * d := by exact_mod_cast hd
  change h.toBitVec.toInt % _ = _
  rw [BitVec.toInt_eq_toNat_cond, hd']
  push_cast
  split_ifs
  · rfl
  · exact Int.sub_mul_emod_self_left _ _ _

theorem toNat_ofNat (hn : n < 2 ^ 32) : (UInt32.ofNat n).toNat = n := by
  simpa using hn

theorem ofNat_ne_zero (hn : n < 2 ^ 32) (h0 : n ≠ 0) : UInt32.ofNat n ≠ 0 := by
  intro h
  have h1 := congrArg UInt32.toNat h
  rw [toNat_ofNat hn] at h1
  exact h0 h1

/-! Arbitrary words. -/

/-- Shifting a word to the right by three divides it, rounding down. -/
theorem toInt_shiftRight_three (x : Int32) : (x >>> (3 : Int32)).toInt = x.toInt / 8 := by
  have h3 : (3 : Int32).toBitVec.smod 32 = 3#32 := by decide
  show (x >>> (3 : Int32)).toBitVec.toInt = x.toBitVec.toInt / 8
  rw [Int32.toBitVec_shiftRight, h3, BitVec.sshiftRight_eq', BitVec.toInt_sshiftRight]
  simp [Int.shiftRight_eq_div_pow]

theorem mod_eight_eq_zero (x : Int32) : x % 8 = 0 ↔ x.toInt % 8 = 0 := by
  rw [← Int32.toInt_inj, Int32.toInt_mod]
  show x.toInt.tmod 8 = 0 ↔ _
  rw [← Int.dvd_iff_tmod_eq_zero, Int.dvd_iff_emod_eq_zero]

theorem toInt_sub_one {x : Int32} (h : -2 ^ 31 < x.toInt) : (x - 1).toInt = x.toInt - 1 := by
  have h1 := x.toInt_lt
  rw [Int32.toInt_sub]
  show (x.toInt - 1).bmod (2 ^ 32) = _
  exact Int.bmod_eq_of_le (by omega) (by omega)

/-- Masking by a word that is not negative. -/
theorem and_nonneg (x : Int32) {y : Int32} (h : 0 ≤ y.toInt) : 0 ≤ (x &&& y).toInt := by
  have hy : y.toBitVec.msb = false := by
    rw [BitVec.msb_eq_toInt]
    exact decide_eq_false (Int.not_lt.mpr h)
  have hxy : (x &&& y).toBitVec.msb = false := by
    rw [Int32.toBitVec_and, BitVec.msb_and, hy, Bool.and_false]
  rw [BitVec.msb_eq_toInt] at hxy
  exact Int.not_lt.mp (of_decide_eq_false hxy)

/-- An unsigned word read as a signed one. -/
theorem toInt_toInt32 (w : UInt32) :
    w.toInt32.toInt = if w.toNat < 2 ^ 31 then (w.toNat : ℤ) else w.toNat - 2 ^ 32 := by
  show w.toBitVec.toInt = _
  rw [BitVec.toInt_eq_toNat_cond]
  simp only [UInt32.toNat_toBitVec]
  split_ifs <;> omega

end Words
