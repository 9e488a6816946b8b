import Mathlib.Data.BitVec
import Mathlib.Data.Int.CardIntervalMod
import Mathlib.Data.Set.Card
import Mathlib.Tactic.Common

/-! Mixing the bits of a word: a word is combined with two copies of itself that are shifted to the right,
with their sign. No two words are mixed to the same one. -/

namespace Mixing
variable {w : ℕ} {a b i n : ℕ} {x y : BitVec w}

def mix (a b : ℕ) (x : BitVec w) : BitVec w := x ^^^ (x.sshiftRight a ^^^ x.sshiftRight b)

/-- The bit that a shift brings to the place `i`. -/
theorem getLsbD_shift (x : BitVec w) (a : ℕ) (hi : i < w) :
    (x.sshiftRight a).getLsbD i = x.getLsbD (min (i + a) (w - 1)) := by
  rw [BitVec.getLsbD_sshiftRight]
  by_cases h : a + i < w
  · rw [if_pos h, min_eq_left (by omega), Nat.add_comm]
    simp [hi]
  · rw [if_neg h, min_eq_right (by omega), BitVec.msb_eq_getLsbD_last]
    simp [hi]

theorem getLsbD_mix (x : BitVec w) (hi : i < w) : (mix a b x).getLsbD i =
    (x.getLsbD i ^^ (x.getLsbD (min (i + a) (w - 1)) ^^ x.getLsbD (min (i + b) (w - 1)))) := by
  unfold mix
  rw [BitVec.getLsbD_xor, BitVec.getLsbD_xor, getLsbD_shift x a hi, getLsbD_shift x b hi]

/-- The highest bit stays, and each bit below it is changed by higher ones only. -/
theorem mix_injective (ha : 0 < a) (hb : 0 < b) : Function.Injective (mix a b : BitVec w → BitVec w) := by
  intro x y h
  have hbit (d : ℕ) : ∀ i < w, w - 1 - i = d → x.getLsbD i = y.getLsbD i := by
    induction d using Nat.strong_induction_on with
    | _ d ih =>
      intro i hi hd
      have hi' := congrArg (BitVec.getLsbD · i) h
      simp only [getLsbD_mix _ hi] at hi'
      by_cases htop : i = w - 1
      · have h1 : min (i + a) (w - 1) = i := by omega
        have h2 : min (i + b) (w - 1) = i := by omega
        simpa [h1, h2] using hi'
      · have h1 := ih (w - 1 - min (i + a) (w - 1)) (by omega) _ (by omega) rfl
        have h2 := ih (w - 1 - min (i + b) (w - 1)) (by omega) _ (by omega) rfl
        rw [h1, h2] at hi'
        exact Bool.xor_left_inj.mp hi'
  exact BitVec.eq_of_getLsbD_eq fun i hi => hbit _ i hi rfl

/-- As many words have one remainder as another. -/
theorem ncard_residue (hn : n ≤ w) (hi : i < 2 ^ n) :
    Set.ncard {x : BitVec w | x.toNat % 2 ^ n = i} = 2 ^ (w - n) := by
  have himage : BitVec.toNat '' {x : BitVec w | x.toNat % 2 ^ n = i} =
      ((Finset.range (2 ^ w)).filter (· ≡ i [MOD 2 ^ n]) : Finset ℕ) := by
    ext m
    simp only [Set.mem_image, Set.mem_ofPred_eq, Finset.coe_filter, Finset.mem_range, Nat.ModEq,
      Nat.mod_eq_of_lt hi]
    constructor
    · rintro ⟨x, hx, rfl⟩
      exact ⟨x.isLt, hx⟩
    · rintro ⟨hm, hmi⟩
      exact ⟨BitVec.ofNat w m, by rwa [BitVec.toNat_ofNat, Nat.mod_eq_of_lt hm],
        by rw [BitVec.toNat_ofNat, Nat.mod_eq_of_lt hm]⟩
  have hinj : Function.Injective (BitVec.toNat : BitVec w → ℕ) := fun x y h => BitVec.eq_of_toNat_eq h
  rw [← Set.ncard_image_of_injective _ hinj, himage, Set.ncard_coe_finset, ← Nat.count_eq_card_filter_range,
    Nat.count_modEq_card _ (Nat.two_pow_pos n)]
  have hdvd : 2 ^ n ∣ 2 ^ w := pow_dvd_pow 2 hn
  rw [Nat.mod_eq_zero_of_dvd hdvd, if_neg (Nat.not_lt_zero _), Nat.add_zero, Nat.pow_div hn (by decide)]

end Mixing
