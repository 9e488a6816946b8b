import TouchDb.Pool.Runs
import Mathlib.Data.UInt

/-! Which requests name a free list of the pool, and which headers do. Both checks compare
the class with the length of the table by `>`. -/
namespace TouchDb
open Prog

/-- The class indices that `pool->free_blk_list` has. -/
def InTable (idx : Int32) : Prop := 0 ≤ idx.toInt ∧ idx.toInt < touchdbPoolFreeListCount

/-- The request is refused, or the class that serves it is one of the table and has blocks
that are large enough. -/
def MallocInside (s : Touchdb) (j : ℕ) (size : UInt32) : Prop :=
  (∃ l, touchdbPoolMalloc j size s = .ok (NULL, s, l)) ∨
    InTable (freeListIdx size.toInt32) ∧
      (size.toNat : ℤ) ≤ ((freeListIdx size.toInt32).toInt + 1) * 8

/-- The free is refused, or the class that the header names is one of the table. -/
def FreeInside (s : Touchdb) (j p : ℕ) (idx : Int32) : Prop :=
  touchdbPoolFree j p s = .ok ((), s, []) ∨ InTable idx

/-- The class of a request, that of a negative size too. -/
theorem freeListIdx_toInt (x : Int32) : (freeListIdx x).toInt = (x.toInt - 1) / 8 := by
  have h1 := x.toInt_lt
  have h2 := x.le_toInt
  have hs := Words.toInt_shiftRight_three x
  have hm := Words.mod_eight_eq_zero x
  unfold freeListIdx
  by_cases h : x % 8 = 0
  · have h8 := hm.mp h
    rw [if_pos h, Words.toInt_sub_one (by rw [hs]; omega), hs]
    omega
  · have h8 := mt hm.mpr h
    rw [if_neg h, hs]
    omega

section
variable {s : Touchdb} {j p : ℕ} {size : UInt32} {idx : Int32}

theorem listCount_toInt :
    (Int32.ofNat touchdbPoolFreeListCount).toInt = (touchdbPoolFreeListCount : ℤ) :=
  Int32.toInt_ofNat_of_lt (by decide)

/-- A class that the check lets through and the table does not have. -/
theorem freeBlkListAt_outside (h : ¬ InTable idx) : freeBlkListAt idx s = .error (.fault, []) :=
  if_neg h

theorem poolMalloc_refused (h : (s.poolList j).freeBlkListCount < freeListIdx size.toInt32) :
    touchdbPoolMalloc j size s = .ok (NULL, s, []) := by
  have hp : getPool j s = .ok (s.poolList j, s, []) := rfl
  unfold touchdbPoolMalloc
  rw [bind_silent hp, if_pos h]
  rfl

theorem poolMalloc_outside (h : ¬ (s.poolList j).freeBlkListCount < freeListIdx size.toInt32)
    (ho : ¬ InTable (freeListIdx size.toInt32)) :
    touchdbPoolMalloc j size s = .error (.fault, []) := by
  have hp : getPool j s = .ok (s.poolList j, s, []) := rfl
  unfold touchdbPoolMalloc
  rw [bind_silent hp, if_neg h, bind_eq, freeBlkListAt_outside ho]

theorem mallocInside_iff
    (hc : (s.poolList j).freeBlkListCount = Int32.ofNat touchdbPoolFreeListCount) :
    MallocInside s j size ↔ 1 ≤ size.toNat ∧ size.toNat ≤ 2 ^ 20 ∨
      2 ^ 20 + 8 < size.toNat ∧ size.toNat < 2 ^ 31 := by
  have hN : (touchdbPoolFreeListCount : ℤ) = 2 ^ 17 := by decide
  have hlt := size.toNat_lt
  have hi := freeListIdx_toInt size.toInt32
  rw [Words.toInt_toInt32] at hi
  have href : (s.poolList j).freeBlkListCount < freeListIdx size.toInt32 ↔
      2 ^ 20 + 8 < size.toNat ∧ size.toNat < 2 ^ 31 := by
    rw [hc, Int32.lt_iff_toInt_lt, listCount_toInt, hi, hN]
    split_ifs <;> omega
  have hin : InTable (freeListIdx size.toInt32) ↔ 1 ≤ size.toNat ∧ size.toNat ≤ 2 ^ 20 := by
    unfold InTable
    rw [hi, hN]
    split_ifs <;> omega
  constructor
  · rintro (⟨l, hl⟩ | ⟨h, -⟩)
    · by_contra hno
      rw [not_or, ← hin, ← href] at hno
      rw [poolMalloc_outside hno.2 hno.1] at hl
      cases hl
    · exact .inl (hin.mp h)
  · rintro (h | h)
    · refine .inr ⟨hin.mpr h, ?_⟩
      rw [hi, if_pos (by omega)]
      omega
    · exact .inl ⟨[], poolMalloc_refused (href.mpr h)⟩

theorem freeInside_iff
    (hc : (s.poolList j).freeBlkListCount = Int32.ofNat touchdbPoolFreeListCount)
    (hl : load (p - blkHdrSize) FreeBlkHdr.idx s = .ok (idx, s, [])) :
    FreeInside s j p idx ↔ idx ≠ Int32.ofNat touchdbPoolFreeListCount := by
  have hp : getPool j s = .ok (s.poolList j, s, []) := rfl
  have hfree : touchdbPoolFree j p s =
      (if idx < 0 ∨ (s.poolList j).freeBlkListCount < idx then pure ()
        else freeBlkListAt idx >>= fun i => poolFreeLink j i (p - blkHdrSize) : M Unit) s := by
    unfold touchdbPoolFree
    rw [bind_silent hl, bind_silent hp]
  have hneg : idx < 0 ↔ idx.toInt < 0 := Int32.lt_iff_toInt_lt
  have hgt : (s.poolList j).freeBlkListCount < idx ↔ (touchdbPoolFreeListCount : ℤ) < idx.toInt := by
    rw [hc, Int32.lt_iff_toInt_lt, listCount_toInt]
  have hN : idx = Int32.ofNat touchdbPoolFreeListCount ↔ idx.toInt = touchdbPoolFreeListCount := by
    rw [← Int32.toInt_inj, listCount_toInt]
  unfold FreeInside
  rw [hfree]
  constructor
  · rintro h he
    have hi := hN.mp he
    have hout : ¬ InTable idx := by
      unfold InTable
      omega
    rcases h with h | h
    · rw [if_neg (by rw [hneg, hgt]; omega), bind_eq, freeBlkListAt_outside hout] at h
      cases h
    · exact hout h
  · intro hne
    by_cases h : idx < 0 ∨ (s.poolList j).freeBlkListCount < idx
    · rw [if_pos h]
      exact .inl rfl
    · rw [hneg, hgt] at h
      rw [Ne, hN] at hne
      refine .inr ⟨?_, ?_⟩ <;> omega

end

/-- Requests and headers stay inside the table exactly when the request is not `0`, not just
above the largest block and not negative as an `int`, and the header does not name the class
right after the last one. -/
theorem classes_inside {s : Touchdb} {j : ℕ}
    (hc : (s.poolList j).freeBlkListCount = Int32.ofNat touchdbPoolFreeListCount) :
    (∀ size : UInt32, MallocInside s j size ↔ 1 ≤ size.toNat ∧ size.toNat ≤ 2 ^ 20 ∨
      2 ^ 20 + 8 < size.toNat ∧ size.toNat < 2 ^ 31) ∧
    ∀ p idx, load (p - blkHdrSize) FreeBlkHdr.idx s = .ok (idx, s, []) →
      (FreeInside s j p idx ↔ idx ≠ Int32.ofNat touchdbPoolFreeListCount) := by
  constructor
  · intro size
    exact mallocInside_iff hc
  · intro p idx hl
    exact freeInside_iff hc hl

/-- The first pool of a new store, mapped at the second page. -/
theorem poolInit_page : ∃ s, (touchdbPoolInit 0 4096 false).next .zero = .ok s ∧
    (s.poolList 0).freeBlkListCount = Int32.ofNat touchdbPoolFreeListCount := by
  have hw : wp anyEvent (touchdbPoolInit 0 4096 false) (fun _ t =>
      (t.poolList 0).freeBlkListCount = Int32.ofNat touchdbPoolFreeListCount) .zero :=
    wp_mono (wp_touchdbPoolInit ⟨by decide, by decide⟩ (by decide) fun _ => trivial)
      fun _ t ht => ht.1.count_eq
  obtain ⟨_, s, hs, hc⟩ := next_ends hw fun _ h => h
  exact ⟨s, hs, hc⟩

/-- The largest block can be asked for, and every request above it that is refused. -/
theorem classes_inside_init : ∃ s, (touchdbPoolInit 0 4096 false).next .zero = .ok s ∧
    MallocInside s 0 (2 ^ 20) ∧ MallocInside s 0 (2 ^ 20 + 9) := by
  obtain ⟨s, hs, hc⟩ := poolInit_page
  have h := (classes_inside hc).1
  exact ⟨s, hs, (h _).mpr (by decide), (h _).mpr (by decide)⟩

/-- One byte more than the largest block holds is not refused, and its class is one past the
table; so is the class of a request for nothing, on the other side. -/
theorem classes_outside : ∃ s, (touchdbPoolInit 0 4096 false).next .zero = .ok s ∧
    ¬ MallocInside s 0 (2 ^ 20 + 1) ∧ ¬ MallocInside s 0 0 := by
  obtain ⟨s, hs, hc⟩ := poolInit_page
  refine ⟨s, hs, ?_, ?_⟩
  · rw [mallocInside_iff hc]
    decide
  · rw [mallocInside_iff hc]
    decide

end TouchDb
