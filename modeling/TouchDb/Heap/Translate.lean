import TouchDb.Heap.Model
import TouchDb.Pool.Runs

/-! Addresses and pointers, over all pools that a process has mapped. -/
namespace TouchDb
open Prog

/-- The first `n` pools are in use, and their mappings do not overlap. -/
structure PoolTable (s : Touchdb) (n : ℕ) : Prop where
  le : n ≤ touchdbPoolListSize
  idx : ∀ i < n, (s.poolList i).idx = Int32.ofNat i
  cur : ∀ i < n, (s.poolList i).curOffset ≠ NIL
  size : ∀ i < n, (s.poolList i).size = Int32.ofNat touchdbDefaultPoolSize
  end_eq : ∀ i < n, (s.shmInfo i).end_ = (s.shmInfo i).start + touchdbDefaultPoolSize
  apart : ∀ i < n, ∀ k < n, i ≠ k →
    (s.shmInfo i).start + touchdbDefaultPoolSize ≤ (s.shmInfo k).start ∨
      (s.shmInfo k).start + touchdbDefaultPoolSize ≤ (s.shmInfo i).start

namespace PoolTable
variable {s : Touchdb} {n i k p : ℕ} {offset : PtrOffset}

theorem idx_toInt (h : PoolTable s n) (hi : i < n) : (s.poolList i).idx.toInt = i := by
  have hle := h.le
  have hN : touchdbPoolListSize < 2 ^ 31 := by decide
  rw [h.idx i hi]
  exact Int32.toInt_ofNat_of_lt (by omega)

theorem shmStart_ok (h : PoolTable s n) (hi : i < n) :
    shmStart i s = .ok ((s.shmInfo i).start, s, []) := by
  have hle := h.le
  have hx := h.idx_toInt hi
  have hr : 0 ≤ (s.poolList i).idx.toInt ∧ (s.poolList i).idx.toInt < touchdbPoolListSize := by
    omega
  have hs : shmStart i s = .ok ((s.shmInfo (s.poolList i).idx.toInt.toNat).start, s, []) := if_pos hr
  rw [hs, hx]
  rfl

theorem shmInfoOf_ok (h : PoolTable s n) (hi : i < n) :
    shmInfoOf i s = .ok (s.shmInfo i, s, []) := by
  have hle := h.le
  have hx := h.idx_toInt hi
  have hr : 0 ≤ (s.poolList i).idx.toInt ∧ (s.poolList i).idx.toInt < touchdbPoolListSize := by
    omega
  have hs : shmInfoOf i s = .ok (s.shmInfo (s.poolList i).idx.toInt.toNat, s, []) := if_pos hr
  rw [hs, hx]
  rfl

/-- The offset counts from the start of the pool. -/
theorem touchdbPtrOf_ok (h : PoolTable s n) (hi : i < n)
    (ho : offset.toNat ≤ touchdbDefaultPoolSize) :
    touchdbPtrOf ⟨Int32.ofNat i, offset⟩ s = .ok ((s.shmInfo i).start + offset.toNat, s,
      [.translate ⟨Int32.ofNat i, offset⟩]) := by
  have hle := h.le
  have hN : touchdbPoolListSize < 2 ^ 31 := by decide
  have hx : (Int32.ofNat i).toInt = i := Int32.toInt_ofNat_of_lt (by omega)
  have hr : 0 ≤ (Int32.ofNat i).toInt ∧ (Int32.ofNat i).toInt < touchdbPoolListSize := by omega
  have hp : poolAt (Int32.ofNat i) s = .ok ((Int32.ofNat i).toInt.toNat, s, []) := if_pos hr
  rw [hx] at hp
  have hg : getPool i s = .ok (s.poolList i, s, []) := rfl
  have hsz : ¬ (s.poolList i).size.toUInt32 < offset := by
    rw [h.size i hi, Int32.toUInt32_ofNat', UInt32.lt_iff_toNat_lt, Words.toNat_ofNat (by decide)]
    omega
  have hptr : ptrOf i offset s = .ok ((s.shmInfo i).start + offset.toNat, s, []) := by
    unfold ptrOf
    rw [bind_silent hg, if_neg hsz, bind_silent (h.shmStart_ok hi)]
    rfl
  have ht : translate ⟨Int32.ofNat i, offset⟩ s = .ok ((), s, [.translate ⟨Int32.ofNat i, offset⟩]) :=
    rfl
  unfold touchdbPtrOf
  apply ok_bind  ht
  rw [bind_silent hp]
  exact hptr

/-- A pointer into a pool lies in no other one, the ends included. -/
theorem outside (h : PoolTable s n) (hi : i < n) (hk : k < n) (hne : k ≠ i)
    (hp : (s.shmInfo i).start < p ∧ p < (s.shmInfo i).start + touchdbDefaultPoolSize) :
    ¬ ((s.shmInfo k).start ≤ p ∧ p ≤ (s.shmInfo k).end_) := by
  have hd := h.apart i hi k hk hne.symm
  have hsz : 0 < touchdbDefaultPoolSize := by decide
  rw [h.end_eq k hk]
  omega

/-- The search passes the pools before the one that has the pointer. -/
theorem addrOfSearch_ok (h : PoolTable s n) (hi : i < n)
    (hp : (s.shmInfo i).start < p ∧ p < (s.shmInfo i).start + touchdbDefaultPoolSize)
    (d rounds : ℕ) (hk : k + d = i) (hr : i < k + rounds) :
    addrOfSearch p rounds k s =
      .ok (⟨Int32.ofNat i, UInt32.ofNat (p - (s.shmInfo i).start)⟩, s, []) := by
  induction d generalizing k rounds with
  | zero =>
    obtain ⟨r, rfl⟩ : ∃ r, rounds = r + 1 := ⟨rounds - 1, by omega⟩
    obtain rfl : k = i := hk
    have hg : getPool k s = .ok (s.poolList k, s, []) := rfl
    have hin : (s.shmInfo k).start ≤ p ∧ p ≤ (s.shmInfo k).end_ := by
      rw [h.end_eq k hi]
      omega
    unfold addrOfSearch
    rw [bind_silent hg, if_pos (h.cur k hi), bind_silent (h.shmInfoOf_ok hi), if_pos hin]
    rfl
  | succ d ih =>
    obtain ⟨r, rfl⟩ : ∃ r, rounds = r + 1 := ⟨rounds - 1, by omega⟩
    have hkn : k < n := by omega
    have hg : getPool k s = .ok (s.poolList k, s, []) := rfl
    unfold addrOfSearch
    rw [bind_silent hg, if_pos (h.cur k hkn), bind_silent (h.shmInfoOf_ok hkn),
      if_neg (h.outside hi hkn (by omega) hp)]
    exact ih r (by omega) (by omega)

theorem touchdbAddrOf_ok (h : PoolTable s n) (hi : i < n)
    (hp : (s.shmInfo i).start < p ∧ p < (s.shmInfo i).start + touchdbDefaultPoolSize) :
    touchdbAddrOf p s = .ok (⟨Int32.ofNat i, UInt32.ofNat (p - (s.shmInfo i).start)⟩, s, []) := by
  have hle := h.le
  exact h.addrOfSearch_ok hi hp i touchdbPoolListSize (Nat.zero_add i) (by omega)

end PoolTable

/-- On every pool of the table, an address and the pointer for it determine each other. -/
theorem addrOf_ptrOf {s : Touchdb} {n : ℕ} (h : PoolTable s n) {i : ℕ} (hi : i < n) :
    (∀ offset : PtrOffset, 0 < offset.toNat → offset.toNat < touchdbDefaultPoolSize →
      (touchdbPtrOf ⟨Int32.ofNat i, offset⟩ >>= touchdbAddrOf).run s =
        .ok (⟨Int32.ofNat i, offset⟩, s)) ∧
    ∀ p, (s.shmInfo i).start < p → p < (s.shmInfo i).start + touchdbDefaultPoolSize →
      (touchdbAddrOf p >>= touchdbPtrOf).run s = .ok (p, s) := by
  constructor
  · intro offset h0 ho
    have hptr := h.touchdbPtrOf_ok hi (Nat.le_of_lt ho)
    have haddr := h.touchdbAddrOf_ok (p := (s.shmInfo i).start + offset.toNat) hi (by omega)
    rw [Nat.add_sub_cancel_left, UInt32.ofNat_toNat] at haddr
    exact run_ok (ok_bind hptr haddr)
  · intro p h1 h2
    have hlt := poolSize_lt
    have ho : (UInt32.ofNat (p - (s.shmInfo i).start)).toNat = p - (s.shmInfo i).start :=
      Words.toNat_ofNat (by omega)
    have haddr := h.touchdbAddrOf_ok hi ⟨h1, h2⟩
    have hptr := h.touchdbPtrOf_ok hi (by omega :
      (UInt32.ofNat (p - (s.shmInfo i).start)).toNat ≤ touchdbDefaultPoolSize)
    rw [ho, Nat.add_sub_cancel' (Nat.le_of_lt h1)] at hptr
    exact run_ok (ok_bind haddr hptr)

/-- Two pools, the second one mapped right below the first. -/
def adjacentPools : Touchdb :=
  { Touchdb.zero with
    poolList := fun i =>
      { Touchdb.zero.poolList 0 with
        idx := Int32.ofNat i
        curOffset := 1
        size := Int32.ofNat touchdbDefaultPoolSize }
    shmInfo := fun i =>
      let start := 4096 + touchdbDefaultPoolSize * (1 - i)
      ⟨start, start + touchdbDefaultPoolSize⟩ }

/-- The first byte of the upper pool after its start, and the end of the lower one. -/
theorem addrOf_ptrOf_adjacent :
    (touchdbPtrOf ⟨0, 1⟩ >>= touchdbAddrOf).run adjacentPools = .ok (⟨0, 1⟩, adjacentPools) ∧
      (touchdbAddrOf (4096 + touchdbDefaultPoolSize - 1) >>= touchdbPtrOf).run adjacentPools =
        .ok (4096 + touchdbDefaultPoolSize - 1, adjacentPools) := by
  have h : PoolTable adjacentPools 2 := {
    le := by decide
    idx := fun i _ => rfl
    cur := fun i _ => (by decide : (1 : PtrOffset) ≠ NIL)
    size := fun i _ => rfl
    end_eq := fun i _ => rfl
    apart := by decide }
  exact ⟨(addrOf_ptrOf h (i := 0) (by decide)).1 1 (by decide) (by decide),
    (addrOf_ptrOf h (i := 1) (by decide)).2 _ (by decide) (by decide)⟩

end TouchDb
