import TouchDb.Core.Costs
import TouchDb.Heap.Preserved
import TouchDb.Heap.Rules
import Mathlib.Algebra.Order.BigOperators.Group.List

/-! The space that calls take. Where the first pool has room for the blocks that a call asks for, it
gets them, whatever else the state is. -/
namespace TouchDb
open Prog Layout

/-- The first pool has room for `n` more bytes. -/
structure Ample (n : ℕ) (s : Touchdb) : Prop where
  count : (s.poolList 0).freeBlkListCount = Int32.ofNat touchdbPoolFreeListCount
  size : (s.poolList 0).size = Int32.ofNat touchdbDefaultPoolSize
  cur : (s.poolList 0).curOffset.toNat + n ≤ touchdbDefaultPoolSize

/-- No request for a block fails. -/
def supplied : Guard Stop Event := ⟨fun e => e ≠ .noBlock, fun _ => True⟩

/-- The call asks for blocks of these sizes at most. -/
def Asks {α : Type} (ns : List ℕ) (c : M α) : Prop := Costs supplied Ample (roomFor ns) c

section
variable {α β : Type} {c d : M α} {f : α → M β} {ms ns : List ℕ} {s t : Touchdb} {m n i j : ℕ}

theorem Ample.of_le (h : Ample n s) (hmn : m ≤ n) : Ample m s :=
  ⟨h.count, h.size, Nat.le_trans (Nat.add_le_add_left hmn _) h.cur⟩

theorem Ample.of_pool (h : Ample n s) (hp : t.poolList 0 = s.poolList 0) : Ample n t := by
  obtain ⟨h1, h2, h3⟩ := h
  rw [← hp] at h1 h2 h3
  exact ⟨h1, h2, h3⟩

theorem Heap.ample {B : ℕ} {a : PoolAlloc} (h : Heap B s a) (hr : a.cur + n ≤ touchdbDefaultPoolSize) :
    Ample n s := ⟨h.count_eq, h.size_eq, by rw [h.cur]; exact hr⟩

/-- What follows a reading call starts where it started. -/
theorem Unseen.wp_bind {Q : β → Touchdb → Prop} (h : Unseen c) (hf : ∀ a, wp supplied (f a) Q s) :
    wp supplied (c >>= f) Q s := by
  have hkeep : Preserves supplied (· = s) c := (h (· = s)).mono (fun _ he => he) fun _ _ => trivial
  refine wp_seq (hkeep s rfl) fun a t ht => ?_
  rw [ht]
  exact hf a

/-- A store of bytes that may fault. -/
theorem wp_write {Q : Unit → Touchdb → Prop} {c : M Unit} {p : ℕ} {bs : List UInt8} {ev : List Event}
    {b : Prop} [Decidable b] (h : c s = if b then .ok ((), s.write p bs, ev) else .error (.fault, []))
    (hQ : Q () (s.write p bs)) : wp supplied c Q s := by
  unfold wp
  rw [h]
  split_ifs
  · exact ⟨fun _ _ => trivial, hQ⟩
  · exact ⟨fun _ _ => trivial, (by decide : Stop.fault ≠ .noBlock)⟩

namespace Asks

protected theorem bind {l q : List ℕ} (h : Asks l c) (hf : ∀ a, Asks q (f a)) :
    Asks (l ++ q) (c >>= f) := by
  have hsum : roomFor (l ++ q) = roomFor l + roomFor q := by simp [roomFor]
  unfold Asks
  rw [hsum]
  exact Costs.bind h hf

protected theorem ite {p : Prop} [Decidable p] (hc : p → Asks ns c) (hd : ¬ p → Asks ns d) :
    Asks ns (if p then c else d) := Costs.ite hc hd

theorem of_sublist (h : Asks ms c) (hs : ms.Sublist ns) : Asks ns c :=
  Costs.mono (fun hle h => h.of_le hle) h ((hs.map _).sum_le_sum fun _ _ => Nat.zero_le _)

/-- A call that reads. -/
protected theorem unseen (h : Unseen c) : Asks [] c :=
  Costs.of_preserves fun m => (h (Ample m)).mono (fun _ he => he) fun _ _ => trivial

protected theorem pure (a : α) : Asks [] (Pure.pure a : M α) := .unseen (.pure a)

/-- A call before which nothing is asked for. -/
protected theorem seq (h : Asks [] c) (hf : ∀ a, Asks ns (f a)) : Asks ns (c >>= f) := h.bind hf

/-- A call after which nothing is asked for. -/
protected theorem last (h : Asks ns c) (hf : ∀ a, Asks [] (f a)) : Asks ns (c >>= f) := by
  have hb := h.bind hf
  rwa [List.append_nil] at hb

/-- What follows a call that asks for nothing. -/
theorem wp_bind {Q : β → Touchdb → Prop} (h : Asks [] c) (hs : Ample m s)
    (hf : ∀ a t, Ample m t → wp supplied (f a) Q t) : wp supplied (c >>= f) Q s :=
  wp_seq (h m s ((Nat.zero_add m).symm ▸ hs)) hf

protected theorem store [Layout α] (p : ℕ) (f : Field α) (v : α) : Asks [] (TouchDb.store p f v) :=
  Costs.of_preserves fun _ _ hs => wp_write rfl (hs.of_pool rfl)

protected theorem storeBytes (p : ℕ) (bs : List UInt8) : Asks [] (TouchDb.storeBytes p bs) :=
  Costs.of_preserves fun _ _ hs => wp_write rfl (hs.of_pool rfl)

protected theorem assign {g : Touchdb → Touchdb} (hg : ∀ {n s}, Ample n s → Ample n (g s)) :
    Asks [] (TouchDb.assign g) :=
  Costs.of_preserves fun _ => .update (fun _ _ _ _ => trivial) fun _ hs => hg hs

end Asks

theorem asks_setList (j i : ℕ) (g : TouchdbFreeBlkList → TouchdbFreeBlkList) : Asks [] (setList j i g) := by
  apply Asks.assign
  intro n s h
  by_cases hj : 0 = j
  · subst hj
    obtain ⟨h1, h2, h3⟩ := h
    constructor
    · rwa [setPool_poolList, setList_count]
    · rwa [setPool_poolList, setList_size]
    · rwa [setPool_poolList, setList_curOffset]
  · exact h.of_pool (setPool_poolList_ne s j _ hj)

/-! Requests. -/

theorem wp_poolMallocCarve_ample (h : Ample (n + 24 + m) s) (h2 : n ≤ 2 ^ 20) :
    wp supplied (poolMallocCarve 0 (Int32.ofNat (sizeClass n))) (fun p t => p ≠ NULL ∧ Ample m t) s := by
  have hsz := poolSize_lt
  have hblk := blkSize_le n
  have hcur := h.cur
  have hadd : ((s.poolList 0).curOffset + UInt32.ofNat (blkHdrSize + blkCap (sizeClass n))).toNat =
      (s.poolList 0).curOffset.toNat + (blkHdrSize + blkCap (sizeClass n)) := by
    rw [UInt32.toNat_add, Words.toNat_ofNat (by omega)]
    exact Nat.mod_eq_of_lt (by omega)
  have hlt : ¬ (s.poolList 0).size.toUInt32 <
      (s.poolList 0).curOffset + UInt32.ofNat (blkHdrSize + blkCap (sizeClass n)) := by
    rw [UInt32.lt_iff_toNat_lt, hadd, h.size, Int32.toUInt32_ofNat', Words.toNat_ofNat (by omega)]
    omega
  unfold poolMallocCarve
  refine wp_bind (wp_getPool ?_)
  dsimp only
  rw [blkSize_eq, if_neg hlt]
  refine (unseen_shmStart 0).wp_bind fun start => wp_bind (wp_write rfl (wp_bind (wp_assign trivial
    (wp_pure ⟨by simp only [NULL, blkHdrSize]; omega, ?_⟩))))
  refine ⟨?_, ?_, ?_⟩
  · rw [setPool_poolList]
    exact h.count
  · rw [setPool_poolList]
    exact h.size
  · rw [setPool_poolList]
    show ((s.poolList 0).curOffset + _).toNat + m ≤ touchdbDefaultPoolSize
    rw [hadd]
    omega

theorem wp_poolMallocReuse_ample (h : Ample m s) (i : ℕ) :
    wp supplied (poolMallocReuse 0 i) (fun p t => p ≠ NULL ∧ Ample m t) s := by
  unfold poolMallocReuse
  refine (unseen_getList 0 i).wp_bind fun list => (unseen_ptrOf 0 _).wp_bind fun hdr =>
    (unseen_load hdr _).wp_bind fun next => Asks.wp_bind (.ite (fun _ => ?_) fun _ => ?_) h fun _ t ht => ?_
  · exact (Asks.unseen (unseen_ptrOf 0 next)).seq fun q => .store q _ _
  · exact asks_setList 0 i _
  · refine (unseen_load hdr _).wp_bind fun next => (asks_setList 0 i _).wp_bind ht fun _ u hu =>
      (asks_setList 0 i _).wp_bind hu fun _ v hv => wp_pure ⟨?_, hv⟩
    simp only [NULL, blkHdrSize]
    omega

theorem wp_poolMalloc_ample (h : Ample (n + 24 + m) s) (h1 : 1 ≤ n) (h2 : n ≤ 2 ^ 20) :
    wp supplied (touchdbPoolMalloc 0 (UInt32.ofNat n)) (fun p t => p ≠ NULL ∧ Ample m t) s := by
  have hi := sizeClass_lt h2
  have hN : touchdbPoolFreeListCount < 2 ^ 31 := by decide
  unfold touchdbPoolMalloc
  dsimp only
  rw [freeListIdx_eq h1 (by omega)]
  refine wp_bind (wp_getPool ?_)
  have hle : ¬ (s.poolList 0).freeBlkListCount < Int32.ofNat (sizeClass n) := by
    rw [h.count, Int32.ofNat_lt_iff_lt (by omega) (by omega)]
    omega
  rw [if_neg hle]
  refine wp_bind (wp_freeBlkListAt hi (wp_bind (wp_getList (wp_ite ?_ ?_))))
  · exact fun _ => wp_poolMallocCarve_ample h h2
  · exact fun _ => wp_poolMallocReuse_ample (h.of_le (Nat.le_add_left _ _)) _

theorem asks_touchdbMalloc (h1 : 1 ≤ n) (h2 : n ≤ 2 ^ 20) : Asks [n] (touchdbMalloc n) := by
  intro m s hs
  unfold touchdbMalloc touchdbPoolListSize mallocSearch
  refine wp_bind (wp_bind (wp_mono (wp_poolMalloc_ample (m := m) hs h1 h2) ?_))
  rintro p t ⟨hp, ht⟩
  rw [if_pos hp]
  exact wp_pure ((unseen_ptrOffsetOf 0 p).wp_bind fun _ => wp_pure ht)

theorem asks_touchdbMallocAt (q : ℕ) (f : Field TouchdbAddr) (h1 : 1 ≤ n) (h2 : n ≤ 2 ^ 20) :
    Asks [n] (touchdbMallocAt q f n) :=
  (asks_touchdbMalloc h1 h2).last fun _ => (Asks.store _ _ _).seq fun _ =>
    (Asks.store _ _ _).seq fun _ => .pure _

/-! Releases. -/

theorem asks_poolFreeLink (j i blk : ℕ) : Asks [] (poolFreeLink j i blk) := by
  apply (Asks.unseen (unseen_getList j i)).seq
  intro list
  apply Asks.seq
  · apply Asks.ite
    · intro _
      apply (Asks.store _ _ _).seq
      intro _
      apply (Asks.unseen (unseen_ptrOffsetOf j blk)).seq
      intro offset
      exact (asks_setList j i _).seq fun _ => asks_setList j i _
    · intro _
      apply (Asks.unseen (unseen_ptrOf j _)).seq
      intro tail
      apply (Asks.store _ _ _).seq
      intro _
      apply (Asks.unseen (unseen_ptrOffsetOf j blk)).seq
      intro offset
      exact (Asks.store _ _ _).seq fun _ => asks_setList j i _
  · exact fun _ => (Asks.store _ _ _).seq fun _ => asks_setList j i _

theorem asks_touchdbPoolFree (j p : ℕ) : Asks [] (touchdbPoolFree j p) := by
  apply (Asks.unseen (unseen_load _ _)).seq
  intro idx
  apply (Asks.unseen (unseen_getPool j)).seq
  intro pool
  apply Asks.ite
  · exact fun _ => .pure _
  · exact fun _ => (Asks.unseen (unseen_freeBlkListAt idx)).seq fun i => asks_poolFreeLink j i _

theorem asks_touchdbFree (addr : TouchdbAddr) : Asks [] (touchdbFree addr) :=
  (Asks.unseen (unseen_poolAt _)).seq fun j =>
    (Asks.unseen (unseen_ptrOf j _)).seq fun p => asks_touchdbPoolFree j p

end
end TouchDb
