import TouchDb.Core.Lockstep
import TouchDb.Heap.Model

/-! One file of a store with a single pool in use, mapped at two addresses: the pool
allocator and the memory functions, in lockstep. -/
namespace TouchDb
open Prog Layout

/-- Where `mmap` puts the pool, past the page of `NULL`, and the other bytes of the process. -/
structure MapBase where
  ptr : ℕ
  page : 4096 ≤ ptr
  rest : Mem

/-- What the files of a store hold: the fields of the info file, and the byte at each offset of
its one pool in use. The other pools are as `memset` left them, so that every index is 0, and
the table of the map has an offset in its pool. -/
structure OnePoolFile where
  map : TouchdbMap
  poolList : ℕ → TouchdbPool
  bytes : ℕ → UInt8
  idx_eq : ∀ j, (poolList j).idx = 0
  table_le : map.bulkList.offset ≤ (poolList map.bulkList.poolIdx.toInt.toNat).size.toUInt32
  count_pos : 0 < map.bulkListCount.toInt

/-- A process that has the files open and no pool mapped yet. -/
def OnePoolFile.opened (file : OnePoolFile) (a : MapBase) : Touchdb where
  map := file.map
  poolList := file.poolList
  shmInfo _ := ⟨0, 0⟩
  mem x := if a.ptr ≤ x ∧ x < a.ptr + touchdbDefaultPoolSize then file.bytes (x - a.ptr)
    else a.rest x

/-- A process that has the pool mapped. -/
def OnePoolFile.mapAt (file : OnePoolFile) (a : MapBase) : Touchdb :=
  (file.opened a).setShmInfo 0 ⟨a.ptr, a.ptr + touchdbDefaultPoolSize⟩

/-- The process is what `touchdb_pool_init` makes of the files it loads. -/
theorem mapAt_eq (file : OnePoolFile) (a : MapBase) :
    touchdbPoolInit 0 a.ptr true (file.opened a) = .ok ((), file.mapAt a, []) := by
  have hidx : (0 : Int32).toInt = 0 := by decide
  have hi : (((file.opened a).poolList 0).idx).toInt = 0 := by
    show (file.poolList 0).idx.toInt = 0
    rw [file.idx_eq 0, hidx]
  have hm : mapShm 0 a.ptr (file.opened a) = .ok ((), file.mapAt a, []) := by
    simp only [mapShm, hi]
    rfl
  unfold touchdbPoolInit
  rw [bind_silent hm]
  rfl

/-- Two pointers into the mappings, at one distance from the starts. -/
def Moved (a b : MapBase) (p q : ℕ) : Prop := p ≠ NULL ∧ q ≠ NULL ∧ p + b.ptr = q + a.ptr

/-- Two pointers that differ by the difference of the starts, or both `NULL`. -/
def Shifted (a b : MapBase) (p q : ℕ) : Prop := p = NULL ∧ q = NULL ∨ Moved a b p q

/-- The same files: field by field, and byte by byte. -/
structure SameFiles (a b : MapBase) (s t : Touchdb) : Prop where
  map : t.map = s.map
  poolList : t.poolList = s.poolList
  bytes : ∀ i < touchdbDefaultPoolSize, t.mem (b.ptr + i) = s.mem (a.ptr + i)

/-- Both processes map the pool, over the same files; what no call changes is as in `file`. -/
structure Rebased (file : OnePoolFile) (a b : MapBase) (s t : Touchdb) : Prop
    extends SameFiles a b s t where
  shm_left : s.shmInfo = (file.mapAt a).shmInfo
  shm_right : t.shmInfo = (file.mapAt b).shmInfo
  idx : ∀ j, (s.poolList j).idx = 0
  size : ∀ j, (s.poolList j).size = (file.poolList j).size
  bulkList : s.map.bulkList = file.map.bulkList
  count : s.map.bulkListCount = file.map.bulkListCount

theorem OnePoolFile.rebased (file : OnePoolFile) (a b : MapBase) :
    Rebased file a b (file.mapAt a) (file.mapAt b) where
  map := rfl
  poolList := rfl
  bytes i hi := by
    simp [mapAt, opened, Touchdb.setShmInfo, hi]
  shm_left := rfl
  shm_right := rfl
  idx := file.idx_eq
  size _ := rfl
  bulkList := rfl
  count := rfl

section Pointers
variable {a b : MapBase} {p q k : ℕ}

theorem Moved.shifted (h : Moved a b p q) : Shifted a b p q := .inr h

theorem Moved.add (h : Moved a b p q) (k : ℕ) : Moved a b (p + k) (q + k) := by
  unfold Moved at *
  simp only [NULL] at *
  omega

theorem Moved.start (a b : MapBase) (k : ℕ) : Moved a b (a.ptr + k) (b.ptr + k) := by
  have ha := a.page
  have hb := b.page
  unfold Moved
  simp only [NULL]
  omega

theorem Shifted.null (a b : MapBase) : Shifted a b NULL NULL := .inl ⟨rfl, rfl⟩

theorem Shifted.null_iff (h : Shifted a b p q) : p = NULL ↔ q = NULL := by
  rcases h with ⟨hp, hq⟩ | ⟨hp, hq, -⟩
  · exact ⟨fun _ => hq, fun _ => hp⟩
  · exact ⟨fun h => absurd h hp, fun h => absurd h hq⟩

theorem Shifted.moved (h : Shifted a b p q) (hp : p ≠ NULL) : Moved a b p q :=
  h.resolve_left fun h => hp h.1

/-- Bytes inside the one mapping are inside the other. -/
theorem Shifted.bounds {n : ℕ} (h : Shifted a b p q)
    (hq : b.ptr ≤ q ∧ q + n ≤ b.ptr + touchdbDefaultPoolSize) :
    a.ptr ≤ p ∧ p + n ≤ a.ptr + touchdbDefaultPoolSize := by
  have hb := b.page
  have hm := h.resolve_left fun hc => by
    have h1 : q = 0 := hc.2
    omega
  have h1 := hm.2.2
  omega

theorem Moved.sub_start (h : Moved a b p q) : p - a.ptr = q - b.ptr := by
  have h1 := h.2.2
  omega

theorem Moved.lt_start_iff (h : Moved a b p q) : p < a.ptr ↔ q < b.ptr := by
  have h1 := h.2.2
  omega

end Pointers

section Mapping
variable {file : OnePoolFile} {a : MapBase} {s : Touchdb} {p n : ℕ}

theorem mapped_mapAt (h : s.shmInfo = (file.mapAt a).shmInfo) (hp : 0 < p) :
    s.mapped p n = true ↔ a.ptr ≤ p ∧ p + n ≤ a.ptr + touchdbDefaultPoolSize := by
  unfold Touchdb.mapped
  rw [h, List.any_eq_true]
  simp only [Bool.and_eq_true, decide_eq_true_eq, List.mem_range]
  constructor
  · rintro ⟨k, -, h1, h2⟩
    by_cases hk : k = 0
    · subst hk
      exact ⟨h1, h2⟩
    · have he : ((file.mapAt a).shmInfo k).end_ = 0 := by
        simp [OnePoolFile.mapAt, OnePoolFile.opened, Touchdb.setShmInfo, hk]
      omega
  · rintro ⟨h1, h2⟩
    exact ⟨0, by decide, h1, h2⟩

end Mapping

section Accesses
variable {α γ δ : Type} [Layout α] {file : OnePoolFile} {a b : MapBase} {s t : Touchdb}
  {p q n : ℕ} {f : Field α} {V : γ → δ → Prop}

namespace Rebased

theorem mapped_iff (h : Rebased file a b s t) (hp : 0 < p) (hq : 0 < q)
    (hpq : p + b.ptr = q + a.ptr) : s.mapped p n = true ↔ t.mapped q n = true := by
  rw [mapped_mapAt h.shm_left hp, mapped_mapAt h.shm_right hq]
  omega

theorem byte_eq (h : Rebased file a b s t) (hpq : p + b.ptr = q + a.ptr)
    (hm : a.ptr ≤ p ∧ p < a.ptr + touchdbDefaultPoolSize) : t.mem q = s.mem p := by
  have h1 := h.bytes (p - a.ptr) (by omega)
  rw [show b.ptr + (p - a.ptr) = q by omega, show a.ptr + (p - a.ptr) = p by omega] at h1
  exact h1

theorem field_eq (h : Rebased file a b s t) (hpq : p + b.ptr = q + a.ptr)
    (hm : a.ptr ≤ p + f.off ∧ p + f.off + Layout.size α ≤ a.ptr + touchdbDefaultPoolSize) :
    t.field q f = s.field p f := by
  unfold Touchdb.field Mem.peek Mem.read
  congr 1
  apply List.map_congr_left
  intro i hi
  have h1 := List.mem_range.mp hi
  apply h.byte_eq
  · omega
  · omega

theorem write (h : Rebased file a b s t) (hpq : p + b.ptr = q + a.ptr) {bs : List UInt8} :
    Rebased file a b (s.write p bs) (t.write q bs) where
  map := h.map
  poolList := h.poolList
  bytes i hi := by
    show Mem.write t.mem q bs (b.ptr + i) = Mem.write s.mem p bs (a.ptr + i)
    unfold Mem.write
    rw [h.bytes i hi, show b.ptr + i - q = a.ptr + i - p by omega]
    by_cases hlt : a.ptr + i < p
    · rw [if_pos hlt, if_pos (by omega)]
    · rw [if_neg hlt, if_neg (by omega)]
  shm_left := h.shm_left
  shm_right := h.shm_right
  idx := h.idx
  size := h.size
  bulkList := h.bulkList
  count := h.count

end Rebased

theorem load_fault (h : ¬ (p ≠ NULL ∧ s.mapped (p + f.off) (size α) = true)) :
    load p f s = .error (.fault, []) := if_neg h

theorem store_fault {v : α} (h : ¬ (p ≠ NULL ∧ s.mapped (p + f.off) (size α) = true)) :
    store p f v s = .error (.fault, []) := if_neg h

theorem lockstep_load (h : Moved a b p q) :
    Lockstep (Rebased file a b) Eq (load p f) (load q f) := by
  intro s t hst
  obtain ⟨hp, hq, hpq⟩ := h
  have hp0 : 0 < p := Nat.pos_of_ne_zero hp
  have hq0 : 0 < q := Nat.pos_of_ne_zero hq
  have hpf : 0 < p + f.off := Nat.add_pos_left hp0 f.off
  have hqf : 0 < q + f.off := Nat.add_pos_left hq0 f.off
  have hmm := hst.mapped_iff (n := size α) hpf hqf (by omega)
  by_cases hm : s.mapped (p + f.off) (size α) = true
  · have hin := (mapped_mapAt hst.shm_left hpf).mp hm
    apply Lockstep.agree_ok (load_ok hp0 hm) (load_ok hq0 (hmm.mp hm)) _ hst
    exact (hst.field_eq hpq hin).symm
  · exact Lockstep.agree_error (load_fault fun h => hm h.2) (load_fault fun h => hm (hmm.mpr h.2))

/-- A load from a pointer that may be `NULL`: past it the pointer is in the mapping. -/
theorem lockstep_load_bind {k : α → M γ} {k' : α → M δ} (h : Shifted a b p q)
    (hk : Moved a b p q → ∀ v, Lockstep (Rebased file a b) V (k v) (k' v)) :
    Lockstep (Rebased file a b) V (load p f >>= k) (load q f >>= k') := by
  rcases h with ⟨rfl, rfl⟩ | h
  · have hnull : Lockstep (Rebased file a b) (fun _ _ => False) (load NULL f) (load NULL f) := by
      intro s t _
      exact Lockstep.agree_error (load_fault fun h => h.1 rfl) (load_fault fun h => h.1 rfl)
    apply hnull.bind
    exact fun _ _ h => h.elim
  · apply (lockstep_load h).bind_eq
    exact hk h

theorem lockstep_storeBytes {bs : List UInt8} (h : Moved a b p q) :
    Lockstep (Rebased file a b) Eq (storeBytes p bs) (storeBytes q bs) := by
  intro s t hst
  obtain ⟨hp, hq, hpq⟩ := h
  have hmm := hst.mapped_iff (n := bs.length) (Nat.pos_of_ne_zero hp) (Nat.pos_of_ne_zero hq) hpq
  by_cases hm : s.mapped p bs.length = true
  · have h1 : storeBytes p bs s = .ok ((), s.write p bs, [.store p bs.length (s.write p bs)]) :=
      if_pos ⟨hp, hm⟩
    have h2 : storeBytes q bs t = .ok ((), t.write q bs, [.store q bs.length (t.write q bs)]) :=
      if_pos ⟨hq, hmm.mp hm⟩
    exact Lockstep.agree_ok h1 h2 rfl (hst.write hpq)
  · have h1 : storeBytes p bs s = .error (.fault, []) := if_neg fun h => hm h.2
    have h2 : storeBytes q bs t = .error (.fault, []) := if_neg fun h => hm (hmm.mpr h.2)
    exact Lockstep.agree_error h1 h2

theorem lockstep_store {v : α} (h : Shifted a b p q) :
    Lockstep (Rebased file a b) Eq (store p f v) (store q f v) := by
  intro s t hst
  rcases h with ⟨rfl, rfl⟩ | ⟨hp, hq, hpq⟩
  · exact Lockstep.agree_error (store_fault fun h => h.1 rfl) (store_fault fun h => h.1 rfl)
  have hp0 : 0 < p := Nat.pos_of_ne_zero hp
  have hq0 : 0 < q := Nat.pos_of_ne_zero hq
  have hmm := hst.mapped_iff (n := size α) (Nat.add_pos_left hp0 f.off)
    (Nat.add_pos_left hq0 f.off) (by omega)
  by_cases hm : s.mapped (p + f.off) (size α) = true
  · apply Lockstep.agree_ok (store_ok hp0 hm) (store_ok hq0 (hmm.mp hm)) rfl
    apply hst.write
    omega
  · exact Lockstep.agree_error (store_fault fun h => hm h.2) (store_fault fun h => hm (hmm.mpr h.2))

end Accesses

/-! The info file: what both processes read of it is the same. -/
section Records
variable {α : Type} {file : OnePoolFile} {a b : MapBase} {i j : ℕ}

theorem lockstep_getPool (j : ℕ) :
    Lockstep (Rebased file a b) (fun x y => x = y ∧ x.size = (file.poolList j).size)
      (getPool j) (getPool j) := by
  intro s t hst
  exact .ok ⟨congrFun hst.poolList.symm j, hst.size j⟩ hst

theorem lockstep_getList (j i : ℕ) :
    Lockstep (Rebased file a b) Eq (getList j i) (getList j i) := by
  intro s t hst
  have h : (s.poolList j).freeBlkList i = (t.poolList j).freeBlkList i := by rw [hst.poolList]
  exact .ok h hst

theorem lockstep_freeBlkListAt (idx : Int32) :
    Lockstep (Rebased file a b) Eq (freeBlkListAt idx) (freeBlkListAt idx) := by
  intro s t hst
  unfold freeBlkListAt
  by_cases h : 0 ≤ idx.toInt ∧ idx.toInt < touchdbPoolFreeListCount
  · exact Lockstep.agree_ok (if_pos h) (if_pos h) rfl hst
  · exact Lockstep.agree_error (if_neg h) (if_neg h)

theorem lockstep_poolAt (idx : Int32) :
    Lockstep (Rebased file a b) (fun x y => x = y ∧ x = idx.toInt.toNat)
      (poolAt idx) (poolAt idx) := by
  intro s t hst
  unfold poolAt
  by_cases h : 0 ≤ idx.toInt ∧ idx.toInt < touchdbPoolListSize
  · exact Lockstep.agree_ok (if_pos h) (if_pos h) ⟨rfl, rfl⟩ hst
  · exact Lockstep.agree_error (if_neg h) (if_neg h)

/-- An assignment to a field of a pool that keeps its size and its index. -/
theorem lockstep_setPool {g : TouchdbPool → TouchdbPool} (hidx : ∀ x, (g x).idx = x.idx)
    (hsize : ∀ x, (g x).size = x.size) :
    Lockstep (Rebased file a b) Eq (assign fun s => s.setPool j g)
      (assign fun s => s.setPool j g) := by
  apply Lockstep.update
  intro s t hst
  have hk (k : ℕ) : ((s.setPool j g).poolList k).idx = (s.poolList k).idx ∧
      ((s.setPool j g).poolList k).size = (s.poolList k).size := by
    by_cases h : k = j
    · subst h
      rw [setPool_poolList, hidx, hsize]
      exact ⟨rfl, rfl⟩
    · rw [setPool_poolList_ne s j g h]
      exact ⟨rfl, rfl⟩
  constructor
  case idx => exact fun k => (hk k).1.trans (hst.idx k)
  case size => exact fun k => (hk k).2.trans (hst.size k)
  case toSameFiles =>
    refine ⟨hst.map, ?_, hst.bytes⟩
    simp only [Touchdb.setPool, hst.poolList]
  case shm_left => exact hst.shm_left
  case shm_right => exact hst.shm_right
  case bulkList => exact hst.bulkList
  case count => exact hst.count

theorem lockstep_setList (j i : ℕ) (g : TouchdbFreeBlkList → TouchdbFreeBlkList) :
    Lockstep (Rebased file a b) Eq (setList j i g) (setList j i g) := by
  apply lockstep_setPool
  · exact fun _ => rfl
  · exact fun _ => rfl

theorem lockstep_shmInfoOf (j : ℕ) :
    Lockstep (Rebased file a b)
      (fun x y => x = ⟨a.ptr, a.ptr + touchdbDefaultPoolSize⟩ ∧
        y = ⟨b.ptr, b.ptr + touchdbDefaultPoolSize⟩) (shmInfoOf j) (shmInfoOf j) := by
  intro s t hst
  have hidx : (0 : Int32).toInt = 0 := by decide
  have hs : (s.poolList j).idx.toInt = 0 := by rw [hst.idx j, hidx]
  have ht : (t.poolList j).idx.toInt = 0 := by rw [hst.poolList, hs]
  have h1 : shmInfoOf j s = .ok (⟨a.ptr, a.ptr + touchdbDefaultPoolSize⟩, s, []) := by
    simp only [shmInfoOf, hs, hst.shm_left]
    rfl
  have h2 : shmInfoOf j t = .ok (⟨b.ptr, b.ptr + touchdbDefaultPoolSize⟩, t, []) := by
    simp only [shmInfoOf, ht, hst.shm_right]
    rfl
  exact Lockstep.agree_ok h1 h2 ⟨rfl, rfl⟩ hst

theorem lockstep_shmStart (j : ℕ) :
    Lockstep (Rebased file a b) (fun x y => x = a.ptr ∧ y = b.ptr) (shmStart j) (shmStart j) := by
  intro s t hst
  have hidx : (0 : Int32).toInt = 0 := by decide
  have hs : (s.poolList j).idx.toInt = 0 := by rw [hst.idx j, hidx]
  have ht : (t.poolList j).idx.toInt = 0 := by rw [hst.poolList, hs]
  have h1 : shmStart j s = .ok (a.ptr, s, []) := by
    simp only [shmStart, hs, hst.shm_left]
    rfl
  have h2 : shmStart j t = .ok (b.ptr, t, []) := by
    simp only [shmStart, ht, hst.shm_right]
    rfl
  exact Lockstep.agree_ok h1 h2 ⟨rfl, rfl⟩ hst

end Records

/-! Offsets and pointers. -/
section Offsets
variable {file : OnePoolFile} {a b : MapBase} {p q : ℕ}

theorem lockstep_ptrOffsetOf (j : ℕ) (h : Shifted a b p q) :
    Lockstep (Rebased file a b) Eq (ptrOffsetOf j p) (ptrOffsetOf j q) := by
  unfold ptrOffsetOf
  apply Lockstep.ite h.null_iff
  · exact fun _ _ => Lockstep.pure rfl
  · intro hp _
    have hm := h.moved hp
    apply (lockstep_shmStart j).bind
    rintro _ _ ⟨rfl, rfl⟩
    apply Lockstep.ite hm.lt_start_iff
    · exact fun _ _ => Lockstep.pure rfl
    · intro _ _
      rw [hm.sub_start]
      exact Lockstep.pure rfl

theorem lockstep_ptrOf (j : ℕ) (offset : PtrOffset) :
    Lockstep (Rebased file a b) (Shifted a b) (ptrOf j offset) (ptrOf j offset) := by
  unfold ptrOf
  apply (lockstep_getPool j).bind
  rintro pool _ ⟨rfl, -⟩
  apply Lockstep.ite Iff.rfl
  · exact fun _ _ => Lockstep.pure (.null a b)
  · intro _ _
    apply (lockstep_shmStart j).bind
    rintro _ _ ⟨rfl, rfl⟩
    exact Lockstep.pure (Moved.start a b _).shifted

/-- An offset that `ptr_of` takes gives no `NULL`. -/
theorem lockstep_ptrOf_moved {j : ℕ} {offset : PtrOffset}
    (h : offset ≤ (file.poolList j).size.toUInt32) :
    Lockstep (Rebased file a b) (Moved a b) (ptrOf j offset) (ptrOf j offset) := by
  unfold ptrOf
  apply (lockstep_getPool j).bind
  rintro pool _ ⟨rfl, hsize⟩
  have hle : ¬ pool.size.toUInt32 < offset := by
    rw [hsize]
    exact UInt32.not_lt.mpr h
  rw [if_neg hle]
  apply (lockstep_shmStart j).bind
  rintro _ _ ⟨rfl, rfl⟩
  exact Lockstep.pure (Moved.start a b _)

theorem lockstep_translate (addr : TouchdbAddr) :
    Lockstep (Rebased file a b) Eq (translate addr) (translate addr) := by
  apply Lockstep.update
  exact fun _ _ => id

theorem lockstep_touchdbPtrOf (addr : TouchdbAddr) :
    Lockstep (Rebased file a b) (Shifted a b) (touchdbPtrOf addr) (touchdbPtrOf addr) := by
  unfold touchdbPtrOf
  apply (lockstep_translate addr).bind_eq
  intro _
  apply (lockstep_poolAt addr.poolIdx).bind
  rintro j _ ⟨rfl, -⟩
  exact lockstep_ptrOf j addr.offset

/-- The table of the map. -/
theorem lockstep_table :
    Lockstep (Rebased file a b) (Moved a b) (touchdbPtrOf file.map.bulkList)
      (touchdbPtrOf file.map.bulkList) := by
  unfold touchdbPtrOf
  apply (lockstep_translate _).bind_eq
  intro _
  apply (lockstep_poolAt _).bind
  rintro _ _ ⟨rfl, rfl⟩
  exact lockstep_ptrOf_moved file.table_le

theorem lockstep_addrOfSearch (h : Moved a b p q) (rounds i : ℕ) :
    Lockstep (Rebased file a b) Eq (addrOfSearch p rounds i) (addrOfSearch q rounds i) := by
  induction rounds generalizing i with
  | zero => exact Lockstep.stop Stop.fault
  | succ rounds ih =>
    unfold addrOfSearch
    apply (lockstep_getPool i).bind
    rintro pool _ ⟨rfl, -⟩
    apply Lockstep.ite Iff.rfl
    · intro _ _
      apply (lockstep_shmInfoOf i).bind
      rintro _ _ ⟨rfl, rfl⟩
      have hpq := h.2.2
      apply Lockstep.ite
      · dsimp only
        omega
      · intro _ _
        dsimp only
        rw [h.sub_start]
        exact Lockstep.pure rfl
      · exact fun _ _ => ih (i + 1)
    · exact fun _ _ => Lockstep.stop Stop.exit

theorem lockstep_touchdbAddrOf (h : Moved a b p q) :
    Lockstep (Rebased file a b) Eq (touchdbAddrOf p) (touchdbAddrOf q) :=
  lockstep_addrOfSearch h touchdbPoolListSize 0

end Offsets

/-! The pool allocator and the memory functions. -/
section Blocks
variable {file : OnePoolFile} {a b : MapBase} {p q : ℕ}

theorem lockstep_poolMallocCarve (j : ℕ) (idx : Int32) :
    Lockstep (Rebased file a b) (Shifted a b) (poolMallocCarve j idx) (poolMallocCarve j idx) := by
  unfold poolMallocCarve
  apply (lockstep_getPool j).bind
  rintro pool _ ⟨rfl, -⟩
  apply Lockstep.ite Iff.rfl
  · exact fun _ _ => Lockstep.pure (.null a b)
  · intro _ _
    apply (lockstep_shmStart j).bind
    rintro _ _ ⟨rfl, rfl⟩
    have hhdr := Moved.start a b pool.curOffset.toNat
    apply (lockstep_store hhdr.shifted).bind_eq
    intro _
    apply Lockstep.bind_eq
    · apply lockstep_setPool
      · exact fun _ => rfl
      · exact fun _ => rfl
    intro _
    exact Lockstep.pure (hhdr.add blkHdrSize).shifted

theorem lockstep_poolMallocReuse (j i : ℕ) :
    Lockstep (Rebased file a b) (Shifted a b) (poolMallocReuse j i) (poolMallocReuse j i) := by
  unfold poolMallocReuse
  apply (lockstep_getList j i).bind_eq
  intro list
  apply (lockstep_ptrOf j list.headerOffset).bind
  intro hdr hdr' hhdr
  apply lockstep_load_bind hhdr
  intro hm next
  have hrest : Lockstep (Rebased file a b) Eq
      (if next ≠ NIL then do
        let q ← ptrOf j next
        store q FreeBlkHdr.prevOffset NIL
      else setList j i fun list => { list with tailOffset := NIL })
      (if next ≠ NIL then do
        let q ← ptrOf j next
        store q FreeBlkHdr.prevOffset NIL
      else setList j i fun list => { list with tailOffset := NIL }) := by
    apply Lockstep.ite Iff.rfl
    · intro _ _
      apply (lockstep_ptrOf j next).bind
      intro q q' hq
      exact lockstep_store hq
    · exact fun _ _ => lockstep_setList j i _
  apply hrest.bind_eq
  intro _
  apply (lockstep_load hm).bind_eq
  intro next
  apply (lockstep_setList j i _).bind_eq
  intro _
  apply (lockstep_setList j i _).bind_eq
  intro _
  exact Lockstep.pure (hm.add blkHdrSize).shifted

theorem lockstep_touchdbPoolMalloc (j : ℕ) (size : UInt32) :
    Lockstep (Rebased file a b) (Shifted a b) (touchdbPoolMalloc j size)
      (touchdbPoolMalloc j size) := by
  unfold touchdbPoolMalloc
  apply (lockstep_getPool j).bind
  rintro pool _ ⟨rfl, -⟩
  apply Lockstep.ite Iff.rfl
  · exact fun _ _ => Lockstep.pure (.null a b)
  · intro _ _
    apply (lockstep_freeBlkListAt _).bind_eq
    intro i
    apply (lockstep_getList j i).bind_eq
    intro list
    apply Lockstep.ite Iff.rfl
    · exact fun _ _ => lockstep_poolMallocCarve j _
    · exact fun _ _ => lockstep_poolMallocReuse j i

theorem lockstep_poolFreeLink (j i : ℕ) (h : Moved a b p q) :
    Lockstep (Rebased file a b) Eq (poolFreeLink j i p) (poolFreeLink j i q) := by
  unfold poolFreeLink
  apply (lockstep_getList j i).bind_eq
  intro list
  have hlink : Lockstep (Rebased file a b) Eq
      (if list.size = 0 then do
        store p FreeBlkHdr.prevOffset NIL
        let offset ← ptrOffsetOf j p
        setList j i fun list => { list with tailOffset := offset }
        setList j i fun list => { list with headerOffset := offset }
      else do
        let tail ← ptrOf j list.tailOffset
        store p FreeBlkHdr.prevOffset list.tailOffset
        let offset ← ptrOffsetOf j p
        store tail FreeBlkHdr.nextOffset offset
        setList j i fun list => { list with tailOffset := offset })
      (if list.size = 0 then do
        store q FreeBlkHdr.prevOffset NIL
        let offset ← ptrOffsetOf j q
        setList j i fun list => { list with tailOffset := offset }
        setList j i fun list => { list with headerOffset := offset }
      else do
        let tail ← ptrOf j list.tailOffset
        store q FreeBlkHdr.prevOffset list.tailOffset
        let offset ← ptrOffsetOf j q
        store tail FreeBlkHdr.nextOffset offset
        setList j i fun list => { list with tailOffset := offset }) := by
    apply Lockstep.ite Iff.rfl
    · intro _ _
      apply (lockstep_store h.shifted).bind_eq
      intro _
      apply (lockstep_ptrOffsetOf j h.shifted).bind_eq
      intro offset
      apply (lockstep_setList j i _).bind_eq
      intro _
      exact lockstep_setList j i _
    · intro _ _
      apply (lockstep_ptrOf j list.tailOffset).bind
      intro tail tail' htail
      apply (lockstep_store h.shifted).bind_eq
      intro _
      apply (lockstep_ptrOffsetOf j h.shifted).bind_eq
      intro offset
      apply (lockstep_store htail).bind_eq
      intro _
      exact lockstep_setList j i _
  apply hlink.bind_eq
  intro _
  apply (lockstep_store h.shifted).bind_eq
  intro _
  exact lockstep_setList j i _

/-- The header may begin before the mapping, but never where one process can read it and the
other cannot. -/
theorem lockstep_touchdbPoolFree (j : ℕ) (h : Shifted a b p q) :
    Lockstep (Rebased file a b) Eq (touchdbPoolFree j p) (touchdbPoolFree j q) := by
  unfold touchdbPoolFree
  have ha := a.page
  have hb := b.page
  by_cases hlow : p ≤ blkHdrSize ∨ q ≤ blkHdrSize
  · have hfault : Lockstep (Rebased file a b) (fun _ _ => False)
        (load (p - blkHdrSize) FreeBlkHdr.idx) (load (q - blkHdrSize) FreeBlkHdr.idx) := by
      intro s t hst
      have hout : p - blkHdrSize + 8 < a.ptr ∧ q - blkHdrSize + 8 < b.ptr := by
        unfold blkHdrSize at *
        rcases h with ⟨rfl, rfl⟩ | ⟨-, -, hpq⟩
        · simp only [NULL]
          omega
        · omega
      apply Lockstep.agree_error
      · apply load_fault
        rintro ⟨hp, hm⟩
        have h1 := (mapped_mapAt hst.shm_left (by simp)).mp hm
        exact absurd h1.1 (Nat.not_le.mpr hout.1)
      · apply load_fault
        rintro ⟨hq, hm⟩
        have h1 := (mapped_mapAt hst.shm_right (by simp)).mp hm
        exact absurd h1.1 (Nat.not_le.mpr hout.2)
    apply hfault.bind
    exact fun _ _ h => h.elim
  · have hm : Moved a b (p - blkHdrSize) (q - blkHdrSize) := by
      rcases h with ⟨rfl, rfl⟩ | ⟨-, -, hpq⟩
      · exact absurd (.inl (Nat.zero_le _)) hlow
      · unfold Moved
        simp only [NULL]
        omega
    apply (lockstep_load hm).bind_eq
    intro idx
    apply (lockstep_getPool j).bind
    rintro pool _ ⟨rfl, -⟩
    apply Lockstep.ite Iff.rfl
    · exact fun _ _ => Lockstep.pure rfl
    · intro _ _
      apply (lockstep_freeBlkListAt idx).bind_eq
      intro i
      exact lockstep_poolFreeLink j i hm

/-- The block found is never `NULL`. -/
theorem lockstep_mallocSearch (size : UInt32) (rounds i : ℕ) :
    Lockstep (Rebased file a b) (fun x y => Moved a b x.1 y.1 ∧ x.2 = y.2)
      (mallocSearch size rounds i) (mallocSearch size rounds i) := by
  induction rounds generalizing i with
  | zero => exact Lockstep.stop Stop.noBlock
  | succ rounds ih =>
    unfold mallocSearch
    apply (lockstep_touchdbPoolMalloc 0 size).bind
    intro p q h
    apply Lockstep.ite (not_congr h.null_iff)
    · exact fun hp _ => Lockstep.pure ⟨h.moved hp, rfl⟩
    · exact fun _ _ => ih (i + 1)

theorem lockstep_touchdbMalloc (size : ℕ) :
    Lockstep (Rebased file a b) (fun x y => Moved a b x.1 y.1 ∧ x.2 = y.2)
      (touchdbMalloc size) (touchdbMalloc size) := by
  unfold touchdbMalloc
  apply (lockstep_mallocSearch _ _ _).bind
  rintro ⟨p, i⟩ ⟨q, _⟩ ⟨h, rfl⟩
  apply (lockstep_ptrOffsetOf 0 h.shifted).bind_eq
  intro offset
  exact Lockstep.pure ⟨h, rfl⟩

theorem lockstep_touchdbMallocAt (f : Field TouchdbAddr) (size : ℕ) (h : Moved a b p q) :
    Lockstep (Rebased file a b) (Moved a b) (touchdbMallocAt p f size)
      (touchdbMallocAt q f size) := by
  unfold touchdbMallocAt
  apply (lockstep_touchdbMalloc size).bind
  rintro ⟨p', addr⟩ ⟨q', _⟩ ⟨h', rfl⟩
  have hf := (h.add f.off).shifted
  apply (lockstep_store hf).bind_eq
  intro _
  apply (lockstep_store hf).bind_eq
  intro _
  exact Lockstep.pure h'

theorem lockstep_touchdbFree (addr : TouchdbAddr) :
    Lockstep (Rebased file a b) Eq (touchdbFree addr) (touchdbFree addr) := by
  unfold touchdbFree
  apply (lockstep_poolAt addr.poolIdx).bind
  rintro j _ ⟨rfl, -⟩
  apply (lockstep_ptrOf j addr.offset).bind
  intro p q h
  exact lockstep_touchdbPoolFree j h

end Blocks

end TouchDb
