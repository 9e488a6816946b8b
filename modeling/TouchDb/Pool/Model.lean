import TouchDb.Common
import Mathlib.Logic.Function.Basic

/-! `touchdb_pool.c`: the pool allocator. A pool is named by its index `j` in
`pool_list`. Calls of `touchdb_log` are left out, they change nothing. -/
namespace TouchDb

def Touchdb.setPool (s : Touchdb) (j : ℕ) (f : TouchdbPool → TouchdbPool) : Touchdb :=
  { s with poolList := Function.update s.poolList j (f (s.poolList j)) }

def TouchdbPool.setList (pool : TouchdbPool) (i : ℕ)
    (f : TouchdbFreeBlkList → TouchdbFreeBlkList) : TouchdbPool :=
  { pool with freeBlkList := Function.update pool.freeBlkList i (f (pool.freeBlkList i)) }

section Records
variable {α : Type} [Layout α] (s : Touchdb) (j k : ℕ) (f : TouchdbPool → TouchdbPool)

@[simp] theorem setPool_poolList : (s.setPool j f).poolList j = f (s.poolList j) := by
  simp [Touchdb.setPool]

theorem setPool_poolList_ne {k : ℕ} (h : k ≠ j) :
    (s.setPool j f).poolList k = s.poolList k := by
  simp [Touchdb.setPool, h]

@[simp] theorem setPool_mem : (s.setPool j f).mem = s.mem := rfl

@[simp] theorem setPool_map : (s.setPool j f).map = s.map := rfl

@[simp] theorem setPool_shmInfo : (s.setPool j f).shmInfo = s.shmInfo := rfl

@[simp] theorem setPool_field (p : ℕ) (g : Field α) :
    (s.setPool j f).field p g = s.field p g := rfl

variable (p : ℕ) (bs : List UInt8)

@[simp] theorem write_poolList : (s.write p bs).poolList = s.poolList := rfl

@[simp] theorem write_map : (s.write p bs).map = s.map := rfl

@[simp] theorem write_shmInfo : (s.write p bs).shmInfo = s.shmInfo := rfl

variable (pool : TouchdbPool) (i : ℕ) (g : TouchdbFreeBlkList → TouchdbFreeBlkList)

@[simp] theorem setList_freeBlkList :
    (pool.setList i g).freeBlkList i = g (pool.freeBlkList i) := by
  simp [TouchdbPool.setList]

theorem setList_freeBlkList_ne {k : ℕ} (h : k ≠ i) :
    (pool.setList i g).freeBlkList k = pool.freeBlkList k := by
  simp [TouchdbPool.setList, h]

@[simp] theorem setList_count : (pool.setList i g).freeBlkListCount = pool.freeBlkListCount := rfl

@[simp] theorem setList_curOffset : (pool.setList i g).curOffset = pool.curOffset := rfl

@[simp] theorem setList_size : (pool.setList i g).size = pool.size := rfl

@[simp] theorem setList_idx : (pool.setList i g).idx = pool.idx := rfl

end Records

def getPool (j : ℕ) : M TouchdbPool := fun s => .ok (s.poolList j, s, [])

/-- `shm_info[pool->idx].start` -/
def shmStart (j : ℕ) : M ℕ := fun s =>
  let idx := (s.poolList j).idx.toInt
  if 0 ≤ idx ∧ idx < touchdbPoolListSize then .ok ((s.shmInfo idx.toNat).start, s, [])
  else .error (.fault, [])

/-- Where `pool->free_blk_list[idx]` stands in its array. -/
def freeBlkListAt (idx : Int32) : M ℕ := fun s =>
  if 0 ≤ idx.toInt ∧ idx.toInt < touchdbPoolFreeListCount then .ok (idx.toInt.toNat, s, [])
  else .error (.fault, [])

def getList (j i : ℕ) : M TouchdbFreeBlkList := fun s =>
  .ok ((s.poolList j).freeBlkList i, s, [])

def setList (j i : ℕ) (f : TouchdbFreeBlkList → TouchdbFreeBlkList) : M Unit :=
  assign fun s => s.setPool j fun pool => pool.setList i f

def ptrOffsetOf (j : ℕ) (ptr : ℕ) : M PtrOffset := do
  if ptr = NULL then return NIL
  else
    let start ← shmStart j
    if ptr < start then return NIL
    else return UInt32.ofNat (ptr - start)

def ptrOf (j : ℕ) (offset : PtrOffset) : M ℕ := do
  let pool ← getPool j
  if pool.size.toUInt32 < offset then return NULL
  else
    let start ← shmStart j
    return start + offset.toNat

def freeListIdx (size : Int32) : Int32 :=
  if size % 8 = 0 then (size >>> 3) - 1 else size >>> 3

def Touchdb.setShmInfo (s : Touchdb) (k : ℕ) (info : TouchdbShmInfo) : Touchdb :=
  { s with shmInfo := Function.update s.shmInfo k info }

@[simp] theorem setShmInfo_poolList (s : Touchdb) (k : ℕ) (info : TouchdbShmInfo) :
    (s.setShmInfo k info).poolList = s.poolList := rfl

/-- The assignments to `shm_info[pool->idx]`, which other processes do not see. -/
def mapShm (j : ℕ) (ptr : ℕ) : M Unit := fun s =>
  let idx := (s.poolList j).idx.toInt
  if 0 ≤ idx ∧ idx < touchdbPoolListSize then
    .ok ((), s.setShmInfo idx.toNat ⟨ptr, ptr + touchdbDefaultPoolSize⟩, [])
  else .error (.fault, [])

def touchdbPoolInit (j : ℕ) (ptr : ℕ) (isInited : Bool) : M Unit := do
  mapShm j ptr
  if isInited then return ()
  else
    assign fun s => s.setPool j fun pool =>
      { pool with freeBlkListCount := Int32.ofNat touchdbPoolFreeListCount }
    -- the loop that clears every list and stores its index
    assign fun s => s.setPool j fun pool =>
      { pool with freeBlkList := fun i =>
          if (i : Int) < pool.freeBlkListCount.toInt then ⟨0, 0, 0, Int32.ofNat i⟩
          else pool.freeBlkList i }
    assign fun s => s.setPool j fun pool =>
      { pool with size := Int32.ofNat touchdbDefaultPoolSize }
    assign fun s => s.setPool j fun pool => { pool with curOffset := 1 }

/-- The first branch of `touchdb_pool_malloc`: carve a new block. -/
def poolMallocCarve (j : ℕ) (idx : Int32) : M ℕ := do
  let pool ← getPool j
  let blkSize : Int32 := Int32.ofNat blkHdrSize + ((idx + 1) <<< 3)
  if pool.size.toUInt32 < pool.curOffset + blkSize.toUInt32 then return NULL
  else
    let start ← shmStart j
    let hdr := start + pool.curOffset.toNat
    store hdr FreeBlkHdr.idx idx
    assign fun s => s.setPool j fun pool =>
      { pool with curOffset := pool.curOffset + blkSize.toUInt32 }
    return hdr + blkHdrSize

/-- The second branch of `touchdb_pool_malloc`: hand out the header node of the list. -/
def poolMallocReuse (j i : ℕ) : M ℕ := do
  let list ← getList j i
  let hdr ← ptrOf j list.headerOffset
  let next ← load hdr FreeBlkHdr.nextOffset
  (if next ≠ NIL then do
    let q ← ptrOf j next
    store q FreeBlkHdr.prevOffset NIL
  else
    setList j i fun list => { list with tailOffset := NIL })
  let next ← load hdr FreeBlkHdr.nextOffset
  setList j i fun list => { list with headerOffset := next }
  setList j i fun list => { list with size := list.size - 1 }
  return hdr + blkHdrSize

def touchdbPoolMalloc (j : ℕ) (size : UInt32) : M ℕ := do
  let idx := freeListIdx size.toInt32
  let pool ← getPool j
  if pool.freeBlkListCount < idx then return NULL
  else
    let i ← freeBlkListAt idx
    let list ← getList j i
    if list.size = 0 then poolMallocCarve j idx
    else poolMallocReuse j i

/-- The linking half of `touchdb_pool_free`, for the block header `blk` and the list at `i`. -/
def poolFreeLink (j i : ℕ) (blk : ℕ) : M Unit := do
  let list ← getList j i
  (if list.size = 0 then do
    store blk FreeBlkHdr.prevOffset NIL
    let offset ← ptrOffsetOf j blk
    setList j i fun list => { list with tailOffset := offset }
    setList j i fun list => { list with headerOffset := offset }
  else do
    let tail ← ptrOf j list.tailOffset
    store blk FreeBlkHdr.prevOffset list.tailOffset
    let offset ← ptrOffsetOf j blk
    store tail FreeBlkHdr.nextOffset offset
    setList j i fun list => { list with tailOffset := offset })
  store blk FreeBlkHdr.nextOffset NIL
  setList j i fun list => { list with size := list.size + 1 }

def touchdbPoolFree (j : ℕ) (p : ℕ) : M Unit := do
  let blk := p - blkHdrSize
  let idx ← load blk FreeBlkHdr.idx
  let pool ← getPool j
  if idx < 0 ∨ pool.freeBlkListCount < idx then return ()
  else
    let i ← freeBlkListAt idx
    poolFreeLink j i blk

/-- The loop of `touchdb_pool_free_blk_info` over `n` lists from `i` on: what it logs of the lists
that are not empty. -/
def freeBlkInfoFrom (j : ℕ) : ℕ → ℕ → M (List (ℕ × Int32))
  | 0, _ => return []
  | n + 1, i => do
    let k ← freeBlkListAt (Int32.ofNat i)
    let list ← getList j k
    let rest ← freeBlkInfoFrom j n (i + 1)
    if list.size ≠ 0 then return (i, list.size) :: rest
    else return rest

def touchdbPoolFreeBlkInfo (j : ℕ) : M (List (ℕ × Int32)) := do
  let pool ← getPool j
  freeBlkInfoFrom j pool.freeBlkListCount.toInt.toNat 0

end TouchDb
