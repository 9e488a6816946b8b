import TouchDb.Pool.Model

/-! The memory functions of `touchdb.c`: blocks named by an address, which is the index of
a pool in `pool_list` and an offset in that pool. -/
namespace TouchDb

/-- `&db->pool_list[idx]` -/
def poolAt (idx : Int32) : M ℕ := fun s =>
  if 0 ≤ idx.toInt ∧ idx.toInt < touchdbPoolListSize then .ok (idx.toInt.toNat, s, [])
  else .error (.fault, [])

/-- The loop of `touchdb_malloc`, cut off after some rounds. `p++` moves the result and not
the pool, so every round asks the first pool, and `shm_file`, an array, is never `NULL`. -/
def mallocSearch (size : UInt32) : ℕ → ℕ → M (ℕ × ℕ)
  | 0, _ => .stop .noBlock
  | rounds + 1, i => do
    let p ← touchdbPoolMalloc 0 size
    if p ≠ NULL then return (p, i)
    else mallocSearch size rounds (i + 1)

/-- `touchdb_malloc`: the pointer, and the address that `set_addr` stores for it. -/
def touchdbMalloc (size : ℕ) : M (ℕ × TouchdbAddr) := do
  let (p, i) ← mallocSearch (UInt32.ofNat size) touchdbPoolListSize 1
  let offset ← ptrOffsetOf 0 p
  return (p, ⟨Int32.ofNat (i - 1), offset⟩)

/-- `touchdb_malloc` for an address that is a field of shared memory. -/
def touchdbMallocAt (q : ℕ) (f : Field TouchdbAddr) (size : ℕ) : M ℕ := do
  let (p, addr) ← touchdbMalloc size
  store (q + f.off) Addr.poolIdx addr.poolIdx
  store (q + f.off) Addr.offset addr.offset
  return p

def touchdbFree (addr : TouchdbAddr) : M Unit := do
  let j ← poolAt addr.poolIdx
  let p ← ptrOf j addr.offset
  touchdbPoolFree j p

def translate (addr : TouchdbAddr) : M Unit := .update id fun _ => [.translate addr]

def touchdbPtrOf (addr : TouchdbAddr) : M ℕ := do
  translate addr
  let j ← poolAt addr.poolIdx
  ptrOf j addr.offset

/-- `shm_info[pool->idx]` -/
def shmInfoOf (j : ℕ) : M TouchdbShmInfo := fun s =>
  let idx := (s.poolList j).idx.toInt
  if 0 ≤ idx ∧ idx < touchdbPoolListSize then .ok (s.shmInfo idx.toNat, s, [])
  else .error (.fault, [])

/-- The loop of `touchdb_addr_of` from pool `i` on; past the last pool it reads outside the
list. -/
def addrOfSearch (p : ℕ) : ℕ → ℕ → M TouchdbAddr
  | 0, _ => .stop .fault
  | rounds + 1, i => do
    let pool ← getPool i
    if pool.curOffset ≠ NIL then
      let info ← shmInfoOf i
      if info.start ≤ p ∧ p ≤ info.end_ then
        return ⟨Int32.ofNat i, UInt32.ofNat (p - info.start)⟩
      else addrOfSearch p rounds (i + 1)
    else .stop .exit

def touchdbAddrOf (p : ℕ) : M TouchdbAddr := addrOfSearch p touchdbPoolListSize 0

/-- `touchdb_malloc` for a field of shared memory, if its search came to an end: `NULL` where the
pool has no block, and then the address is left as it is. -/
def mallocOrNull (q : ℕ) (f : Field TouchdbAddr) (size : ℕ) : M ℕ := do
  let p ← touchdbPoolMalloc 0 (UInt32.ofNat size)
  if p = NULL then return NULL
  else
    let offset ← ptrOffsetOf 0 p
    store (q + f.off) Addr.poolIdx 0
    store (q + f.off) Addr.offset offset
    return p

/-- The string at `p`. -/
def readStr : ℕ → ℕ → M CStr
  | 0, _ => .stop .fault
  | n + 1, p => do
    let c ← load p ⟨0⟩
    if h : c = (0 : UInt8) then return ⟨[], List.not_mem_nil⟩
    else
      let s ← readStr n (p + 1)
      return ⟨c :: s.chars, fun hm => (List.mem_cons.mp hm).elim (fun h0 => h h0.symm) s.nul_notMem⟩

end TouchDb
