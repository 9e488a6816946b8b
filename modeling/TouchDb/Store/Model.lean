import TouchDb.Map.Model
import TouchDb.Chain.Model

/-! The operations that `touchdb.c` offers on a store. -/
namespace TouchDb

/-- What `touchdb_new` does for a store in map mode that has no data file yet: the first
pool is mapped at `ptr`, and the index is empty. -/
@[irreducible] def touchdbNew (ptr : ℕ) : M Unit := do
  -- `memset` of the pool list, and the index of its first pool
  assign fun s => { s with poolList := fun _ => ⟨fun _ => ⟨0, 0, 0, 0⟩, 0, 0, 0, 0⟩ }
  assign fun s => s.setPool 0 fun pool => { pool with idx := 0 }
  touchdbPoolInit 0 ptr false
  touchdbMapInit 1000

def touchdbPut (k v : CStr) : M ℕ := touchdbMapPut k v

def touchdbGet (k : CStr) : M ℕ := touchdbMapGet k

def touchdbSize : M Int32 := touchdbMapSize

def touchdbIter : M (List (ℕ × ℕ)) := touchdbMapIter

def touchdbPutStr (k v : CStr) : M ℕ := do
  let (val, addr) ← touchdbMalloc sizeofVal
  let _ ← touchdbStrNew2 val v
  let val ← touchdbMapPut2 k val
  touchdbFree addr
  return val

def touchdbGetStr (k : CStr) : M ℕ := do
  let val ← touchdbMapGet2 k
  if val ≠ NULL then
    let type ← load val Val.type
    if type = .str then
      let value ← load val Val.value
      let s ← touchdbPtrOf value
      let data ← load s Str.data
      touchdbPtrOf data
    else return NULL
  else return NULL

def getChain (k : CStr) : M ℕ := do
  let val ← touchdbMapGet2 k
  if val ≠ NULL then
    let type ← load val Val.type
    if type = .chain then
      let value ← load val Val.value
      let chain ← touchdbPtrOf value
      if chain ≠ NULL then return chain
      else return NULL
    else return NULL
  else return NULL

def touchdbListPush (k : CStr) (v : ℕ) : M Unit := do
  let chain ← getChain k
  if chain ≠ NULL then touchdbChainPushTail chain v
  else
    let (val, addr) ← touchdbMalloc sizeofVal
    let chain ← touchdbChainNew val
    touchdbChainPushTail chain v
    let _ ← touchdbMapPut2 k val
    touchdbFree addr

def touchdbListPop (k : CStr) : M ℕ := do
  let chain ← getChain k
  if chain ≠ NULL then touchdbChainPullHead chain
  else return NULL

def touchdbListNodeIdx (k : CStr) (idx : Int32) : M ℕ := do
  let chain ← getChain k
  if chain ≠ NULL then touchdbChainNodeIdx chain idx
  else return NULL

def touchdbListSize (k : CStr) : M Int32 := do
  let chain ← getChain k
  if chain ≠ NULL then touchdbChainSize chain
  else return -1

end TouchDb
