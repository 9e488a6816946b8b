import TouchDb.Str.Model

/-! `touchdb_map.c`: the hash index, a table of buckets of doubly linked entries. The one
map of a store is a field of its info file. -/
namespace TouchDb

/-! `touchdb_map_entry_t` -/
namespace MapEntry
abbrev prev : Field TouchdbAddr := ⟨0⟩
abbrev next : Field TouchdbAddr := ⟨8⟩
abbrev hash : Field Int32 := ⟨16⟩
abbrev key : Field TouchdbAddr := ⟨20⟩
abbrev val : Field TouchdbVal := ⟨28⟩
end MapEntry

def mapEntrySize : ℕ := 40

/-! `touchdb_map_bulk_t` -/
namespace MapBulk
abbrev header : Field TouchdbAddr := ⟨0⟩
abbrev tail : Field TouchdbAddr := ⟨8⟩
abbrev size : Field Int32 := ⟨16⟩
end MapBulk

def sizeofMapBulk : ℕ := 20

def maxCapacity : Int32 := (1 : Int32) <<< 30

def hash (h : Int32) : Int32 :=
  let h := h ^^^ ((h >>> 20) ^^^ (h >>> 12))
  h ^^^ (h >>> 7) ^^^ (h >>> 4)

def hashCode (str : CStr) : Int32 := str.chars.foldl (fun h c => 31 * h + c.toInt8.toInt32) 0

def indexFor (map : TouchdbMap) (h : Int32) : Int32 := h &&& (map.bulkListCount - 1)

def getMap : M TouchdbMap := fun s => .ok (s.map, s, [])

def Touchdb.setMap (s : Touchdb) (g : TouchdbMap → TouchdbMap) : Touchdb :=
  { s with map := g s.map }

@[simp] theorem setMap_field {α : Type} [Layout α] (s : Touchdb) (g : TouchdbMap → TouchdbMap)
    (p : ℕ) (f : Field α) : (s.setMap g).field p f = s.field p f := rfl

/-- An assignment to a field of the map. -/
def assignMap (g : TouchdbMap → TouchdbMap) : M Unit := assign fun s => s.setMap g

def getBulk (idx : Int32) : M ℕ := do
  let map ← getMap
  let bulk ← touchdbPtrOf map.bulkList
  return (bulk + sizeofMapBulk * idx.toInt).toNat

/-- The bucket of a hash. -/
def bulkFor (h : Int32) : M ℕ := do
  let map ← getMap
  getBulk (indexFor map h)

def nextEntry (entry : ℕ) : M ℕ := do
  if entry ≠ NULL then
    let next ← load entry MapEntry.next
    if next.offset ≠ NIL then touchdbPtrOf next
    else return NULL
  else return NULL

/-- `strcmp(key, k) == 0` for the characters of `k` still to compare. -/
def strcmpEq (p : ℕ) : List UInt8 → M Bool
  | [] => do
    let c ← load p ⟨0⟩
    return decide (c = (0 : UInt8))
  | k :: ks => do
    let c ← load p ⟨0⟩
    if c = k then strcmpEq (p + 1) ks
    else return false

/-- The loop of `get_entry`, cut off after some rounds. -/
def getEntryLoop (h : Int32) (k : CStr) : ℕ → ℕ → M ℕ
  | 0, _ => .stop .diverge
  | rounds + 1, entry => do
    if entry = NULL then return NULL
    else
      let eh ← load entry MapEntry.hash
      let found ← (if eh = h then do
        let x ← load entry MapEntry.key
        let key ← touchdbPtrOf x
        strcmpEq key k.chars
      else return false)
      if found then return entry
      else
        let next ← nextEntry entry
        getEntryLoop h k rounds next

def getEntry (k : CStr) : M ℕ := do
  let h := hash (hashCode k)
  let bulk ← bulkFor h
  let header ← load bulk MapBulk.header
  let entry ← touchdbPtrOf header
  getEntryLoop h k walkRounds entry

/-- `while(map->bulk_list_count < capacity)`: a count has 31 value bits. -/
def doubleCount (capacity : Int32) : ℕ → M Unit
  | 0 => .stop .diverge
  | rounds + 1 => do
    let map ← getMap
    if map.bulkListCount < capacity then
      assignMap fun map => { map with bulkListCount := map.bulkListCount <<< 1 }
      doubleCount capacity rounds
    else return ()

/-- The loop that clears the buckets, from bucket `i` on. -/
def clearBulks (bulkList : ℕ) : ℕ → ℕ → M Unit
  | 0, _ => return ()
  | n + 1, i => do
    let bulk := bulkList + sizeofMapBulk * i
    store (bulk + MapBulk.header.off) Addr.poolIdx (-1)
    store (bulk + MapBulk.header.off) Addr.offset NIL
    store (bulk + MapBulk.tail.off) Addr.poolIdx (-1)
    store (bulk + MapBulk.tail.off) Addr.offset NIL
    store bulk MapBulk.size 0
    clearBulks bulkList n (i + 1)

/-- `touchdb_map_init` up to the end of its doubling loop. -/
def mapInitCount (capacity : Int32) : M Unit := do
  if capacity < 0 then .stop .exit
  else
    let capacity := if capacity > maxCapacity then maxCapacity else capacity
    assignMap fun map => { map with bulkListCount := 1 }
    doubleCount capacity 32

/-- The rest of `touchdb_map_init`: the table is allocated and cleared. The size handed to
`touchdb_malloc` is an `int`, so it is taken modulo `2 ^ 32`. -/
def mapInitTable : M Unit := do
  let map ← getMap
  let (p, addr) ← touchdbMalloc (map.bulkListCount.toInt.toNat * sizeofMapBulk)
  assignMap fun map => { map with bulkList := { map.bulkList with poolIdx := addr.poolIdx } }
  assignMap fun map => { map with bulkList := { map.bulkList with offset := addr.offset } }
  let map ← getMap
  clearBulks p map.bulkListCount.toInt.toNat 0

@[irreducible] def touchdbMapInit (capacity : Int32) : M Unit := do
  mapInitCount capacity
  mapInitTable

/-- The new value of an entry that `touchdb_map_put` found. -/
def storeNewVal (entry : ℕ) (v : CStr) : M Unit := do
  let (newVal, newAddr) ← touchdbMalloc (v.strlen + 1)
  storeBytes newVal v.bytes
  store (entry + MapEntry.val.off) Val.value newAddr

/-- `touchdb_map_put` where `get_entry` found the key. -/
def mapPutOverwrite (entry : ℕ) (v : CStr) : M ℕ := do
  let type ← load (entry + MapEntry.val.off) Val.type
  (if type = .str then return ()
  else store (entry + MapEntry.val.off) Val.type .str)
  storeNewVal entry v
  if type = .str then
    let value ← load (entry + MapEntry.val.off) Val.value
    touchdbFree value
    let value ← load (entry + MapEntry.val.off) Val.value
    touchdbPtrOf value
  else return NULL

/-- Both puts: the new entry joins the end of its bucket. -/
def linkEntry (bulk entry : ℕ) (newAddr : TouchdbAddr) : M Unit := do
  let size ← load bulk MapBulk.size
  (if size = 0 then do
    store bulk MapBulk.tail newAddr
    store bulk MapBulk.header newAddr
    store entry MapEntry.prev nullAddr
  else do
    let x ← load bulk MapBulk.tail
    let tail ← touchdbPtrOf x
    store tail MapEntry.next newAddr
    let x ← load bulk MapBulk.tail
    store entry MapEntry.prev x
    store bulk MapBulk.tail newAddr)
  store entry MapEntry.next nullAddr
  let size ← load bulk MapBulk.size
  store bulk MapBulk.size (size + 1)
  assignMap fun map => { map with size := map.size + 1 }

/-- The entry that `touchdb_map_put` creates, before it is linked. -/
def newEntry (h : Int32) (k v : CStr) : M (ℕ × TouchdbAddr) := do
  let (entry, newAddr) ← touchdbMalloc mapEntrySize
  store entry MapEntry.hash h
  let newKey ← touchdbMallocAt entry MapEntry.key (k.strlen + 1)
  let newVal ← touchdbMallocAt (entry + MapEntry.val.off) Val.value (v.strlen + 1)
  storeBytes newKey k.bytes
  storeBytes newVal v.bytes
  store (entry + MapEntry.val.off) Val.type .str
  return (entry, newAddr)

/-- The entry of `k`, which the puts look for in a bucket that has entries. -/
def findEntry (bulk : ℕ) (k : CStr) : M ℕ := do
  let size ← load bulk MapBulk.size
  if size ≠ 0 then getEntry k
  else return NULL

def touchdbMapPut (k v : CStr) : M ℕ := do
  let h := hash (hashCode k)
  let bulk ← bulkFor h
  let entry ← findEntry bulk k
  if entry ≠ NULL then mapPutOverwrite entry v
  else
    let (entry, newAddr) ← newEntry h k v
    linkEntry bulk entry newAddr
    return NULL

def touchdbMapGet (k : CStr) : M ℕ := do
  let entry ← getEntry k
  if entry ≠ NULL then
    let value ← load (entry + MapEntry.val.off) Val.value
    touchdbPtrOf value
  else return NULL

/-- `touchdb_map_put2` where `get_entry` found the key: the value destroyed is the new one. -/
def mapPut2Overwrite (entry v : ℕ) : M ℕ := do
  let val ← load v Val.all
  store entry MapEntry.val val
  touchdbValDestroy (entry + MapEntry.val.off)
  return entry + MapEntry.val.off

/-- The entry that `touchdb_map_put2` creates, before it is linked. -/
def newEntry2 (h : Int32) (k : CStr) (v : ℕ) : M (ℕ × TouchdbAddr) := do
  let (entry, newAddr) ← touchdbMalloc mapEntrySize
  store entry MapEntry.hash h
  let val ← load v Val.all
  store entry MapEntry.val val
  let newKey ← touchdbMallocAt entry MapEntry.key (k.strlen + 1)
  storeBytes newKey k.bytes
  return (entry, newAddr)

def touchdbMapPut2 (k : CStr) (v : ℕ) : M ℕ := do
  let h := hash (hashCode k)
  let bulk ← bulkFor h
  let entry ← findEntry bulk k
  if entry ≠ NULL then mapPut2Overwrite entry v
  else
    let (entry, newAddr) ← newEntry2 h k v
    linkEntry bulk entry newAddr
    return NULL

def touchdbMapGet2 (k : CStr) : M ℕ := do
  let entry ← getEntry k
  if entry ≠ NULL then return entry + MapEntry.val.off
  else return NULL

def touchdbMapContains (k : CStr) : M Bool := do
  let entry ← getEntry k
  return decide (entry ≠ NULL)

def touchdbMapSize : M Int32 := do
  let map ← getMap
  return map.size

/-- The inner loop of `touchdb_map_iter`, cut off after some rounds: the pointers `k` and
`v` of each call of `iter`, in order. -/
def iterEntries : ℕ → ℕ → M (List (ℕ × ℕ))
  | 0, _ => .stop .diverge
  | rounds + 1, entry => do
    if entry ≠ NULL then
      let x ← load entry MapEntry.key
      let k ← touchdbPtrOf x
      let x ← load (entry + MapEntry.val.off) Val.value
      let v ← touchdbPtrOf x
      let next ← nextEntry entry
      let calls ← iterEntries rounds next
      return (k, v) :: calls
    else return []

/-- The outer loop, over `n` buckets from `bulk` on. -/
def iterBulks : ℕ → ℕ → M (List (ℕ × ℕ))
  | 0, _ => return []
  | n + 1, bulk => do
    let size ← load bulk MapBulk.size
    let calls ← (if size ≠ 0 then do
      let x ← load bulk MapBulk.header
      let entry ← touchdbPtrOf x
      iterEntries walkRounds entry
    else return [])
    let rest ← iterBulks n (bulk + sizeofMapBulk)
    return calls ++ rest

def touchdbMapIter : M (List (ℕ × ℕ)) := do
  let map ← getMap
  let bulk ← touchdbPtrOf map.bulkList
  iterBulks map.bulkListCount.toInt.toNat bulk

end TouchDb
