import TouchDb.Heap.Model

/-! `touchdb_str.c`, and `touchdb_val_cmp` and `touchdb_val_destroy` of `touchdb_common.c`: string
values. A value points to a `touchdb_str_t`, which points to the characters. -/
namespace TouchDb

/-! `touchdb_str_t` -/
namespace Str
abbrev len : Field UInt32 := ⟨0⟩
abbrev data : Field TouchdbAddr := ⟨4⟩
end Str

def sizeofStr : ℕ := 12

/-- The value, and the address that it has. -/
def touchdbStrNew (str : CStr) : M (ℕ × TouchdbAddr) := do
  let (v, addr) ← touchdbMalloc sizeofStr
  store v Val.type .str
  let s ← touchdbMallocAt v Val.value sizeofStr
  store s Str.len (UInt32.ofNat str.strlen)
  let len ← load s Str.len
  let data ← touchdbMallocAt s Str.data (len.toNat + 1)
  storeBytes data str.bytes
  return (v, addr)

def touchdbStrNew2 (val : ℕ) (str : CStr) : M ℕ := do
  store val Val.type .str
  let s ← touchdbMallocAt val Val.value sizeofStr
  store s Str.len (UInt32.ofNat (str.strlen + 1))
  let len ← load s Str.len
  let data ← touchdbMallocAt s Str.data len.toNat
  storeBytes data str.bytes
  return s

def touchdbStrData (s : ℕ) : M ℕ := do
  if s = NULL then return NULL
  else
    let type ← load s Val.type
    if type = .str then
      let value ← load s Val.value
      let str ← touchdbPtrOf value
      let data ← load str Str.data
      touchdbPtrOf data
    else return NULL

/-- `strcmp`: the difference of the first characters that differ, of which only the sign is used. -/
def strcmp : ℕ → ℕ → ℕ → M Int32
  | 0, _, _ => .stop .fault
  | n + 1, p, q => do
    let c ← load p (⟨0⟩ : Field UInt8)
    let d ← load q (⟨0⟩ : Field UInt8)
    if c = d ∧ c ≠ 0 then strcmp n (p + 1) (q + 1)
    else return Int32.ofNat c.toNat - Int32.ofNat d.toNat

def touchdbStrCmp (v1 v2 : ℕ) : M Int32 := do
  let t ← load v1 Val.type
  let t' ← load v2 Val.type
  if t = t' ∧ t = .str then
    let value ← load v1 Val.value
    let s1 ← touchdbPtrOf value
    let value ← load v2 Val.value
    let s2 ← touchdbPtrOf value
    let data ← load s1 Str.data
    let rawS1 ← touchdbPtrOf data
    let data ← load s2 Str.data
    let rawS2 ← touchdbPtrOf data
    strcmp touchdbDefaultPoolSize rawS1 rawS2
  else return -1

/-- The bound `n` of the source is not used. -/
def strCpyBy (mallocAt : ℕ → Field TouchdbAddr → ℕ → M ℕ) (dest src : ℕ) : M Int32 := do
  let t ← load dest Val.type
  let t' ← load src Val.type
  if t = t' ∧ t = .str then
    let value ← load dest Val.value
    let destStr ← touchdbPtrOf value
    let value ← load src Val.value
    let srcStr ← touchdbPtrOf value
    let data ← load destStr Str.data
    touchdbFree data
    let data ← load srcStr Str.data
    let srcS ← touchdbPtrOf data
    let s ← readStr touchdbDefaultPoolSize srcS
    let destS ← mallocAt destStr Str.data (s.strlen + 1)
    if destS = NULL then return -1
    else
      let s ← readStr touchdbDefaultPoolSize srcS
      storeBytes destS s.bytes
      return 0
  else return -1

def touchdbStrCpy (dest src : ℕ) : M Int32 := strCpyBy touchdbMallocAt dest src

def touchdbStrDestory (str : ℕ) : M Unit := do
  let value ← load str Val.value
  let s ← touchdbPtrOf value
  let data ← load s Str.data
  touchdbFree data
  let value ← load str Val.value
  touchdbFree value

/-- Only strings are taken apart; `touchdb_map_destory` has an empty body. -/
def touchdbValDestroy (val : ℕ) : M Unit := do
  let type ← load val Val.type
  if type = .str then touchdbStrDestory val
  else return ()

/-- Two values of one type: no case of the `switch` returns a result (that of the maps calls a
function with an empty body), so that what the caller finds is arbitrary, here `undef`. -/
def touchdbValCmp (undef : ℕ → ℕ → Int32) (a b : ℕ) : M Int32 := do
  let s ← load a Val.type
  let t ← load b Val.type
  if s ≠ t then return -1
  else return undef a b

end TouchDb
