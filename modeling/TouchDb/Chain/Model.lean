import TouchDb.Str.Model

/-! `touchdb_chain.c`: doubly linked lists of values. -/
namespace TouchDb

/-! `touchdb_chain_node_t` -/
namespace ChainNode
abbrev prev : Field TouchdbAddr := ⟨0⟩
abbrev next : Field TouchdbAddr := ⟨8⟩
abbrev val : Field TouchdbVal := ⟨16⟩
end ChainNode

def touchdbChainNodeSize : ℕ := 28

/-! `touchdb_chain_t` -/
namespace Chain
abbrev header : Field TouchdbAddr := ⟨0⟩
abbrev tail : Field TouchdbAddr := ⟨8⟩
abbrev size : Field Int32 := ⟨16⟩
end Chain

def sizeofChain : ℕ := 20

/-- `*p` for a link that a caller may give; `NULL_ADDR` where there is none. -/
def linkAt (p : ℕ) : M TouchdbAddr := do
  if p = NULL then return nullAddr
  else load p ⟨0⟩

/-- `touchdb_chain_node_new` over an allocator; `next` and `prev` read the links. -/
def chainNodeNewBy (malloc : ℕ → M (ℕ × TouchdbAddr)) (next prev : M TouchdbAddr) (val : ℕ) :
    M (ℕ × TouchdbAddr) := do
  let (n, addr) ← malloc touchdbChainNodeSize
  if n = NULL then return (NULL, addr)
  else
    let x ← next
    store n ChainNode.next x
    let y ← prev
    store n ChainNode.prev y
    let v ← load val Val.all
    store n ChainNode.val v
    return (n, addr)

/-- The new node takes its links from `*next` and `*prev`, where these are given. -/
def touchdbChainNodeNew (next prev val : ℕ) : M (ℕ × TouchdbAddr) :=
  chainNodeNewBy touchdbMalloc (linkAt next) (linkAt prev) val

def touchdbChainNodeDestroy (n : ℕ) : M Unit := do
  if n ≠ NULL then
    touchdbValDestroy (n + ChainNode.val.off)
    let addr ← touchdbAddrOf n
    touchdbFree addr
  else return ()

/-- The pointer for a stored link, `NULL` where it is `NIL`. -/
def followLink (p : ℕ) (f : Field TouchdbAddr) : M ℕ := do
  if p = NULL then return NULL
  else
    let x ← load p f
    if x.offset = NIL then return NULL
    else touchdbPtrOf x

def nextNode (n : ℕ) : M ℕ := followLink n ChainNode.next

def prevNode (n : ℕ) : M ℕ := followLink n ChainNode.prev

def chainHeader (chain : ℕ) : M ℕ := followLink chain Chain.header

def chainTail (chain : ℕ) : M ℕ := followLink chain Chain.tail

def touchdbChainInit (chain : ℕ) : M Unit := storeBytes chain (List.replicate sizeofChain 0)

def touchdbChainNew (val : ℕ) : M ℕ := do
  let chain ← touchdbMallocAt val Val.value sizeofChain
  store val Val.type .chain
  touchdbChainInit chain
  return chain

/-- `touchdb_chain_push_tail` over an allocator. -/
def chainPushTailBy (malloc : ℕ → M (ℕ × TouchdbAddr)) (chain val : ℕ) : M Unit := do
  let (_, addr) ← chainNodeNewBy malloc (linkAt NULL) (linkAt (chain + Chain.tail.off)) val
  let size ← load chain Chain.size
  (if size = 0 then do
    store chain Chain.tail addr
    store chain Chain.header addr
  else do
    let tail ← chainTail chain
    store tail ChainNode.next addr
    store chain Chain.tail addr)
  let size ← load chain Chain.size
  store chain Chain.size (size + 1)

def touchdbChainPushTail : ℕ → ℕ → M Unit := chainPushTailBy touchdbMalloc

/-- The copy that a pull returns; the node it comes from is destroyed, value and all. -/
def pullNode (n : ℕ) : M ℕ := do
  let (val, _) ← touchdbMalloc sizeofVal
  let v ← load n ChainNode.val
  store val Val.all v
  touchdbChainNodeDestroy n
  return val

def touchdbChainPullHead (chain : ℕ) : M ℕ := do
  let head ← chainHeader chain
  if head = NULL then return NULL
  else
    let next ← load head ChainNode.next
    store chain Chain.header next
    let header ← load chain Chain.header
    (if header.offset = NIL then store (chain + Chain.tail.off) Addr.offset NIL
    else return ())
    let size ← load chain Chain.size
    store chain Chain.size (size - 1)
    pullNode head

def touchdbChainPullTail (chain : ℕ) : M ℕ := do
  let tail ← chainTail chain
  if tail = NULL then return NULL
  else
    let prev ← load tail ChainNode.prev
    store chain Chain.tail prev
    let tail' ← load chain Chain.tail
    (if tail'.offset = NIL then store (chain + Chain.header.off) Addr.offset NIL
    else return ())
    let size ← load chain Chain.size
    store chain Chain.size (size - 1)
    pullNode tail

/-- The loop of `touchdb_chain_node_idx`, cut off after some rounds. -/
def nodeIdxLoop (idx : Int32) : ℕ → ℕ → Int32 → M (ℕ × Int32)
  | 0, _, _ => .stop .diverge
  | rounds + 1, n, i => do
    if n ≠ NULL ∧ i < idx - 1 then
      let next ← nextNode n
      nodeIdxLoop idx rounds next (i + 1)
    else return (n, i)

def touchdbChainNodeIdx (chain : ℕ) (idx : Int32) : M ℕ := do
  let header ← chainHeader chain
  let (n, i) ← nodeIdxLoop idx walkRounds header 0
  if n ≠ NULL ∧ i = idx - 1 then return n + ChainNode.val.off
  else return NULL

def touchdbChainSize (chain : ℕ) : M Int32 := load chain Chain.size

/-! The rest of the file, over any allocator and any comparison. -/

def chainPushHeadBy (malloc : ℕ → M (ℕ × TouchdbAddr)) (chain val : ℕ) : M Unit := do
  let (_, addr) ← chainNodeNewBy malloc (linkAt (chain + Chain.header.off)) (linkAt NULL) val
  let size ← load chain Chain.size
  (if size = 0 then do
    store chain Chain.tail addr
    store chain Chain.header addr
  else do
    let head ← chainHeader chain
    store head ChainNode.next addr
    store chain Chain.header addr)
  let size ← load chain Chain.size
  store chain Chain.size (size + 1)

def touchdbChainPushHead : ℕ → ℕ → M Unit := chainPushHeadBy touchdbMalloc

/-- The address of `n` is in a variable of the call. -/
def chainInsertBy (malloc : ℕ → M (ℕ × TouchdbAddr)) (chain n val : ℕ) : M Unit := do
  if n = NULL then return ()
  else
    let naddr ← touchdbAddrOf n
    let (_, addr) ← chainNodeNewBy malloc (linkAt (n + ChainNode.next.off)) (pure naddr) val
    let next ← nextNode n
    store next ChainNode.prev addr
    store n ChainNode.next addr
    let size ← load chain Chain.size
    store chain Chain.size (size + 1)

def touchdbChainInsert : ℕ → ℕ → ℕ → M Unit := chainInsertBy touchdbMalloc

/-- What `touchdb_chain_node_idx` returns is taken for a node. -/
def touchdbChainInsertIdx (chain : ℕ) (idx : Int32) (val : ℕ) : M Unit := do
  let n ← touchdbChainNodeIdx chain idx
  touchdbChainInsert chain n val

def touchdbChainHeader (chain : ℕ) : M ℕ := chainHeader chain

def touchdbChainTail (chain : ℕ) : M ℕ := chainTail chain

section Search
variable (valCmp : ℕ → ℕ → M Int32)

/-- The loop of `touchdb_chain_index_of`, cut off after some rounds. -/
def indexOfLoop (val : ℕ) : ℕ → Int32 → ℕ → M Int32
  | 0, _, _ => .stop .diverge
  | rounds + 1, idx, n => do
    if n ≠ NULL then
      let r ← valCmp (n + ChainNode.val.off) val
      if r = 0 then return idx
      else
        let next ← nextNode n
        indexOfLoop val rounds (idx + 1) next
    else return -1

def touchdbChainIndexOf (chain val : ℕ) : M Int32 := do
  let header ← chainHeader chain
  indexOfLoop valCmp val walkRounds 0 header

/-- The loop of `touchdb_chain_node`, cut off after some rounds. -/
def chainNodeLoop (val : ℕ) : ℕ → ℕ → M ℕ
  | 0, _ => .stop .diverge
  | rounds + 1, n => do
    if n ≠ NULL then
      let r ← valCmp (n + ChainNode.val.off) val
      if r = 0 then return n
      else
        let next ← nextNode n
        chainNodeLoop val rounds next
    else return NULL

def touchdbChainNode (chain val : ℕ) : M ℕ := do
  let header ← chainHeader chain
  chainNodeLoop valCmp val walkRounds header

def touchdbChainDel (chain val : ℕ) : M ℕ := do
  let n ← touchdbChainNode valCmp chain val
  if n = NULL then return NULL
  else
    let p ← prevNode n
    let q ← nextNode n
    (if p ≠ NULL then do
      let x ← load n ChainNode.next
      store p ChainNode.next x
    else return ())
    (if q ≠ NULL then do
      let x ← load n ChainNode.prev
      store q ChainNode.prev x
    else return ())
    let header ← touchdbChainHeader chain
    (if n = header then do
      let x ← load n ChainNode.next
      store chain Chain.header x
    else return ())
    let tail ← touchdbChainTail chain
    (if n = tail then do
      let x ← load n ChainNode.prev
      store chain Chain.tail x
    else return ())
    let size ← load chain Chain.size
    store chain Chain.size (size - 1)
    return n

def touchdbChainContains (chain val : ℕ) : M Bool := do
  let n ← touchdbChainNode valCmp chain val
  return decide (n ≠ NULL)

/-- The loop of `touchdb_chain_cmp`, cut off after some rounds, with what follows it. -/
def chainCmpLoop : ℕ → ℕ → ℕ → M Int32
  | 0, _, _ => .stop .diverge
  | rounds + 1, p, q => do
    if p ≠ NULL ∧ q ≠ NULL then
      let r ← valCmp (p + ChainNode.val.off) (q + ChainNode.val.off)
      if r ≠ 0 then return r
      else
        let p' ← nextNode p
        let q' ← nextNode q
        chainCmpLoop rounds p' q'
    else if p ≠ NULL then return 1
    else if q ≠ NULL then return -1
    else return 0

def touchdbChainCmp (v1 v2 : ℕ) : M Int32 := do
  let value1 ← load v1 Val.value
  let c1 ← touchdbPtrOf value1
  let value2 ← load v2 Val.value
  let c2 ← touchdbPtrOf value2
  let p ← chainHeader c1
  let q ← chainHeader c2
  chainCmpLoop valCmp walkRounds p q

end Search

/-- The loop of `touchdb_chain_destory`, cut off after some rounds. -/
def destroyLoop : ℕ → ℕ → M Unit
  | 0, _ => .stop .diverge
  | rounds + 1, head => do
    if head ≠ NULL then
      let next ← nextNode head
      touchdbChainNodeDestroy head
      destroyLoop rounds next
    else return ()

def touchdbChainDestory (chain : ℕ) : M Unit := do
  let header ← chainHeader chain
  destroyLoop walkRounds header

/-- The loop of `touchdb_chain_iter`, cut off after some rounds. The callback has a state of its own.
The key it is given is `NULL` each time, and is left out. -/
def chainIterLoop {α : Type} (iter : α → ℕ → M α) : ℕ → ℕ → α → M α
  | 0, _, _ => .stop .diverge
  | rounds + 1, n, x => do
    if n ≠ NULL then
      let x ← iter x (n + ChainNode.val.off)
      let next ← nextNode n
      chainIterLoop iter rounds next x
    else return x

def touchdbChainIter {α : Type} (chain : ℕ) (iter : α → ℕ → M α) (x : α) : M α := do
  let header ← chainHeader chain
  chainIterLoop iter walkRounds header x

end TouchDb
