import TouchDb.Core.Watch
import TouchDb.Chain.Model

/-! The destruction of a chain, watched: every read of the heap and every release is shown. -/
namespace TouchDb
open Prog Layout

/-- What a function does to the blocks: it reads `n` bytes at `p`, or releases the block at `p`. -/
inductive HeapEvent where
  | read (p n : ℕ)
  | free (p : ℕ)

/-- The block that is released. -/
def HeapEvent.freed : HeapEvent → Option ℕ
  | read _ _ => none
  | free p => some p

abbrev WatchM := Prog Stop HeapEvent Touchdb

def watchLoad {α : Type} [Layout α] (p : ℕ) (f : Field α) : WatchM α := do
  say [.read (p + f.off) (size α)]
  silent (load p f)

/-! The functions of the model, with their loads and releases shown. -/
namespace Watched

/-- Of the heap, `touchdb_pool_free` reads `blk->idx` alone. -/
def touchdbFree (addr : TouchdbAddr) : WatchM Unit := do
  let j ← silent (poolAt addr.poolIdx)
  let p ← silent (ptrOf j addr.offset)
  say [.free p, .read (p - blkHdrSize + FreeBlkHdr.idx.off) (size Int32)]
  silent (touchdbPoolFree j p)

def touchdbStrDestory (str : ℕ) : WatchM Unit := do
  let value ← watchLoad str Val.value
  let s ← silent (touchdbPtrOf value)
  let data ← watchLoad s Str.data
  touchdbFree data
  let value ← watchLoad str Val.value
  touchdbFree value

def touchdbValDestroy (val : ℕ) : WatchM Unit := do
  let type ← watchLoad val Val.type
  if type = .str then touchdbStrDestory val
  else return ()

def touchdbChainNodeDestroy (n : ℕ) : WatchM Unit := do
  if n ≠ NULL then
    touchdbValDestroy (n + ChainNode.val.off)
    let addr ← silent (touchdbAddrOf n)
    touchdbFree addr
  else return ()

def followLink (p : ℕ) (f : Field TouchdbAddr) : WatchM ℕ := do
  if p = NULL then return NULL
  else
    let x ← watchLoad p f
    if x.offset = NIL then return NULL
    else silent (touchdbPtrOf x)

def nextNode (n : ℕ) : WatchM ℕ := followLink n ChainNode.next

def chainHeader (chain : ℕ) : WatchM ℕ := followLink chain Chain.header

def destroyLoop : ℕ → ℕ → WatchM Unit
  | 0, _ => .stop .diverge
  | rounds + 1, head => do
    if head ≠ NULL then
      let next ← nextNode head
      touchdbChainNodeDestroy head
      destroyLoop rounds next
    else return ()

def touchdbChainDestory (chain : ℕ) : WatchM Unit := do
  let header ← chainHeader chain
  destroyLoop walkRounds header

end Watched

/-! Watching changes nothing. -/
section Agree
variable {α : Type} [Layout α]

theorem agrees_load (p : ℕ) (f : Field α) : Agrees (watchLoad p f) (load p f) :=
  .say _ (.silent _)

theorem agrees_free (addr : TouchdbAddr) : Agrees (Watched.touchdbFree addr) (touchdbFree addr) := by
  apply Agrees.bind (.silent _)
  intro j
  apply Agrees.bind (.silent _)
  intro p
  exact .say _ (.silent _)

theorem agrees_strDestory (str : ℕ) :
    Agrees (Watched.touchdbStrDestory str) (touchdbStrDestory str) := by
  apply Agrees.bind (agrees_load _ _)
  intro value
  apply Agrees.bind (.silent _)
  intro s
  apply Agrees.bind (agrees_load _ _)
  intro data
  apply Agrees.bind (agrees_free _)
  intro _
  apply Agrees.bind (agrees_load _ _)
  intro value
  exact agrees_free _

theorem agrees_valDestroy (val : ℕ) :
    Agrees (Watched.touchdbValDestroy val) (touchdbValDestroy val) := by
  apply Agrees.bind (agrees_load _ _)
  intro type
  exact .ite (agrees_strDestory _) (.pure _)

theorem agrees_nodeDestroy (n : ℕ) :
    Agrees (Watched.touchdbChainNodeDestroy n) (touchdbChainNodeDestroy n) := by
  apply Agrees.ite _ (.pure _)
  apply Agrees.bind (agrees_valDestroy _)
  intro _
  apply Agrees.bind (.silent _)
  intro addr
  exact agrees_free _

theorem agrees_followLink (p : ℕ) (f : Field TouchdbAddr) :
    Agrees (Watched.followLink p f) (followLink p f) := by
  apply Agrees.ite (.pure _)
  apply Agrees.bind (agrees_load _ _)
  intro x
  exact .ite (.pure _) (.silent _)

theorem agrees_destroyLoop (rounds head : ℕ) :
    Agrees (Watched.destroyLoop rounds head) (destroyLoop rounds head) := by
  induction rounds generalizing head with
  | zero => exact .stop _
  | succ rounds ih =>
    apply Agrees.ite _ (.pure _)
    apply Agrees.bind (agrees_followLink _ _)
    intro next
    apply Agrees.bind (agrees_nodeDestroy _)
    intro _
    exact ih next

/-- The watched destruction is that of the source. -/
theorem agrees_chainDestory (chain : ℕ) :
    Agrees (Watched.touchdbChainDestory chain) (touchdbChainDestory chain) := by
  apply Agrees.bind (agrees_followLink _ _)
  intro header
  exact agrees_destroyLoop _ _

end Agree

end TouchDb
