import TouchDb.Core.Keyed
import TouchDb.Store.Runs
import TouchDb.Chain.Client

/-! Clients of the lists that a store keeps under keys. Strings and lists share the index: a string
that is put under a key replaces its list. -/
namespace TouchDb
open Prog Layout

/-- The calls of a client. A place names a value that it has been given. -/
inductive KeyedOp where
  | put (k v : Text)
  | putStr (k v : Text)
  | newStr (v : Text)
  | newVal (w : NonStr)
  | alloc (n : PoolSize)
  | drop (h : ℕ)
  | push (k : Text) (h : ℕ)
  | pop (k : Text)
  | nodeIdx (k : Text) (i : ChainIdx)
  | size (k : Text)

/-- The values that a client has been given, and what it asked the lists and was told. -/
structure KeyedClient where
  vals : List ℕ
  acts : List (KeyedQueues.Act Text TouchdbVal)

def KeyedClient.zero : KeyedClient := ⟨[], []⟩

/-- One call; a call with a place that names nothing is not made. -/
def KeyedOp.run (r : KeyedClient) : KeyedOp → M KeyedClient
  | .put k v => do
    let _ ← touchdbPut k.1 v.1
    return { r with acts := r.acts ++ [.clear k] }
  | .putStr k v => do
    let _ ← touchdbPutStr k.1 v.1
    return { r with acts := r.acts ++ [.clear k] }
  | .newStr v => do
    let (p, _) ← touchdbMalloc sizeofVal
    let _ ← touchdbStrNew2 p v.1
    return { r with vals := r.vals ++ [p] }
  | .newVal w => do
    let (p, _) ← touchdbMalloc sizeofVal
    store p Val.all w.1
    return { r with vals := r.vals ++ [p] }
  | .alloc n => do
    let _ ← touchdbMalloc n.bytes
    return r
  | .drop h =>
    match r.vals[h]? with
    | some v => do
      let addr ← touchdbAddrOf v
      touchdbFree addr
      return { r with vals := r.vals.eraseIdx h }
    | none => return r
  | .push k h =>
    match r.vals[h]? with
    | some v => do
      let w ← load v Val.all
      touchdbListPush k.1 v
      return { r with acts := r.acts ++ [.push k w] }
    | none => return r
  | .pop k => do
    let v ← touchdbListPop k.1
    let w ← readVal v
    return { r with
      vals := if v = NULL then r.vals else r.vals ++ [v], acts := r.acts ++ [.pop k w] }
  | .nodeIdx k i => do
    let v ← touchdbListNodeIdx k.1 i.idx
    let w ← readVal v
    return { r with acts := r.acts ++ [.nth k i.idx.toInt w] }
  | .size k => do
    let n ← touchdbListSize k.1
    return { r with acts := r.acts ++ [.length k n.toInt] }

abbrev KeyedRun := KeyedClient × Touchdb

def KeyedRun.step (op : KeyedOp) (r : KeyedRun) : Except Stop KeyedRun := (op.run r.1).run r.2

/-- The calls `ops`, on a new store. -/
def runKeyed (f : NewFiles) (ops : List KeyedOp) : Except Stop KeyedRun := do
  let s ← (touchdbNew f.ptr).next f.db
  Run.exec KeyedRun.step ops (.zero, s)

/-! What a client has to keep to: a list call needs a key in its bucket, or the search for the list
reads a null address, and a pop releases the string of the value. -/

/-- The bucket of a new store that `k` is in. -/
def newBucket (k : Text) : ℕ := ((hash (hashCode k.1)).toInt % 2 ^ 10).toNat

/-- The keys in the index, the kinds of the values in the lists and of those that the client has, and
the strings, as long as they are in use. A string that is put under a new key has a place among the
strings as well; where a key is written again, the string that it then has is released at once. -/
structure KeyedPlan where
  keys : List Text
  lists : Text → Option (List ValKind)
  stored : Text → Option ℕ
  vals : List ValKind
  strs : List (Option Text)

namespace KeyedPlan

def zero : KeyedPlan := ⟨[], fun _ => none, fun _ => none, [], []⟩

/-- There is a key in the bucket of `k`. -/
def ready (p : KeyedPlan) (k : Text) : Bool := p.keys.any fun j => newBucket j = newBucket k

/-- The strings in use after a value of kind `k` has left its list. There is no plan for a string
that is not in use any more. -/
def release (strs : List (Option Text)) : ValKind → Option (List (Option Text))
  | .plain => some strs
  | .str i => strs[i]?.join.map fun _ => strs.set i none

/-- The key has a value that is neither a list nor a string that will stay. -/
def clear (p : KeyedPlan) (k : Text) : KeyedPlan :=
  { p with
    keys := k :: p.keys, lists := Function.update p.lists k none, stored := Function.update p.stored k none }

/-- A string is put under a new key. -/
def keep (p : KeyedPlan) (k v : Text) : KeyedPlan :=
  { p with
    keys := k :: p.keys, lists := Function.update p.lists k none
    stored := Function.update p.stored k (some p.strs.length), strs := p.strs ++ [some v] }

/-- A value is pushed under a key. -/
def push (p : KeyedPlan) (k : Text) (v : ValKind) : KeyedPlan :=
  { p with
    keys := k :: p.keys, lists := Function.update p.lists k (some ((p.lists k).getD [] ++ [v]))
    stored := Function.update p.stored k none }

def step (p : KeyedPlan) : KeyedOp → Option KeyedPlan
  | .put k _ => some (p.clear k)
  | .putStr k v => some (if k ∈ p.keys then p.clear k else p.keep k v)
  | .newStr v => some { p with vals := p.vals ++ [.str p.strs.length], strs := p.strs ++ [some v] }
  | .newVal _ => some { p with vals := p.vals ++ [.plain] }
  | .alloc _ => some p
  | .drop h => some { p with vals := p.vals.eraseIdx h }
  | .push k h =>
    match p.vals[h]? with
    | some v => if p.ready k then some (p.push k v) else none
    | none => some p
  | .pop k =>
    if p.ready k then
      match p.lists k with
      | some (v :: q) => (release p.strs v).map fun strs =>
        { p with lists := Function.update p.lists k (some q), vals := p.vals ++ [v], strs := strs }
      | _ => some p
    else none
  | .nodeIdx k _ | .size k => if p.ready k then some p else none

/-- There is a plan if every list call finds a key in its bucket, and no pop takes a value whose
string another one has released. -/
def run : List KeyedOp → KeyedPlan → Option KeyedPlan
  | [], p => some p
  | op :: ops, p => (p.step op).bind (run ops)

end KeyedPlan

end TouchDb
