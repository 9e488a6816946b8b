import TouchDb.Store.Runs
import TouchDb.Chain.Moves
import Mathlib.Logic.Function.Basic

/-! Clients of a store that keep strings in lists, under a key or in chains of their own, and
take them out again. -/
namespace TouchDb
open Prog Layout

/-- A list: one of the store, under a key, or a chain that the client has made. -/
inductive ListPlace where
  | key (k : Text)
  | chain (c : ℕ)
  deriving DecidableEq

/-- A value that the client has: where it is, and the string that it is taken to be. -/
structure ListVal where
  ptr : ℕ
  str : Option Text

/-- What the client has been given: its chains, its values, those of them that were pulled, and
the strings that wait in each list. -/
structure ListClient where
  chains : List ℕ
  vals : List ListVal
  popped : List ListVal
  queues : ListPlace → List (Option Text)

/-- The calls of the client. A place names a chain or a value that it has been given. -/
inductive ListOp where
  | putStr (k v : Text)
  | newStr (v : Text)
  | newChain
  | drop (h : ℕ)
  | listPush (k : Text) (h : ℕ)
  | listPop (k : Text)
  | push (c h : ℕ)
  | pullHead (c : ℕ)
  | pullTail (c : ℕ)

namespace ListClient

def zero : ListClient := ⟨[], [], [], fun _ => []⟩

/-- A value that is taken to be `v` has joined the list at `n`. -/
def pushed (r : ListClient) (n : ListPlace) (v : Option Text) : ListClient :=
  { r with queues := Function.update r.queues n (r.queues n ++ [v]) }

/-- A pull from the list at `n` has returned `p`, which is taken to be `v`; `q` is left. -/
def pulled (r : ListClient) (n : ListPlace) (p : ℕ) (v : Option (Option Text))
    (q : List (Option Text)) : ListClient :=
  if p = NULL then r
  else { r with
    vals := r.vals ++ [⟨p, v.join⟩]
    popped := r.popped ++ [⟨p, v.join⟩]
    queues := Function.update r.queues n q }

end ListClient

/-- One call; a call with a place that names nothing is not made. -/
def ListOp.run (r : ListClient) : ListOp → M ListClient
  | .putStr k v => do
    let _ ← touchdbPutStr k.1 v.1
    return { r with queues := Function.update r.queues (.key k) [] }
  | .newStr v => do
    let (p, _) ← touchdbMalloc sizeofVal
    let _ ← touchdbStrNew2 p v.1
    return { r with vals := r.vals ++ [⟨p, some v⟩] }
  | .newChain => do
    let (p, _) ← touchdbMalloc sizeofChain
    touchdbChainInit p
    return { r with chains := r.chains ++ [p] }
  | .drop h =>
    match r.vals[h]? with
    | some v => do
      let addr ← touchdbAddrOf v.ptr
      touchdbFree addr
      return { r with vals := r.vals.eraseIdx h }
    | none => return r
  | .listPush k h =>
    match r.vals[h]? with
    | some v => do
      touchdbListPush k.1 v.ptr
      return r.pushed (.key k) v.str
    | none => return r
  | .listPop k => do
    let p ← touchdbListPop k.1
    return r.pulled (.key k) p (r.queues (.key k)).head? (r.queues (.key k)).tail
  | .push c h =>
    match r.chains[c]?, r.vals[h]? with
    | some p, some v => do
      touchdbChainPushTail p v.ptr
      return r.pushed (.chain c) v.str
    | _, _ => return r
  | .pullHead c =>
    match r.chains[c]? with
    | some x => do
      let p ← touchdbChainPullHead x
      return r.pulled (.chain c) p (r.queues (.chain c)).head? (r.queues (.chain c)).tail
    | none => return r
  | .pullTail c =>
    match r.chains[c]? with
    | some x => do
      let p ← touchdbChainPullTail x
      return r.pulled (.chain c) p (r.queues (.chain c)).getLast? (r.queues (.chain c)).dropLast
    | none => return r

abbrev ListRun := ListClient × Touchdb

def ListRun.step (op : ListOp) (r : ListRun) : Except Stop ListRun := (op.run r.1).run r.2

/-- The calls `ops`, on a new store. -/
@[irreducible] def runLists (f : NewFiles) (ops : List ListOp) : Except Stop ListRun := do
  let s ← (touchdbNew f.ptr).next f.db
  Run.exec ListRun.step ops (.zero, s)

/-- The value at `p` is the string `v`, by blocks in use: its struct at `S` and its characters
at `D`. -/
structure StrOwned (s : Touchdb) (p : ℕ) (v : CStr) (S D : ℕ) : Prop where
  val : s.field p Val.all = ⟨.str, addrOf S⟩
  str_used : Allocated s S sizeofStr
  chars_used : Allocated s D (v.strlen + 1)
  data : ∃ l, touchdbStrData p s = .ok (s.base 0 + D, s, l)
  holds : s.holds (s.base 0 + D) v

/-- Every value that was pulled is still the string that was pushed. -/
def PoppedOwned (r : ListRun) : Prop :=
  ∀ x ∈ r.1.popped, ∃ v S D, x.str = some v ∧ StrOwned r.2 x.ptr v.1 S D

/-- The call is a pull from a list in which values wait, by the calls so far. -/
def ListOp.Finds (r : ListClient) : ListOp → Prop
  | .listPop k => r.queues (.key k) ≠ []
  | .pullHead c | .pullTail c => r.queues (.chain c) ≠ []
  | _ => False

end TouchDb
