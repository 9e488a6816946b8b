import TouchDb.Worker.Model
import TouchDb.Store.Keyed
import Mathlib.Data.List.AList

/-! What a user of the worker may expect: a string or a list under each key. -/
namespace TouchDb

/-- What is under a key. The string of a key that was put twice is lost. -/
inductive Shown where
  | text (v : Text)
  | lost
  | list (q : List Text)

abbrev Shelf := AList fun _ : Text => Shown

namespace Shelf

/-- There is a key in the bucket of `k`: the list calls fault where there is none. -/
def ready (σ : Shelf) (k : Text) : Bool := σ.keys.any fun j => newBucket j = newBucket k

def listAt (σ : Shelf) (k : Text) : Option (List Text) :=
  match σ.lookup k with
  | some (.list q) => some q
  | _ => none

/-- What a command prints and leaves, where that does not depend on where blocks are. -/
def step (σ : Shelf) : WorkerCmd → Option (List WorkerLine × Shelf)
  | .put k v => some ([], σ.insert k.text (if k.text ∈ σ then .lost else .text v.text))
  | .get k =>
    match σ.lookup k.text with
    | some (.text v) => some ([.got k (some v.1)], σ)
    | some .lost => none
    | some (.list _) => some ([.got k none], σ)
    | none => if σ.ready k.text then some ([.got k none], σ) else none
  | .iter => none
  | .listPush k v =>
    if σ.ready k.text then
      some ([], σ.insert k.text (.list ((σ.listAt k.text).getD [] ++ [v.text])))
    else none
  | .listPop k =>
    if σ.ready k.text then
      match σ.listAt k.text with
      | some (v :: q) => some ([.popped k (some v.1)], σ.insert k.text (.list q))
      | _ => some ([.popped k none], σ)
    else none
  | .listIndex k idx =>
    if σ.ready k.text ∧ -2 ^ 31 < idx.toInt then
      some ([.index k idx ((Deques.nth ((σ.listAt k.text).getD []) idx.toInt).map Subtype.val)], σ)
    else none
  | .listSize k =>
    if σ.ready k.text then
      some ([.size k ((σ.listAt k.text).elim (-1) fun q => Int32.ofNat q.length)], σ)
    else none
  | .other => some ([], σ)

/-- The output of a session. -/
def session : List WorkerCmd → Shelf → Option (List WorkerLine)
  | [], σ => some [.prompt (Int32.ofNat σ.keys.length)]
  | cmd :: cmds, σ =>
    (σ.step cmd).bind fun x => (session cmds x.2).map fun rest =>
      .prompt (Int32.ofNat σ.keys.length) :: x.1 ++ rest

end Shelf

end TouchDb
