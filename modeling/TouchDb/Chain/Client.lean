import TouchDb.Chain.Search
import TouchDb.Chain.Pull

/-! Clients of several chains in one new pool: the calls they make, and the discipline with
strings, each of which is released once at most. -/
namespace TouchDb
open Prog Layout

/-- A value that is not a string. -/
abbrev NonStr := {w : TouchdbVal // w.type ≠ .str}

/-- An index that `touchdb_chain_node_idx` can decrease. -/
structure ChainIdx where
  idx : Int32
  lt : -2 ^ 31 < idx.toInt

/-- The calls of a client. A place names a chain or a value that it has been given. -/
inductive ChainOp where
  | newChain
  | newStr (v : Text)
  | newVal (w : NonStr)
  | alloc (n : PoolSize)
  | drop (h : ℕ)
  | push (c h : ℕ)
  | pullHead (c : ℕ)
  | pullTail (c : ℕ)
  | nodeIdx (c : ℕ) (i : ChainIdx)
  | size (c : ℕ)

/-- The pointers that a client has been given, and what it asked the chains and was told. -/
structure ChainClient where
  chains : List ℕ
  vals : List ℕ
  acts : List (Deques.Act TouchdbVal)

def ChainClient.zero : ChainClient := ⟨[], [], []⟩

/-- The struct at `p`, where there is one. -/
def readVal (p : ℕ) : M (Option TouchdbVal) := do
  if p = NULL then return none
  else
    let w ← load p Val.all
    return some w

/-- One call; a call with a place that names nothing is not made. -/
def ChainOp.run (r : ChainClient) : ChainOp → M ChainClient
  | .newChain => do
    let (p, _) ← touchdbMalloc sizeofChain
    touchdbChainInit p
    return { r with chains := r.chains ++ [p] }
  | .newStr v => do
    let (p, _) ← touchdbMalloc sizeofVal
    let _ ← touchdbStrNew2 p v.1
    return { r with vals := r.vals ++ [p] }
  | .newVal w => do
    let (p, _) ← touchdbMalloc sizeofVal
    store p Val.all w.1
    return { r with vals := r.vals ++ [p] }
  | .alloc n => do
    let _ ← touchdbMalloc n.bytes
    return r
  | .drop h =>
    match r.vals[h]? with
    | some v => do
      let addr ← touchdbAddrOf v
      touchdbFree addr
      return { r with vals := r.vals.eraseIdx h }
    | none => return r
  | .push c h =>
    match r.chains[c]?, r.vals[h]? with
    | some p, some v => do
      let w ← load v Val.all
      touchdbChainPushTail p v
      return { r with acts := r.acts ++ [.push c w] }
    | _, _ => return r
  | .pullHead c =>
    match r.chains[c]? with
    | some p => do
      let v ← touchdbChainPullHead p
      let w ← readVal v
      return { r with
        vals := if v = NULL then r.vals else r.vals ++ [v], acts := r.acts ++ [.pullHead c w] }
    | none => return r
  | .pullTail c =>
    match r.chains[c]? with
    | some p => do
      let v ← touchdbChainPullTail p
      let w ← readVal v
      return { r with
        vals := if v = NULL then r.vals else r.vals ++ [v], acts := r.acts ++ [.pullTail c w] }
    | none => return r
  | .nodeIdx c i =>
    match r.chains[c]? with
    | some p => do
      let v ← touchdbChainNodeIdx p i.idx
      let w ← readVal v
      return { r with acts := r.acts ++ [.nth c i.idx.toInt w] }
    | none => return r
  | .size c =>
    match r.chains[c]? with
    | some p => do
      let n ← touchdbChainSize p
      return { r with acts := r.acts ++ [.length c n.toInt] }
    | none => return r

abbrev ChainRun := ChainClient × Touchdb

def ChainRun.step (op : ChainOp) (r : ChainRun) : Except Stop ChainRun := (op.run r.1).run r.2

/-- The calls `ops`, on a new pool. -/
@[irreducible] def runChains (f : NewFiles) (ops : List ChainOp) : Except Stop ChainRun := do
  let s ← (touchdbPoolInit 0 f.ptr false).next f.db
  Run.exec ChainRun.step ops (.zero, s)

/-! The discipline with strings: a pull releases the string of the value. -/

/-- What a value is: the place of a string is that among the strings built so far. -/
inductive ValKind where
  | plain
  | str (i : ℕ)

/-- The kinds of the values in the chains and of those that the client has, and which strings
are still in use. -/
structure ChainPlan where
  queues : List (List ValKind)
  vals : List ValKind
  strs : List Bool

namespace ChainPlan

def zero : ChainPlan := ⟨[], [], []⟩

/-- A value of kind `k` leaves the chain at `c`, in which `q` is left. There is no plan for a
string that is not in use any more. -/
def pull (p : ChainPlan) (c : ℕ) (k : Option ValKind) (q : List ValKind) : Option ChainPlan :=
  match k with
  | none => some p
  | some .plain => some { p with queues := p.queues.set c q, vals := p.vals ++ [.plain] }
  | some (.str i) =>
    if p.strs[i]? = some true then
      some ⟨p.queues.set c q, p.vals ++ [.str i], p.strs.set i false⟩
    else none

def step (p : ChainPlan) : ChainOp → Option ChainPlan
  | .newChain => some { p with queues := p.queues ++ [[]] }
  | .newStr _ => some { p with vals := p.vals ++ [.str p.strs.length], strs := p.strs ++ [true] }
  | .newVal _ => some { p with vals := p.vals ++ [.plain] }
  | .alloc _ => some p
  | .drop h => some { p with vals := p.vals.eraseIdx h }
  | .push c h =>
    match p.queues[c]?, p.vals[h]? with
    | some q, some k => some { p with queues := p.queues.set c (q ++ [k]) }
    | _, _ => some p
  | .pullHead c =>
    match p.queues[c]? with
    | some q => p.pull c q.head? q.tail
    | none => some p
  | .pullTail c =>
    match p.queues[c]? with
    | some q => p.pull c q.getLast? q.dropLast
    | none => some p
  | .nodeIdx _ _ => some p
  | .size _ => some p

def run : List ChainOp → ChainPlan → Option ChainPlan
  | [], p => some p
  | op :: ops, p => (p.step op).bind (run ops)

end ChainPlan

/-- No pull takes a value whose string another pull has released. -/
def Disciplined (ops : List ChainOp) : Prop := (ChainPlan.run ops .zero).isSome

instance (ops : List ChainOp) : Decidable (Disciplined ops) :=
  inferInstanceAs (Decidable (_ = true))

end TouchDb
