import TouchDb.Store.Model
import TouchDb.Str.Values

/-! `touchdb_worker.c`: a program that reads commands, and prints what its store answers. -/
namespace TouchDb

/-- A word of the input for which `char[100]` has room. -/
abbrev Word := {v : CStr // v.strlen < 100}

def Word.text (w : Word) : Text := ⟨w.1, by
  have h := w.2
  unfold CStr.Fits
  omega⟩

theorem zero_notMem_replicate (n : ℕ) {c : UInt8} (hc : c ≠ 0) : 0 ∉ List.replicate n c := by
  intro h
  exact hc (List.eq_of_mem_replicate h).symm

/-- The character `c`, `n` times. -/
def repeated (n : ℕ) (c : UInt8) (hc : c ≠ 0) : CStr := ⟨List.replicate n c, zero_notMem_replicate n hc⟩

theorem strlen_repeated (n : ℕ) {c : UInt8} (hc : c ≠ 0) : (repeated n c hc).strlen = n :=
  List.length_replicate

def word (n : ℕ) (c : UInt8) (hc : c ≠ 0 := by decide) (hn : n < 100 := by decide) : Word :=
  ⟨repeated n c hc, (strlen_repeated n hc).trans_lt hn⟩

/-- The commands with what is asked for after them. A number that is no command is passed over. -/
inductive WorkerCmd where
  | put (k v : Word)
  | get (k : Word)
  | iter
  | listPush (k v : Word)
  | listPop (k : Word)
  | listIndex (k : Word) (idx : Int32)
  | listSize (k : Word)
  | other

/-- The lines of the output. A null pointer is printed as a string that is not there. -/
inductive WorkerLine where
  | prompt (size : Int32)
  | got (k : Word) (v : Option CStr)
  | pair (k v : Option CStr)
  | popped (k : Word) (v : Option CStr)
  | index (k : Word) (idx : Int32) (v : Option CStr)
  | size (k : Word) (n : Int32)

def printIter : List (ℕ × ℕ) → M (List WorkerLine)
  | [] => return []
  | (k, v) :: calls => do
    let k ← readChars k
    let v ← readChars v
    let rest ← printIter calls
    return .pair k v :: rest

def WorkerCmd.run : WorkerCmd → M (List WorkerLine)
  | .put k v => do
    let _ ← touchdbPutStr k.1 v.1
    return []
  | .get k => do
    let p ← touchdbGetStr k.1
    let v ← readChars p
    return [.got k v]
  | .iter => do
    let calls ← touchdbIter
    printIter calls
  | .listPush k v => do
    let (val, addr) ← touchdbMalloc sizeofVal
    let _ ← touchdbStrNew2 val v.1
    touchdbListPush k.1 val
    touchdbFree addr
    return []
  | .listPop k => do
    let val ← touchdbListPop k.1
    let p ← touchdbStrData val
    let v ← readChars p
    return [.popped k v]
  | .listIndex k idx => do
    let val ← touchdbListNodeIdx k.1 idx
    let p ← touchdbStrData val
    let v ← readChars p
    return [.index k idx v]
  | .listSize k => do
    let n ← touchdbListSize k.1
    return [.size k n]
  | .other => return []

/-- The loop of `main`, up to the command -1. -/
def worker : List WorkerCmd → M (List WorkerLine)
  | [] => do
    let n ← touchdbSize
    return [.prompt n]
  | cmd :: cmds => do
    let n ← touchdbSize
    let lines ← cmd.run
    let rest ← worker cmds
    return .prompt n :: lines ++ rest

/-- A session on a new store. -/
def runWorker (f : NewFiles) (cmds : List WorkerCmd) : Except Stop (List WorkerLine × Touchdb) := do
  let s ← (touchdbNew f.ptr).next f.db
  (worker cmds).run s

end TouchDb
