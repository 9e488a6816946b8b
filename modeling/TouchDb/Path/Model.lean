import TouchDb.Core.Directories
import TouchDb.Common

/-! `make_sure_dir` of `touchdb.c`: the path of the data directory. -/
namespace TouchDb

def slash : UInt8 := 47

def dot : UInt8 := 46

/-- The size of the buffer for the path. -/
def pathSize : ℕ := 1024

/-- What the system says to `getcwd`, to `access` and to `mkdir`. -/
structure Sys where
  cwd : Option CStr
  access : CStr → Bool
  mkdir : CStr → Bool

/-- A read beyond the end of a string, a write beyond the end of the buffer, or `exit(1)`. -/
inductive PathStop where
  | read | write | exit
  deriving DecidableEq

namespace CStr

/-- The character at the start, which may be the terminator. -/
def first (s : CStr) : UInt8 := s.chars.head?.getD 0

/-- The character before the terminator. -/
def last (s : CStr) : UInt8 := s.chars.getLast?.getD 0

def append (s t : CStr) : CStr := ⟨s.chars ++ t.chars, by simp [s.nul_notMem, t.nul_notMem]⟩

def drop (s : CStr) (n : ℕ) : CStr := ⟨s.chars.drop n, fun h => s.nul_notMem (List.mem_of_mem_drop h)⟩

/-- The string that a pointer `n` characters into `s` points to. -/
def suffixFrom (s : CStr) (n : ℕ) : Except PathStop CStr :=
  if n ≤ s.strlen then return s.drop n else throw .read

end CStr

/-- `"/"` -/
def slashStr : CStr := ⟨[slash], by decide⟩

/-- `strcpy` to the buffer. -/
def strcpyPath (s : CStr) : Except PathStop CStr :=
  if s.strlen + 1 ≤ pathSize then return s else throw .write

/-- `strcat` to what is in the buffer. -/
def strcatPath (path s : CStr) : Except PathStop CStr := strcpyPath (path.append s)

def getcwd (sys : Sys) (size : ℕ) : Except PathStop CStr :=
  match sys.cwd with
  | some cwd => if cwd.strlen + 1 ≤ size then return cwd else throw .exit
  | none => throw .exit

def makeSureDir (sys : Sys) (datPath : CStr) : Except PathStop CStr := do
  let path ← (if datPath.first ≠ slash then do
    -- `tmp_path` points into `dat_path`, and is read only when it is appended
    let tmpPath := if datPath.first = dot then 2 else 0
    let path ← getcwd sys 1024
    let path ← strcatPath path slashStr
    let tmp ← datPath.suffixFrom tmpPath
    strcatPath path tmp
  else strcpyPath datPath)
  let path ← (if path.last ≠ slash then strcpyPath slashStr else return path)
  if sys.access path then return path
  else if sys.mkdir path then return path
  else throw .exit

/-- The data path of `touchdb_new`: by default the current directory. -/
def dataPath : Option CStr → CStr
  | none => ⟨[dot, slash], by decide⟩
  | some datPath => datPath

end TouchDb
