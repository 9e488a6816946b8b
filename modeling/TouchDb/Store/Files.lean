import TouchDb.Path.Model
import TouchDb.Store.Model

/-! `touchdb_new` with the files that it creates or loads, and `touchdb_strcpy`, by which it makes
their names. -/
namespace TouchDb
open Prog

/-- The strings one after the other. -/
def CStr.join : List CStr → CStr
  | [] => ⟨[], List.not_mem_nil⟩
  | s :: rest => s.append (CStr.join rest)

/-- The loop of `touchdb_strcpy`: each string is copied to where the one before ended. -/
def touchdbStrcpy (m : Mem) (dist : ℕ) : List CStr → Mem
  | [] => m
  | s :: rest => touchdbStrcpy (m.write dist s.bytes) (dist + s.strlen) rest

/-- `touchdb_strcpy` to the buffer for a path. -/
def strcpyAll (parts : List CStr) : Except PathStop CStr := strcpyPath (CStr.join parts)

/-- `"TOUCHDB"` -/
def touchdbName : CStr := ⟨[84, 79, 85, 67, 72, 68, 66], by decide⟩

/-- `"00_01_00"` -/
def touchdbVersion : CStr := ⟨[48, 48, 95, 48, 49, 95, 48, 48], by decide⟩

/-- `"touchdb.info"` -/
def touchdbInfoFile : CStr := ⟨[116, 111, 117, 99, 104, 100, 98, 46, 105, 110, 102, 111], by decide⟩

/-- `"touchdb"` -/
def touchdbDataFilePrefix : CStr := ⟨[116, 111, 117, 99, 104, 100, 98], by decide⟩

/-- `".dat"` -/
def touchdbDataFileSuffix : CStr := ⟨[46, 100, 97, 116], by decide⟩

/-- `"1"` -/
def firstSeq : CStr := ⟨[49], by decide⟩

inductive TouchdbMode where
  | map | chain | cowMap | rbtree | btree
  deriving DecidableEq

/-- What an info file holds. -/
structure InfoFile where
  magicNum : CStr
  mode : TouchdbMode
  map : TouchdbMap
  lockGranularity : Int32
  dbPath : CStr
  poolList : ℕ → TouchdbPool
  /-- the field `shm_file` of each pool -/
  shmFile : ℕ → CStr

/-- A file of zeros. -/
def InfoFile.zero : InfoFile where
  magicNum := .join []
  mode := .map
  map := ⟨⟨0, 0⟩, 0, 0⟩
  lockGranularity := 0
  dbPath := .join []
  poolList _ := ⟨fun _ => ⟨0, 0, 0, 0⟩, 0, 0, 0, 0⟩
  shmFile _ := .join []

/-- The files at each path: an info file, or the bytes of a data file that a pool has room for,
which are zero where the file is shorter. -/
@[ext] structure Disk where
  info : CStr → Option InfoFile
  data : CStr → Option (ℕ → UInt8)

/-- What one process has of its own: the path of its info file, the data files that it has mapped
and where, its table of mappings, and the other bytes of its address space. -/
structure Process where
  db : CStr
  maps : List (CStr × ℕ)
  shmInfo : ℕ → TouchdbShmInfo
  rest : Mem

/-- A process that starts. -/
def Process.fresh (rest : Mem) : Process := ⟨.join [], [], fun _ => ⟨0, 0⟩, rest⟩

@[ext] structure Session where
  disk : Disk
  proc : Process

namespace Session

/-- The info file that `db` points into. -/
def info (x : Session) : InfoFile := (x.disk.info x.proc.db).getD .zero

/-- The address space: the mappings, and what is not mapped. -/
def mem (x : Session) : Mem := fun i =>
  match x.proc.maps.find? fun m => m.2 ≤ i ∧ i < m.2 + touchdbDefaultPoolSize with
  | some m => (x.disk.data m.1).getD (fun _ => 0) (i - m.2)
  | none => x.proc.rest i

/-- What the calls of the process work on. -/
def view (x : Session) : Touchdb := ⟨x.info.map, x.info.poolList, x.proc.shmInfo, x.mem⟩

def setInfo (x : Session) (f : InfoFile → InfoFile) : Session :=
  { x with disk := { x.disk with info := Function.update x.disk.info x.proc.db (some (f x.info)) } }

/-- The files and the process as a call leaves them: what is mapped is in the files. -/
def save (x : Session) (t : Touchdb) : Session where
  disk := {
    info := Function.update x.disk.info x.proc.db
      (some { x.info with map := t.map, poolList := t.poolList })
    data := fun file =>
      match x.proc.maps.find? fun m => m.1 = file with
      | some m => some fun i =>
        if i < touchdbDefaultPoolSize then t.mem (m.2 + i)
        else (x.disk.data file).getD (fun _ => 0) i
      | none => x.disk.data file }
  proc := { x.proc with shmInfo := t.shmInfo, rest := t.mem }

end Session

/-- What the system says to a process: also to `open`, to `mmap` and to `close`. -/
structure Env extends Sys where
  opens : CStr → Bool
  mmap : CStr → Option ℕ
  closes : CStr → Bool

/-- Why `touchdb_new` does not return. -/
inductive NewStop where
  | path (e : PathStop)
  | stop (e : Stop)
  deriving DecidableEq

abbrev NewM := Prog NewStop Event Session

section New

/-- A call on the store that is being opened. -/
def onStore {α : Type} (c : M α) : NewM α := fun x =>
  match c x.view with
  | .error (e, l) => .error (.stop e, l)
  | .ok (a, t, l) => .ok (a, x.save t, l)

def onPath {α : Type} (c : Except PathStop α) : NewM α :=
  match c with
  | .ok a => pure a
  | .error e => .stop (.path e)

def modifySession (f : Session → Session) : NewM Unit := .update f fun _ => []

/-- What `mmap` returns where it fails. -/
def mapFailed : ℕ := 2 ^ 64 - 1

/-- `get_shm`: `created` is what `open` and `write` do to the disk, `mapped` what `mmap` does to the
process. A result of `mmap` is compared with `NULL` alone. -/
def getShm (env : Env) (file : CStr) (created : Disk → Disk) (mapped : ℕ → Process → Process) :
    NewM ℕ := do
  if env.opens file then
    modifySession fun x => { x with disk := created x.disk }
    let ptr ← (match env.mmap file with
      | some p => do
        modifySession fun x => { x with proc := mapped p x.proc }
        return p
      | none => return mapFailed)
    if ptr = NULL then return NULL
    else if env.closes file then return ptr
    else return NULL
  else return NULL

def createInfo (file : CStr) (d : Disk) : Disk :=
  { d with info := Function.update d.info file (some ((d.info file).getD .zero)) }

def createData (file : CStr) (d : Disk) : Disk :=
  { d with data := Function.update d.data file (some ((d.data file).getD fun _ => 0)) }

def getInfoShm (env : Env) (file : CStr) : NewM ℕ :=
  getShm env file (createInfo file) fun _ proc => { proc with db := file }

def getDataShm (env : Env) (file : CStr) : NewM ℕ :=
  getShm env file (createData file) fun p proc => { proc with maps := (file, p) :: proc.maps }

def setInfo (f : InfoFile → InfoFile) : NewM Unit := modifySession fun x => x.setInfo f

def getInfo : NewM InfoFile := fun x => .ok (x.info, x, [])

/-- The loop that loads the pools from `i` on; past the last pool it reads outside the list. -/
def loadPools (env : Env) : ℕ → ℕ → NewM Unit
  | 0, _ => .stop (.stop .fault)
  | rounds + 1, i => do
    let info ← getInfo
    if (info.shmFile i).first ≠ 0 then
      let path ← onPath (strcpyAll [info.dbPath, info.shmFile i])
      let ptr ← getDataShm env path
      onStore (touchdbPoolInit i ptr true)
      onStore (assign fun s => s.setPool i fun pool => { pool with idx := Int32.ofNat i })
      loadPools env rounds (i + 1)
    else return ()

/-- The branch of `touchdb_new` that loads the files. -/
def touchdbLoad (env : Env) : NewM Unit := do
  let info ← getInfo
  -- `strncmp` of the first seven characters
  if info.magicNum.chars.take 7 ≠ touchdbName.chars then .stop (.stop .exit)
  else loadPools env touchdbPoolListSize 0

/-- The branch of `touchdb_new` that makes a new store. -/
def touchdbCreate (env : Env) (lockGranularity : Int32) (mode : TouchdbMode) : NewM Unit := do
  setInfo fun info => { info with magicNum := .join [touchdbName, touchdbVersion] }
  setInfo fun info => { info with mode := mode }
  setInfo fun info => { info with lockGranularity := lockGranularity }
  -- `memset` of the pool list
  setInfo fun info =>
    { info with poolList := InfoFile.zero.poolList, shmFile := InfoFile.zero.shmFile }
  onStore (assign fun s => s.setPool 0 fun pool => { pool with idx := 0 })
  setInfo fun info => { info with
    shmFile := Function.update info.shmFile 0
      (.join [touchdbDataFilePrefix, firstSeq, touchdbDataFileSuffix]) }
  let info ← getInfo
  let path ← onPath (strcpyAll [info.dbPath, info.shmFile 0])
  let ptr ← getDataShm env path
  onStore (touchdbPoolInit 0 ptr false)
  match mode with
  | .map => onStore (touchdbMapInit 1000)
  | _ => return ()

/-- `touchdb_new`. Where the info file cannot be mapped, its first field is stored by a pointer to
no field. -/
def touchdbOpen (env : Env) (datPath : Option CStr) (lockGranularity : Int32) (mode : TouchdbMode) :
    NewM Unit := do
  let path ← onPath (makeSureDir env.toSys (dataPath datPath))
  let tmpPath := path
  let path ← onPath (strcatPath path touchdbInfoFile)
  let isInited ← (fun x => .ok ((x.disk.info path).isSome, x, []) : NewM Bool)
  let infoPtr ← getInfoShm env path
  if infoPtr = NULL ∨ infoPtr = mapFailed then .stop (.stop .fault)
  else
    setInfo fun info => { info with dbPath := tmpPath }
    if isInited then touchdbLoad env
    else touchdbCreate env lockGranularity mode

end New

end TouchDb
