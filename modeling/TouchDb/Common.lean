import TouchDb.Core.Prog
import TouchDb.Core.Bytes

/-! `touchdb_common.h` and the records of `touchdb_pool.h` and `touchdb_map.h`: the data
model, the state of one process, and the accesses a program makes to it. Pointers are
absolute addresses; the structures that live in a pool are read and written as bytes. -/
namespace TouchDb
open Layout

/-- Pointers are absolute addresses of the process. -/
abbrev NULL : ℕ := 0

abbrev PtrOffset := UInt32

abbrev NIL : PtrOffset := 0

def touchdbPoolListSize : ℕ := 10

def touchdbDefaultPoolSize : ℕ := 100 * 1024 * 1024

def touchdbPoolFreeListCount : ℕ := 128 * 1024

/-- Rounds after which a loop over the nodes of a list is taken to go on for ever: a list
in a pool has fewer nodes than the pool has bytes. -/
def walkRounds : ℕ := touchdbDefaultPoolSize

structure TouchdbAddr where
  poolIdx : Int32
  offset : PtrOffset
  deriving DecidableEq

def nullAddr : TouchdbAddr := ⟨-1, NIL⟩

instance : Layout TouchdbAddr :=
  .transfer (fun a => (a.poolIdx, a.offset)) (fun p => ⟨p.1, p.2⟩) fun _ => rfl

/-- `touchdb_val_type`; memory may also hold a number that names no type. -/
inductive TouchdbValType where
  | int | str | chain | map | set
  | other (w : UInt32) (h : 5 ≤ w.toNat)
  deriving DecidableEq

namespace TouchdbValType

def toWord : TouchdbValType → UInt32
  | int => 0
  | str => 1
  | chain => 2
  | map => 3
  | set => 4
  | other w _ => w

def ofWord (w : UInt32) : TouchdbValType :=
  if w = 0 then int else if w = 1 then str else if w = 2 then chain
  else if w = 3 then map else if w = 4 then set
  else if h : 5 ≤ w.toNat then other w h else int

theorem ofWord_toWord (t : TouchdbValType) : ofWord t.toWord = t := by
  cases t with
  | other w h =>
    have hne (k : UInt32) (hk : k.toNat < 5) : w ≠ k := by
      rintro rfl
      omega
    change ofWord w = other w h
    unfold ofWord
    rw [if_neg (hne 0 (by decide)), if_neg (hne 1 (by decide)), if_neg (hne 2 (by decide)),
      if_neg (hne 3 (by decide)), if_neg (hne 4 (by decide)), dif_pos h]
  | _ => rfl

end TouchdbValType

instance : Layout TouchdbValType :=
  .transfer TouchdbValType.toWord TouchdbValType.ofWord TouchdbValType.ofWord_toWord

structure TouchdbVal where
  type : TouchdbValType
  value : TouchdbAddr
  deriving DecidableEq

instance : Layout TouchdbVal :=
  .transfer (fun v => (v.type, v.value)) (fun p => ⟨p.1, p.2⟩) fun _ => rfl

/-- A C string: its characters before the terminating NUL. -/
structure CStr where
  chars : List UInt8
  nul_notMem : 0 ∉ chars
  deriving DecidableEq

namespace CStr

/-- The bytes `strcpy` copies. -/
def bytes (s : CStr) : List UInt8 := s.chars ++ [0]

def strlen (s : CStr) : ℕ := s.chars.length

@[simp] theorem bytes_length (s : CStr) : s.bytes.length = s.strlen + 1 := by
  simp [bytes, strlen]

theorem ext_chars {s t : CStr} (h : s.chars = t.chars) : s = t := by
  cases s
  cases t
  simpa using h

end CStr

structure TouchdbFreeBlkList where
  headerOffset : PtrOffset
  tailOffset : PtrOffset
  size : Int32
  idx : Int32

structure TouchdbPool where
  freeBlkList : ℕ → TouchdbFreeBlkList
  freeBlkListCount : Int32
  curOffset : PtrOffset
  size : Int32
  idx : Int32

structure TouchdbShmInfo where
  start : ℕ
  end_ : ℕ

structure TouchdbMap where
  bulkList : TouchdbAddr
  bulkListCount : Int32
  size : Int32

/-- One process: the fields of the info file, the private table of mappings, and the
bytes of the address space. -/
structure Touchdb where
  map : TouchdbMap
  poolList : ℕ → TouchdbPool
  shmInfo : ℕ → TouchdbShmInfo
  mem : Mem

/-- A process whose data files have just been created: every field and byte is zero. -/
def Touchdb.zero : Touchdb where
  map := ⟨⟨0, 0⟩, 0, 0⟩
  poolList _ := ⟨fun _ => ⟨0, 0, 0, 0⟩, 0, 0, 0, 0⟩
  shmInfo _ := ⟨0, 0⟩
  mem _ := 0

/-- What a process has when it creates the data files: the address of the mapping of the first
pool, and the bytes of its address space. The info file holds zeros. -/
structure NewFiles where
  ptr : ℕ
  pos : 0 < ptr
  mem : Mem

/-- The pool is mapped at the second page, over zeros. -/
def NewFiles.page : NewFiles := ⟨4096, by decide, fun _ => 0⟩

def NewFiles.db (f : NewFiles) : Touchdb := { Touchdb.zero with mem := f.mem }

/-- Why a call does not return. -/
inductive Stop where
  /-- A `NULL` pointer or an index outside its array is used. -/
  | fault
  /-- The pool search of `touchdb_malloc` goes on for ever. -/
  | noBlock
  /-- Another loop goes on for ever. -/
  | diverge
  /-- The source calls `exit(1)`. -/
  | exit
  deriving DecidableEq

/-- What a program does that another process can see, and the addresses it translates.
A store names the bytes it writes and the state right after it. -/
inductive Event where
  | store (p n : ℕ) (after : Touchdb)
  | assign (after : Touchdb)
  | translate (a : TouchdbAddr)

namespace Event

/-- The state right after a store. -/
def after : Event → Option Touchdb
  | store _ _ s => some s
  | assign s => some s
  | translate _ => none

end Event

/-- The state that a reader finds after the events `l` of a call from `s`. -/
def viewAt (s : Touchdb) (l : List Event) : Touchdb := ((l.filterMap Event.after).getLast?).getD s

theorem viewAt_cases (s : Touchdb) (l : List Event) :
    viewAt s l = s ∨ ∃ e ∈ l, e.after = some (viewAt s l) := by
  unfold viewAt
  rcases h : (l.filterMap Event.after).getLast? with _ | t
  · exact .inl rfl
  · exact .inr (List.mem_filterMap.mp (List.mem_of_getLast? h))

theorem viewAt_store (s t : Touchdb) (l : List Event) (p n : ℕ) :
    viewAt s (l ++ [.store p n t]) = t := by
  simp [viewAt, List.filterMap_append, Event.after]

/-- Some store of `l` wrote the byte at `x`. -/
def Stored (l : List Event) (x : ℕ) : Prop := ∃ p n t, .store p n t ∈ l ∧ p ≤ x ∧ x < p + n

abbrev M := Prog Stop Event Touchdb

/-- Some mapping holds the `n` bytes from `p` on. -/
def Touchdb.mapped (s : Touchdb) (p n : ℕ) : Bool :=
  (List.range touchdbPoolListSize).any fun k =>
    decide ((s.shmInfo k).start ≤ p) && decide (p + n ≤ (s.shmInfo k).end_)

/-- A field of a structure in shared memory, by its distance from the start. -/
structure Field (α : Type) where
  off : ℕ

variable {α : Type} [Layout α]

@[simp] theorem size_addr : size TouchdbAddr = 8 := rfl

@[simp] theorem size_valType : size TouchdbValType = 4 := rfl

@[simp] theorem size_val : size TouchdbVal = 12 := rfl

def Touchdb.field (s : Touchdb) (p : ℕ) (f : Field α) : α := s.mem.peek α (p + f.off)

def load (p : ℕ) (f : Field α) : M α := fun s =>
  if p ≠ NULL ∧ s.mapped (p + f.off) (size α) then .ok (s.field p f, s, [])
  else .error (.fault, [])

/-- The effect of a store of bytes. -/
def Touchdb.write (s : Touchdb) (p : ℕ) (bs : List UInt8) : Touchdb :=
  { s with mem := s.mem.write p bs }

/-- `memcpy` or `strcpy` into shared memory. -/
def storeBytes (p : ℕ) (bs : List UInt8) : M Unit := fun s =>
  if p ≠ NULL ∧ s.mapped p bs.length then
    .ok ((), s.write p bs, [.store p bs.length (s.write p bs)])
  else .error (.fault, [])

def store (p : ℕ) (f : Field α) (v : α) : M Unit := fun s =>
  if p ≠ NULL ∧ s.mapped (p + f.off) (size α) then
    .ok ((), s.write (p + f.off) (enc v),
      [.store (p + f.off) (size α) (s.write (p + f.off) (enc v))])
  else .error (.fault, [])

/-- An assignment to a field of the info file. -/
def assign (f : Touchdb → Touchdb) : M Unit := .update f fun s => [.assign s]

/-! What the accesses do. -/
section Access
variable {s : Touchdb} {p : ℕ} {f : Field α} {G : Prog.Guard Stop Event}

theorem field_write_same (s : Touchdb) (p : ℕ) (f : Field α) (v : α) :
    (s.write (p + f.off) (enc v)).field p f = v :=
  Mem.peek_write_same s.mem (p + f.off) v

theorem field_write_disjoint {b : ℕ} {bs : List UInt8}
    (h : p + f.off + size α ≤ b ∨ b + bs.length ≤ p + f.off) :
    (s.write b bs).field p f = s.field p f :=
  Mem.peek_write_disjoint h

theorem field_congr {t : Touchdb}
    (h : ∀ i < size α, t.mem (p + f.off + i) = s.mem (p + f.off + i)) :
    t.field p f = s.field p f :=
  Mem.peek_congr h

theorem load_ok (hp : 0 < p) (hm : s.mapped (p + f.off) (size α) = true) :
    load p f s = .ok (s.field p f, s, []) := if_pos ⟨Nat.ne_of_gt hp, hm⟩

theorem wp_load {Q : α → Touchdb → Prop} (hp : 0 < p)
    (hm : s.mapped (p + f.off) (size α) = true) (h : Q (s.field p f) s) :
    Prog.wp G (load p f) Q s :=
  (Prog.wp_ok (load_ok hp hm)).mpr ⟨by simp, h⟩

theorem store_ok {v : α} (hp : 0 < p) (hm : s.mapped (p + f.off) (size α) = true) :
    store p f v s = .ok ((), s.write (p + f.off) (enc v),
      [.store (p + f.off) (size α) (s.write (p + f.off) (enc v))]) :=
  if_pos ⟨Nat.ne_of_gt hp, hm⟩

theorem wp_store {Q : Unit → Touchdb → Prop} {v : α} (hp : 0 < p)
    (hm : s.mapped (p + f.off) (size α) = true)
    (he : G.emits (.store (p + f.off) (size α) (s.write (p + f.off) (enc v))))
    (h : Q () (s.write (p + f.off) (enc v))) : Prog.wp G (store p f v) Q s :=
  (Prog.wp_ok (store_ok hp hm)).mpr ⟨by simpa using he, h⟩

theorem add_ne_NULL_iff {k : ℕ} (hp : 0 < p) : (p + k ≠ NULL) = (p ≠ NULL) :=
  propext ⟨fun _ => Nat.ne_of_gt hp, fun _ => Nat.ne_of_gt (Nat.add_pos_left hp k)⟩

/-- A store to a field of a structure that is a field of another one. -/
theorem store_shift {k : ℕ} {v : α} (hp : 0 < p) :
    store (p + k) f v s = store p ⟨k + f.off⟩ v s := by
  simp only [store, Nat.add_assoc, add_ne_NULL_iff hp]

theorem wp_store_shift {Q : Unit → Touchdb → Prop} {k : ℕ} {v : α} (hp : 0 < p)
    (h : Prog.wp G (store p ⟨k + f.off⟩ v) Q s) : Prog.wp G (store (p + k) f v) Q s := by
  unfold Prog.wp
  rw [store_shift hp]
  exact h

/-- A load from a structure that is a field of another one. -/
theorem load_shift {k : ℕ} (hp : 0 < p) : load (p + k) f s = load p ⟨k + f.off⟩ s := by
  simp only [load, Touchdb.field, Nat.add_assoc, add_ne_NULL_iff hp]

theorem wp_load_shift {Q : α → Touchdb → Prop} {k : ℕ} (hp : 0 < p)
    (h : Prog.wp G (load p ⟨k + f.off⟩) Q s) : Prog.wp G (load (p + k) f) Q s := by
  unfold Prog.wp
  rw [load_shift hp]
  exact h

theorem wp_storeBytes {Q : Unit → Touchdb → Prop} {bs : List UInt8} (hp : 0 < p)
    (hm : s.mapped p bs.length = true) (he : G.emits (.store p bs.length (s.write p bs)))
    (h : Q () (s.write p bs)) : Prog.wp G (storeBytes p bs) Q s := by
  simpa [Prog.wp, storeBytes, Nat.ne_of_gt hp, hm] using ⟨he, h⟩

theorem wp_assign {Q : Unit → Touchdb → Prop} {g : Touchdb → Touchdb}
    (he : G.emits (.assign (g s))) (h : Q () (g s)) : Prog.wp G (assign g) Q s :=
  Prog.wp_update (by simpa using he) h

end Access

/-- `t` differs from `s` at most in the bytes of the ranges `R`. -/
def Touchdb.Within (s t : Touchdb) (R : List (ℕ × ℕ)) : Prop :=
  ∀ x, (∀ r ∈ R, x < r.1 ∨ r.1 + r.2 ≤ x) → t.mem x = s.mem x

namespace Touchdb.Within
variable {s t : Touchdb} {R : List (ℕ × ℕ)} {p : ℕ} {f : Field α}

theorem refl (s : Touchdb) (R : List (ℕ × ℕ)) : s.Within s R := fun _ _ => rfl

theorem write {r : ℕ × ℕ} {bs : List UInt8} (h : s.Within t R) (hr : r ∈ R)
    (hp : r.1 ≤ p ∧ p + bs.length ≤ r.1 + r.2) : s.Within (t.write p bs) R := by
  intro x hx
  have h1 := hx r hr
  exact (Mem.write_outside (by omega)).trans (h x hx)

theorem field (h : s.Within t R)
    (hR : ∀ r ∈ R, p + f.off + size α ≤ r.1 ∨ r.1 + r.2 ≤ p + f.off) :
    t.field p f = s.field p f := by
  refine field_congr fun i hi => h _ fun r hr => ?_
  have h1 := hR r hr
  omega

end Touchdb.Within

/-! `touchdb_free_blk_hdr_t` -/
namespace FreeBlkHdr
abbrev nextOffset : Field PtrOffset := ⟨0⟩
abbrev prevOffset : Field PtrOffset := ⟨4⟩
abbrev idx : Field Int32 := ⟨8⟩
end FreeBlkHdr

/-- `BLK_HDR_SIZE`, the size of `touchdb_free_blk_hdr_t` -/
def blkHdrSize : ℕ := 16

/-! `touchdb_addr_t` -/
namespace Addr
abbrev poolIdx : Field Int32 := ⟨0⟩
abbrev offset : Field PtrOffset := ⟨4⟩
end Addr

/-! `touchdb_val_t` -/
namespace Val
abbrev all : Field TouchdbVal := ⟨0⟩
abbrev type : Field TouchdbValType := ⟨0⟩
abbrev value : Field TouchdbAddr := ⟨4⟩
end Val

def sizeofVal : ℕ := 12

theorem field_addr (s : Touchdb) (p : ℕ) (f : Field TouchdbAddr) :
    s.field p f = ⟨s.field (p + f.off) Addr.poolIdx, s.field (p + f.off) Addr.offset⟩ := by
  have h := Mem.peek_prod (α := Int32) (β := PtrOffset) s.mem (p + f.off)
  exact congrArg (fun x : Int32 × PtrOffset => (⟨x.1, x.2⟩ : TouchdbAddr)) h

theorem field_val (s : Touchdb) (p : ℕ) (f : Field TouchdbVal) :
    s.field p f = ⟨s.field (p + f.off) Val.type, s.field (p + f.off) Val.value⟩ := by
  have h := Mem.peek_prod (α := TouchdbValType) (β := TouchdbAddr) s.mem (p + f.off)
  exact congrArg (fun x : TouchdbValType × TouchdbAddr => (⟨x.1, x.2⟩ : TouchdbVal)) h

end TouchDb
