import Mathlib.Data.List.Basic
import Mathlib.Tactic.Common
import Mathlib.Algebra.Group.Nat.Defs

/-! Byte-addressed memory and little-endian layouts of fixed-width values. -/

/-- A memory gives a byte at every address. -/
abbrev Mem := ℕ → UInt8

namespace Mem

def read (m : Mem) (a n : ℕ) : List UInt8 := (List.range n).map fun i => m (a + i)

def write (m : Mem) (a : ℕ) (bs : List UInt8) : Mem := fun i =>
  if i < a then m i else bs[i - a]?.getD (m i)

@[simp] theorem read_length (m : Mem) (a n : ℕ) : (m.read a n).length = n := by
  simp [read]

theorem read_getElem? (m : Mem) (a n i : ℕ) (h : i < n) :
    (m.read a n)[i]? = some (m (a + i)) := by
  simp [read, h]

theorem write_outside {m : Mem} {a i : ℕ} {bs : List UInt8}
    (h : i < a ∨ a + bs.length ≤ i) : m.write a bs i = m i := by
  unfold write
  split_ifs with hi
  · rfl
  · rw [List.getElem?_eq_none (by omega)]
    rfl

theorem write_inside {m : Mem} {a k : ℕ} {bs : List UInt8} (h : k < bs.length) :
    m.write a bs (a + k) = bs[k] := by
  unfold write
  rw [if_neg (by omega), Nat.add_sub_cancel_left, List.getElem?_eq_getElem h]
  rfl

theorem read_congr {m m' : Mem} {a n : ℕ} (h : ∀ i < n, m' (a + i) = m (a + i)) :
    m'.read a n = m.read a n := by
  apply List.map_congr_left
  intro i hi
  exact h i (List.mem_range.mp hi)

theorem read_write_same (m : Mem) (a : ℕ) (bs : List UInt8) :
    (m.write a bs).read a bs.length = bs := by
  apply List.ext_getElem (by simp)
  intro i h1 h2
  simp only [read, List.getElem_map, List.getElem_range]
  exact write_inside h2

theorem read_write_disjoint {m : Mem} {a b n : ℕ} {bs : List UInt8}
    (h : a + n ≤ b ∨ b + bs.length ≤ a) : (m.write b bs).read a n = m.read a n :=
  read_congr fun _ _ => write_outside (by omega)

theorem read_append (m : Mem) (a n k : ℕ) :
    m.read a (n + k) = m.read a n ++ m.read (a + n) k := by
  simp [read, List.range_add, Nat.add_assoc]

theorem read_succ (m : Mem) (a n : ℕ) : m.read a (n + 1) = m a :: m.read (a + 1) n := by
  rw [Nat.add_comm n 1, read_append]
  simp [read]

end Mem

/-! Little-endian numbers. -/
namespace LittleEndian

/-- The `n` low bytes of a number, lowest first. -/
def encode : ℕ → ℕ → List UInt8
  | 0, _ => []
  | n + 1, v => UInt8.ofNat v :: encode n (v / 256)

def decode : List UInt8 → ℕ
  | [] => 0
  | b :: bs => b.toNat + 256 * decode bs

@[simp] theorem encode_length (n v : ℕ) : (encode n v).length = n := by
  induction n generalizing v with
  | zero => rfl
  | succ n ih => simp [encode, ih]

theorem decode_encode (n v : ℕ) : decode (encode n v) = v % 256 ^ n := by
  induction n generalizing v with
  | zero => simp [encode, decode, Nat.mod_one]
  | succ n ih =>
    simp only [encode, decode, ih]
    rw [Nat.pow_succ', Nat.mod_mul]
    simp

end LittleEndian

/-- A fixed-size representation of the values of a type as bytes. -/
class Layout (α : Type) where
  size : ℕ
  enc : α → List UInt8
  dec : List UInt8 → α
  enc_length : ∀ v, (enc v).length = size
  dec_enc : ∀ v, dec (enc v) = v

namespace Layout
variable {α β : Type}

attribute [simp] enc_length dec_enc

instance : Layout UInt32 where
  size := 4
  enc v := LittleEndian.encode 4 v.toNat
  dec bs := UInt32.ofNat (LittleEndian.decode bs)
  enc_length v := by simp
  dec_enc v := by
    rw [LittleEndian.decode_encode]
    apply UInt32.toNat_inj.mp
    have h := v.toNat_lt
    simp

instance : Layout Int32 where
  size := 4
  enc v := enc v.toUInt32
  dec bs := (dec bs : UInt32).toInt32
  enc_length v := enc_length v.toUInt32
  dec_enc v := by simp

instance : Layout UInt8 where
  size := 1
  enc v := [v]
  dec bs := bs.headD 0
  enc_length _ := rfl
  dec_enc _ := rfl

@[simp] theorem size_uint8 : size UInt8 = 1 := rfl

@[simp] theorem size_uint32 : size UInt32 = 4 := rfl

@[simp] theorem size_int32 : size Int32 = 4 := rfl

/-- Two values one after the other. -/
instance prod [Layout α] [Layout β] : Layout (α × β) where
  size := size α + size β
  enc v := enc v.1 ++ enc v.2
  dec bs := (dec (bs.take (size α)), dec (bs.drop (size α)))
  enc_length v := by simp
  dec_enc v := by simp [List.take_left', List.drop_left']

/-- The layout of a type that is in bijection with a laid-out one. -/
abbrev transfer [Layout α] (f : β → α) (g : α → β) (h : ∀ b, g (f b) = b) : Layout β where
  size := size α
  enc b := enc (f b)
  dec bs := g (dec bs)
  enc_length b := enc_length (f b)
  dec_enc b := by simp [h]

end Layout

namespace Mem
open Layout
variable {α β : Type} [Layout α] [Layout β]

def peek (α : Type) [Layout α] (m : Mem) (a : ℕ) : α := dec (m.read a (size α))

@[simp] theorem peek_write_same (m : Mem) (a : ℕ) (v : α) :
    (m.write a (enc v)).peek α a = v := by
  unfold peek
  rw [← enc_length v, read_write_same, dec_enc]

theorem peek_congr {m m' : Mem} {a : ℕ} (h : ∀ i < size α, m' (a + i) = m (a + i)) :
    m'.peek α a = m.peek α a := by
  unfold peek
  rw [read_congr h]

theorem peek_write_disjoint {m : Mem} {a b : ℕ} {bs : List UInt8}
    (h : a + size α ≤ b ∨ b + bs.length ≤ a) : (m.write b bs).peek α a = m.peek α a :=
  peek_congr fun _ _ => write_outside (by omega)

/-- A value in a stretch of zero bytes. -/
theorem peek_write_zeros {m : Mem} {a k n : ℕ} (h : k + size α ≤ n) :
    (m.write a (List.replicate n 0)).peek α (a + k) = dec (List.replicate (size α) 0) := by
  unfold peek
  congr 1
  apply List.ext_getElem (by simp)
  intro i h1 h2
  have hi : k + i < (List.replicate n (0 : UInt8)).length := by
    rw [List.length_replicate] at h2 ⊢
    omega
  simp only [read, List.getElem_map, List.getElem_range, List.getElem_replicate]
  rw [Nat.add_assoc, write_inside hi, List.getElem_replicate]

theorem peek_prod (m : Mem) (a : ℕ) :
    m.peek (α × β) a = (m.peek α a, m.peek β (a + size α)) := by
  simp only [peek, size, dec, read_append, Prod.mk.injEq]
  constructor
  · rw [List.take_left' (read_length m a (size α))]
  · rw [List.drop_left' (read_length m a (size α))]

/-- A word is made of four bytes. -/
theorem peek_toNat (m : Mem) (a : ℕ) : (m.peek UInt32 a).toNat =
    (m a).toNat + 256 * ((m (a + 1)).toNat + 256 * ((m (a + 2)).toNat + 256 * (m (a + 3)).toNat)) := by
  have h0 := (m a).toNat_lt
  have h1 := (m (a + 1)).toNat_lt
  have h2 := (m (a + 2)).toNat_lt
  have h3 := (m (a + 3)).toNat_lt
  have hread : m.read a 4 = [m a, m (a + 1), m (a + 2), m (a + 3)] := rfl
  show (UInt32.ofNat (LittleEndian.decode (m.read a 4))).toNat = _
  rw [hread, UInt32.toNat_ofNat']
  simp only [LittleEndian.decode]
  omega

end Mem
