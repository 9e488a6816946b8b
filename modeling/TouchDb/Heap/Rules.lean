import TouchDb.Heap.Model
import TouchDb.Pool.Runs

/-! A store whose first pool, mapped at `B`, represents an allocator: blocks are named by
the offset `o` of their payload, and every operation says which blocks it leaves alone. -/
namespace TouchDb
open Prog Layout

/-- The address of the payload at offset `o` of the first pool. -/
def addrOf (o : ℕ) : TouchdbAddr := ⟨0, UInt32.ofNat o⟩

/-- The block that a stored address points to. The number of a block of the first pool is
its offset; the pool index stands above the offset. -/
def linkOf (x : TouchdbAddr) : Option ℕ :=
  if x.offset = NIL then none else some (x.poolIdx.toUInt32.toNat * 2 ^ 32 + x.offset.toNat)

/-- The payload at `o` is in use and has at least `n` bytes. -/
def Owns (a : PoolAlloc) (o n : ℕ) : Prop := ∃ c, a.payload o = some c ∧ n ≤ c

structure Heap (B : ℕ) (s : Touchdb) (a : PoolAlloc) : Prop extends PoolRep s 0 a where
  base_eq : s.base 0 = B

/-- Among blocks, the name that stands for the map record of the info file. -/
def mapRecord : ℕ := 0

/-- From `s` to `t`, no block in use is released or written, except those of `T`. -/
structure Frame (B : ℕ) (s : Touchdb) (a : PoolAlloc) (t : Touchdb) (a' : PoolAlloc)
    (T : List ℕ) : Prop where
  base : t.base 0 = s.base 0
  map : mapRecord ∉ T → t.map = s.map
  live : ∀ o ∉ T, ∀ c, a.payload o = some c → a'.payload o = some c
  bytes : ∀ o ∉ T, ∀ c, a.payload o = some c → ∀ i < c, t.mem (B + o + i) = s.mem (B + o + i)

/-- A store that no reader of the blocks in use, those of `T` apart, can notice. -/
def QuietEvent (B : ℕ) (s : Touchdb) (a : PoolAlloc) (T : List ℕ) : Event → Prop
  | .store p n t => Frame B s a t a T ∧
      ∀ o ∉ T, ∀ c, a.payload o = some c → p + n ≤ B + o ∨ B + o + c ≤ p
  | .assign t => Frame B s a t a T
  | .translate _ => False

/-- The block at `o` is one of `T`, or was not in use. -/
def Mine (a : PoolAlloc) (T : List ℕ) (o : ℕ) : Prop := o ∈ T ∨ o ≠ mapRecord ∧ a.payload o = none

/-- The allocator hands out the payload at `o` for `n` bytes. -/
def Handed (a : PoolAlloc) (n o : ℕ) (a' : PoolAlloc) : Prop :=
  ∃ b, a.malloc (sizeClass n) = some (b, a') ∧ o = b.off + blkHdrSize

/-- The allocator takes the payload at `o` back. -/
def Freed (a : PoolAlloc) (o : ℕ) (a' : PoolAlloc) : Prop :=
  ∃ b, a.Live b ∧ o = b.off + blkHdrSize ∧ a' = a.free b

/-- The payload at `o` has at least `n` bytes, whether it is in use or not. -/
def IsPayload (a : PoolAlloc) (o n : ℕ) : Prop :=
  ∃ b ∈ a.blocks, o = b.off + blkHdrSize ∧ n ≤ blkCap b.cls

/-- From `s` to `t`, no payload is written. -/
def Unwritten (B : ℕ) (s : Touchdb) (a : PoolAlloc) (t : Touchdb) : Prop :=
  ∀ o n, IsPayload a o n → ∀ i < n, t.mem (B + o + i) = s.mem (B + o + i)

/-- From `s` to `t`, no block that was in use is written, those of `T` apart. It may be released. -/
def Kept (B : ℕ) (s : Touchdb) (a : PoolAlloc) (t : Touchdb) (T : List ℕ) : Prop :=
  ∀ o ∉ T, ∀ n, Owns a o n → ∀ i < n, t.mem (B + o + i) = s.mem (B + o + i)

section Alloc
variable {a a' : PoolAlloc} {o o' n n' c : ℕ}

theorem blkHdrSize_pos : 0 < blkHdrSize := by decide

theorem blkSize_le (n : ℕ) : blkHdrSize + blkCap (sizeClass n) ≤ n + 24 := by
  simp only [blkHdrSize, blkCap, sizeClass]
  omega

theorem Owns.mono (h : Owns a o n) (hn : n' ≤ n) : Owns a o n' := by
  obtain ⟨c, hc, hle⟩ := h
  exact ⟨c, hc, by omega⟩

theorem Owns.bounds (h : Owns a o n) : blkHdrSize < o ∧ o + n ≤ touchdbDefaultPoolSize := by
  obtain ⟨c, hc, hle⟩ := h
  have h1 := Segregated.payload_bounds blkHdrSize_pos hc
  have h2 := a.fits
  omega

theorem Owns.ptr_ne (h : Owns a o n) (B : ℕ) : B + o ≠ NULL := by
  have h1 := h.bounds
  change B + o ≠ 0
  omega

theorem Owns.lt (h : Owns a o n) : o < 2 ^ 32 := by
  have h1 := h.bounds
  have h2 := poolSize_lt
  omega

theorem Owns.disjoint (h : Owns a o n) (h' : Owns a o' n') (hne : o ≠ o') :
    o + n ≤ o' ∨ o' + n' ≤ o := by
  obtain ⟨c, hc, hle⟩ := h
  obtain ⟨c', hc', hle'⟩ := h'
  have h1 := Segregated.payload_disjoint blkHdrSize_pos hc hc' hne
  omega

theorem Owns.ne_none (h : Owns a o n) : a.payload o ≠ none := by
  obtain ⟨c, hc, -⟩ := h
  simp [hc]

theorem Owns.ne (h : Owns a o n) (h' : a.payload o' = none) : o ≠ o' := by
  rintro rfl
  exact h.ne_none h'

theorem Handed.fresh (h : Handed a n o a') : a.payload o = none := by
  obtain ⟨b, hb, rfl⟩ := h
  exact (Segregated.malloc_payload blkHdrSize_pos hb).1

theorem Handed.unique {a₁ : PoolAlloc} (h : Handed a n o a₁) (h' : Handed a n o' a') : o' = o := by
  obtain ⟨b, hb, rfl⟩ := h
  obtain ⟨b', hb', rfl⟩ := h'
  rw [hb] at hb'
  obtain ⟨rfl, -⟩ := Prod.mk.inj (Option.some.inj hb')
  rfl

theorem Handed.ne_mapRecord (h : Handed a n o a') : o ≠ mapRecord := by
  obtain ⟨b, -, rfl⟩ := h
  simp [blkHdrSize, mapRecord]

/-- A block that is handed out belongs to the caller. -/
theorem Handed.mine {T : List ℕ} (h : Handed a n o a') : Mine a T o := .inr ⟨h.ne_mapRecord, h.fresh⟩

theorem Handed.payload (h : Handed a n o a') :
    a'.payload = Function.update a.payload o (some (blkCap (sizeClass n))) := by
  obtain ⟨b, hb, rfl⟩ := h
  exact (Segregated.malloc_payload blkHdrSize_pos hb).2

theorem Handed.owns (h : Handed a n o a') (hn : 1 ≤ n) : Owns a' o n :=
  ⟨_, by rw [h.payload, Function.update_self], le_blkCap hn⟩

theorem Handed.live (h : Handed a n o a') (hc : a.payload o' = some c) :
    a'.payload o' = some c := by
  rw [h.payload, Function.update_of_ne]
  · exact hc
  · rintro rfl
    rw [h.fresh] at hc
    cases hc

/-- What is not in use afterwards was not in use before. -/
theorem Handed.fresh_of (h : Handed a n o a') (hn : a'.payload o' = none) : a.payload o' = none := by
  refine Option.eq_none_iff_forall_ne_some.mpr fun c hc => ?_
  rw [h.live hc] at hn
  cases hn

theorem Handed.keep (h : Handed a n o a') (ho : Owns a o' n') : Owns a' o' n' := by
  obtain ⟨c, hc, hle⟩ := ho
  exact ⟨c, h.live hc, hle⟩

theorem Freed.payload (h : Freed a o a') : a'.payload = Function.update a.payload o none := by
  obtain ⟨b, hb, rfl, rfl⟩ := h
  exact Segregated.free_payload blkHdrSize_pos hb

theorem Freed.keep (h : Freed a o a') (ho : Owns a o' n') (hne : o' ≠ o) : Owns a' o' n' := by
  obtain ⟨c, hc, hle⟩ := ho
  exact ⟨c, by rw [h.payload, Function.update_of_ne hne]; exact hc, hle⟩

/-- A new block is carved where none of its class waits. -/
theorem Handed.queue_of_nil (h : Handed a n o a') (hq : a.queue (sizeClass n) = []) :
    a'.queue = a.queue := by
  obtain ⟨b, hb, -⟩ := h
  rcases Segregated.malloc_cases hb with ⟨q, x, hx, -, -⟩ | ⟨-, hc, -, rfl⟩
  · rw [hq] at hx
    cases hx
  · rfl

/-- The block that has waited longest is handed out first. -/
theorem Handed.eq_of_queue {x : ℕ} {q : List ℕ} (h : Handed a n o a')
    (hq : a.queue (sizeClass n) = x :: q) : o = x + blkHdrSize := by
  obtain ⟨b, hb, rfl⟩ := h
  rw [Segregated.malloc_of_cons hq] at hb
  obtain ⟨rfl, -⟩ := Prod.mk.inj (Option.some.inj hb)
  rfl

/-- A block waits in the queue of the class for which it was handed out. -/
theorem Handed.queue_of_freed {a₁ : PoolAlloc} (h : Handed a n o a₁) (hf : Freed a₁ o a') :
    a'.queue = Function.update a₁.queue (sizeClass n)
      (a₁.queue (sizeClass n) ++ [o - blkHdrSize]) := by
  obtain ⟨b, hb, rfl⟩ := h
  obtain ⟨d, hd, ho, rfl⟩ := hf
  obtain rfl : b = d := Segregated.eq_of_off blkHdrSize_pos (Segregated.malloc_mem hb) hd.1 (by omega)
  rw [Segregated.free_of_live hd, Nat.add_sub_cancel, ← Segregated.malloc_cls hb]
  rfl

theorem addrOf_offset (ho : o < 2 ^ 32) : (addrOf o).offset.toNat = o := Words.toNat_ofNat ho

theorem addrOf_ne_nil (ho : o < 2 ^ 32) (h0 : 0 < o) : (addrOf o).offset ≠ NIL :=
  Words.ofNat_ne_zero ho (by omega)

theorem linkOf_addrOf (ho : o < 2 ^ 32) (h0 : 0 < o) : linkOf (addrOf o) = some o := by
  have hi : (addrOf o).poolIdx.toUInt32.toNat = 0 := rfl
  unfold linkOf
  rw [if_neg (addrOf_ne_nil ho h0), addrOf_offset ho, hi, Nat.zero_mul, Nat.zero_add]

theorem linkOf_eq_none {x : TouchdbAddr} : linkOf x = none ↔ x.offset = NIL := by
  unfold linkOf
  split_ifs with h <;> simp [h]

theorem linkOf_eq_some {x : TouchdbAddr} (h : linkOf x = some o) (ho : o < 2 ^ 32) :
    x = addrOf o := by
  unfold linkOf at h
  split_ifs at h with h0
  have h1 := Option.some.inj h
  have h2 := x.offset.toNat_lt
  have h3 : x.poolIdx.toUInt32.toNat = 0 := by omega
  have h4 : x.offset.toNat = o := by omega
  cases x with
  | mk i w =>
    have hi : i = 0 := by
      have h5 : i.toUInt32 = 0 := UInt32.toNat_inj.mp h3
      rw [← Int32.toInt32_toUInt32 i, h5]
      rfl
    have hw : w = UInt32.ofNat o := by
      apply UInt32.toNat_inj.mp
      rw [Words.toNat_ofNat ho]
      exact h4
    rw [hi, hw]
    rfl

/-- Distinct blocks in use are fewer than the rounds of a walk. -/
theorem Owns.length_lt {l : List ℕ} (hl : l.Nodup) (h : ∀ o ∈ l, Owns a o 0) :
    l.length < walkRounds := by
  have hs : l ⊆ a.blocks.map fun b => b.off + blkHdrSize := by
    intro o ho
    obtain ⟨c, hc, -⟩ := h o ho
    obtain ⟨b, hb, hbo, -⟩ := (Segregated.payload_eq_some blkHdrSize_pos).mp hc
    exact List.mem_map.mpr ⟨b, hb.1, hbo⟩
  have h1 : l.length ≤ a.blocks.length := by simpa using hl.length_le_of_subset hs
  have h2 := a.tiles.length_le (k := 1) fun b => by simp only [blkHdrSize]; omega
  have h3 := a.fits
  unfold walkRounds
  omega

end Alloc

section Frame
variable {B : ℕ} {s t u : Touchdb} {a a' a'' : PoolAlloc} {T T' : List ℕ} {o n k : ℕ}

theorem Frame.refl (B : ℕ) (s : Touchdb) (a : PoolAlloc) (T : List ℕ) : Frame B s a s a T :=
  ⟨rfl, fun _ => rfl, fun _ _ _ h => h, fun _ _ _ _ _ _ => rfl⟩

theorem Frame.trans (h : Frame B s a t a' T) (h' : Frame B t a' u a'' T') :
    Frame B s a u a'' (T ++ T') where
  base := h'.base.trans h.base
  map ho := by
    obtain ⟨h1, h2⟩ := not_or.mp (List.mem_append.not.mp ho)
    exact (h'.map h2).trans (h.map h1)
  live o ho c hc := by
    obtain ⟨h1, h2⟩ := not_or.mp (List.mem_append.not.mp ho)
    exact h'.live o h2 c (h.live o h1 c hc)
  bytes o ho c hc i hi := by
    obtain ⟨h1, h2⟩ := not_or.mp (List.mem_append.not.mp ho)
    exact (h'.bytes o h2 c (h.live o h1 c hc) i hi).trans (h.bytes o h1 c hc i hi)

theorem mine_mapRecord : Mine a T mapRecord ↔ mapRecord ∈ T := by simp [Mine]

/-- Blocks that were not in use do not count as touched. -/
theorem Frame.drop (h : Frame B s a t a' T) (hT : ∀ o ∈ T, Mine a T' o) :
    Frame B s a t a' T' := by
  have hne {o c : ℕ} (ho : o ∉ T') (hc : a.payload o = some c) : o ∉ T := by
    intro hm
    rcases hT o hm with h1 | ⟨-, h1⟩
    · exact ho h1
    · rw [h1] at hc
      cases hc
  exact ⟨h.base, fun h0 => h.map fun hm => h0 (mine_mapRecord.mp (hT _ hm)), fun o ho c hc => h.live o (hne ho hc) c hc,
    fun o ho c hc => h.bytes o (hne ho hc) c hc⟩

/-- A further stretch that touches only what is already touched, or was not in use. -/
theorem Frame.step (h : Frame B s a t a' T) (h' : Frame B t a' u a'' T')
    (hT : ∀ o ∈ T', Mine a T o) : Frame B s a u a'' T :=
  (h.trans h').drop fun o ho => (List.mem_append.mp ho).elim .inl (hT o)

/-- What is not in use afterwards, and was not touched, was not in use before. -/
theorem Frame.fresh_of (h : Frame B s a t a' T) (ho : o ∉ T) (hn : a'.payload o = none) :
    a.payload o = none := by
  refine Option.eq_none_iff_forall_ne_some.mpr fun c hc => ?_
  rw [h.live o ho c hc] at hn
  cases hn

theorem Frame.owns (h : Frame B s a t a' T) (ho : o ∉ T) (hc : Owns a o n) : Owns a' o n := by
  obtain ⟨c, hc, hle⟩ := hc
  exact ⟨c, h.live o ho c hc, hle⟩

theorem Frame.mem (h : Frame B s a t a' T) (ho : o ∉ T) (hc : Owns a o n) {i : ℕ} (hi : i < n) :
    t.mem (B + o + i) = s.mem (B + o + i) := by
  obtain ⟨c, hc, hle⟩ := hc
  exact h.bytes o ho c hc i (by omega)

theorem Frame.field {α : Type} [Layout α] {f : Field α} (h : Frame B s a t a' T) (ho : o ∉ T)
    (hc : Owns a o n) (hf : f.off + size α ≤ n) : t.field (B + o) f = s.field (B + o) f := by
  refine field_congr fun i hi => ?_
  rw [Nat.add_assoc (B + o)]
  exact h.mem ho hc (by omega)

/-- A write into one block does not change the fields of another one. -/
theorem field_write_other {α : Type} [Layout α] {f : Field α} {x m : ℕ} {ws : List UInt8}
    (hx : Owns a x m) (ho : Owns a o n) (hne : o ≠ x) (hk : k + ws.length ≤ m)
    (hf : f.off + size α ≤ n) :
    (s.write (B + x + k) ws).field (B + o) f = s.field (B + o) f := by
  have h1 := ho.disjoint hx hne
  exact field_write_disjoint (by omega)

/-- A write into a block does not change its fields elsewhere. -/
theorem field_write_apart {α : Type} [Layout α] {f : Field α} {ws : List UInt8}
    (h : f.off + size α ≤ k ∨ k + ws.length ≤ f.off) :
    (s.write (B + o + k) ws).field (B + o) f = s.field (B + o) f :=
  field_write_disjoint (by omega)

theorem Heap.write {bs : List UInt8} (h : Heap B s a) (ho : Owns a o n) (hk : k + bs.length ≤ n) :
    Heap B (s.write (B + o + k) bs) a ∧ Frame B s a (s.write (B + o + k) bs) a [o] := by
  obtain ⟨c, hc, hle⟩ := ho
  obtain ⟨b, hb, hbo, hbc⟩ := (Segregated.payload_eq_some blkHdrSize_pos).mp hc
  refine ⟨⟨?_, h.base_eq⟩, rfl, fun _ => rfl, fun _ _ _ h => h, fun x hx c' hc' i hi => ?_⟩
  · have hkb : k + bs.length ≤ blkCap b.cls := by omega
    have hw := h.toPoolRep.writePayload hb.1 hkb
    rwa [h.base_eq, Nat.add_assoc B, hbo] at hw
  · refine Mem.write_outside ?_
    have hne : x ≠ o := by simpa using hx
    rcases Segregated.payload_disjoint blkHdrSize_pos hc' hc hne with h1 | h1
    · exact .inl (by omega)
    · exact .inr (by omega)

theorem Heap.mapped (h : Heap B s a) (hn : o + n ≤ touchdbDefaultPoolSize) :
    s.mapped (B + o) n = true :=
  h.toPoolMapped.mapped (by rw [h.base_eq]; omega) (by rw [h.base_eq]; omega)

theorem Heap.base_pos' (h : Heap B s a) : 0 < B := h.base_eq ▸ h.base_pos

/-- Headers and the record of the pool are not seen by the owners of blocks. -/
theorem HdrOnly.frame (h : HdrOnly s t 0 a'.blocks) (hs : s.base 0 = B)
    (hb : ∀ b ∈ a'.blocks, ∀ o c, a.payload o = some c → o + c ≤ b.off ∨ b.off + blkHdrSize ≤ o) :
    t.base 0 = s.base 0 ∧ t.map = s.map ∧ ∀ o c, a.payload o = some c →
      ∀ i < c, t.mem (B + o + i) = s.mem (B + o + i) := by
  refine ⟨h.base_eq, h.map_eq, fun o c hc i hi => h.mem_eq _ fun b hbm => ?_⟩
  have h1 := hb b hbm o c hc
  rw [hs]
  omega

/-- Headers lie outside the payload of every block, in use or not. -/
theorem HdrOnly.payload_mem {b : SegBlock} {i : ℕ} (h : HdrOnly s t 0 a.blocks) (hs : s.base 0 = B)
    (hb : b ∈ a.blocks) (hi : i < blkCap b.cls) :
    t.mem (B + (b.off + blkHdrSize) + i) = s.mem (B + (b.off + blkHdrSize) + i) := by
  apply h.mem_eq
  intro x hx
  rw [hs]
  by_cases hxb : b = x
  · subst hxb
    omega
  · have h1 := Segregated.disjoint hb hx hxb
    omega

theorem HdrOnly.unwritten (h : HdrOnly s t 0 a.blocks) (hs : s.base 0 = B) : Unwritten B s a t := by
  rintro _ n ⟨b, hb, rfl, hn⟩ i hi
  exact h.payload_mem hs hb (by omega)

theorem Owns.isPayload (h : Owns a o n) : IsPayload a o n := by
  obtain ⟨c, hc, hn⟩ := h
  obtain ⟨b, hb, ho, hbc⟩ := (Segregated.payload_eq_some blkHdrSize_pos).mp hc
  exact ⟨b, hb.1, ho.symm, by omega⟩

theorem Freed.isPayload (h : Freed a k a') (ho : IsPayload a o n) : IsPayload a' o n := by
  obtain ⟨b, -, -, rfl⟩ := h
  obtain ⟨d, hd, ho, hn⟩ := ho
  exact ⟨d, by rwa [Segregated.free_blocks], ho, hn⟩

theorem Unwritten.trans (h : Unwritten B s a t) (h' : Unwritten B t a' u)
    (hc : ∀ o n, IsPayload a o n → IsPayload a' o n) : Unwritten B s a u :=
  fun o n ho i hi => (h' o n (hc o n ho) i hi).trans (h o n ho i hi)

theorem Unwritten.kept (h : Unwritten B s a t) : Kept B s a t [] :=
  fun o _ n ho i hi => h o n ho.isPayload i hi

theorem Frame.kept (h : Frame B s a t a' T) : Kept B s a t T :=
  fun _ hT _ ho _ hi => h.mem hT ho hi

/-- What was in use is kept over a second stretch, in which it may be released. -/
theorem Frame.kept_trans (h : Frame B s a t a' T) (h' : Kept B t a' u T') : Kept B s a u (T ++ T') := by
  intro o ho n hn i hi
  obtain ⟨h1, h2⟩ := not_or.mp (List.mem_append.not.mp ho)
  exact (h' o h2 n (h.owns h1 hn) i hi).trans (h.mem h1 hn hi)

/-- Blocks that were not in use do not count. -/
theorem Kept.drop (h : Kept B s a t T) (hT : ∀ o ∈ T, Mine a T' o) : Kept B s a t T' := by
  intro o ho n hn i hi
  refine h o (fun hm => ?_) n hn i hi
  rcases hT o hm with h1 | ⟨-, h1⟩
  · exact ho h1
  · exact hn.ne_none h1

theorem Kept.field {α : Type} [Layout α] {f : Field α} (h : Kept B s a t T) (ho : o ∉ T)
    (hc : Owns a o n) (hf : f.off + size α ≤ n) : t.field (B + o) f = s.field (B + o) f := by
  refine field_congr fun i hi => ?_
  rw [Nat.add_assoc (B + o)]
  exact h o ho n hc _ (by omega)

theorem HdrEvent.quiet {e : Event} (h : HdrEvent s 0 a.blocks e) (hs : s.base 0 = B) :
    QuietEvent B s a [] e := by
  have hb : ∀ b ∈ a.blocks, ∀ o c, a.payload o = some c →
      o + c ≤ b.off ∨ b.off + blkHdrSize ≤ o :=
    fun b hb o c hc => Segregated.payload_hdr blkHdrSize_pos hc hb
  cases e with
  | store p m t =>
    obtain ⟨hd, b, hbm, hp, hm⟩ := h
    obtain ⟨h1, h2, h3⟩ := HdrOnly.frame hd hs hb
    refine ⟨⟨h1, fun _ => h2, fun _ _ _ h => h, fun o _ c hc => h3 o c hc⟩, fun o _ c hc => ?_⟩
    have h4 := hb b hbm o c hc
    rw [hs] at hp hm
    omega
  | assign t =>
    obtain ⟨h1, h2, h3⟩ := HdrOnly.frame h hs hb
    exact ⟨h1, fun _ => h2, fun _ _ _ h => h, fun o _ c hc => h3 o c hc⟩
  | translate x => exact h.elim

/-- The headers of all blocks carved after an allocation lie outside the payloads in use
before it. -/
theorem malloc_hdr {i : ℕ} {b : SegBlock} (h : a.malloc i = some (b, a')) :
    ∀ d ∈ a'.blocks, ∀ o c, a.payload o = some c → o + c ≤ d.off ∨ d.off + blkHdrSize ≤ o := by
  intro d hd o c hc
  obtain ⟨hn, hp⟩ := Segregated.malloc_payload blkHdrSize_pos h
  refine Segregated.payload_hdr (a := a') blkHdrSize_pos ?_ hd
  rw [hp, Function.update_of_ne]
  · exact hc
  · rintro rfl
    rw [hn] at hc
    cases hc

/-- What is quiet for more blocks in use is quiet for fewer. -/
theorem QuietEvent.mono {e : Event} (h : QuietEvent B s a' T e)
    (hl : ∀ o c, a.payload o = some c → a'.payload o = some c) : QuietEvent B s a T e := by
  have hf {u : Touchdb} (hu : Frame B s a' u a' T) : Frame B s a u a T :=
    ⟨hu.base, hu.map, fun _ _ _ h => h, fun o ho c hc => hu.bytes o ho c (hl o c hc)⟩
  cases e with
  | store p m u => exact ⟨hf h.1, fun o ho c hc => h.2 o ho c (hl o c hc)⟩
  | assign u => exact hf h
  | translate x => exact h.elim

/-- What is quiet after a stretch was quiet before it. -/
theorem QuietEvent.lift {e : Event} (hF : Frame B s a t a' T) (h : QuietEvent B t a' T' e)
    (hT : ∀ o ∈ T', Mine a T o) : QuietEvent B s a T e := by
  have hne {o c : ℕ} (ho : o ∉ T) (hc : a.payload o = some c) : o ∉ T' := by
    intro hm
    rcases hT o hm with h1 | ⟨-, h1⟩
    · exact ho h1
    · rw [h1] at hc
      cases hc
  have hf {u : Touchdb} (hu : Frame B t a' u a' T') : Frame B s a u a T :=
    ⟨hu.base.trans hF.base, fun h0 =>
      (hu.map fun hm => h0 (mine_mapRecord.mp (hT _ hm))).trans (hF.map h0), fun _ _ _ h => h, fun o ho c hc i hi =>
      (hu.bytes o (hne ho hc) c (hF.live o ho c hc) i hi).trans (hF.bytes o ho c hc i hi)⟩
  cases e with
  | store p m u =>
    exact ⟨hf h.1, fun o ho c hc => h.2 o (hne ho hc) c (hF.live o ho c hc)⟩
  | assign u => exact hf h
  | translate x => exact h.elim

end Frame

/-- A guard that allows the translation of addresses of the first pool. -/
def Reads (G : Guard Stop Event) : Prop :=
  ∀ o, 0 < o → o ≤ touchdbDefaultPoolSize → G.emits (.translate (addrOf o))

section Wp
variable {B : ℕ} {s t : Touchdb} {a a' : PoolAlloc} {o n c : ℕ} {G : Guard Stop Event}

/-- Every byte of a block in use is mapped. -/
theorem Heap.mappedCell {k m : ℕ} (h : Heap B s a) (ho : Owns a o n) (hk : k + m ≤ n) :
    s.mapped (B + o + k) m = true := by
  have hb := ho.bounds
  rw [Nat.add_assoc]
  exact h.mapped (by omega)

theorem Heap.load_ok {α : Type} [Layout α] {f : Field α} (h : Heap B s a) (ho : Owns a o n)
    (hf : f.off + size α ≤ n) : load (B + o) f s = .ok (s.field (B + o) f, s, []) := by
  have hB := ho.bounds
  exact TouchDb.load_ok (by omega) (h.mappedCell ho hf)

theorem Heap.store_ok {α : Type} [Layout α] {f : Field α} {v : α} (h : Heap B s a)
    (ho : Owns a o n) (hf : f.off + size α ≤ n) :
    store (B + o) f v s = .ok ((), s.write (B + o + f.off) (enc v),
      [.store (B + o + f.off) (size α) (s.write (B + o + f.off) (enc v))]) := by
  have hB := ho.bounds
  exact TouchDb.store_ok (by omega) (h.mappedCell ho hf)

theorem wp_loadCell {α : Type} [Layout α] {f : Field α} {Q : α → Touchdb → Prop} (h : Heap B s a)
    (ho : Owns a o n) (hf : f.off + size α ≤ n) (hQ : Q (s.field (B + o) f) s) :
    wp G (load (B + o) f) Q s := by
  have hb := ho.bounds
  exact wp_load (by omega) (h.mappedCell ho hf) hQ

theorem wp_storeCell {α : Type} [Layout α] {f : Field α} {v : α} {Q : Unit → Touchdb → Prop}
    (h : Heap B s a) (ho : Owns a o n) (hf : f.off + size α ≤ n)
    (he : G.emits (.store (B + o + f.off) (size α) (s.write (B + o + f.off) (enc v))))
    (hQ : Heap B (s.write (B + o + f.off) (enc v)) a →
      Frame B s a (s.write (B + o + f.off) (enc v)) a [o] →
      Q () (s.write (B + o + f.off) (enc v))) : wp G (store (B + o) f v) Q s := by
  have hb := ho.bounds
  have hk : f.off + (enc v).length ≤ n := by simpa using hf
  obtain ⟨h1, h2⟩ := h.write ho hk
  exact wp_store (by omega) (h.mappedCell ho hf) he (hQ h1 h2)

theorem wp_storeBytesAt {bs : List UInt8} {Q : Unit → Touchdb → Prop} (h : Heap B s a)
    (ho : Owns a o n) (hn : bs.length ≤ n)
    (he : G.emits (.store (B + o) bs.length (s.write (B + o) bs)))
    (hQ : Heap B (s.write (B + o) bs) a → Frame B s a (s.write (B + o) bs) a [o] →
      Q () (s.write (B + o) bs)) : wp G (storeBytes (B + o) bs) Q s := by
  have hb := ho.bounds
  have hk : 0 + bs.length ≤ n := by omega
  obtain ⟨h1, h2⟩ := h.write ho hk
  exact wp_storeBytes (by omega) (h.mapped (by omega)) he (hQ h1 h2)

theorem wp_poolAt_zero {Q : ℕ → Touchdb → Prop} (hQ : Q 0 s) : wp G (poolAt 0) Q s := by
  have hr : poolAt 0 s = .ok (0, s, []) := if_pos ⟨by decide, by decide⟩
  exact (wp_ok hr).mpr ⟨by simp, hQ⟩

theorem wp_translate {x : TouchdbAddr} {Q : Unit → Touchdb → Prop} (he : G.emits (.translate x))
    (hQ : Q () s) : wp G (translate x) Q s :=
  wp_update (by simpa using he) hQ

theorem wp_touchdbPtrOf {Q : ℕ → Touchdb → Prop} (h : Heap B s a)
    (ho : o ≤ touchdbDefaultPoolSize) (he : G.emits (.translate (addrOf o))) (hQ : Q (B + o) s) :
    wp G (touchdbPtrOf (addrOf o)) Q s := by
  have hsz := poolSize_lt
  have hoff : (addrOf o).offset.toNat = o := addrOf_offset (by omega)
  unfold touchdbPtrOf
  refine wp_bind (wp_translate he (wp_bind (wp_poolAt_zero ?_)))
  refine wp_ptrOf h.toPoolMapped (by omega) ?_
  rw [hoff, h.base_eq]
  exact hQ

theorem wp_ptrOfOwned {Q : ℕ → Touchdb → Prop} (h : Heap B s a) (hT : Reads G) (ho : Owns a o n)
    (hQ : Q (B + o) s) : wp G (touchdbPtrOf (addrOf o)) Q s := by
  have hb := ho.bounds
  exact wp_touchdbPtrOf h (by omega) (hT o (by omega) (by omega)) hQ

theorem wp_touchdbAddrOf {Q : TouchdbAddr → Touchdb → Prop} (h : Heap B s a)
    (ho : o ≤ touchdbDefaultPoolSize) (hQ : Q (addrOf o) s) :
    wp G (touchdbAddrOf (B + o)) Q s := by
  have hi : 0 ≤ (s.poolList 0).idx.toInt ∧ (s.poolList 0).idx.toInt < touchdbPoolListSize :=
    ⟨h.idx_nonneg, h.idx_lt⟩
  have hr : shmInfoOf 0 s = .ok (s.shmInfo (s.poolList 0).idx.toInt.toNat, s, []) := if_pos hi
  have hs : (s.shmInfo (s.poolList 0).idx.toInt.toNat).start = B := h.base_eq
  have hend := h.end_eq
  rw [h.base_eq] at hend
  have hcur : (s.poolList 0).curOffset ≠ NIL := by
    intro h0
    have h1 := h.cur
    have h2 := a.tiles.le
    rw [h0] at h1
    change 0 = a.cur at h1
    omega
  unfold touchdbAddrOf touchdbPoolListSize addrOfSearch
  refine wp_bind (wp_getPool ?_)
  rw [if_pos hcur]
  refine wp_bind ((wp_ok hr).mpr ⟨by simp, ?_⟩)
  rw [if_pos (by rw [hs, hend]; omega), hs, Nat.add_sub_cancel_left]
  exact wp_pure hQ

/-- A block that the pool has handed out. -/
theorem Heap.handed {b : SegBlock} (h : Heap B s a) (hm : a.malloc (sizeClass n) = some (b, a'))
    (hr : PoolRep t 0 a') (hd : HdrOnly s t 0 a'.blocks) :
    Handed a n (b.off + blkHdrSize) a' ∧ Heap B t a' ∧ Frame B s a t a' [] := by
  have hh : Handed a n (b.off + blkHdrSize) a' := ⟨b, hm, rfl⟩
  obtain ⟨-, hf2, hf3⟩ := HdrOnly.frame hd h.base_eq (malloc_hdr hm)
  exact ⟨hh, ⟨hr, hd.base_eq.trans h.base_eq⟩, ⟨hd.base_eq, fun _ => hf2, fun o _ c hc => hh.live hc,
    fun o _ c hc => hf3 o c hc⟩⟩

theorem wp_touchdbMalloc {Q : ℕ × TouchdbAddr → Touchdb → Prop} (h : Heap B s a) (h1 : 1 ≤ n)
    (h2 : n ≤ 2 ^ 20) (hs : a.malloc (sizeClass n) = none → G.stops .noBlock)
    (hG : ∀ o a', Handed a n o a' → ∀ e, QuietEvent B s a' [] e → G.emits e)
    (hQ : ∀ o a' t, Handed a n o a' → Heap B t a' → Frame B s a t a' [] →
      Q (B + o, addrOf o) t) : wp G (touchdbMalloc n) Q s := by
  -- a request that fails leaves the state alone, so that the next round fails too
  have hfail (hn : a.malloc (sizeClass n) = none) (rounds i : ℕ) {R : ℕ × ℕ → Touchdb → Prop} :
      wp G (mallocSearch (UInt32.ofNat n) rounds i) R s := by
    induction rounds generalizing i with
    | zero => exact wp_stop (hs hn)
    | succ rounds ih =>
      unfold mallocSearch
      refine wp_seq (wp_touchdbPoolMalloc h.toPoolRep h1 h2 fun b a' hb => ?_) fun p t hp => ?_
      · rw [hn] at hb
        cases hb
      · simp only [MallocPost, hn] at hp
        obtain ⟨rfl, rfl⟩ := hp
        rw [if_neg (by simp)]
        exact ih _
  unfold touchdbMalloc
  rcases hm : a.malloc (sizeClass n) with _ | ⟨b, a'⟩
  · exact wp_bind (hfail hm _ _)
  · unfold touchdbPoolListSize mallocSearch
    refine wp_bind (wp_bind (wp_mono (wp_touchdbPoolMalloc h.toPoolRep h1 h2
      fun b' a'' hb e he => ?_) fun p t hp => ?_))
    · rw [hm] at hb
      cases hb
      exact hG _ a' ⟨b, hm, rfl⟩ e (he.quiet h.base_eq)
    · simp only [MallocPost, hm] at hp
      obtain ⟨rfl, hr, hd⟩ := hp
      have hpos := h.base_pos
      obtain ⟨hh, ht, hF⟩ := h.handed hm hr hd
      rw [if_pos (by simp only [NULL]; omega), h.base_eq, Nat.add_assoc]
      refine wp_pure (wp_bind ?_)
      rw [← ht.base_eq]
      refine wp_ptrOffsetOf hr.toPoolMapped (wp_pure ?_)
      rw [ht.base_eq]
      exact hQ _ a' t hh ht hF

/-- `touchdb_pool_malloc` leaves the payload of the block as it finds it. -/
theorem wp_poolMalloc {Q : ℕ → Touchdb → Prop} (h : Heap B s a) (h1 : 1 ≤ n) (h2 : n ≤ 2 ^ 20)
    (hr : a.cur + (n + 24) ≤ touchdbDefaultPoolSize) (hG : ∀ e, G.emits e)
    (hQ : ∀ o a' t, Handed a n o a' → Heap B t a' → Frame B s a t a' [] →
      (∀ i < n, t.mem (B + o + i) = s.mem (B + o + i)) → Q (B + o) t) :
    wp G (touchdbPoolMalloc 0 (UInt32.ofNat n)) Q s := by
  apply wp_mono (wp_touchdbPoolMalloc h.toPoolRep h1 h2 fun _ _ _ e _ => hG e)
  intro p t hp
  rcases hm : a.malloc (sizeClass n) with _ | ⟨b, a'⟩
  · have hsz := blkSize_le n
    rcases (Segregated.malloc_eq_none).mp hm with ⟨-, hc⟩
    omega
  · simp only [MallocPost, hm] at hp
    obtain ⟨rfl, hr, hd⟩ := hp
    obtain ⟨hh, ht, hF⟩ := h.handed hm hr hd
    have hcap := le_blkCap h1
    rw [h.base_eq, Nat.add_assoc]
    apply hQ _ a' t hh ht hF
    intro i hi
    apply hd.payload_mem h.base_eq (Segregated.malloc_mem hm)
    rw [Segregated.malloc_cls hm]
    omega

/-- A block that the pool has taken back. -/
theorem Heap.freed {b : SegBlock} (h : Heap B s a) (hb : a.Live b) (hr : PoolRep t 0 (a.free b))
    (hd : HdrOnly s t 0 a.blocks) :
    Freed a (b.off + blkHdrSize) (a.free b) ∧ Heap B t (a.free b) ∧
      Frame B s a t (a.free b) [b.off + blkHdrSize] ∧ Frame B s a t a [] := by
  have hhdr : ∀ d ∈ a.blocks, ∀ o c, a.payload o = some c →
      o + c ≤ d.off ∨ d.off + blkHdrSize ≤ o :=
    fun d hd o c hc => Segregated.payload_hdr blkHdrSize_pos hc hd
  obtain ⟨hf1, hf2, hf3⟩ := HdrOnly.frame hd h.base_eq hhdr
  have hfr : Freed a (b.off + blkHdrSize) (a.free b) := ⟨b, hb, rfl, rfl⟩
  refine ⟨hfr, ⟨hr, hd.base_eq.trans h.base_eq⟩, ⟨hf1, fun _ => hf2, fun x hx c hc => ?_,
    fun o _ c hc => hf3 o c hc⟩, ⟨hf1, fun _ => hf2, fun _ _ _ h => h, fun o _ c hc => hf3 o c hc⟩⟩
  rw [hfr.payload, Function.update_of_ne (by simpa using hx)]
  exact hc

/-- A block is released. No payload is written, not even its own. -/
theorem wp_touchdbFree_kept {Q : Unit → Touchdb → Prop} (h : Heap B s a) (ho : Owns a o n)
    (hG : ∀ e, QuietEvent B s a [] e → G.emits e)
    (hQ : ∀ a' t, Freed a o a' → Heap B t a' → Frame B s a t a' [o] → Frame B s a t a [] →
      Unwritten B s a t → Q () t) : wp G (touchdbFree (addrOf o)) Q s := by
  obtain ⟨c, hc, -⟩ := ho
  obtain ⟨b, hb, rfl, -⟩ := (Segregated.payload_eq_some blkHdrSize_pos).mp hc
  have hbd := Segregated.blk_bounds hb.1
  have hsz := poolSize_lt
  have hoff : (addrOf (b.off + blkHdrSize)).offset.toNat = b.off + blkHdrSize :=
    addrOf_offset (by omega)
  unfold touchdbFree
  refine wp_bind (wp_poolAt_zero (wp_bind (wp_ptrOf h.toPoolMapped (by omega) ?_)))
  rw [hoff, ← Nat.add_assoc]
  refine wp_mono (wp_touchdbPoolFree h.toPoolRep hb fun e he => hG e
    (he.quiet h.base_eq)) fun _ t ht => ?_
  obtain ⟨h1, h2, h3, h4⟩ := h.freed hb ht.1 ht.2
  exact hQ _ t h1 h2 h3 h4 (ht.2.unwritten h.base_eq)

theorem wp_touchdbFree {Q : Unit → Touchdb → Prop} (h : Heap B s a) (ho : Owns a o n)
    (hG : ∀ e, QuietEvent B s a [] e → G.emits e)
    (hQ : ∀ a' t, Freed a o a' → Heap B t a' → Frame B s a t a' [o] → Frame B s a t a [] →
      Q () t) : wp G (touchdbFree (addrOf o)) Q s :=
  wp_touchdbFree_kept h ho hG fun a' t hf ht h1 h2 _ => hQ a' t hf ht h1 h2

end Wp

/-- The state `t` is reached from `s` by a stretch that touched no block in use at `s`,
those of `T` apart. -/
structure Work (B : ℕ) (s : Touchdb) (a : PoolAlloc) (T : List ℕ) (t : Touchdb)
    (a' : PoolAlloc) : Prop where
  heap : Heap B t a'
  frame : Frame B s a t a' T

/-- Nothing is asked of the events, and a request for a block may fail. -/
def served : Guard Stop Event := ⟨fun e => e = .noBlock, fun _ => True⟩

/-- Requests of these sizes, made one after the other, are served, or may fail. -/
def Serves (G : Guard Stop Event) : PoolAlloc → List ℕ → Prop
  | _, [] => True
  | a, n :: ns => (a.malloc (sizeClass n) = none → G.stops .noBlock) ∧
      ∀ o a', Handed a n o a' → Serves G a' ns

/-- The space that requests of these sizes take at most, with their headers. -/
def roomFor (ns : List ℕ) : ℕ := (ns.map fun n => n + 24).sum

section Serves
variable {G : Guard Stop Event} {a a' : PoolAlloc} {ns : List ℕ} {o n : ℕ}

theorem Serves.of_stops (h : G.stops .noBlock) (a : PoolAlloc) (ns : List ℕ) : Serves G a ns := by
  induction ns generalizing a with
  | nil => trivial
  | cons n ns ih => exact ⟨fun _ => h, fun _ a' _ => ih a'⟩

theorem Handed.cur_le (h : Handed a n o a') : a'.cur ≤ a.cur + (n + 24) := by
  have hn := blkSize_le n
  obtain ⟨b, hb, -⟩ := h
  rcases Segregated.malloc_cases hb with ⟨q, x, hq, -, rfl⟩ | ⟨hq, hc, -, rfl⟩
  · exact Nat.le_add_right _ _
  · simp only [Segregated.carve]
    omega

theorem Freed.cur_eq (h : Freed a o a') : a'.cur = a.cur := by
  obtain ⟨b, hb, -, rfl⟩ := h
  rw [Segregated.free_of_live hb]
  rfl

/-- A pool with enough room left serves every request. -/
theorem Serves.of_room (h : a.cur + roomFor ns ≤ touchdbDefaultPoolSize) : Serves G a ns := by
  induction ns generalizing a with
  | nil => trivial
  | cons n ns ih =>
    simp only [roomFor, List.map_cons, List.sum_cons] at h
    refine ⟨fun hn => ?_, fun o a' ho => ih ?_⟩
    · have hsz := blkSize_le n
      by_cases hq : a.queue (sizeClass n) = []
      · rw [Segregated.malloc_of_room hq (by omega)] at hn
        cases hn
      · obtain ⟨x, q, hq⟩ := List.exists_cons_of_ne_nil hq
        rw [Segregated.malloc_of_cons hq] at hn
        cases hn
    · have hc := ho.cur_le
      simp only [roomFor]
      omega

theorem Serves.one (h : a.cur + (n + 24) ≤ touchdbDefaultPoolSize) : Serves G a [n] :=
  .of_room (by simpa [roomFor] using h)

end Serves

/-- A guard that allows what nobody can notice. -/
structure Lets (G : Guard Stop Event) (B : ℕ) (s : Touchdb) (a : PoolAlloc) (T : List ℕ) :
    Prop where
  quiet : ∀ e, QuietEvent B s a T e → G.emits e
  reads : Reads G

theorem Lets.of_all {G : Guard Stop Event} {B : ℕ} {s : Touchdb} {a : PoolAlloc} {T : List ℕ}
    (hG : ∀ e, G.emits e) : Lets G B s a T := ⟨fun e _ => hG e, fun _ _ _ => hG _⟩

namespace Work
variable {B : ℕ} {s t u : Touchdb} {a a' a'' : PoolAlloc} {T : List ℕ} {o n : ℕ}
variable {G : Guard Stop Event}

theorem start (h : Heap B s a) : Work B s a T s a := ⟨h, .refl B s a T⟩

theorem owns (h : Work B s a T t a') (hT : o ∉ T) (ho : Owns a o n) : Owns a' o n :=
  h.frame.owns hT ho

theorem mine (h : Work B s a T t a') (ho : Handed a' n o a'') : Mine a T o := by
  by_cases hT : o ∈ T
  · exact .inl hT
  · refine .inr ⟨ho.ne_mapRecord, Option.eq_none_iff_forall_ne_some.mpr fun c hc => ?_⟩
    have h1 := h.frame.live o hT c hc
    rw [ho.fresh] at h1
    cases h1

/-- Further on, the stretch starts over. -/
theorem lets {T' : List ℕ} (h : Work B s a T t a') (hG : Lets G B s a T)
    (hT : ∀ o ∈ T', Mine a T o) : Lets G B t a' T' :=
  ⟨fun e he => hG.quiet e (he.lift h.frame hT), hG.reads⟩

theorem step {T' : List ℕ} (h : Work B s a T t a') (h' : Work B t a' T' u a'')
    (hT : ∀ o ∈ T', Mine a T o) : Work B s a T u a'' :=
  ⟨h'.heap, h.frame.step h'.frame hT⟩

theorem store (h : Work B s a T t a') (hm : Mine a T o) (ho : Owns a' o n) {k : ℕ}
    {bs : List UInt8} (hk : k + bs.length ≤ n) :
    Work B s a T (t.write (B + o + k) bs) a' ∧
      QuietEvent B s a T (.store (B + o + k) bs.length (t.write (B + o + k) bs)) := by
  obtain ⟨h1, h2⟩ := h.heap.write ho hk
  have h3 : Frame B s a (t.write (B + o + k) bs) a' T :=
    h.frame.step h2 fun x hx => by
      obtain rfl : x = o := by simpa using hx
      exact hm
  refine ⟨⟨h1, h3⟩, ⟨h3.base, h3.map, fun _ _ _ h => h, h3.bytes⟩, fun x hx c hc => ?_⟩
  have hxo : Owns a' x c := ⟨c, h.frame.live x hx c hc, Nat.le_refl c⟩
  have hne : o ≠ x := by
    rintro rfl
    rcases hm with h4 | ⟨-, h4⟩
    · exact hx h4
    · rw [h4] at hc
      cases hc
  have hd := ho.disjoint hxo hne
  omega

theorem wp_malloc {ns : List ℕ} {Q : ℕ × TouchdbAddr → Touchdb → Prop}
    (h : Work B s a T t a') (hG : Lets G B s a T) (hr : Serves G a' (n :: ns)) (h1 : 1 ≤ n)
    (h2 : n ≤ 2 ^ 20)
    (hQ : ∀ o a'' u, Handed a' n o a'' → Work B s a T u a'' → Frame B t a' u a'' [] →
      Q (B + o, addrOf o) u) : wp G (touchdbMalloc n) Q t :=
  wp_touchdbMalloc h.heap h1 h2 hr.1
    (fun _ _ ho e he => (h.lets hG (by simp)).quiet e (he.mono fun _ _ => ho.live))
    fun o a'' u ho hu hf => hQ o a'' u ho ⟨hu, h.frame.step hf (by simp)⟩ hf

theorem wp_store {α : Type} [Layout α] {f : Field α} {v : α} {Q : Unit → Touchdb → Prop}
    (h : Work B s a T t a') (hG : Lets G B s a T) (hm : Mine a T o) (ho : Owns a' o n)
    (hf : f.off + size α ≤ n)
    (hQ : Work B s a T (t.write (B + o + f.off) (enc v)) a' →
      Frame B t a' (t.write (B + o + f.off) (enc v)) a' [o] →
      Q () (t.write (B + o + f.off) (enc v))) : wp G (TouchDb.store (B + o) f v) Q t := by
  have hk : f.off + (enc v).length ≤ n := by simpa using hf
  obtain ⟨h1, h2⟩ := h.store hm ho hk
  rw [enc_length] at h2
  exact wp_storeCell h.heap ho hf (hG.quiet _ h2) fun _ h4 => hQ h1 h4

theorem wp_storeBytes {bs : List UInt8} {Q : Unit → Touchdb → Prop} (h : Work B s a T t a')
    (hG : Lets G B s a T) (hm : Mine a T o) (ho : Owns a' o n) (hk : bs.length ≤ n)
    (hQ : Work B s a T (t.write (B + o) bs) a' → Frame B t a' (t.write (B + o) bs) a' [o] →
      Q () (t.write (B + o) bs)) : wp G (storeBytes (B + o) bs) Q t := by
  have hk' : 0 + bs.length ≤ n := by omega
  obtain ⟨h1, h2⟩ := h.store hm ho hk'
  exact wp_storeBytesAt h.heap ho hk (hG.quiet _ h2) fun _ h4 => hQ h1 h4

theorem wp_free_kept {Q : Unit → Touchdb → Prop} (h : Work B s a T t a') (hG : Lets G B s a T)
    (hm : Mine a T o) (ho : Owns a' o n)
    (hQ : ∀ a'' u, Freed a' o a'' → Work B s a T u a'' → Frame B t a' u a'' [o] →
      Frame B t a' u a' [] → Unwritten B t a' u → Q () u) : wp G (touchdbFree (addrOf o)) Q t := by
  refine wp_touchdbFree_kept h.heap ho (h.lets hG (by simp)).quiet fun a'' u hf hu h1 h2 hk => ?_
  refine hQ a'' u hf ⟨hu, h.frame.step h1 fun x hx => ?_⟩ h1 h2 hk
  obtain rfl : x = o := by simpa using hx
  exact hm

theorem wp_free {Q : Unit → Touchdb → Prop} (h : Work B s a T t a') (hG : Lets G B s a T)
    (hm : Mine a T o) (ho : Owns a' o n)
    (hQ : ∀ a'' u, Freed a' o a'' → Work B s a T u a'' → Frame B t a' u a'' [o] →
      Frame B t a' u a' [] → Q () u) : wp G (touchdbFree (addrOf o)) Q t :=
  h.wp_free_kept hG hm ho fun a'' u hf hw h1 h2 _ => hQ a'' u hf hw h1 h2

theorem wp_ptrOf {Q : ℕ → Touchdb → Prop} (h : Work B s a T t a') (hG : Lets G B s a T)
    (ho : Owns a' o n) (hQ : Q (B + o) t) : wp G (touchdbPtrOf (addrOf o)) Q t :=
  wp_ptrOfOwned h.heap hG.reads ho hQ

/-- `touchdb_malloc` with an address in a block of the caller. -/
theorem wp_mallocAt {q m : ℕ} {f : Field TouchdbAddr} {ns : List ℕ} {Q : ℕ → Touchdb → Prop}
    (h : Work B s a T t a') (hG : Lets G B s a T) (hr : Serves G a' (n :: ns)) (hm : Mine a T q) (hq : Owns a' q m)
    (hf : f.off + 8 ≤ m) (h1 : 1 ≤ n) (h2 : n ≤ 2 ^ 20)
    (hQ : ∀ o a'' u, Handed a' n o a'' → Work B s a T u a'' → Frame B t a' u a'' [q] →
      u.field (B + q) f = addrOf o → (∀ {α : Type} [Layout α] (g : Field α), g.off + size α ≤ m →
        (g.off + size α ≤ f.off ∨ f.off + 8 ≤ g.off) → u.field (B + q) g = t.field (B + q) g) →
      Q (B + o) u) :
    wp G (touchdbMallocAt (B + q) f n) Q t := by
  have hB := h.heap.base_pos'
  unfold touchdbMallocAt
  refine wp_bind (h.wp_malloc hG hr h1 h2 fun o a'' u ho hw hf₀ => ?_)
  have hq' : Owns a'' q m := hf₀.owns (by simp) hq
  refine wp_bind (wp_store_shift (by omega) (hw.wp_store hG hm hq' (by simp; omega) fun hw₁ hf₁ => ?_))
  refine wp_bind (wp_store_shift (by omega) (hw₁.wp_store hG hm hq' (by simp; omega)
    fun hw₂ hf₂ => wp_pure ?_))
  refine hQ o a'' _ ho hw₂ (((hf₀.trans hf₁).trans hf₂).drop (by simp [Mine])) ?_ fun g hg hd => ?_
  · rw [field_addr]
    refine congrArg₂ _ ?_ ?_
    · rw [field_write_disjoint (.inl (by simp; omega))]
      exact field_write_same u _ Addr.poolIdx _
    · exact field_write_same _ _ Addr.offset _
  · rw [field_write_disjoint (by simp; omega), field_write_disjoint (by simp; omega)]
    exact hf₀.field (by simp) hq hg

end Work

end TouchDb
