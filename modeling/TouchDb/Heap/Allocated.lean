import TouchDb.Heap.Pools
import TouchDb.Heap.Rules
import TouchDb.Pool.Safety

/-! Which blocks of the first pool are in use and which it can hand out, read off its memory. -/
namespace TouchDb
open Prog Layout

/-- The length of the block whose header stands at offset `x`. -/
def Touchdb.blkLen (s : Touchdb) (j x : ℕ) : ℕ :=
  blkHdrSize + blkCap (s.field (s.base j + x) FreeBlkHdr.idx).toInt.toNat

/-- The header of a block stands at offset `x`: headers follow each other from offset 1. -/
def Carved (s : Touchdb) (j x : ℕ) : Prop :=
  Steps (s.blkLen j) 1 (s.poolList j).curOffset.toNat x ∧ x < (s.poolList j).curOffset.toNat

/-- The payload at offset `o` of the first pool has at least `n` bytes, and its block is on
no free list. -/
def Allocated (s : Touchdb) (o n : ℕ) : Prop :=
  ∃ x, o = x + blkHdrSize ∧ Carved s 0 x ∧
    ¬ OnFreeList s 0 ⟨x, (s.field (s.base 0 + x) FreeBlkHdr.idx).toInt.toNat⟩ ∧
    n + blkHdrSize ≤ s.blkLen 0 x

section
variable {B : ℕ} {s : Touchdb} {j : ℕ} {a : PoolAlloc} {b : SegBlock} {x o n : ℕ}

theorem PoolRep.cls_eq (h : PoolRep s j a) (hb : b ∈ a.blocks) :
    (s.field (s.base j + b.off) FreeBlkHdr.idx).toInt.toNat = b.cls := by
  rw [h.hdr_toInt hb]
  rfl

theorem PoolRep.carved_iff (h : PoolRep s j a) : Carved s j x ↔ ∃ b ∈ a.blocks, b.off = x := by
  have hs := a.tiles.steps_iff (l := s.blkLen j) (x := x)
    (fun b hb => by rw [Touchdb.blkLen, h.cls_eq hb]) fun b => by simp only [blkHdrSize]; omega
  unfold Carved
  rw [h.cur, hs]
  constructor
  · rintro ⟨rfl | hb, hlt⟩
    · exact absurd hlt (Nat.lt_irrefl _)
    · exact hb
  · rintro ⟨b, hb, rfl⟩
    exact ⟨.inr ⟨b, hb, rfl⟩, Segregated.off_lt_cur (by decide) hb⟩

/-- The blocks in use are those of the allocator that the pool represents. -/
theorem Heap.allocated_iff (h : Heap B s a) : Allocated s o n ↔ Owns a o n := by
  have hlist {b : SegBlock} (hb : b ∈ a.blocks) :
      OnFreeList s 0 ⟨b.off, (s.field (s.base 0 + b.off) FreeBlkHdr.idx).toInt.toNat⟩ ↔
        b.off ∈ a.queue b.cls := by
    rw [h.cls_eq hb]
    exact h.onFreeList_iff (b := ⟨b.off, b.cls⟩) (h.cls_lt b hb)
  constructor
  · rintro ⟨x, rfl, hc, hf, hn⟩
    obtain ⟨b, hb, rfl⟩ := h.carved_iff.mp hc
    rw [hlist hb] at hf
    refine ⟨_, Segregated.payload_of_live blkHdrSize_pos ⟨hb, hf⟩, ?_⟩
    rw [Touchdb.blkLen, h.cls_eq hb] at hn
    omega
  · rintro ⟨c, hc, hle⟩
    obtain ⟨b, hl, rfl, rfl⟩ := (Segregated.payload_eq_some blkHdrSize_pos).mp hc
    refine ⟨b.off, rfl, h.carved_iff.mpr ⟨b, hl.1, rfl⟩, ?_, ?_⟩
    · rw [hlist hl.1]
      exact hl.2
    · rw [Touchdb.blkLen, h.cls_eq hl.1]
      omega

end

/-- The block at `o` is in use. -/
def Used (a : PoolAlloc) (o : ℕ) : Prop := a.payload o ≠ none

section
variable {B : ℕ} {s : Touchdb} {a a' : PoolAlloc} {o x n : ℕ}

theorem used_iff : Used a o ↔ Owns a o 0 := by
  constructor
  · intro h
    obtain ⟨c, hc⟩ := Option.ne_none_iff_exists'.mp h
    exact ⟨c, hc, Nat.zero_le c⟩
  · intro h
    exact h.ne_none

theorem Owns.used (h : Owns a o n) : Used a o := h.ne_none

theorem Handed.used_iff (h : Handed a n o a') : Used a' x ↔ Used a x ∨ x = o := by
  unfold Used
  rw [h.payload]
  by_cases hx : x = o
  · simp [hx]
  · simp [hx]

theorem Freed.used_iff (h : Freed a o a') : Used a' x ↔ Used a x ∧ x ≠ o := by
  unfold Used
  rw [h.payload]
  by_cases hx : x = o
  · simp [hx]
  · simp [hx]

theorem Handed.not_used (h : Handed a n o a') : ¬ Used a o := fun hu => hu h.fresh

theorem Heap.allocated_zero (h : Heap B s a) : Allocated s o 0 ↔ Used a o :=
  h.allocated_iff.trans TouchDb.used_iff.symm

end

/-! New pools, and blocks for requests that fit. -/
section Room
variable {B : ℕ} {s : Touchdb} {u : PoolAlloc} {n : ℕ}

theorem exists_newHeap : ∃ s, Heap 4096 s freshAlloc := by
  have hinit : wp anyEvent (touchdbPoolInit 0 4096 false) (fun _ s => Heap 4096 s freshAlloc) .zero := by
    apply wp_mono (wp_touchdbPoolInit ⟨by decide, by decide⟩ (by decide) fun _ => trivial)
    rintro _ s ⟨hp, hb, -⟩
    exact ⟨hp, hb⟩
  obtain ⟨_, s, _, -, -, h⟩ := wp_ends hinit fun _ h => h
  exact ⟨s, h⟩

/-- A block for a request, where there is room. -/
theorem Heap.exists_handed (h : Heap B s u) (h1 : 1 ≤ n) (h2 : n ≤ 2 ^ 20)
    (hr : u.cur + (n + 24) ≤ touchdbDefaultPoolSize) :
    ∃ o u' t, Handed u n o u' ∧ Heap B t u' ∧ Frame B s u t u' [] := by
  have hwp : wp anyEvent (touchdbMalloc n) (fun _ t => ∃ o u', Handed u n o u' ∧ Heap B t u' ∧
      Frame B s u t u' []) s := by
    apply wp_touchdbMalloc h h1 h2
    · exact (Serves.one (G := anyEvent) hr).1
    · exact fun _ _ _ _ _ => trivial
    · exact fun o u' t ho ht hF => ⟨o, u', ho, ht, hF⟩
  obtain ⟨_, t, _, -, -, o, u', h⟩ := wp_ends hwp fun _ h => h
  exact ⟨o, u', t, h⟩

end Room

/-- Free lists of these lengths, and the space from `cur` on for the classes whose list is
empty, give a block to each of the requests, made one after the other. -/
def Affords : (ℕ → ℕ) → ℕ → List ℕ → Prop
  | _, _, [] => True
  | free, cur, n :: ns => n ≤ 2 ^ 20 ∧
      if free (sizeClass n) = 0 then
        cur + (blkHdrSize + blkCap (sizeClass n)) ≤ touchdbDefaultPoolSize ∧
          Affords free (cur + (blkHdrSize + blkCap (sizeClass n))) ns
      else Affords (Function.update free (sizeClass n) (free (sizeClass n) - 1)) cur ns

/-- Pool `j` has a block for each of the requests. -/
def HasBlocks (s : Touchdb) (j : ℕ) (ns : List ℕ) : Prop :=
  Affords (fun i => ((s.poolList j).freeBlkList i).size.toInt.toNat)
    (s.poolList j).curOffset.toNat ns

section Affords
variable {G : Guard Stop Event} {s : Touchdb} {j o n : ℕ} {a a' : PoolAlloc} {ns : List ℕ}
variable {free : ℕ → ℕ}

theorem Handed.serves_cons (h : Handed a n o a') : Serves G a (n :: ns) ↔ Serves G a' ns := by
  constructor
  · intro hs
    exact hs.2 o a' h
  · intro hs
    obtain ⟨b, hb, rfl⟩ := h
    refine ⟨fun hn => ?_, ?_⟩
    · rw [hn] at hb
      cases hb
    · rintro o a₁ ⟨b₁, hb₁, -⟩
      obtain ⟨-, rfl⟩ : b = b₁ ∧ a' = a₁ := by simpa [hb] using hb₁
      exact hs

/-- The abstract pool serves the requests if and only if its queues and its space do. -/
theorem serves_iff_affords (hG : ¬ G.stops .noBlock) (hns : ∀ n ∈ ns, n ≤ 2 ^ 20)
    (hf : ∀ i < touchdbPoolFreeListCount, free i = (a.queue i).length) :
    Serves G a ns ↔ Affords free a.cur ns := by
  induction ns generalizing free a with
  | nil => exact Iff.rfl
  | cons n ns ih =>
    have hn := hns n List.mem_cons_self
    have hns' : ∀ m ∈ ns, m ≤ 2 ^ 20 := fun m hm => hns m (List.mem_cons_of_mem n hm)
    have hfn := hf (sizeClass n) (sizeClass_lt hn)
    unfold Affords
    rw [and_iff_right hn]
    by_cases hq : a.queue (sizeClass n) = []
    · rw [if_pos (by rw [hfn, hq, List.length_nil])]
      by_cases hc : a.cur + (blkHdrSize + blkCap (sizeClass n)) ≤ touchdbDefaultPoolSize
      · have hh : Handed a n _ _ := ⟨_, Segregated.malloc_of_room hq hc, rfl⟩
        rw [hh.serves_cons, and_iff_right hc]
        exact ih hns' hf
      · refine ⟨fun hs => absurd (hs.1 (Segregated.malloc_of_full hq hc)) hG, fun hs => ?_⟩
        exact absurd hs.1 hc
    · obtain ⟨x, q, hx⟩ := List.exists_cons_of_ne_nil hq
      have hh : Handed a n _ _ := ⟨_, Segregated.malloc_of_cons hx, rfl⟩
      rw [if_neg (by rw [hfn, hx, List.length_cons]; omega), hh.serves_cons]
      refine ih hns' fun i hi => ?_
      by_cases hin : i = sizeClass n
      · subst hin
        simp [Segregated.pop, hfn, hx]
      · simpa [Segregated.pop, hin] using hf i hi

/-- The pool serves the requests if and only if its record says that it has the blocks. -/
theorem PoolRep.serves_iff (h : PoolRep s j a) (hG : ¬ G.stops .noBlock)
    (hns : ∀ n ∈ ns, n ≤ 2 ^ 20) : Serves G a ns ↔ HasBlocks s j ns := by
  unfold HasBlocks
  rw [h.cur]
  refine serves_iff_affords hG hns fun i hi => ?_
  have hq := a.queue_length_le i
  have hfits := a.fits
  have hlt := poolSize_lt
  simp only [blkHdrSize] at hq
  rw [(h.lists i hi).size, Int32.toInt_ofNat_of_lt (by omega)]
  exact Int.toNat_natCast _

end Affords

end TouchDb
