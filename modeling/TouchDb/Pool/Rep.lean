import TouchDb.Pool.Model
import TouchDb.Core.Linked
import TouchDb.Core.Segregated
import TouchDb.Core.Words

/-! How the free lists and headers of a pool represent an abstract segregated allocator,
and the rules for the accessors of `touchdb_pool.c` on such a pool. -/
namespace TouchDb
open Prog Layout

/-- The payload bytes of a block of class `i`. -/
def blkCap (i : ℕ) : ℕ := 8 * (i + 1)

/-- The class that serves requests of `n` bytes. -/
def sizeClass (n : ℕ) : ℕ := (n - 1) / 8

abbrev PoolAlloc := Segregated 1 touchdbDefaultPoolSize blkHdrSize blkCap

def Touchdb.base (s : Touchdb) (j : ℕ) : ℕ :=
  (s.shmInfo (s.poolList j).idx.toInt.toNat).start

/-- What stays true of an initialised pool: it is mapped, and its sizes are the defaults. -/
structure PoolMapped (s : Touchdb) (j : ℕ) : Prop where
  idx_nonneg : 0 ≤ (s.poolList j).idx.toInt
  idx_lt : (s.poolList j).idx.toInt < touchdbPoolListSize
  base_pos : 0 < s.base j
  end_eq : (s.shmInfo (s.poolList j).idx.toInt.toNat).end_ = s.base j + touchdbDefaultPoolSize
  size_eq : (s.poolList j).size = Int32.ofNat touchdbDefaultPoolSize
  count_eq : (s.poolList j).freeBlkListCount = Int32.ofNat touchdbPoolFreeListCount

/-- The block that a stored offset points to. -/
def offLink (w : PtrOffset) : Option ℕ := if w = NIL then none else some w.toNat

def nextBlk (s : Touchdb) (j b : ℕ) : Option ℕ :=
  offLink (s.field (s.base j + b) FreeBlkHdr.nextOffset)

def prevBlk (s : Touchdb) (j b : ℕ) : Option ℕ :=
  offLink (s.field (s.base j + b) FreeBlkHdr.prevOffset)

/-- A free list holds the headers of a queue, linked both ways. -/
structure ListRep (s : Touchdb) (j : ℕ) (list : TouchdbFreeBlkList) (q : List ℕ) : Prop where
  head : offLink list.headerOffset = q.head?
  tail : offLink list.tailOffset = q.getLast?
  size : list.size = Int32.ofNat q.length
  next : Linked (nextBlk s j) q
  prev : Linked (prevBlk s j) q.reverse

/-- The pool `j` of `s` represents the allocator `a`. -/
structure PoolRep (s : Touchdb) (j : ℕ) (a : PoolAlloc) : Prop extends PoolMapped s j where
  cur : (s.poolList j).curOffset.toNat = a.cur
  cls_lt : ∀ b ∈ a.blocks, b.cls < touchdbPoolFreeListCount
  hdr : ∀ b ∈ a.blocks, s.field (s.base j + b.off) FreeBlkHdr.idx = Int32.ofNat b.cls
  lists : ∀ i < touchdbPoolFreeListCount, ListRep s j ((s.poolList j).freeBlkList i) (a.queue i)

/-- `t` differs from `s` at most in the record of pool `j` and in the headers of `bs`. -/
structure HdrOnly (s t : Touchdb) (j : ℕ) (bs : List SegBlock) : Prop where
  map_eq : t.map = s.map
  shm_eq : t.shmInfo = s.shmInfo
  pools_eq : ∀ k ≠ j, t.poolList k = s.poolList k
  idx_eq : (t.poolList j).idx = (s.poolList j).idx
  size_eq : (t.poolList j).size = (s.poolList j).size
  count_eq : (t.poolList j).freeBlkListCount = (s.poolList j).freeBlkListCount
  mem_eq : ∀ x, (∀ b ∈ bs, x < s.base j + b.off ∨ s.base j + b.off + blkHdrSize ≤ x) →
    t.mem x = s.mem x

/-- A store to a header of `bs` or to the record of pool `j`. -/
def HdrEvent (s : Touchdb) (j : ℕ) (bs : List SegBlock) : Event → Prop
  | .store p n t => HdrOnly s t j bs ∧
      ∃ b ∈ bs, s.base j + b.off ≤ p ∧ p + n ≤ s.base j + b.off + blkHdrSize
  | .assign t => HdrOnly s t j bs
  | .translate _ => False

theorem offLink_eq_none {w : PtrOffset} : offLink w = none ↔ w = NIL := by
  unfold offLink
  split_ifs with h <;> simp [h]

theorem offLink_eq_some {w : PtrOffset} {b : ℕ} (h : offLink w = some b) :
    w ≠ NIL ∧ w.toNat = b := by
  unfold offLink at h
  split_ifs at h with h0
  exact ⟨h0, by simpa using h⟩

theorem offLink_ofNat {b : ℕ} (hb : b < 2 ^ 32) (h0 : b ≠ 0) :
    offLink (UInt32.ofNat b) = some b := by
  unfold offLink
  rw [if_neg (Words.ofNat_ne_zero hb h0), Words.toNat_ofNat hb]

theorem poolSize_lt : touchdbDefaultPoolSize < 2 ^ 31 := by decide

section Accessors
variable {s t : Touchdb} {j : ℕ} {G : Guard Stop Event}

theorem PoolMapped.mapped (h : PoolMapped s j) {p n : ℕ} (hp : s.base j ≤ p)
    (hn : p + n ≤ s.base j + touchdbDefaultPoolSize) : s.mapped p n = true := by
  have hi := h.idx_lt
  have h0 := h.idx_nonneg
  simp only [Touchdb.mapped, List.any_eq_true, List.mem_range, Bool.and_eq_true,
    decide_eq_true_eq]
  exact ⟨(s.poolList j).idx.toInt.toNat, by omega, hp, by rw [h.end_eq]; exact hn⟩

theorem wp_getPool {Q : TouchdbPool → Touchdb → Prop} (h : Q (s.poolList j) s) :
    wp G (getPool j) Q s := ⟨by simp, h⟩

theorem wp_getList {i : ℕ} {Q : TouchdbFreeBlkList → Touchdb → Prop}
    (h : Q ((s.poolList j).freeBlkList i) s) : wp G (getList j i) Q s := ⟨by simp, h⟩

theorem wp_shmStart {Q : ℕ → Touchdb → Prop} (hm : PoolMapped s j) (h : Q (s.base j) s) :
    wp G (shmStart j) Q s := by
  have hi : 0 ≤ (s.poolList j).idx.toInt ∧ (s.poolList j).idx.toInt < touchdbPoolListSize :=
    ⟨hm.idx_nonneg, hm.idx_lt⟩
  have hr : shmStart j s = .ok (s.base j, s, []) := if_pos hi
  exact (wp_ok hr).mpr ⟨by simp, h⟩

theorem wp_freeBlkListAt {i : ℕ} {Q : ℕ → Touchdb → Prop} (hi : i < touchdbPoolFreeListCount)
    (h : Q i s) : wp G (freeBlkListAt (Int32.ofNat i)) Q s := by
  have h31 : touchdbPoolFreeListCount < 2 ^ 31 := by decide
  have h1 : (Int32.ofNat i).toInt = i := Int32.toInt_ofNat_of_lt (by omega)
  have h2 : 0 ≤ (Int32.ofNat i).toInt ∧ (Int32.ofNat i).toInt < touchdbPoolFreeListCount := by
    rw [h1]
    omega
  have hr : freeBlkListAt (Int32.ofNat i) s = .ok ((Int32.ofNat i).toInt.toNat, s, []) := if_pos h2
  rw [h1] at hr
  exact (wp_ok hr).mpr ⟨by simp, h⟩

theorem wp_setList {i : ℕ} {f : TouchdbFreeBlkList → TouchdbFreeBlkList}
    {Q : Unit → Touchdb → Prop} (he : G.emits (.assign (s.setPool j fun p => p.setList i f)))
    (h : Q () (s.setPool j fun p => p.setList i f)) : wp G (setList j i f) Q s :=
  wp_assign he h

theorem wp_ptrOf {off : PtrOffset} {Q : ℕ → Touchdb → Prop} (hm : PoolMapped s j)
    (ho : off.toNat ≤ touchdbDefaultPoolSize) (h : Q (s.base j + off.toNat) s) :
    wp G (ptrOf j off) Q s := by
  unfold ptrOf
  refine wp_bind (wp_getPool ?_)
  have hle : ¬ (s.poolList j).size.toUInt32 < off := by
    rw [hm.size_eq, Int32.toUInt32_ofNat', UInt32.lt_iff_toNat_lt,
      Words.toNat_ofNat (by decide)]
    omega
  rw [if_neg hle]
  exact wp_bind (wp_shmStart hm (wp_pure h))

theorem wp_ptrOffsetOf {o : ℕ} {Q : PtrOffset → Touchdb → Prop} (hm : PoolMapped s j)
    (h : Q (UInt32.ofNat o) s) : wp G (ptrOffsetOf j (s.base j + o)) Q s := by
  have hp := hm.base_pos
  unfold ptrOffsetOf
  have hne : s.base j + o ≠ 0 := by omega
  rw [if_neg hne]
  refine wp_bind (wp_shmStart hm ?_)
  rw [if_neg (by omega), Nat.add_sub_cancel_left]
  exact wp_pure h

theorem freeListIdx_eq {n : ℕ} (h1 : 1 ≤ n) (h2 : n < 2 ^ 31) :
    freeListIdx (UInt32.ofNat n).toInt32 = Int32.ofNat (sizeClass n) := by
  have hs : (UInt32.ofNat n).toInt32 = Int32.ofNat n := rfl
  have hk : (1 : Int32) = Int32.ofNat 1 := rfl
  unfold freeListIdx sizeClass
  rw [hs]
  simp only [Words.ofNat_mod_eight h2, Words.ofNat_shiftRight_three h2]
  split_ifs with hm
  · rw [hk, ← Int32.ofNat_sub _ _ (by omega)]
    congr 1
    omega
  · congr 1
    omega

end Accessors

section HdrOnly
variable {s t u : Touchdb} {j : ℕ} {bs : List SegBlock}

theorem HdrOnly.rfl' : HdrOnly s s j bs :=
  ⟨rfl, rfl, fun _ _ => rfl, rfl, rfl, rfl, fun _ _ => rfl⟩

theorem HdrOnly.base_eq (h : HdrOnly s t j bs) : t.base j = s.base j := by
  simp only [Touchdb.base, h.shm_eq, h.idx_eq]

theorem HdrOnly.trans (h : HdrOnly s t j bs) (h' : HdrOnly t u j bs) : HdrOnly s u j bs where
  map_eq := h'.map_eq.trans h.map_eq
  shm_eq := h'.shm_eq.trans h.shm_eq
  pools_eq k hk := (h'.pools_eq k hk).trans (h.pools_eq k hk)
  idx_eq := h'.idx_eq.trans h.idx_eq
  size_eq := h'.size_eq.trans h.size_eq
  count_eq := h'.count_eq.trans h.count_eq
  mem_eq x hx := (h'.mem_eq x (by rwa [h.base_eq])).trans (h.mem_eq x hx)

theorem HdrOnly.mapped (h : HdrOnly s t j bs) (hm : PoolMapped s j) : PoolMapped t j where
  idx_nonneg := by rw [h.idx_eq]; exact hm.idx_nonneg
  idx_lt := by rw [h.idx_eq]; exact hm.idx_lt
  base_pos := by rw [h.base_eq]; exact hm.base_pos
  end_eq := by rw [h.shm_eq, h.idx_eq, h.base_eq]; exact hm.end_eq
  size_eq := h.size_eq.trans hm.size_eq
  count_eq := h.count_eq.trans hm.count_eq

/-- A store to the header of a block. -/
theorem HdrOnly.write {b : SegBlock} {k : ℕ} {ws : List UInt8} (hb : b ∈ bs)
    (hk : k + ws.length ≤ blkHdrSize) : HdrOnly s (s.write (s.base j + b.off + k) ws) j bs where
  map_eq := rfl
  shm_eq := rfl
  pools_eq _ _ := rfl
  idx_eq := rfl
  size_eq := rfl
  count_eq := rfl
  mem_eq x hx := by
    refine Mem.write_outside ?_
    rcases hx b hb with h1 | h1
    · exact .inl (by omega)
    · exact .inr (by omega)

/-- An assignment to the record of the pool that keeps its mapping and its sizes. -/
theorem HdrOnly.setPool {f : TouchdbPool → TouchdbPool}
    (h : ∀ p, (f p).idx = p.idx ∧ (f p).size = p.size ∧
      (f p).freeBlkListCount = p.freeBlkListCount) : HdrOnly s (s.setPool j f) j bs where
  map_eq := rfl
  shm_eq := rfl
  pools_eq k hk := by simp [Touchdb.setPool, hk]
  idx_eq := by simp [Touchdb.setPool, h]
  size_eq := by simp [Touchdb.setPool, h]
  count_eq := by simp [Touchdb.setPool, h]
  mem_eq _ _ := rfl

end HdrOnly

end TouchDb
