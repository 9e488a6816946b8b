import TouchDb.Heap.Translate
import TouchDb.Pool.Classes

/-! `touchdb_malloc` over a list of pools. The search moves on to no other pool, so that it
returns only what the first one can serve. -/
namespace TouchDb
open Prog

/-- The first `n` pools are in use, each in a state that its clients can bring about. -/
structure PoolsInUse (s : Touchdb) (n : ℕ) : Prop extends PoolTable s n where
  pos : 0 < n
  rep : ∀ i < n, ∃ a, PoolRep s i a

/-- Pool `j` hands out a block for the request. -/
def CanServe (s : Touchdb) (j size : ℕ) : Prop :=
  ∃ p t l, touchdbPoolMalloc j (UInt32.ofNat size) s = .ok (p, t, l) ∧ p ≠ NULL

/-- Pool `j` has a class for the request, and a free block of it or the room for a new one. -/
def HasBlock (s : Touchdb) (j size : ℕ) : Prop :=
  size ≤ 2 ^ 20 ∧ (((s.poolList j).freeBlkList (sizeClass size)).size ≠ 0 ∨
    (s.poolList j).curOffset.toNat + (blkHdrSize + blkCap (sizeClass size)) ≤
      touchdbDefaultPoolSize)

/-- The address leads back to the pointer, in pool `j`. -/
def Names (t : Touchdb) (j p : ℕ) (addr : TouchdbAddr) : Prop :=
  addr.poolIdx = Int32.ofNat j ∧ (touchdbPtrOf addr).run t = .ok (p, t)

/-- The call returns: a block of the first pool that can serve the request, and if there is
none a block of a pool that is added, or `NULL`. -/
def FallsOver (s : Touchdb) (n size : ℕ) : Prop :=
  ∃ p addr t l, touchdbMalloc size s = .ok ((p, addr), t, l) ∧
    (∀ j < n, CanServe s j size → (∀ i < j, ¬ CanServe s i size) →
      (∃ l, touchdbPoolMalloc j (UInt32.ofNat size) s = .ok (p, t, l)) ∧ Names t j p addr) ∧
    ((∀ j < n, ¬ CanServe s j size) → p = NULL ∨
      (s.poolList n).curOffset = NIL ∧ (t.poolList n).curOffset ≠ NIL ∧ Names t n p addr)

section
variable {s t : Touchdb} {j n size p : ℕ} {a a' : PoolAlloc} {l : List Event}

theorem PoolRep.malloc_eq_none (h : PoolRep s j a) (h2 : size ≤ 2 ^ 20) :
    a.malloc (sizeClass size) = none ↔ ¬ HasBlock s j size := by
  have hz := listSize_eq_zero h (sizeClass_lt h2)
  unfold HasBlock
  rw [h.cur, and_iff_right h2]
  by_cases hq : a.queue (sizeClass size) = []
  · have hs := hz.mpr hq
    by_cases hc : a.cur + (blkHdrSize + blkCap (sizeClass size)) ≤ touchdbDefaultPoolSize
    · simp [Segregated.malloc_of_room hq hc, hc]
    · simp [Segregated.malloc_of_full hq hc, hs, hc]
  · obtain ⟨x, q, hx⟩ := List.exists_cons_of_ne_nil hq
    have hs := mt hz.mp hq
    simp [Segregated.malloc_of_cons hx, hs]

/-- A request that pool `j` can serve. -/
theorem PoolRep.malloc_served (h : PoolRep s j a) (h1 : 1 ≤ size) (hb : HasBlock s j size) :
    ∃ b a' t l, touchdbPoolMalloc j (UInt32.ofNat size) s =
      .ok (s.base j + b.off + blkHdrSize, t, l) ∧ b ∈ a'.blocks ∧ PoolRep t j a' ∧
        HdrOnly s t j a'.blocks := by
  obtain ⟨p, t, l, hp, -, hpost⟩ := wp_ends (wp_touchdbPoolMalloc (G := anyEvent) h h1 hb.1
    fun _ _ _ _ _ => trivial) fun _ h => h
  rcases hm : a.malloc (sizeClass size) with _ | ⟨b, a'⟩
  · exact absurd hb ((h.malloc_eq_none hb.1).mp hm)
  · simp only [MallocPost, hm] at hpost
    obtain ⟨rfl, hr, hd⟩ := hpost
    exact ⟨b, a', t, l, hp, Segregated.malloc_mem hm, hr, hd⟩

/-- A request that pool `j` cannot serve leaves it as it was. -/
theorem PoolRep.malloc_unserved (h : PoolRep s j a) (h1 : 1 ≤ size) (h2 : size < 2 ^ 31)
    (hb : ¬ HasBlock s j size) :
    (∃ l, touchdbPoolMalloc j (UInt32.ofNat size) s = .ok (NULL, s, l)) ∨
      ∃ e, touchdbPoolMalloc j (UInt32.ofNat size) s = .error e := by
  by_cases hle : size ≤ 2 ^ 20
  · obtain ⟨p, t, l, hp, -, hpost⟩ := wp_ends (wp_touchdbPoolMalloc (G := anyEvent) h h1 hle
      fun _ _ _ _ _ => trivial) fun _ h => h
    simp only [MallocPost, (h.malloc_eq_none hle).mpr hb] at hpost
    obtain ⟨rfl, rfl⟩ := hpost
    exact .inl ⟨l, hp⟩
  · rcases hr : touchdbPoolMalloc j (UInt32.ofNat size) s with e | ⟨p, t, l⟩
    · exact .inr ⟨e, rfl⟩
    · have hw : (UInt32.ofNat size).toNat = size := Words.toNat_ofNat (by omega)
      have hi := freeListIdx_toInt (UInt32.ofNat size).toInt32
      have hN : (touchdbPoolFreeListCount : ℤ) = 2 ^ 17 := by decide
      rw [Words.toInt_toInt32, hw, if_pos h2] at hi
      have hout : ¬ InTable (freeListIdx (UInt32.ofNat size).toInt32) := by
        unfold InTable
        rw [hi, hN]
        omega
      by_cases hlt : (s.poolList j).freeBlkListCount < freeListIdx (UInt32.ofNat size).toInt32
      · rw [poolMalloc_refused hlt] at hr
        obtain ⟨rfl, rfl, -⟩ : NULL = p ∧ s = t ∧ [] = l := by simpa using hr
        exact .inl ⟨l, rfl⟩
      · rw [poolMalloc_outside hlt hout] at hr
        cases hr

theorem PoolRep.canServe_iff (h : PoolRep s j a) (h1 : 1 ≤ size) (h2 : size < 2 ^ 31) :
    CanServe s j size ↔ HasBlock s j size := by
  constructor
  · rintro ⟨p, t, l, hp, hne⟩
    by_contra hb
    rcases h.malloc_unserved h1 h2 hb with ⟨l', hn⟩ | ⟨e, he⟩
    · rw [hn] at hp
      obtain ⟨rfl, -⟩ : NULL = p ∧ _ := by simpa using hp
      exact hne rfl
    · rw [he] at hp
      cases hp
  · intro hb
    have hB := h.base_pos
    obtain ⟨b, a', t, l, hp, -⟩ := h.malloc_served h1 hb
    exact ⟨_, t, l, hp, by simp only [NULL]; omega⟩

/-- The search asks the first pool again and again. -/
theorem PoolRep.mallocSearch_unserved (h : PoolRep s 0 a) (h1 : 1 ≤ size) (h2 : size < 2 ^ 31)
    (hb : ¬ HasBlock s 0 size) (rounds i : ℕ) :
    ∃ e, mallocSearch (UInt32.ofNat size) rounds i s = .error e := by
  induction rounds generalizing i with
  | zero => exact ⟨_, rfl⟩
  | succ rounds ih =>
    unfold mallocSearch
    rcases h.malloc_unserved h1 h2 hb with ⟨l, hn⟩ | ⟨⟨e, l⟩, he⟩
    · obtain ⟨⟨e, l'⟩, he⟩ := ih (i + 1)
      refine ⟨(e, l ++ l'), ?_⟩
      rw [bind_eq, hn]
      simp only [ne_eq, not_true_eq_false, if_false, he]
    · exact ⟨(e, l), by rw [bind_eq, he]⟩

/-- What is in use stays in use. -/
theorem PoolTable.one (h : PoolRep t 0 a) (hi : (t.poolList 0).idx = 0) : PoolTable t 1 where
  le := by decide
  idx i hi' := by
    obtain rfl : i = 0 := by omega
    exact hi
  cur i hi' h0 := by
    obtain rfl : i = 0 := by omega
    have hc := h.cur
    have hle := a.tiles.le
    rw [h0] at hc
    change 0 = a.cur at hc
    omega
  size i hi' := by
    obtain rfl : i = 0 := by omega
    exact h.size_eq
  end_eq i hi' := by
    obtain rfl : i = 0 := by omega
    have he := h.end_eq
    unfold Touchdb.base at he
    rw [hi] at he
    exact he
  apart i hi' k hk hne := absurd (by omega : i = k) hne

/-- A request that the first pool can serve. -/
theorem PoolsInUse.malloc_served (h : PoolsInUse s n) (h1 : 1 ≤ size) (hb : HasBlock s 0 size) :
    ∃ p addr t l, touchdbMalloc size s = .ok ((p, addr), t, l) ∧
      (∃ l, touchdbPoolMalloc 0 (UInt32.ofNat size) s = .ok (p, t, l)) ∧ Names t 0 p addr := by
  obtain ⟨a, hr⟩ := h.rep 0 h.pos
  obtain ⟨b, a', t, l, hp, hbm, hr', hd⟩ := hr.malloc_served h1 hb
  have hlt := poolSize_lt
  have hbd := Segregated.blk_bounds hbm
  have hidx : (t.poolList 0).idx = 0 := hd.idx_eq.trans (h.idx 0 h.pos)
  have htab : PoolTable t 1 := .one hr' hidx
  have hB := hr.base_pos
  have hbase : (t.shmInfo 0).start = s.base 0 := by
    rw [← hd.base_eq]
    unfold Touchdb.base
    rw [hidx]
    rfl
  rw [Nat.add_assoc] at hp
  have hne : s.base 0 + (b.off + blkHdrSize) ≠ NULL := by
    simp only [NULL]
    omega
  have hoff : ptrOffsetOf 0 (s.base 0 + (b.off + blkHdrSize)) t =
      .ok (UInt32.ofNat (b.off + blkHdrSize), t, []) := by
    unfold ptrOffsetOf
    rw [if_neg hne, bind_silent (htab.shmStart_ok (by decide)), hbase, if_neg (by omega),
      Nat.add_sub_cancel_left]
    rfl
  have hsearch : mallocSearch (UInt32.ofNat size) touchdbPoolListSize 1 s =
      .ok ((s.base 0 + (b.off + blkHdrSize), 1), t, l ++ []) := by
    unfold touchdbPoolListSize mallocSearch
    apply ok_bind hp
    rw [if_pos hne]
    rfl
  refine ⟨_, ⟨0, UInt32.ofNat (b.off + blkHdrSize)⟩, t, _, ok_bind hsearch (ok_bind hoff rfl),
    ⟨l, hp⟩, rfl, ?_⟩
  have ho : (UInt32.ofNat (b.off + blkHdrSize)).toNat = b.off + blkHdrSize :=
    Words.toNat_ofNat (by omega)
  have hptr := htab.touchdbPtrOf_ok (by decide : 0 < 1)
    (by omega : (UInt32.ofNat (b.off + blkHdrSize)).toNat ≤ touchdbDefaultPoolSize)
  rw [ho, hbase] at hptr
  exact run_ok hptr

/-- A request that the first pool cannot serve never returns. -/
theorem PoolsInUse.malloc_unserved (h : PoolsInUse s n) (h1 : 1 ≤ size) (h2 : size < 2 ^ 31)
    (hb : ¬ HasBlock s 0 size) : ∃ e, touchdbMalloc size s = .error e := by
  obtain ⟨a, hr⟩ := h.rep 0 h.pos
  obtain ⟨⟨e, l⟩, he⟩ := hr.mallocSearch_unserved h1 h2 hb touchdbPoolListSize 1
  refine ⟨(e, l), ?_⟩
  unfold touchdbMalloc
  rw [bind_eq, he]

end

/-- The call does what it should if and only if the first pool can serve the request; where it
cannot, no number of rounds ends the search. -/
theorem malloc_fallsOver {s : Touchdb} {n : ℕ} (h : PoolsInUse s n) {size : ℕ} (h1 : 1 ≤ size)
    (h2 : size < 2 ^ 31) :
    (FallsOver s n size ↔ HasBlock s 0 size) ∧
      (¬ HasBlock s 0 size →
        ∀ rounds i, ∃ e, mallocSearch (UInt32.ofNat size) rounds i s = .error e) := by
  obtain ⟨a, hr⟩ := h.rep 0 h.pos
  have hserve := hr.canServe_iff h1 h2
  refine ⟨⟨?_, fun hb => ?_⟩, hr.mallocSearch_unserved h1 h2⟩
  · rintro ⟨p, addr, t, l, hm, -⟩
    by_contra hb
    obtain ⟨e, he⟩ := h.malloc_unserved h1 h2 hb
    rw [he] at hm
    cases hm
  · obtain ⟨p, addr, t, l, hm, hp, hn⟩ := h.malloc_served h1 hb
    refine ⟨p, addr, t, l, hm, fun j hj hs hfirst => ?_, fun hno => ?_⟩
    · have hj0 : j = 0 := by
        by_contra hj0
        exact hfirst 0 (by omega) (hserve.mpr hb)
      subst hj0
      exact ⟨hp, hn⟩
    · exact absurd (hserve.mpr hb) (hno 0 h.pos)

/-- A store with one new pool, mapped at the second page. -/
theorem poolsInUse_page : ∃ s, (touchdbPoolInit 0 4096 false).next .zero = .ok s ∧
    PoolsInUse s 1 ∧ (s.poolList 0).curOffset = 1 := by
  have hw : wp anyEvent (touchdbPoolInit 0 4096 false) (fun _ t => PoolRep t 0 freshAlloc) .zero :=
    wp_mono (wp_touchdbPoolInit ⟨by decide, by decide⟩ (by decide) fun _ => trivial)
      fun _ t ht => ht.1
  obtain ⟨_, s, hs, hr⟩ := next_ends hw fun _ h => h
  have hi : (s.poolList 0).idx = 0 := by
    obtain rfl := Except.ok.inj hs
    rfl
  have hc : (s.poolList 0).curOffset = 1 := by
    obtain rfl := Except.ok.inj hs
    rfl
  refine ⟨s, hs, ⟨.one hr hi, by decide, fun i hi => ?_⟩, hc⟩
  obtain rfl : i = 0 := by omega
  exact ⟨_, hr⟩

/-- A first request. -/
theorem malloc_fallsOver_new : ∃ s, (touchdbPoolInit 0 4096 false).next .zero = .ok s ∧
    FallsOver s 1 100 := by
  obtain ⟨s, hs, h, hc⟩ := poolsInUse_page
  refine ⟨s, hs, (malloc_fallsOver h (by decide) (by decide)).1.mpr ⟨by decide, .inr ?_⟩⟩
  rw [hc]
  decide

/-- A request that no class is large enough for: the call never returns. -/
theorem malloc_never_returns : ∃ s, (touchdbPoolInit 0 4096 false).next .zero = .ok s ∧
    PoolsInUse s 1 ∧ ¬ FallsOver s 1 (2 ^ 20 + 9) := by
  obtain ⟨s, hs, h, -⟩ := poolsInUse_page
  refine ⟨s, hs, h, ?_⟩
  rintro ⟨p, addr, t, l, hm, -⟩
  have hb : ¬ HasBlock s 0 (2 ^ 20 + 9) := fun hb => absurd hb.1 (by decide)
  obtain ⟨e, he⟩ := h.malloc_unserved (by decide) (by decide) hb
  rw [he] at hm
  cases hm

end TouchDb
