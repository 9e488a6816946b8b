import TouchDb.Pool.Safety

/-! The report of `touchdb_pool_free_blk_info`. With what clients hold, it accounts for the space that a
pool has used, and it tells which requests a pool will serve. -/
namespace TouchDb
open Prog

/-- What the report says of the queues of an allocator. -/
def freeInfo (a : PoolAlloc) (n i : ℕ) : List (ℕ × Int32) :=
  ((List.range' i n).filter fun k => a.queue k ≠ []).map fun k => (k, Int32.ofNat (a.queue k).length)

/-- The space that a request takes. -/
def spaceFor (n : ℕ) : ℕ := blkHdrSize + blkCap (sizeClass n)

/-- What a report means to the clients of a pool. -/
structure Accounts (j : ℕ) (r : PoolRun) (info : List (ℕ × Int32)) : Prop where
  sorted : info.Pairwise fun x y => x.1 < y.1
  pos : ∀ x ∈ info, 0 < x.2.toInt
  space : (r.db.poolList j).curOffset.toNat = 1 + (r.held.map fun h => spaceFor h.size).sum +
    (info.map fun x => x.2.toInt.toNat * (blkHdrSize + blkCap x.1)).sum
  serves : ∀ n : PoolSize, ∃ p t, (touchdbPoolMalloc j (UInt32.ofNat n.bytes)).run r.db = .ok (p, t) ∧
    (p ≠ NULL ↔ sizeClass n.bytes ∈ info.map Prod.fst ∨
      (r.db.poolList j).curOffset.toNat + spaceFor n.bytes ≤ (r.db.poolList j).size.toInt.toNat)

section
variable {s : Touchdb} {j : ℕ} {a : PoolAlloc} {r : PoolRun} {c : PoolClients} {G : Guard Stop Event}

theorem wp_freeBlkInfoFrom {n i : ℕ} {Q : List (ℕ × Int32) → Touchdb → Prop} (h : PoolRep s j a)
    (hn : i + n ≤ touchdbPoolFreeListCount) (hQ : Q (freeInfo a n i) s) :
    wp G (freeBlkInfoFrom j n i) Q s := by
  induction n generalizing i Q with
  | zero => exact wp_pure hQ
  | succ n ih =>
    have hl := h.lists i (by omega)
    have hcons : freeInfo a (n + 1) i = if a.queue i = [] then freeInfo a n (i + 1)
        else (i, Int32.ofNat (a.queue i).length) :: freeInfo a n (i + 1) := by
      unfold freeInfo
      rw [List.range'_succ]
      by_cases hq : a.queue i = []
      · simp [hq]
      · simp [hq]
    have hz := listSize_eq_zero h (i := i) (by omega)
    unfold freeBlkInfoFrom
    refine wp_bind (wp_freeBlkListAt (by omega) (wp_bind (wp_getList (wp_bind (ih (by omega) ?_)))))
    rw [hcons] at hQ
    by_cases hq : a.queue i = []
    · rw [if_pos hq] at hQ
      rw [if_neg (not_not.mpr (hz.mpr hq))]
      exact wp_pure hQ
    · rw [if_neg hq, ← hl.size] at hQ
      rw [if_pos fun hc => hq (hz.mp hc)]
      exact wp_pure hQ

theorem wp_touchdbPoolFreeBlkInfo {Q : List (ℕ × Int32) → Touchdb → Prop} (h : PoolRep s j a)
    (hQ : Q (freeInfo a touchdbPoolFreeListCount 0) s) : wp G (touchdbPoolFreeBlkInfo j) Q s := by
  have hN : touchdbPoolFreeListCount < 2 ^ 31 := by decide
  have hcount : (s.poolList j).freeBlkListCount.toInt.toNat = touchdbPoolFreeListCount := by
    rw [h.count_eq, Int32.toInt_ofNat_of_lt hN]
    rfl
  unfold touchdbPoolFreeBlkInfo
  refine wp_bind (wp_getPool ?_)
  generalize (s.poolList j).freeBlkListCount.toInt.toNat = n at hcount
  rw [← hcount] at hQ
  exact wp_freeBlkInfoFrom h (by omega) hQ

theorem mem_freeInfo {n : ℕ} {x : ℕ × Int32} : x ∈ freeInfo a n 0 ↔
    x.1 < n ∧ a.queue x.1 ≠ [] ∧ x.2 = Int32.ofNat (a.queue x.1).length := by
  unfold freeInfo
  rw [List.mem_map]
  constructor
  · rintro ⟨k, hk, rfl⟩
    simpa using hk
  · rintro ⟨h1, h2, h3⟩
    exact ⟨x.1, by simpa using ⟨h1, h2⟩, by rw [← h3]⟩

/-- The length of a queue is a word. -/
theorem toInt_queue_length (a : PoolAlloc) (i : ℕ) :
    (Int32.ofNat (a.queue i).length).toInt = (a.queue i).length := by
  have h1 := a.queue_length_le i
  have h2 := a.fits
  have h3 := poolSize_lt
  simp only [blkHdrSize] at h1
  exact Int32.toInt_ofNat_of_lt (by omega)

/-- The classes that are not in the report have no free blocks. -/
theorem sum_freeInfo (n i : ℕ) :
    ((freeInfo a n i).map fun x => x.2.toInt.toNat * (blkHdrSize + blkCap x.1)).sum =
      ((List.range' i n).map fun k => (a.queue k).length * (blkHdrSize + blkCap k)).sum := by
  unfold freeInfo
  induction List.range' i n with
  | nil => rfl
  | cons k l ih =>
    by_cases hk : a.queue k = []
    · simpa [hk] using ih
    · have hlen : (Int32.ofNat (a.queue k).length).toInt.toNat = (a.queue k).length := by
        rw [toInt_queue_length]
        rfl
      rw [List.filter_cons_of_pos (by simpa using hk)]
      simp only [List.map_cons, List.sum_cons, hlen, ih]

/-- Every block that is held is of the class of its request. -/
def Fitted (c : PoolClients) : Prop := ∀ x ∈ c.held, x.1.cls = sizeClass x.2

theorem Fitted.step (h : Fitted c) (op : PoolOp) : Fitted (op.abstract c) := by
  cases op with
  | malloc n =>
    simp only [PoolOp.abstract]
    rcases hm : c.alloc.malloc (sizeClass n.bytes) with _ | ⟨b, a'⟩
    · rwa [Clients.malloc_none hm]
    · intro x hx
      rw [(Clients.malloc_some (le_blkCap n.pos) hm).2] at hx
      rcases List.mem_append.mp hx with hx | hx
      · exact h x hx
      · obtain rfl := List.mem_singleton.mp hx
        exact Segregated.malloc_cls hm
  | free place =>
    simp only [PoolOp.abstract]
    by_cases hp : place < c.held.length
    · intro x hx
      rw [(Clients.free_some hp).2.2] at hx
      exact h x (List.mem_of_mem_eraseIdx hx)
    · rwa [Clients.free_none hp]
  | write place k bs => exact h

theorem Fitted.run (h : Fitted c) (ops : List PoolOp) : Fitted (ops.foldl PoolOp.abstract c) := by
  induction ops generalizing c with
  | nil => exact h
  | cons op ops ih => exact ih (h.step op)

theorem Sim.accounts (h : Sim j r c) (hc : Fitted c) :
    Accounts j r (freeInfo c.alloc touchdbPoolFreeListCount 0) where
  sorted := by
    unfold freeInfo
    rw [List.pairwise_map]
    exact (List.pairwise_lt_range' ..).filter _
  pos x hx := by
    obtain ⟨-, hq, hx⟩ := mem_freeInfo.mp hx
    have h1 := List.length_pos_iff.mpr hq
    rw [hx, toInt_queue_length]
    omega
  space := by
    rw [h.rep.cur, sum_freeInfo, ← List.range_eq_range', h.held,
      c.alloc.cur_eq c.hdr_pos h.rep.cls_lt c.nodup fun b => (c.live b).symm]
    rw [List.map_map, List.map_map]
    have hheld : (c.held.map ((fun b : SegBlock => blkHdrSize + blkCap b.cls) ∘ Prod.fst)) =
        c.held.map ((fun x : Held => spaceFor x.size) ∘ heldOf (r.db.base j)) := by
      refine List.map_congr_left fun x hx => ?_
      simp only [Function.comp_apply, heldOf, spaceFor, hc x hx]
    rw [hheld]
  serves n := by
    obtain ⟨p, t, l, hm, -, hp⟩ := wp_ends (wp_touchdbPoolMalloc (G := anyEvent) h.rep n.pos n.le
      fun _ _ _ _ _ => trivial) fun _ h => h
    have hi := sizeClass_lt n.le
    have hin : sizeClass n.bytes ∈ (freeInfo c.alloc touchdbPoolFreeListCount 0).map Prod.fst ↔
        c.alloc.queue (sizeClass n.bytes) ≠ [] := by
      rw [List.mem_map]
      constructor
      · rintro ⟨x, hx, hk⟩
        rw [← hk]
        exact (mem_freeInfo.mp hx).2.1
      · exact fun hq => ⟨(sizeClass n.bytes, Int32.ofNat (c.alloc.queue (sizeClass n.bytes)).length),
          mem_freeInfo.mpr ⟨hi, hq, rfl⟩, rfl⟩
    refine ⟨p, t, run_ok hm, ?_⟩
    rw [hin, h.rep.cur, h.rep.size_toNat]
    unfold MallocPost at hp
    split at hp
    · rename_i b a' ha
      have hb := h.rep.base_pos
      refine iff_of_true (by rw [hp.1]; simp only [NULL]; omega) ?_
      by_contra hn
      rw [Segregated.malloc_eq_none.mpr (by
        rw [not_or, not_not] at hn
        exact hn)] at ha
      cases ha
    · rename_i ha
      rw [Segregated.malloc_eq_none] at ha
      refine iff_of_false (not_not.mpr hp.1) ?_
      rw [not_or, not_not]
      exact ha

end

/-- In every state that clients reach on a new pool, the report on its free blocks accounts for all space
that they do not hold, and decides with the space left which requests are served. -/
theorem poolRun_accounts (s₀ : Touchdb) (j ptr : ℕ) (hi : PoolIdxOk s₀ j) (hp : 0 < ptr) (ops : List PoolOp) :
    ∃ s l r info, touchdbPoolInit j ptr false s₀ = .ok ((), s, l) ∧
      Run.exec (PoolRun.step j) ops ⟨s, []⟩ = .ok r ∧
      (touchdbPoolFreeBlkInfo j).run r.db = .ok (info, r.db) ∧ Accounts j r info := by
  obtain ⟨s, l, hs, h₀⟩ := poolRun_sim hi hp
  obtain ⟨r, hr, h⟩ := h₀.run ops
  have hfit : Fitted freshClients := fun x hx => absurd hx List.not_mem_nil
  exact ⟨s, l, r, _, hs, hr, run_eq (G := anyEvent) (wp_touchdbPoolFreeBlkInfo h.rep ⟨rfl, rfl⟩) fun _ h => h,
    h.accounts (hfit.run ops)⟩

/-- Two blocks wait, of different classes. -/
theorem poolRun_accounts_two : ∃ s l r info, touchdbPoolInit 0 4096 false .zero = .ok ((), s, l) ∧
    Run.exec (PoolRun.step 0) [.malloc ⟨24, by decide, by decide⟩, .malloc ⟨5, by decide, by decide⟩,
      .free 0, .free 0] ⟨s, []⟩ = .ok r ∧
    (touchdbPoolFreeBlkInfo 0).run r.db = .ok (info, r.db) ∧ Accounts 0 r info :=
  poolRun_accounts .zero 0 4096 ⟨by decide, by decide⟩ (by decide) _

end TouchDb
