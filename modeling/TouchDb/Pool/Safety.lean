import TouchDb.Pool.Runs

/-! What a run leaves in memory: the blocks tile the used space, each one is held by one
client or waits on the list of its class, and the lists are the abstract queues. -/
namespace TouchDb
open Prog Layout

/-- The `m` bytes from `p` on and the `n` bytes from `q` on do not meet. -/
def Apart (p m q n : ℕ) : Prop := p + m ≤ q ∨ q + n ≤ p

/-- The payload bytes of the block that starts at `p`, by the class in its header. -/
def Touchdb.payloadSize (s : Touchdb) (p : ℕ) : ℕ :=
  blkCap (s.field (p - blkHdrSize) FreeBlkHdr.idx).toInt.toNat

/-- A walk along the list of its class meets the block. -/
def OnFreeList (s : Touchdb) (j : ℕ) (b : SegBlock) : Prop :=
  Linked.Reaches (nextBlk s j) (offLink ((s.poolList j).freeBlkList b.cls).headerOffset) b.off

def blkSize (b : SegBlock) : ℕ := blkHdrSize + blkCap b.cls

/-- What the clients of a pool rely on, for the blocks carved so far. -/
structure PoolSafe (j : ℕ) (r : PoolRun) (blocks : List SegBlock) : Prop where
  tiles : Tiles SegBlock.off blkSize 1 blocks (r.db.poolList j).curOffset.toNat
  fits : (r.db.poolList j).curOffset.toNat ≤ (r.db.poolList j).size.toInt.toNat
  header : ∀ b ∈ blocks, (r.db.field (r.db.base j + b.off) FreeBlkHdr.idx).toInt = b.cls
  listed : ∀ b, b.cls < touchdbPoolFreeListCount → OnFreeList r.db j b → b ∈ blocks
  /-- every block has exactly one owner: a client or the list of its class -/
  owner : ∀ b ∈ blocks, Xor (OnFreeList r.db j b)
    (∃ h ∈ r.held, h.ptr = r.db.base j + b.off + blkHdrSize)
  payload : ∀ h ∈ r.held, ∃ b ∈ blocks, h.ptr = r.db.base j + b.off + blkHdrSize
  enough : ∀ h ∈ r.held, h.size ≤ r.db.payloadSize h.ptr
  inside : ∀ h ∈ r.held, r.db.base j + 1 ≤ h.ptr ∧
    h.ptr + r.db.payloadSize h.ptr ≤ r.db.base j + (r.db.poolList j).size.toInt.toNat
  held_apart : r.held.Pairwise fun h k =>
    Apart h.ptr (r.db.payloadSize h.ptr) k.ptr (r.db.payloadSize k.ptr)
  hdr_apart : ∀ h ∈ r.held, ∀ b ∈ blocks,
    Apart h.ptr (r.db.payloadSize h.ptr) (r.db.base j + b.off) blkHdrSize
  free_apart : ∀ h ∈ r.held, ∀ b ∈ blocks, OnFreeList r.db j b →
    Apart h.ptr (r.db.payloadSize h.ptr) (r.db.base j + b.off) (blkSize b)

section Rep
variable {s : Touchdb} {j i : ℕ} {a : PoolAlloc} {b : SegBlock}

theorem PoolRep.hdr_toInt (h : PoolRep s j a) (hb : b ∈ a.blocks) :
    (s.field (s.base j + b.off) FreeBlkHdr.idx).toInt = b.cls := by
  have hi := h.cls_lt b hb
  have hN : touchdbPoolFreeListCount < 2 ^ 31 := by decide
  rw [h.hdr b hb]
  exact Int32.toInt_ofNat_of_lt (by omega)

theorem PoolRep.payloadSize_eq (h : PoolRep s j a) (hb : b ∈ a.blocks) :
    s.payloadSize (s.base j + b.off + blkHdrSize) = blkCap b.cls := by
  unfold Touchdb.payloadSize
  rw [Nat.add_sub_cancel, h.hdr_toInt hb]
  rfl

theorem PoolRep.size_toNat (h : PoolRep s j a) :
    (s.poolList j).size.toInt.toNat = touchdbDefaultPoolSize := by
  rw [h.size_eq]
  decide

theorem PoolRep.onFreeList_iff (h : PoolRep s j a) (hi : b.cls < touchdbPoolFreeListCount) :
    OnFreeList s j b ↔ b.off ∈ a.queue b.cls := by
  have hl := h.lists b.cls hi
  unfold OnFreeList
  rw [hl.head]
  exact Linked.reaches_iff hl.next

/-- The list of a class, walked both ways, is the queue of the class. -/
structure WalksQueue (s : Touchdb) (j i : ℕ) (q : List ℕ) : Prop where
  size : ((s.poolList j).freeBlkList i).size.toInt = q.length
  forward : Linked.walk (nextBlk s j) q.length
    (offLink ((s.poolList j).freeBlkList i).headerOffset) = (q, none)
  backward : Linked.walk (prevBlk s j) q.length
    (offLink ((s.poolList j).freeBlkList i).tailOffset) = (q.reverse, none)

theorem PoolRep.walksQueue (h : PoolRep s j a) (hi : i < touchdbPoolFreeListCount) :
    WalksQueue s j i (a.queue i) := by
  have hl := h.lists i hi
  refine ⟨?_, ?_, ?_⟩
  · rw [hl.size]
    have h1 := a.queue_length_le i
    have h2 := a.fits
    have h3 := poolSize_lt
    simp only [blkHdrSize] at h1
    exact Int32.toInt_ofNat_of_lt (by omega)
  · rw [hl.head]
    exact hl.next.walk_eq
  · have hw := hl.prev.walk_eq
    rw [List.length_reverse, List.head?_reverse] at hw
    rw [hl.tail]
    exact hw

end Rep

section Sim
variable {j : ℕ} {r : PoolRun} {c : PoolClients}

theorem Sim.mem_held (h : Sim j r c) {x : Held} (hx : x ∈ r.held) :
    ∃ y ∈ c.held, c.alloc.Live y.1 ∧ x = heldOf (r.db.base j) y := by
  rw [h.held] at hx
  obtain ⟨y, hy, rfl⟩ := List.mem_map.mp hx
  exact ⟨y, hy, Clients.live_of_mem hy, rfl⟩

theorem Sim.held_iff (h : Sim j r c) {b : SegBlock} (hb : b ∈ c.alloc.blocks) :
    (∃ x ∈ r.held, x.ptr = r.db.base j + b.off + blkHdrSize) ↔ c.alloc.Live b := by
  constructor
  · rintro ⟨x, hx, hp⟩
    obtain ⟨y, hy, hl, rfl⟩ := h.mem_held hx
    have hyb : y.1 = b := by
      refine Segregated.eq_of_off (by decide) hl.1 hb ?_
      simp only [heldOf] at hp
      omega
    exact hyb ▸ hl
  · intro hl
    obtain ⟨y, hy, rfl⟩ := List.mem_map.mp ((c.live b).mp hl)
    exact ⟨heldOf (r.db.base j) y, by rw [h.held]; exact List.mem_map_of_mem hy, rfl⟩

/-- The payloads of two blocks do not meet. -/
theorem apart_of_ne {a : PoolAlloc} {b d : SegBlock} (hb : b ∈ a.blocks) (hd : d ∈ a.blocks)
    (hne : b ≠ d) (base : ℕ) :
    Apart (base + b.off + blkHdrSize) (blkCap b.cls) (base + d.off) (blkSize d) := by
  unfold Apart blkSize
  rcases Segregated.disjoint hb hd hne with h | h
  · exact .inl (by omega)
  · exact .inr (by omega)

theorem Sim.safe (h : Sim j r c) : PoolSafe j r c.alloc.blocks where
  tiles := by
    rw [h.rep.cur]
    exact c.alloc.tiles
  fits := by
    rw [h.rep.cur, h.rep.size_toNat]
    exact c.alloc.fits
  header b hb := h.rep.hdr_toInt hb
  listed b hi hb := c.alloc.queued _ _ ((h.rep.onFreeList_iff hi).mp hb)
  owner b hb := by
    rw [h.held_iff hb, h.rep.onFreeList_iff (h.rep.cls_lt b hb)]
    rcases Segregated.live_or_queued hb with hl | hq
    · exact .inr ⟨hl, hl.2⟩
    · exact .inl ⟨hq, fun hl => hl.2 hq⟩
  payload x hx := by
    obtain ⟨y, -, hl, rfl⟩ := h.mem_held hx
    exact ⟨y.1, hl.1, rfl⟩
  enough x hx := by
    obtain ⟨y, hy, hl, rfl⟩ := h.mem_held hx
    simp only [heldOf, h.rep.payloadSize_eq hl.1]
    exact c.room y hy
  inside x hx := by
    obtain ⟨y, -, hl, rfl⟩ := h.mem_held hx
    have hb := Segregated.blk_bounds hl.1
    simp only [heldOf, h.rep.payloadSize_eq hl.1, h.rep.size_toNat]
    omega
  held_apart := by
    rw [h.held, List.pairwise_map]
    have hn := List.pairwise_map.mp c.nodup
    refine hn.imp_of_mem fun {x y} hx hy hne => ?_
    have hlx := Clients.live_of_mem hx
    have hly := Clients.live_of_mem hy
    have ha := apart_of_ne hlx.1 hly.1 hne (r.db.base j)
    simp only [heldOf, h.rep.payloadSize_eq hlx.1, h.rep.payloadSize_eq hly.1]
    unfold Apart blkSize at *
    omega
  hdr_apart x hx b hb := by
    obtain ⟨y, -, hl, rfl⟩ := h.mem_held hx
    simp only [heldOf, h.rep.payloadSize_eq hl.1]
    by_cases hne : y.1 = b
    · subst hne
      exact .inr (by omega)
    · have ha := apart_of_ne hl.1 hb hne (r.db.base j)
      unfold Apart blkSize at *
      omega
  free_apart x hx b hb hf := by
    obtain ⟨y, -, hl, rfl⟩ := h.mem_held hx
    simp only [heldOf, h.rep.payloadSize_eq hl.1]
    refine apart_of_ne hl.1 hb ?_ (r.db.base j)
    rintro rfl
    exact hl.2 ((h.rep.onFreeList_iff (h.rep.cls_lt _ hb)).mp hf)

/-- A payload that is handed out was held by nobody. -/
theorem Sim.malloc_fresh (h : Sim j r c) {n : PoolSize} {p : ℕ} {t : Touchdb} {l : List Event}
    (hm : touchdbPoolMalloc j (UInt32.ofNat n.bytes) r.db = .ok (p, t, l)) :
    ∀ x ∈ r.held, x.ptr ≠ p := by
  have hp := (wp_elim (wp_touchdbPoolMalloc (G := anyEvent) h.rep n.pos n.le
    fun _ _ _ _ _ => trivial) hm).2
  unfold MallocPost at hp
  rintro x hx rfl
  obtain ⟨y, -, hl, rfl⟩ := h.mem_held hx
  split at hp
  · rename_i b a' ha
    have hfresh := (Segregated.malloc_live (by decide) ha).1
    have hyb : y.1 = b := by
      refine Segregated.eq_of_off (a := a') (by decide) ?_ (Segregated.malloc_mem ha) ?_
      · exact (Segregated.malloc_blocks ha _).mpr (.inr hl.1)
      · have h1 := hp.1
        simp only [heldOf] at h1
        omega
    exact hfresh (hyb ▸ hl)
  · have h1 := hp.1
    simp only [heldOf, NULL, blkHdrSize] at h1
    omega

end Sim

/-- From any run of clients on a pool that `touchdb_pool_init` has just initialised. -/
theorem poolRun_sim {s₀ : Touchdb} {j ptr : ℕ} (hi : PoolIdxOk s₀ j) (hp : 0 < ptr) :
    ∃ s l, touchdbPoolInit j ptr false s₀ = .ok ((), s, l) ∧ Sim j ⟨s, []⟩ freshClients := by
  obtain ⟨_, s, l, hs, -, hr, -⟩ := wp_ends (wp_touchdbPoolInit (G := anyEvent) hi hp
    fun _ => trivial) fun _ h => h
  exact ⟨s, l, hs, hr, rfl⟩

/-- Pool safety: in every state that clients reach on a new pool, what they hold is theirs
alone. -/
theorem poolRun_safe (s₀ : Touchdb) (j ptr : ℕ) (hi : PoolIdxOk s₀ j) (hp : 0 < ptr)
    (ops : List PoolOp) :
    ∃ s l r blocks, touchdbPoolInit j ptr false s₀ = .ok ((), s, l) ∧
      Run.exec (PoolRun.step j) ops ⟨s, []⟩ = .ok r ∧ PoolSafe j r blocks ∧
      ∀ (n : PoolSize) p t l', touchdbPoolMalloc j (UInt32.ofNat n.bytes) r.db = .ok (p, t, l') →
        ∀ h ∈ r.held, h.ptr ≠ p := by
  obtain ⟨s, l, hs, h₀⟩ := poolRun_sim hi hp
  obtain ⟨r, hr, h⟩ := h₀.run ops
  exact ⟨s, l, r, _, hs, hr, h.safe, fun n p t l' hm => h.malloc_fresh hm⟩

/-- A block is written and released, and another one of its class is asked for. -/
theorem poolRun_safe_reuse : ∃ s l r blocks,
    touchdbPoolInit 0 4096 false .zero = .ok ((), s, l) ∧
      Run.exec (PoolRun.step 0) [.malloc ⟨24, by decide, by decide⟩, .write 0 3 [7, 8], .free 0,
        .malloc ⟨20, by decide, by decide⟩] ⟨s, []⟩ = .ok r ∧ PoolSafe 0 r blocks ∧
      ∀ (n : PoolSize) p t l', touchdbPoolMalloc 0 (UInt32.ofNat n.bytes) r.db = .ok (p, t, l') →
        ∀ h ∈ r.held, h.ptr ≠ p :=
  poolRun_safe .zero 0 4096 ⟨by decide, by decide⟩ (by decide) _

/-- Memory holds the abstract allocator's blocks, classes and queues, and both operations
answer as it does. -/
structure PoolRefines (j : ℕ) (r : PoolRun) (c : PoolClients) : Prop where
  held : r.held = c.held.map (heldOf (r.db.base j))
  cur : (r.db.poolList j).curOffset.toNat = c.alloc.cur
  header : ∀ b ∈ c.alloc.blocks, (r.db.field (r.db.base j + b.off) FreeBlkHdr.idx).toInt = b.cls
  queue : ∀ i < touchdbPoolFreeListCount, WalksQueue r.db j i (c.alloc.queue i)
  malloc : ∀ n : PoolSize, ∃ p t l,
    touchdbPoolMalloc j (UInt32.ofNat n.bytes) r.db = .ok (p, t, l) ∧
      MallocPost r.db j c.alloc (sizeClass n.bytes) p t
  free : ∀ x ∈ c.held, ∃ t l, touchdbPoolFree j (heldOf (r.db.base j) x).ptr r.db = .ok ((), t, l) ∧
    PoolRep t j (c.alloc.free x.1)

theorem Sim.refines {j : ℕ} {r : PoolRun} {c : PoolClients} (h : Sim j r c) :
    PoolRefines j r c where
  held := h.held
  cur := h.rep.cur
  header _ hb := h.rep.hdr_toInt hb
  queue _ hi := h.rep.walksQueue hi
  malloc n := by
    obtain ⟨p, t, l, hm, -, hq⟩ := wp_ends (wp_touchdbPoolMalloc (G := anyEvent) h.rep n.pos n.le
      fun _ _ _ _ _ => trivial) fun _ h => h
    exact ⟨p, t, l, hm, hq⟩
  free x hx := by
    obtain ⟨_, t, l, hm, -, hq, -⟩ := wp_ends (wp_touchdbPoolFree (G := anyEvent) h.rep
      (Clients.live_of_mem hx) fun _ _ => trivial) fun _ h => h
    exact ⟨t, l, hm, hq⟩

/-- Refinement: every run of clients on a new pool is a run of the abstract allocator. -/
theorem poolRun_refines (s₀ : Touchdb) (j ptr : ℕ) (hi : PoolIdxOk s₀ j) (hp : 0 < ptr)
    (ops : List PoolOp) :
    ∃ s l r, touchdbPoolInit j ptr false s₀ = .ok ((), s, l) ∧
      Run.exec (PoolRun.step j) ops ⟨s, []⟩ = .ok r ∧
      PoolRefines j r (ops.foldl PoolOp.abstract freshClients) := by
  obtain ⟨s, l, hs, h₀⟩ := poolRun_sim hi hp
  obtain ⟨r, hr, h⟩ := h₀.run ops
  exact ⟨s, l, r, hs, hr, h.refines⟩

theorem poolRun_refines_two : ∃ s l r, touchdbPoolInit 0 4096 false .zero = .ok ((), s, l) ∧
    Run.exec (PoolRun.step 0) [.malloc ⟨24, by decide, by decide⟩,
      .malloc ⟨20, by decide, by decide⟩, .free 0] ⟨s, []⟩ = .ok r ∧
    PoolRefines 0 r ([.malloc ⟨24, by decide, by decide⟩, .malloc ⟨20, by decide, by decide⟩,
      .free 0].foldl PoolOp.abstract freshClients) :=
  poolRun_refines .zero 0 4096 ⟨by decide, by decide⟩ (by decide) _

end TouchDb
