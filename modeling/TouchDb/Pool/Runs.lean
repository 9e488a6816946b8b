import TouchDb.Pool.Refine

/-! Runs of clients on one freshly initialised pool: what they are handed never overlaps,
and the free lists are one queue per size class. -/
namespace TouchDb
open Prog Layout

theorem PoolRep.congr {s t : Touchdb} {j : ℕ} {a : PoolAlloc} (h : PoolRep s j a)
    (hp : t.poolList j = s.poolList j) (hs : t.shmInfo = s.shmInfo)
    (hm : ∀ b ∈ a.blocks, ∀ k < blkHdrSize,
      t.mem (s.base j + b.off + k) = s.mem (s.base j + b.off + k)) : PoolRep t j a := by
  have hb : t.base j = s.base j := by simp only [Touchdb.base, hp, hs]
  have hf {α : Type} [Layout α] {f : Field α} {b : SegBlock} (hb : b ∈ a.blocks)
      (hf : f.off + size α ≤ blkHdrSize) :
      t.field (s.base j + b.off) f = s.field (s.base j + b.off) f := by
    refine field_congr fun i hi => ?_
    rw [Nat.add_assoc (s.base j + b.off)]
    exact hm b hb _ (by omega)
  refine ⟨⟨?_, ?_, ?_, ?_, ?_, ?_⟩, ?_, h.cls_lt, fun b hb' => ?_, fun i hi => ?_⟩
  · rw [hp]; exact h.idx_nonneg
  · rw [hp]; exact h.idx_lt
  · rw [hb]; exact h.base_pos
  · rw [hs, hp, hb]; exact h.end_eq
  · rw [hp]; exact h.size_eq
  · rw [hp]; exact h.count_eq
  · rw [hp]; exact h.cur
  · rw [hb, hf hb' (by decide)]
    exact h.hdr b hb'
  · rw [hp]
    refine (h.lists i hi).congr (fun x hx => ?_) fun x hx => ?_
    · simp only [nextBlk, hb, hf (a.queued i x hx) (f := FreeBlkHdr.nextOffset) (by decide)]
    · simp only [prevBlk, hb, hf (a.queued i x hx) (f := FreeBlkHdr.prevOffset) (by decide)]

/-- A client writes into the payload of its own block. -/
theorem PoolRep.writePayload {s : Touchdb} {j k : ℕ} {a : PoolAlloc} {b : SegBlock}
    {bs : List UInt8} (h : PoolRep s j a) (hb : b ∈ a.blocks) (hk : k + bs.length ≤ blkCap b.cls) :
    PoolRep (s.write (s.base j + b.off + blkHdrSize + k) bs) j a := by
  refine h.congr rfl rfl fun c hc i hi => Mem.write_outside ?_
  by_cases hbc : c = b
  · subst hbc
    exact .inl (by omega)
  · rcases Segregated.disjoint hc hb hbc with h1 | h1
    · exact .inl (by omega)
    · exact .inr (by omega)

/-- What `touchdb_pool_init` relies on: the index of the pool is one of the table. -/
def PoolIdxOk (s : Touchdb) (j : ℕ) : Prop :=
  0 ≤ (s.poolList j).idx.toInt ∧ (s.poolList j).idx.toInt < touchdbPoolListSize

def freshAlloc : PoolAlloc := .fresh (by decide)

theorem wp_touchdbPoolInit {s : Touchdb} {j ptr : ℕ} {G : Guard Stop Event} (hi : PoolIdxOk s j)
    (hp : 0 < ptr) (hG : ∀ t, G.emits (.assign t)) :
    wp G (touchdbPoolInit j ptr false) (fun _ t =>
      PoolRep t j freshAlloc ∧ t.base j = ptr ∧ t.mem = s.mem ∧ t.map = s.map) s := by
  have hr : mapShm j ptr s = .ok ((), s.setShmInfo (s.poolList j).idx.toInt.toNat
      ⟨ptr, ptr + touchdbDefaultPoolSize⟩, []) := if_pos hi
  have hN : touchdbPoolFreeListCount < 2 ^ 31 := by decide
  unfold touchdbPoolInit
  refine wp_bind ((wp_ok hr).mpr ⟨by simp, ?_⟩)
  rw [if_neg (by simp)]
  refine wp_bind (wp_assign (hG _) (wp_bind (wp_assign (hG _) (wp_bind (wp_assign (hG _)
    (wp_assign (hG _) ?_))))))
  set t := Touchdb.setPool _ j _ with ht
  have hb : t.base j = ptr := by simp [ht, Touchdb.base, Touchdb.setShmInfo]
  have hl (i : ℕ) (hi : i < touchdbPoolFreeListCount) :
      (t.poolList j).freeBlkList i = ⟨0, 0, 0, Int32.ofNat i⟩ := by
    have h1 : (Int32.ofNat touchdbPoolFreeListCount).toInt = touchdbPoolFreeListCount :=
      Int32.toInt_ofNat_of_lt (by omega)
    simp [ht, h1, hi]
  refine ⟨⟨⟨?_, ?_, by omega, ?_, by simp [ht], by simp [ht]⟩, ?_, ?_, ?_, fun i hi => ?_⟩, hb, rfl, rfl⟩
  · simpa [ht] using hi.1
  · simpa [ht] using hi.2
  · rw [hb]
    simp [ht, Touchdb.setShmInfo]
  · simp [ht]; rfl
  · intro b hb
    cases hb
  · intro b hb
    cases hb
  · rw [hl i hi]
    exact ⟨rfl, rfl, rfl, trivial, trivial⟩

/-- A request that the pool can serve while it has room. -/
structure PoolSize where
  bytes : ℕ
  pos : 1 ≤ bytes
  le : bytes ≤ 2 ^ 20

/-- A payload that a client holds, and the size it asked for. -/
structure Held where
  ptr : ℕ
  size : ℕ

structure PoolRun where
  db : Touchdb
  held : List Held

/-- Clients free and write only what they hold: a place names an element of `held`. -/
inductive PoolOp where
  | malloc (n : PoolSize)
  | free (place : ℕ)
  | write (place k : ℕ) (bs : List UInt8)

/-- One operation of a client; one that names nothing held, or bytes past the size that
was asked for, is not made. -/
def PoolRun.step (j : ℕ) (op : PoolOp) (r : PoolRun) : Except Stop PoolRun :=
  match op with
  | .malloc n => do
    let (p, db) ← (touchdbPoolMalloc j (UInt32.ofNat n.bytes)).run r.db
    return ⟨db, if p = NULL then r.held else r.held ++ [⟨p, n.bytes⟩]⟩
  | .free place =>
    if h : place < r.held.length then do
      let (_, db) ← (touchdbPoolFree j r.held[place].ptr).run r.db
      return ⟨db, r.held.eraseIdx place⟩
    else return r
  | .write place k bs =>
    if h : place < r.held.length then
      if k + bs.length ≤ r.held[place].size then do
        let (_, db) ← (storeBytes (r.held[place].ptr + k) bs).run r.db
        return ⟨db, r.held⟩
      else return r
    else return r

abbrev PoolClients := Clients 1 touchdbDefaultPoolSize blkHdrSize blkCap

def freshClients : PoolClients := .fresh (by decide) (by decide)

/-- The same operation on one queue of free blocks per size class. -/
def PoolOp.abstract (c : PoolClients) : PoolOp → PoolClients
  | .malloc n => c.malloc (sizeClass n.bytes) n.bytes (le_blkCap n.pos)
  | .free place => c.free place
  | .write _ _ _ => c

/-- The payload of a block, and the size its client asked for. -/
def heldOf (base : ℕ) (x : SegBlock × ℕ) : Held := ⟨base + x.1.off + blkHdrSize, x.2⟩

/-- The run and the abstract allocator hold the same blocks. -/
structure Sim (j : ℕ) (r : PoolRun) (c : PoolClients) : Prop where
  rep : PoolRep r.db j c.alloc
  held : r.held = c.held.map (heldOf (r.db.base j))

section Step
variable {j : ℕ} {r : PoolRun} {c : PoolClients} {G : Guard Stop Event}

/-- Nothing stops, everything may be stored. -/
def anyEvent : Guard Stop Event := ⟨fun _ => False, fun _ => True⟩

/-- A program that never stops, used in a step of a run. -/
theorem post_bind {α β : Type} {p : M α} {s : Touchdb} {Q : α → Touchdb → Prop} {R : β → Prop}
    {f : α × Touchdb → Except Stop β} (h : wp anyEvent p Q s)
    (hf : ∀ a t, Q a t → Run.Post (fun _ => False) (f (a, t)) R) :
    Run.Post (fun _ => False) (p.run s >>= f) R := by
  obtain ⟨a, t, l, hp, -, hq⟩ := wp_ends h fun _ h => h
  have hr : p.run s = .ok (a, t) := by
    unfold Prog.run
    rw [hp]
  rw [hr]
  exact hf a t hq

theorem Sim.malloc (h : Sim j r c) (n : PoolSize) :
    Run.Post (fun _ => False) (PoolRun.step j (.malloc n) r) (Sim j · ((PoolOp.malloc n).abstract c)) := by
  refine post_bind (wp_touchdbPoolMalloc h.rep n.pos n.le fun _ _ _ _ _ => trivial)
    fun p t hp => ?_
  unfold MallocPost at hp
  simp only [PoolOp.abstract]
  split at hp
  · rename_i b a' ha
    obtain ⟨rfl, hr, hd⟩ := hp
    obtain ⟨h1, h2⟩ := Clients.malloc_some (le_blkCap n.pos) ha
    have hne : ¬ r.db.base j + b.off + blkHdrSize = NULL := by
      have := h.rep.base_pos
      change ¬ _ = 0
      omega
    rw [if_neg hne]
    refine ⟨by rw [h1]; exact hr, ?_⟩
    simp [h2, hd.base_eq, h.held, heldOf]
  · rename_i ha
    obtain ⟨rfl, rfl⟩ := hp
    rw [Clients.malloc_none ha, if_pos rfl]
    exact h

theorem Sim.free (h : Sim j r c) (place : ℕ) :
    Run.Post (fun _ => False) (PoolRun.step j (.free place) r)
      (Sim j · ((PoolOp.free place).abstract c)) := by
  have hlen : r.held.length = c.held.length := by simp [h.held]
  simp only [PoolRun.step, PoolOp.abstract]
  split_ifs with hp
  · obtain ⟨hl, h1, h2⟩ := Clients.free_some (hlen ▸ hp)
    have hx : r.held[place].ptr = r.db.base j + (c.held[place].1).off + blkHdrSize := by
      simp [h.held, heldOf]
    rw [hx]
    refine post_bind (wp_touchdbPoolFree h.rep hl fun _ _ => trivial) fun _ t ht => ?_
    refine ⟨by rw [h1]; exact ht.1, ?_⟩
    simp [h2, ht.2.base_eq, h.held, List.eraseIdx_map]
  · rw [Clients.free_none (hlen ▸ hp)]
    exact h

theorem Sim.write (h : Sim j r c) (place k : ℕ) (bs : List UInt8) :
    Run.Post (fun _ => False) (PoolRun.step j (.write place k bs) r)
      (Sim j · ((PoolOp.write place k bs).abstract c)) := by
  have hlen : r.held.length = c.held.length := by simp [h.held]
  simp only [PoolRun.step, PoolOp.abstract]
  split_ifs with hp hk
  · have hpc : place < c.held.length := hlen ▸ hp
    have hm := List.getElem_mem hpc
    have hb := (Clients.live_of_mem hm).1
    have hbd := Segregated.blk_bounds hb
    have hx : r.held[place] = heldOf (r.db.base j) c.held[place] := by simp [h.held]
    have hroom := c.room _ hm
    simp only [hx, heldOf] at hk ⊢
    have hbase := h.rep.base_pos
    refine post_bind (wp_storeBytes (by omega)
      (h.rep.toPoolMapped.mapped (by omega) (by omega)) trivial
      (Q := fun _ t => t = r.db.write _ bs) rfl) fun _ t ht => ?_
    subst ht
    exact ⟨h.rep.writePayload hb (by omega), h.held⟩
  · exact h
  · exact h

theorem Sim.step (h : Sim j r c) (op : PoolOp) :
    Run.Post (fun _ => False) (PoolRun.step j op r) (Sim j · (op.abstract c)) := by
  cases op with
  | malloc n => exact h.malloc n
  | free place => exact h.free place
  | write place k bs => exact h.write place k bs

/-- Every run is simulated by the same operations on the abstract allocator. -/
theorem Sim.run (h : Sim j r c) (ops : List PoolOp) :
    ∃ r', Run.exec (PoolRun.step j) ops r = .ok r' ∧ Sim j r' (ops.foldl PoolOp.abstract c) := by
  have hI : Run.Post (fun _ => False) (Run.exec (PoolRun.step j) ops r)
      (Sim j · (([] ++ ops).foldl PoolOp.abstract c)) :=
    Run.exec_invariant (I := fun pre r => Sim j r (pre.foldl PoolOp.abstract c))
      (fun pre op r hr => by simpa using Sim.step hr op) ops [] r h
  rcases he : Run.exec (PoolRun.step j) ops r with e | r'
  · rw [he] at hI
    exact hI.elim
  · exact ⟨r', rfl, hI.ok he⟩

end Step

end TouchDb
