import TouchDb.Store.Runs

/-! The hash index of every store that puts reach, read off its memory. -/
namespace TouchDb
open Prog Layout

/-- The entries of bucket `i`, walked both ways. -/
structure WalksBucket (s : Touchdb) (ix : Index) (i : ℕ) : Prop where
  size : (s.field (s.base 0 + ix.tbl) (bulkField i MapBulk.size)).toInt = (ix.bucket i).length
  forward : Linked.walk (nextOf (s.base 0) s) (ix.bucket i).length
    (linkOf (s.field (s.base 0 + ix.tbl) (bulkField i MapBulk.header))) =
      ((ix.bucket i).map MapNode.blk, none)
  backward : Linked.walk (prevOf (s.base 0) s) (ix.bucket i).length
    (linkOf (s.field (s.base 0 + ix.tbl) (bulkField i MapBulk.tail))) =
      (((ix.bucket i).map MapNode.blk).reverse, none)

/-- An entry of bucket `i`: its fields, and the blocks it is in. -/
structure EntryOk (s : Touchdb) (i : ℕ) (e : MapNode) : Prop where
  hash : s.field (s.base 0 + e.blk) MapEntry.hash = hash (hashCode e.key)
  bucket : (indexFor s.map (s.field (s.base 0 + e.blk) MapEntry.hash)).toInt = i
  keyAddr : s.field (s.base 0 + e.blk) MapEntry.key = addrOf e.keyBlk
  key : s.holds (s.base 0 + e.keyBlk) e.key
  blk : Allocated s e.blk mapEntrySize
  keyBlk : Allocated s e.keyBlk (e.key.strlen + 1)
  /-- no allocation hands out the blocks of the entry -/
  kept : ∀ n p x t l, 1 ≤ n → n ≤ 2 ^ 20 → touchdbMalloc n s = .ok ((p, x), t, l) →
    p ≠ s.base 0 + e.blk ∧ p ≠ s.base 0 + e.keyBlk

/-- The map of a store is the index `ix`. -/
structure IndexOk (s : Touchdb) (ix : Index) : Prop where
  bulkList : s.map.bulkList = addrOf ix.tbl
  table : Allocated s ix.tbl (sizeofMapBulk * ix.count)
  count : s.map.bulkListCount.toInt = ix.count
  walks : ∀ i < ix.count, WalksBucket s ix i
  entry : ∀ i < ix.count, ∀ e ∈ ix.bucket i, EntryOk s i e
  /-- every entry is in one bucket, so that the bucket sizes add up -/
  byBucket : ix.byBucket.Perm ix.entries
  size : s.map.size.toInt = ((List.range ix.count).map fun i =>
    (s.field (s.base 0 + ix.tbl) (bulkField i MapBulk.size)).toInt).sum
  distinct : (ix.entries.map MapNode.key).Nodup

section
variable {B c : ℕ} {s : Touchdb} {a : PoolAlloc} {ix : Index}

theorem Heap.malloc_fresh (h : Heap B s a) {n p : ℕ} {x : TouchdbAddr} {t : Touchdb}
    {l : List Event} (h1 : 1 ≤ n) (h2 : n ≤ 2 ^ 20) (hm : touchdbMalloc n s = .ok ((p, x), t, l))
    {o m : ℕ} (ho : Owns a o m) : p ≠ B + o := by
  have hw := wp_touchdbMalloc (G := served) (Q := fun r _ => r.1 ≠ B + o) h h1 h2 (fun _ => rfl)
    (fun _ _ _ _ _ => trivial) fun o' a' t hh _ _ => ?_
  · exact (wp_elim hw hm).2
  · have hne := ho.ne hh.fresh
    change B + o' ≠ B + o
    omega

theorem StoreInv.indexOk {ops : List MapOp} (h : StoreInv B c ops s a ix) : IndexOk s ix := by
  obtain ⟨hh, hm, -, -⟩ := h
  obtain rfl := hh.base_eq
  have hlen (i : ℕ) : (ix.bucket i).length < 2 ^ 31 := by
    simpa using hm.bucket_length_lt i
  have hsize {i : ℕ} (hi : i < ix.count) :
      (s.field (s.base 0 + ix.tbl) (bulkField i MapBulk.size)).toInt = (ix.bucket i).length := by
    rw [(hm.bucket i hi).size, List.length_map]
    exact Int32.toInt_ofNat_of_lt (hlen i)
  refine ⟨hm.bulkList, hh.allocated_iff.mpr hm.table, hm.count_toInt, fun i hi => ?_,
    fun i hi e he => ?_, ix.byBucket_perm, ?_, ix.keys⟩
  · have hb := hm.bucket i hi
    refine ⟨hsize hi, ?_, ?_⟩
    · have hw := hb.next.walk_eq
      rwa [← hb.header, List.length_map] at hw
    · have hw := hb.prev.walk_eq
      rwa [List.head?_reverse, ← hb.tail, List.length_reverse, List.length_map] at hw
  · obtain ⟨hmem, rfl⟩ := Index.mem_bucket.mp he
    have hr := hm.entry e hmem
    refine ⟨hr.hash, ?_, hr.key, hr.holds, hh.allocated_iff.mpr hr.blk,
      hh.allocated_iff.mpr hr.keyBlk, fun n p x t l h1 h2 hmal =>
        ⟨hh.malloc_fresh h1 h2 hmal hr.blk, hh.malloc_fresh h1 h2 hmal hr.keyBlk⟩⟩
    rw [hr.hash]
    exact hm.indexFor_eq e.key
  · have hperm := ix.byBucket_perm.length_eq
    have hent := hm.length_lt
    have hlt := poolSize_lt
    rw [hm.size, Int32.toInt_ofNat_of_lt (by unfold walkRounds at hent; omega), ← hperm,
      Index.byBucket, List.length_flatMap]
    have hsum : (List.range ix.count).map (fun i =>
        (s.field (s.base 0 + ix.tbl) (bulkField i MapBulk.size)).toInt) =
          (List.range ix.count).map fun i => ((ix.bucket i).length : ℤ) :=
      List.map_congr_left fun i hi => hsize (List.mem_range.mp hi)
    have hcast (l : List ℕ) : ((l.sum : ℕ) : ℤ) = (l.map (Nat.cast : ℕ → ℤ)).sum := by
      induction l with
      | nil => rfl
      | cons n l ih => rw [List.sum_cons, List.map_cons, List.sum_cons, Nat.cast_add, ih]
    rw [hsum, hcast, List.map_map]
    rfl

/-- What `touchdb_iter` passes to the callback. -/
theorem StoreInv.iter {ops : List MapOp} (h : StoreInv B c ops s a ix) :
    ∃ calls ks l, touchdbIter s = .ok (calls, s, l) ∧ ks.Nodup ∧
      (∀ k, k ∈ ks ↔ ∃ op ∈ ops, op.key = k) ∧
      List.Forall₂ (fun (call : ℕ × ℕ) k => s.holds call.1 k) calls ks := by
  obtain ⟨hh, hm, hk, -⟩ := h
  obtain ⟨calls, t, l, hc, -, rfl, rfl⟩ := wp_ends (G := anyEvent)
    (Q := fun calls t => t = s ∧ calls = ix.byBucket.map (iterCall B s))
    (wp_touchdbMapIter hh hm (fun _ _ _ => trivial) ⟨rfl, rfl⟩) fun _ h => h
  have hperm := ix.byBucket_perm.map MapNode.key
  refine ⟨_, ix.byBucket.map MapNode.key, l, hc, hperm.nodup_iff.mpr ix.keys, fun k => ?_, ?_⟩
  · rw [hperm.mem_iff, hk k]
  · rw [List.forall₂_map_left_iff, List.forall₂_map_right_iff, List.forall₂_same]
    exact fun e he => (hm.entry e (Index.mem_byBucket.mp he)).holds

end

/-- The index invariant: in every state that puts reach on a new store, the memory holds an
index of exactly the keys put so far, and iteration passes each of them once. -/
theorem runNew_index (f : NewFiles) (ops : List MapOp) :
    Run.Post (fun e => e = .noBlock) (runNew f ops) fun s =>
      (∃ ix, IndexOk s ix ∧ ∀ k, k ∈ ix.entries.map MapNode.key ↔ ∃ op ∈ ops, op.key = k) ∧
      ∃ calls ks l, touchdbIter s = .ok (calls, s, l) ∧ ks.Nodup ∧
        (∀ k, k ∈ ks ↔ ∃ op ∈ ops, op.key = k) ∧
        List.Forall₂ (fun (call : ℕ × ℕ) k => s.holds call.1 k) calls ks :=
  (runNew_inv f ops).mono fun _ ⟨_, ix, h⟩ => ⟨⟨ix, h.indexOk, h.keys⟩, h.iter⟩

end TouchDb
