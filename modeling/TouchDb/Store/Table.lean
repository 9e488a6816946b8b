import TouchDb.Store.Lookup

/-! For which capacities the bucket table of a new map holds every bucket. -/
namespace TouchDb
open Prog Layout

/-- `bulk_list_count * sizeof(touchdb_map_bulk_t)`, before it becomes an `int`. -/
def tableBytes (s : Touchdb) : ℕ := s.map.bulkListCount.toInt.toNat * sizeofMapBulk

/-- The bucket at `idx` lies in the first `n` bytes from `lo` on, and it is empty. -/
structure BulkFree (s : Touchdb) (lo n : ℕ) (idx : Int32) : Prop where
  inside : ∃ p l, getBulk idx s = .ok (p, s, l) ∧ lo ≤ p ∧ p + sizeofMapBulk ≤ lo + n ∧
    (s.field p MapBulk.header).offset = NIL ∧ (s.field p MapBulk.tail).offset = NIL ∧
    s.field p MapBulk.size = 0

/-- The table of `s` was asked for as it is, was served by the pool, and has an empty bucket
for every hash. -/
structure TableHolds (s : Touchdb) : Prop where
  not_truncated : tableBytes s < 2 ^ 31
  served : s.map.bulkList.poolIdx = 0 ∧ Allocated s s.map.bulkList.offset.toNat (tableBytes s)
  bulks : ∀ h : Int32, BulkFree s (s.base 0 + s.map.bulkList.offset.toNat) (tableBytes s)
    (indexFor s.map h)

/-- `touchdb_map_init` in an empty pool ends, and its table holds every bucket. -/
def TableOk (f : NewFiles) (capacity : Int32) : Prop :=
  ∃ s, (newMap f.ptr capacity).next f.db = .ok s ∧ TableHolds s

section
variable {B : ℕ} {s : Touchdb} {a : PoolAlloc} {ix : Index}

theorem MapRep.indexFor_toInt (h : MapRep B s a ix) (x : Int32) :
    (indexFor s.map x).toInt = x.toInt % ix.count := by
  unfold indexFor
  rw [h.count]
  exact Words.and_mask_toInt x ix.bits_le

theorem MapRep.tableBytes_eq (h : MapRep B s a ix) :
    tableBytes s = sizeofMapBulk * ix.count := by
  unfold tableBytes
  rw [h.count_toInt, Int.toNat_natCast, Nat.mul_comm]

/-- A bucket without entries. -/
theorem MapRep.bulkFree (hh : Heap B s a) (h : MapRep B s a ix) (he : ix.entries = [])
    (x : Int32) : BulkFree s (B + ix.tbl) (tableBytes s) (indexFor s.map x) := by
  have hpos : (0 : ℤ) < ix.count := Int.natCast_pos.mpr ix.count_pos
  have h1 := Int.emod_lt_of_pos x.toInt hpos
  have h2 := Int.emod_nonneg x.toInt hpos.ne'
  obtain ⟨i, hi⟩ : ∃ i : ℕ, x.toInt % ix.count = i := ⟨_, (Int.toNat_of_nonneg h2).symm⟩
  have hlt : i < ix.count := by omega
  have hb := h.table.bounds
  have hB := hh.base_pos'
  have hr : BucketRep B s ix.tbl i [] := by
    have hr := h.bucket i hlt
    rwa [Index.bucket, he] at hr
  have hget : wp anyEvent (getBulk (indexFor s.map x))
      (fun p t => t = s ∧ p = B + ix.tbl + sizeofMapBulk * i) s := by
    unfold getBulk
    refine wp_bind ⟨by simp, wp_bind ?_⟩
    show wp anyEvent (touchdbPtrOf s.map.bulkList) _ s
    rw [h.bulkList]
    refine wp_ptrOfOwned hh (fun _ _ _ => trivial) h.table (wp_pure ⟨rfl, ?_⟩)
    rw [h.indexFor_toInt, hi]
    omega
  obtain ⟨p, t, l, hp, -, rfl, rfl⟩ := wp_ends hget fun _ h => h
  have hle := Nat.mul_le_mul_left sizeofMapBulk hlt
  rw [Nat.succ_eq_add_one, Nat.mul_add, Nat.mul_one] at hle
  have hfield {α : Type} [Layout α] (f : Field α) :
      t.field (B + ix.tbl + sizeofMapBulk * i) f = t.field (B + ix.tbl) (bulkField i f) := by
    simp only [Touchdb.field, bulkField, Nat.add_assoc]
  refine ⟨_, l, hp, Nat.le_add_right _ _, ?_, ?_, ?_, ?_⟩
  · rw [h.tableBytes_eq]
    omega
  · rw [hfield]
    exact linkOf_eq_none.mp hr.header
  · rw [hfield]
    exact linkOf_eq_none.mp hr.tail
  · rw [hfield]
    exact hr.size

/-- The table of an index without entries, with at most `2 ^ 15` buckets. -/
theorem MapRep.tableHolds (hh : Heap B s a) (h : MapRep B s a ix) (he : ix.entries = [])
    (hb : ix.bits ≤ 15) : TableHolds s := by
  have hpow : ix.count ≤ 2 ^ 15 := Nat.pow_le_pow_right (by decide) hb
  have hoff : s.map.bulkList.offset.toNat = ix.tbl := by
    rw [h.bulkList]
    exact addrOf_offset h.table.lt
  have hbytes := h.tableBytes_eq
  constructor
  · rw [hbytes]
    simp only [sizeofMapBulk]
    omega
  · constructor
    · rw [h.bulkList]
      rfl
    · rw [hoff, hh.allocated_iff, hbytes]
      exact h.table
  · intro x
    rw [hoff, hh.base_eq]
    exact h.bulkFree hh he x

end

/-- A map whose initialisation ends has at most `2 ^ 15` buckets. -/
theorem newMap_le {f : NewFiles} {capacity : Int32} {s : Touchdb}
    (hs : (newMap f.ptr capacity).next f.db = .ok s) : capacity.toInt ≤ 2 ^ 15 := by
  have hw : wp (G := ⟨fun _ => True, fun _ => True⟩) (newMap f.ptr capacity)
      (fun _ _ => capacity.toInt ≤ 2 ^ 15) f.db := by
    refine wp_newMap (poolIdxOk_new f) f.pos rfl (fun _ => trivial) (.inr fun _ => trivial)
      (fun bits _ _ => .of_stops trivial _ _) fun bits tbl a u hb hc _ _ _ => ?_
    have h1 : 2 ^ bits ≤ 2 ^ 15 := Nat.pow_le_pow_right (by decide) hb
    have h2 : ((2 ^ bits : ℕ) : ℤ) ≤ ((2 ^ 15 : ℕ) : ℤ) := Int.ofNat_le.mpr h1
    have h3 := hc.2.1
    push_cast at h2
    omega
  exact (Run.Post.of_wp (A := fun _ => True) hw (fun _ h => h) fun _ _ h => h).ok hs

/-- The table holds every bucket if and only if the capacity is at most `2 ^ 15`. -/
theorem tableOk_iff (f : NewFiles) (capacity : Int32) (h0 : 0 ≤ capacity.toInt) :
    TableOk f capacity ↔ capacity.toInt ≤ 2 ^ 15 := by
  constructor
  · rintro ⟨s, hs, -⟩
    exact newMap_le hs
  · intro hle
    have hw : wp anyEvent (newMap f.ptr capacity) (fun _ t => TableHolds t) f.db := by
      refine wp_newMap (poolIdxOk_new f) f.pos rfl (fun _ => trivial) (.inl ⟨h0, hle⟩)
        (fun bits hb _ => .of_room ?_) fun bits tbl a u hb _ _ hu hm => hm.tableHolds hu rfl hb
      have h1 : 2 ^ bits ≤ 2 ^ 15 := Nat.pow_le_pow_right (by decide) hb
      simp only [roomFor, List.map_cons, List.map_nil, List.sum_cons, List.sum_nil, freshAlloc,
        Segregated.fresh, sizeofMapBulk, touchdbDefaultPoolSize]
      omega
    obtain ⟨_, s, hs, h⟩ := next_ends hw fun _ h => h
    exact ⟨s, hs, h⟩

/-- The capacity that a new store is given. -/
theorem tableOk_thousand : TableOk .page 1000 :=
  (tableOk_iff .page 1000 (by decide)).mpr (by decide)

/-- One bucket more than the table can have: the call does not return. -/
theorem not_tableOk : ¬ TableOk .page (2 ^ 15 + 1) := by
  rintro ⟨s, hs, -⟩
  have hle := newMap_le hs
  exact absurd hle (by decide)

end TouchDb
