import TouchDb.Map.Search
import Mathlib.Data.List.Perm.Basic

/-! The calls of `touchdb_map.c` that only read: what they find in an index, and where the
search goes wrong in a bucket without entries. -/
namespace TouchDb
open Prog Layout

namespace Index

/-- The entries, bucket after bucket. -/
def byBucket (ix : Index) : List MapNode := (List.range ix.count).flatMap ix.bucket

theorem mem_byBucket {ix : Index} {e : MapNode} : e ∈ ix.byBucket ↔ e ∈ ix.entries := by
  simp only [byBucket, List.mem_flatMap, List.mem_range, mem_bucket]
  constructor
  · rintro ⟨_, -, he, -⟩
    exact he
  · intro he
    exact ⟨_, ix.bucketOf_lt e.key, he, rfl⟩

/-- The buckets hold every entry once. -/
theorem byBucket_perm (ix : Index) : ix.byBucket.Perm ix.entries := by
  have hn : ix.entries.Nodup := ix.keys.of_map
  refine (List.perm_ext_iff_of_nodup ?_ hn).mpr fun e => mem_byBucket
  refine List.nodup_flatMap.mpr ⟨fun i _ => hn.filter _, ?_⟩
  refine List.nodup_range.imp fun {i j} hij e hi hj => hij ?_
  rw [← (mem_bucket.mp hi).2, (mem_bucket.mp hj).2]

end Index

section Lookup
variable {B : ℕ} {s : Touchdb} {a : PoolAlloc} {ix : Index} {e : MapNode} {k : CStr}
variable {G : Guard Stop Event}

/-- Where the value of an entry points. -/
def valuePtr (B : ℕ) (s : Touchdb) (e : MapNode) : ℕ :=
  B + (s.field (B + e.blk) valueField).offset.toNat

/-- The value of an entry is an address of the pool, whether or not its block is in use. -/
theorem wp_loadValue {α : Type} {c : TouchdbAddr → M α} {Q : α → Touchdb → Prop} (h : Heap B s a)
    (he : EntryRep B s a e) (hQ : ∀ o, 0 < o → o ≤ touchdbDefaultPoolSize →
      B + o = valuePtr B s e → wp G (c (addrOf o)) Q s) :
    wp G (load (B + e.blk + MapEntry.val.off) Val.value >>= c) Q s := by
  have hb := he.blk.bounds
  have hs := poolSize_lt
  obtain ⟨o, h0, h1, ho⟩ := he.value
  refine wp_bind (wp_load_shift (by omega) (wp_loadCell h he.blk (by decide) ?_))
  change wp G (c (s.field (B + e.blk) valueField)) Q s
  rw [ho]
  refine hQ o h0 h1 ?_
  rw [valuePtr, ho, addrOf_offset (by omega)]

theorem bucket_ne_nil (he : ix.find k = some e) : ix.bucket (ix.bucketOf k) ≠ [] := by
  obtain ⟨hm, rfl⟩ := Index.find_eq_some.mp he
  exact List.ne_nil_of_mem (Index.mem_bucket.mpr ⟨hm, rfl⟩)

theorem wp_touchdbMapGet_found {Q : ℕ → Touchdb → Prop} (h : Heap B s a) (hm : MapRep B s a ix)
    (hR : Reads G) (he : ix.find k = some e) (hQ : Q (valuePtr B s e) s) :
    wp G (touchdbMapGet k) Q s := by
  have hrep := hm.entry e (Index.find_eq_some.mp he).1
  unfold touchdbMapGet
  refine wp_bind (wp_getEntry h hm hR (bucket_ne_nil he) ?_)
  rw [he]
  change wp G (if B + e.blk ≠ NULL then _ else _) Q s
  rw [if_pos (hrep.blk.ptr_ne B)]
  exact wp_loadValue h hrep fun o h0 h1 hv => wp_touchdbPtrOf h h1 (hR o h0 h1) (hv ▸ hQ)

theorem wp_touchdbMapGet2_found {Q : ℕ → Touchdb → Prop} (h : Heap B s a) (hm : MapRep B s a ix)
    (hR : Reads G) (he : ix.find k = some e) (hQ : Q (B + e.blk + MapEntry.val.off) s) :
    wp G (touchdbMapGet2 k) Q s := by
  have hrep := hm.entry e (Index.find_eq_some.mp he).1
  unfold touchdbMapGet2
  refine wp_bind (wp_getEntry h hm hR (bucket_ne_nil he) ?_)
  rw [he]
  change wp G (if B + e.blk ≠ NULL then _ else _) Q s
  rw [if_pos (hrep.blk.ptr_ne B)]
  exact wp_pure hQ

theorem wp_touchdbMapGet2_absent {Q : ℕ → Touchdb → Prop} (h : Heap B s a) (hm : MapRep B s a ix)
    (hR : Reads G) (hne : ix.bucket (ix.bucketOf k) ≠ []) (hk : ix.find k = none)
    (hQ : Q NULL s) : wp G (touchdbMapGet2 k) Q s := by
  unfold touchdbMapGet2
  refine wp_bind (wp_getEntry h hm hR hne ?_)
  rw [hk]
  change wp G (if NULL ≠ NULL then _ else _) Q s
  rw [if_neg (by simp)]
  exact wp_pure hQ

/-- In a bucket without entries the search follows the cleared header, whose pool index is
no index of the pool list. -/
theorem wp_getEntry_empty {Q : ℕ → Touchdb → Prop} (h : Heap B s a) (hm : MapRep B s a ix)
    (hR : Reads G) (hnull : G.emits (.translate nullAddr)) (hf : G.stops .fault)
    (hne : ix.bucket (ix.bucketOf k) = []) : wp G (getEntry k) Q s := by
  have hi := ix.bucketOf_lt k
  have hb := hm.bucket _ hi
  unfold getEntry
  refine wp_bind (wp_bulkFor h hm hR (wp_bind (wp_loadBulk h hm.table hi (by decide) ?_)))
  rw [hb.empty (by rw [hne]; rfl)]
  unfold touchdbPtrOf
  have hp : poolAt nullAddr.poolIdx s = .error (.fault, []) := if_neg (by decide)
  exact wp_bind (wp_bind (wp_translate hnull (wp_bind (wp_fail hp hf))))

theorem getEntry_empty (h : Heap B s a) (hm : MapRep B s a ix)
    (hne : ix.bucket (ix.bucketOf k) = []) : (getEntry k).run s = .error .fault := by
  have hwp : wp ⟨fun e => e = .fault, fun _ => True⟩ (getEntry k) (fun _ _ => False) s :=
    wp_getEntry_empty h hm (fun _ _ _ => trivial) trivial rfl hne
  unfold Prog.run
  rcases hc : getEntry k s with ⟨x, l⟩ | ⟨r, t, l⟩
  · exact congrArg Except.error ((wp_error hc).mp hwp).2
  · exact (wp_elim hwp hc).2.elim

end Lookup

section Iter
variable {B : ℕ} {s : Touchdb} {a : PoolAlloc} {ix : Index} {G : Guard Stop Event}

/-- The pointers that `touchdb_map_iter` passes on for an entry. -/
def iterCall (B : ℕ) (s : Touchdb) (e : MapNode) : ℕ × ℕ := (B + e.keyBlk, valuePtr B s e)

theorem wp_iterEntries {l : List MapNode} {rounds : ℕ} {Q : List (ℕ × ℕ) → Touchdb → Prop}
    (h : Heap B s a) (hR : Reads G) (he : ∀ e ∈ l, EntryRep B s a e)
    (hl : Linked (nextOf B s) (l.map MapNode.blk)) (hr : l.length < rounds)
    (hQ : Q (l.map (iterCall B s)) s) :
    wp G (iterEntries rounds (linkPtr B (l.map MapNode.blk).head?)) Q s := by
  induction l generalizing rounds Q with
  | nil =>
    obtain ⟨r, rfl⟩ : ∃ r, rounds = r + 1 := ⟨rounds - 1, by omega⟩
    exact wp_pure hQ
  | cons e l ih =>
    obtain ⟨r, rfl⟩ : ∃ r, rounds = r + 1 := ⟨rounds - 1, by omega⟩
    have hrep := he e List.mem_cons_self
    change wp G (iterEntries (r + 1) (B + e.blk)) Q s
    unfold iterEntries
    rw [if_pos (hrep.blk.ptr_ne B)]
    refine wp_bind (wp_loadCell h hrep.blk (by decide) ?_)
    rw [hrep.key]
    refine wp_bind (wp_ptrOfOwned h hR hrep.keyBlk (wp_loadValue h hrep fun o h0 h1 hv =>
      wp_bind (wp_touchdbPtrOf h h1 (hR o h0 h1) ?_)))
    rw [hv]
    refine wp_bind (wp_nextEntry h hR hrep.blk hl.1 (fun x hx => ?_) ?_)
    · obtain ⟨d, hd, rfl⟩ := List.mem_map.mp (List.mem_of_head? hx)
      exact (he d (List.mem_cons_of_mem _ hd)).blk.mono (Nat.zero_le _)
    · exact wp_bind (ih (fun d hd => he d (List.mem_cons_of_mem _ hd)) hl.2 (by simpa using hr)
        (wp_pure hQ))

/-- The outer loop from bucket `i` on. -/
theorem wp_iterBulks {n i : ℕ} {Q : List (ℕ × ℕ) → Touchdb → Prop} (h : Heap B s a)
    (hm : MapRep B s a ix) (hR : Reads G) (hi : i + n = ix.count)
    (hQ : Q (((List.range' i n).flatMap ix.bucket).map (iterCall B s)) s) :
    wp G (iterBulks n (B + ix.tbl + sizeofMapBulk * i)) Q s := by
  induction n generalizing i Q with
  | zero => exact wp_pure hQ
  | succ n ih =>
    have hi' : i < ix.count := by omega
    have hb := hm.bucket i hi'
    have hent : ∀ d ∈ ix.bucket i, EntryRep B s a d := fun d hd =>
      hm.entry d (Index.mem_bucket.mp hd).1
    -- the calls of one bucket
    have hone {R : List (ℕ × ℕ) → Touchdb → Prop} (hR' : R ((ix.bucket i).map (iterCall B s)) s) :
        wp G (if Int32.ofNat ((ix.bucket i).map MapNode.blk).length ≠ 0 then (do
          let x ← load (B + ix.tbl + sizeofMapBulk * i) MapBulk.header
          let entry ← touchdbPtrOf x
          iterEntries walkRounds entry) else pure []) R s := by
      refine wp_ite (fun h0 => ?_) fun h0 => ?_
      · have hne : ix.bucket i ≠ [] := by
          rintro hc
          rw [hc] at h0
          exact h0 rfl
        obtain ⟨e, l, hl⟩ := List.exists_cons_of_ne_nil hne
        have he : EntryRep B s a e := hent e (by rw [hl]; exact List.mem_cons_self)
        refine wp_bind (wp_loadBulk h hm.table hi' (by decide) ?_)
        have hhead : s.field (B + ix.tbl) (bulkField i MapBulk.header) = addrOf e.blk := by
          refine linkOf_eq_some ?_ he.blk.lt
          rw [hb.header, hl]
          rfl
        rw [hhead]
        refine wp_bind (wp_ptrOfOwned h hR he.blk ?_)
        have hlt : (ix.bucket i).length < walkRounds :=
          Nat.lt_of_le_of_lt (List.length_filter_le _ _) hm.length_lt
        have hloop := wp_iterEntries (G := G) (Q := R) h hR hent hb.next hlt hR'
        rwa [hl] at hloop
      · have hnil : ix.bucket i = [] := by
          rw [not_not, Words.ofNat_eq_zero (hm.bucket_length_lt i)] at h0
          simpa using h0
        rw [hnil] at hR'
        exact wp_pure hR'
    unfold iterBulks
    refine wp_bind (wp_loadBulk h hm.table hi' (by decide) ?_)
    rw [hb.size]
    refine wp_bind (hone (wp_bind ?_))
    have hnext : B + ix.tbl + sizeofMapBulk * i + sizeofMapBulk =
        B + ix.tbl + sizeofMapBulk * (i + 1) := by
      rw [Nat.mul_add, Nat.mul_one, Nat.add_assoc]
    rw [hnext]
    refine ih (by omega) (wp_pure ?_)
    rw [List.range'_succ, List.flatMap_cons, List.map_append] at hQ
    exact hQ

/-- `touchdb_map_iter` ends, and passes every entry on once. -/
theorem wp_touchdbMapIter {Q : List (ℕ × ℕ) → Touchdb → Prop} (h : Heap B s a)
    (hm : MapRep B s a ix) (hR : Reads G) (hQ : Q (ix.byBucket.map (iterCall B s)) s) :
    wp G touchdbMapIter Q s := by
  unfold touchdbMapIter
  refine wp_bind ⟨by simp, ?_⟩
  change wp G (touchdbPtrOf s.map.bulkList >>= fun bulk =>
    iterBulks s.map.bulkListCount.toInt.toNat bulk) Q s
  rw [hm.bulkList, hm.count_toInt, Int.toNat_natCast]
  refine wp_bind (wp_ptrOfOwned h hR hm.table ?_)
  have hloop := wp_iterBulks (G := G) (n := ix.count) (i := 0) (Q := Q) h hm hR (Nat.zero_add _)
  rw [← List.range_eq_range'] at hloop
  exact hloop hQ

end Iter

end TouchDb
