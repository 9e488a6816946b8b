import TouchDb.Map.Put

/-! `touchdb_map_init` leaves an empty index, for every capacity whose table a pool can hold. -/
namespace TouchDb
open Prog Layout

variable {B : ℕ} {s t : Touchdb} {a a' : PoolAlloc} {T : List ℕ} {G : Guard Stop Event}

namespace Index

/-- No entry yet, and `2 ^ bits` buckets. -/
def empty (tbl bits : ℕ) (h : bits ≤ 30) : Index where
  tbl := tbl
  bits := bits
  entries := []
  bits_le := h
  keys := List.nodup_nil
  apart := by simp

end Index

/-- The doubling stops at the least power of two that is not below the capacity. -/
def CountFor (capacity : Int32) (bits : ℕ) : Prop :=
  bits ≤ 30 ∧ capacity.toInt ≤ 2 ^ bits ∧ (bits = 0 ∨ 2 ^ (bits - 1) < capacity.toInt)

theorem wp_doubleCount {capacity : Int32} {rounds j : ℕ} {Q : Unit → Touchdb → Prop}
    (hw : Work B s a T t a') (hG : Lets G B s a T) (hm : mapRecord ∈ T)
    (hc : capacity.toInt ≤ 2 ^ 30) (hj : t.map.bulkListCount = Int32.ofNat (2 ^ j)) (hj30 : j ≤ 30)
    (hr : 31 ≤ rounds + j) (hmin : j = 0 ∨ 2 ^ (j - 1) < capacity.toInt)
    (hQ : ∀ bits u, CountFor capacity bits → Work B s a T u a' →
      u.map = { t.map with bulkListCount := Int32.ofNat (2 ^ bits) } → Q () u) :
    wp G (doubleCount capacity rounds) Q t := by
  induction rounds generalizing j t with
  | zero => omega
  | succ rounds ih =>
    have hpow : 2 ^ j ≤ 2 ^ 30 := Nat.pow_le_pow_right (by decide) hj30
    have hint : (Int32.ofNat (2 ^ j)).toInt = ((2 ^ j : ℕ) : ℤ) :=
      Int32.toInt_ofNat_of_lt (by omega)
    unfold doubleCount
    refine wp_bind ⟨by simp, ?_⟩
    change wp G (if t.map.bulkListCount < capacity then _ else _) Q t
    rw [hj]
    refine wp_ite (fun hlt => ?_) fun hge => ?_
    · rw [Int32.lt_iff_toInt_lt, hint] at hlt
      have hj' : j < 30 := by
        by_contra hc'
        obtain rfl : j = 30 := by omega
        push_cast at hlt
        omega
      refine wp_bind (hw.wp_assignMap hG hm fun hw₁ => ih (j := j + 1) hw₁ ?_ (by omega) (by omega)
        (.inr (by push_cast at hlt; simpa using hlt)) fun bits u hb hu hmap => ?_)
      · change t.map.bulkListCount <<< 1 = _
        rw [hj, Words.ofNat_shiftLeft_one, Nat.pow_succ']
      · exact hQ bits u hb hu (by rw [hmap]; rfl)
    · rw [Int32.lt_iff_toInt_lt, hint] at hge
      push_cast at hge
      refine wp_pure (hQ j t ⟨hj30, by omega, hmin⟩ hw ?_)
      rw [← hj]

/-- A bucket as the initialisation leaves it. -/
def Cleared (B : ℕ) (s : Touchdb) (tbl i : ℕ) : Prop :=
  s.field (B + tbl) (bulkField i MapBulk.header) = nullAddr ∧
    s.field (B + tbl) (bulkField i MapBulk.tail) = nullAddr ∧
    s.field (B + tbl) (bulkField i MapBulk.size) = 0

/-- Two fields of the record of a bucket. -/
theorem bulk_write_apart {α β : Type} [Layout α] [Layout β] {tbl i : ℕ} {f : Field α}
    {g : Field β} {v : β} (h : f.off + size α ≤ g.off ∨ g.off + size β ≤ f.off) :
    (s.write (B + tbl + (bulkField i g).off) (enc v)).field (B + tbl) (bulkField i f) =
      s.field (B + tbl) (bulkField i f) := by
  refine field_write_apart ?_
  rw [enc_length]
  simp only [bulkField]
  omega

/-- A store to the record of another bucket. -/
theorem Cleared.keep {β : Type} [Layout β] {tbl i j : ℕ} {g : Field β} {v : β}
    (h : Cleared B s tbl j) (hji : j ≠ i) (hg : g.off + Layout.size β ≤ sizeofMapBulk) :
    Cleared B (s.write (B + tbl + (bulkField i g).off) (enc v)) tbl j := by
  have hf {α : Type} [Layout α] {f : Field α} (hf : f.off + Layout.size α ≤ sizeofMapBulk) :
      (s.write (B + tbl + (bulkField i g).off) (enc v)).field (B + tbl) (bulkField j f) =
        s.field (B + tbl) (bulkField j f) := by
    refine field_write_apart ?_
    rw [enc_length]
    simp only [bulkField, sizeofMapBulk] at *
    omega
  obtain ⟨h1, h2, h3⟩ := h
  refine ⟨?_, ?_, ?_⟩
  · rw [hf (by decide), h1]
  · rw [hf (by decide), h2]
  · rw [hf (by decide), h3]

theorem wp_clearBulks (ix : Index) {n i : ℕ} {Q : Unit → Touchdb → Prop} (hw : Work B s a T t a')
    (hG : Lets G B s a T) (hm : Mine a T ix.tbl)
    (ht : Owns a' ix.tbl (sizeofMapBulk * ix.count)) (hi : i + n = ix.count)
    (hdone : ∀ j < i, Cleared B t ix.tbl j)
    (hQ : ∀ u, Work B s a T u a' → u.map = t.map → (∀ j < ix.count, Cleared B u ix.tbl j) →
      Q () u) :
    wp G (clearBulks (B + ix.tbl) n i) Q t := by
  induction n generalizing i t with
  | zero =>
    exact wp_pure (hQ t hw rfl fun j hj => hdone j (by omega))
  | succ n ih =>
    have hi' : i < ix.count := by omega
    have hB := hw.heap.base_pos'
    have hbulk : 0 < B + ix.tbl + sizeofMapBulk * i := by omega
    unfold clearBulks
    refine wp_bind (wp_store_shift hbulk (wp_storeBulk hw hG hm ht hi' (by decide) fun hw₁ => ?_))
    refine wp_bind (wp_store_shift hbulk (wp_storeBulk hw₁ hG hm ht hi' (by decide) fun hw₂ => ?_))
    refine wp_bind (wp_store_shift hbulk (wp_storeBulk hw₂ hG hm ht hi' (by decide) fun hw₃ => ?_))
    refine wp_bind (wp_store_shift hbulk (wp_storeBulk hw₃ hG hm ht hi' (by decide) fun hw₄ => ?_))
    refine wp_bind (wp_storeBulk hw₄ hG hm ht hi' (by decide) fun hw₅ => ?_)
    refine ih (i := i + 1) hw₅ (by omega) (fun j hj => ?_) hQ
    by_cases hji : j = i
    · subst hji
      refine ⟨?_, ?_, field_write_same _ _ (bulkField j MapBulk.size) 0⟩
      · rw [field_addr]
        refine congrArg₂ _ ?_ ?_
        · change Touchdb.field _ (B + ix.tbl) (bulkField j (⟨0⟩ : Field Int32)) = _
          rw [bulk_write_apart (.inl (by decide)), bulk_write_apart (.inl (by decide)),
            bulk_write_apart (.inl (by decide)), bulk_write_apart (.inl (by decide))]
          exact field_write_same _ _ (bulkField j (⟨0⟩ : Field Int32)) _
        · change Touchdb.field _ (B + ix.tbl) (bulkField j (⟨4⟩ : Field PtrOffset)) = _
          rw [bulk_write_apart (.inl (by decide)), bulk_write_apart (.inl (by decide)),
            bulk_write_apart (.inl (by decide))]
          exact field_write_same _ _ (bulkField j (⟨4⟩ : Field PtrOffset)) _
      · rw [field_addr]
        refine congrArg₂ _ ?_ ?_
        · change Touchdb.field _ (B + ix.tbl) (bulkField j (⟨8⟩ : Field Int32)) = _
          rw [bulk_write_apart (.inl (by decide)), bulk_write_apart (.inl (by decide))]
          exact field_write_same _ _ (bulkField j (⟨8⟩ : Field Int32)) _
        · change Touchdb.field _ (B + ix.tbl) (bulkField j (⟨12⟩ : Field PtrOffset)) = _
          rw [bulk_write_apart (.inl (by decide))]
          exact field_write_same _ _ (bulkField j (⟨12⟩ : Field PtrOffset)) _
    · have h := hdone j (by omega)
      exact ((((h.keep hji (by decide)).keep hji (by decide)).keep hji (by decide)).keep hji
        (by decide)).keep hji (by decide)

/-- The table that the initialisation leaves. -/
theorem Index.empty_rep {tbl bits : ℕ} (hb : bits ≤ 30) (ht : Owns a tbl (sizeofMapBulk * 2 ^ bits))
    (hl : s.map.bulkList = addrOf tbl) (hc : s.map.bulkListCount = Int32.ofNat (2 ^ bits))
    (hs : s.map.size = 0) (hcl : ∀ i < 2 ^ bits, Cleared B s tbl i) :
    MapRep B s a (Index.empty tbl bits hb) where
  table := ht
  bulkList := hl
  count := hc
  size := hs
  entry _ he := absurd he List.not_mem_nil
  bucket i hi := by
    obtain ⟨h1, h2, h3⟩ := hcl i hi
    change BucketRep B s tbl i []
    refine ⟨?_, ?_, h3, trivial, trivial, fun _ => h1⟩
    · rw [h1]
      rfl
    · rw [h2]
      rfl

/-- A table of more than `2 ^ 15` buckets is larger than the largest block, or its size in
bytes overflows. -/
theorem table_oversize : ∀ bits < 31, 15 < bits →
    Int32.ofNat touchdbPoolFreeListCount <
        freeListIdx (UInt32.ofNat ((Int32.ofNat (2 ^ bits)).toInt.toNat * sizeofMapBulk)).toInt32 ∨
      (freeListIdx
        (UInt32.ofNat ((Int32.ofNat (2 ^ bits)).toInt.toNat * sizeofMapBulk)).toInt32).toInt < 0 := by
  decide

/-- A request of such a size is not served. -/
theorem wp_malloc_oversize {n : ℕ} {Q : ℕ × TouchdbAddr → Touchdb → Prop} (h : Heap B s a)
    (hn : Int32.ofNat touchdbPoolFreeListCount < freeListIdx (UInt32.ofNat n).toInt32 ∨
      (freeListIdx (UInt32.ofNat n).toInt32).toInt < 0) (hs : ∀ e, G.stops e) :
    wp G (touchdbMalloc n) Q s := by
  have hsearch (rounds i : ℕ) {R : ℕ × ℕ → Touchdb → Prop} :
      wp G (mallocSearch (UInt32.ofNat n) rounds i) R s := by
    induction rounds generalizing i with
    | zero => exact wp_stop (hs _)
    | succ rounds ih =>
      unfold mallocSearch touchdbPoolMalloc
      refine wp_bind (wp_bind (wp_getPool ?_))
      rw [h.count_eq]
      rcases hn with hlt | hneg
      · rw [if_pos hlt]
        refine wp_pure ?_
        rw [if_neg (by simp)]
        exact ih _
      · refine wp_ite (fun _ => wp_pure ?_) fun _ => ?_
        · rw [if_neg (by simp)]
          exact ih _
        · have hf : freeBlkListAt (freeListIdx (UInt32.ofNat n).toInt32) s = .error (.fault, []) :=
            if_neg (by omega)
          exact wp_bind (wp_fail hf (hs _))
  unfold touchdbMalloc
  exact wp_bind (hsearch _ _)

theorem wp_touchdbMapInit {capacity : Int32} {Q : Unit → Touchdb → Prop} (h : Heap B s a)
    (hG : Lets G B s a [mapRecord]) (hsize : s.map.size = 0)
    (hcap : 0 ≤ capacity.toInt ∧ capacity.toInt ≤ 2 ^ 15 ∨ ∀ e, G.stops e)
    (hr : ∀ bits ≤ 15, CountFor capacity bits → Serves G a [2 ^ bits * sizeofMapBulk])
    (hQ : ∀ bits tbl a' u (hb : bits ≤ 15), CountFor capacity bits →
      Handed a (2 ^ bits * sizeofMapBulk) tbl a' → Work B s a [mapRecord] u a' →
      MapRep B u a' (Index.empty tbl bits (by omega)) → Q () u) :
    wp G (touchdbMapInit capacity) Q s := by
  have hmax : maxCapacity.toInt = 2 ^ 30 := by decide
  unfold touchdbMapInit mapInitCount
  refine wp_bind (wp_ite (fun hneg => wp_stop ?_) fun hneg => ?_)
  · rw [Int32.lt_iff_toInt_lt] at hneg
    rcases hcap with ⟨h0, -⟩ | hs
    · exact absurd h0 (by simpa using hneg)
    · exact hs _
  set cap : Int32 := if capacity > maxCapacity then maxCapacity else capacity with hc
  have hc30 : cap.toInt ≤ 2 ^ 30 ∧ (cap.toInt < 2 ^ 30 → cap = capacity) := by
    rw [hc]
    split_ifs with hgt
    · rw [hmax]
      exact ⟨Int.le_refl _, fun hlt => absurd hlt (Int.lt_irrefl _)⟩
    · rw [gt_iff_lt, Int32.lt_iff_toInt_lt, hmax] at hgt
      exact ⟨by omega, fun _ => rfl⟩
  refine wp_bind ((Work.start h).wp_assignMap hG (by simp) fun hw₁ => ?_)
  refine wp_doubleCount (j := 0) hw₁ hG (by simp) hc30.1 rfl (by omega) (by omega) (.inl rfl)
    fun bits t hb hw₂ hmap => ?_
  unfold mapInitTable
  have hcount : t.map.bulkListCount = Int32.ofNat (2 ^ bits) := by rw [hmap]
  have hpow : 2 ^ bits ≤ 2 ^ 30 := Nat.pow_le_pow_right (by decide) hb.1
  have hnat : (Int32.ofNat (2 ^ bits)).toInt.toNat = 2 ^ bits := by
    rw [Int32.toInt_ofNat_of_lt (by omega)]
    rfl
  refine wp_bind ⟨by simp, ?_⟩
  change wp G (touchdbMalloc (t.map.bulkListCount.toInt.toNat * sizeofMapBulk) >>= _) Q t
  rw [hcount]
  by_cases hbits : 15 < bits
  · have h1 : 2 ^ 15 ≤ 2 ^ (bits - 1) := Nat.pow_le_pow_right (by decide) (by omega)
    have hs : ∀ e, G.stops e := by
      refine hcap.resolve_left fun hle => ?_
      have h2 := hb.2.2.resolve_left (by omega)
      have h3 : cap = capacity := hc30.2 (by
        rw [hc]
        split_ifs with hgt
        · rw [gt_iff_lt, Int32.lt_iff_toInt_lt, hmax] at hgt
          omega
        · omega)
      rw [h3] at h2
      have h4 : ((2 ^ 15 : ℕ) : ℤ) ≤ ((2 ^ (bits - 1) : ℕ) : ℤ) := Int.ofNat_le.mpr h1
      push_cast at h4
      omega
    exact wp_bind (wp_malloc_oversize hw₂.heap (table_oversize bits (by have := hb.1; omega) hbits) hs)
  · have hb30 : bits ≤ 30 := hb.1
    have hpow15 : 2 ^ bits ≤ 2 ^ 15 := Nat.pow_le_pow_right (by decide) (by omega)
    have hpos : 0 < 2 ^ bits := Nat.two_pow_pos bits
    have hcap' : cap = capacity := hc30.2 (by
      have h1 : ((2 ^ bits : ℕ) : ℤ) ≤ ((2 ^ 15 : ℕ) : ℤ) := Int.ofNat_le.mpr hpow15
      have h2 := hb.2.1
      push_cast at h1
      omega)
    rw [hnat]
    refine wp_bind (hw₂.wp_malloc hG (hr bits (by omega) (hcap' ▸ hb)) (by simp only [sizeofMapBulk]; omega)
      (by simp only [sizeofMapBulk]; omega) fun tbl a' u htbl hw₃ hf₃ => ?_)
    have hO : Owns a' tbl (sizeofMapBulk * 2 ^ bits) :=
      Nat.mul_comm (2 ^ bits) _ ▸ htbl.owns (by simp only [sizeofMapBulk]; omega)
    have hmt : Mine a [mapRecord] tbl := hw₂.mine htbl
    have humap : u.map = t.map := hf₃.map (by simp)
    refine wp_bind (hw₃.wp_assignMap hG (by simp) fun hw₄ => ?_)
    refine wp_bind (hw₄.wp_assignMap hG (by simp) fun hw₅ => ?_)
    refine wp_bind ⟨by simp, ?_⟩
    change wp G (clearBulks (B + tbl) u.map.bulkListCount.toInt.toNat 0) Q _
    rw [humap, hcount, hnat]
    refine wp_clearBulks (Index.empty tbl bits hb30) hw₅ hG hmt hO (Nat.zero_add _) (by simp)
      fun v hw₆ hmap₆ hcl => ?_
    refine hQ bits tbl a' v (by omega) (hcap' ▸ hb) htbl hw₆ (Index.empty_rep hb30 hO ?_ ?_ ?_ hcl)
    · rw [hmap₆]
      rfl
    · rw [hmap₆]
      exact (congrArg _ humap).trans hcount
    · rw [hmap₆]
      refine (congrArg TouchdbMap.size humap).trans ?_
      rw [hmap]
      exact hsize

end TouchDb
