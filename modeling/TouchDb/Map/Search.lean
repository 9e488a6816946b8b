import TouchDb.Map.Rep

/-! The searches of `touchdb_map.c` end, and find exactly what the index holds. -/
namespace TouchDb
open Prog Layout

variable {B : ℕ} {s : Touchdb} {a : PoolAlloc} {ix : Index} {k : CStr} {G : Guard Stop Event}

/-- `strcmp` on the characters `cs` in memory. -/
theorem wp_strcmpEq {cs ks : List UInt8} {p : ℕ} {Q : Bool → Touchdb → Prop} (hp : 0 < p)
    (hm : ∀ i ≤ cs.length, s.mapped (p + i) 1 = true)
    (hr : s.mem.read p (cs.length + 1) = cs ++ [0]) (hc : 0 ∉ cs) (hk : 0 ∉ ks)
    (hQ : Q (decide (cs = ks)) s) : wp G (strcmpEq p ks) Q s := by
  induction ks generalizing p cs with
  | nil =>
    refine wp_bind (wp_load hp (by simpa using hm 0 (Nat.zero_le _)) ?_)
    change wp G (pure (decide (s.mem p = 0))) Q s
    refine wp_pure ?_
    rw [Mem.read_succ] at hr
    cases cs with
    | nil =>
      have h0 : s.mem p = 0 := (List.cons.inj hr).1
      simpa [h0] using hQ
    | cons c cs =>
      have h0 : s.mem p = c := (List.cons.inj hr).1
      have hne : c ≠ 0 := fun h => hc (by simp [h])
      simpa [h0, hne] using hQ
  | cons x ks ih =>
    refine wp_bind (wp_load hp (by simpa using hm 0 (Nat.zero_le _)) ?_)
    change wp G (if s.mem p = x then _ else _) Q s
    rw [Mem.read_succ] at hr
    cases cs with
    | nil =>
      have h0 : s.mem p = 0 := (List.cons.inj hr).1
      have hne : (0 : UInt8) ≠ x := fun h => hk (by simp [h])
      rw [h0, if_neg hne]
      exact wp_pure (by simpa using hQ)
    | cons c cs =>
      obtain ⟨h0, hr⟩ := List.cons.inj hr
      rw [h0]
      by_cases hcx : c = x
      · rw [if_pos hcx]
        refine ih (by omega) (fun i hi => ?_) hr (fun h => hc (by simp [h]))
          (fun h => hk (by simp [h])) (by simpa [hcx] using hQ)
        have h1 := hm (i + 1) (by simpa using hi)
        rwa [Nat.add_comm i 1, ← Nat.add_assoc] at h1
      · rw [if_neg hcx]
        exact wp_pure (by simpa [hcx] using hQ)

/-- The key of an entry is compared as a whole. -/
theorem wp_strcmpEq_key {o : ℕ} {v : CStr} {Q : Bool → Touchdb → Prop} (h : Heap B s a)
    (ho : Owns a o (v.strlen + 1)) (hv : s.holds (B + o) v) (hQ : Q (decide (v = k)) s) :
    wp G (strcmpEq (B + o) k.chars) Q s := by
  have hb := ho.bounds
  refine wp_strcmpEq (by omega) (fun i hi => ?_) hv v.nul_notMem k.nul_notMem ?_
  · have hi' : i ≤ v.strlen := hi
    rw [Nat.add_assoc]
    exact h.mapped (by omega)
  · have he : (v.chars = k.chars) = (v = k) :=
      propext ⟨CStr.ext_chars, fun h => by rw [h]⟩
    simpa only [he] using hQ

theorem MapRep.indexFor_eq (h : MapRep B s a ix) (k : CStr) :
    (indexFor s.map (hash (hashCode k))).toInt = ix.bucketOf k := by
  unfold indexFor Index.bucketOf
  rw [h.count]
  have h1 := Words.and_mask_toInt (hash (hashCode k)) ix.bits_le
  have h2 := Int.emod_nonneg (hash (hashCode k)).toInt
    (Int.natCast_pos.mpr ix.count_pos).ne'
  unfold Index.count at *
  rw [h1, Int.toNat_of_nonneg h2]

theorem wp_bulkFor {Q : ℕ → Touchdb → Prop} (h : Heap B s a) (hm : MapRep B s a ix) (hG : Reads G)
    (hQ : Q (B + ix.tbl + sizeofMapBulk * ix.bucketOf k) s) :
    wp G (bulkFor (hash (hashCode k))) Q s := by
  unfold bulkFor getBulk
  refine wp_bind ⟨by simp, wp_bind ⟨by simp, wp_bind ?_⟩⟩
  rw [hm.bulkList]
  refine wp_ptrOfOwned h hG hm.table (wp_pure ?_)
  rw [hm.indexFor_eq k]
  exact_mod_cast hQ

theorem loadBulk_ok {α : Type} [Layout α] {f : Field α} {i : ℕ} (h : Heap B s a)
    (ht : Owns a ix.tbl (sizeofMapBulk * ix.count)) (hi : i < ix.count)
    (hf : f.off + size α ≤ sizeofMapBulk) :
    load (B + ix.tbl + sizeofMapBulk * i) f s =
      .ok (s.field (B + ix.tbl) (bulkField i f), s, []) := by
  have hb := ht.bounds
  exact (load_shift (by omega)).trans (h.load_ok ht (bulkField_le hi hf))

theorem wp_loadBulk {α : Type} [Layout α] {f : Field α} {i : ℕ} {Q : α → Touchdb → Prop}
    (h : Heap B s a) (ht : Owns a ix.tbl (sizeofMapBulk * ix.count)) (hi : i < ix.count)
    (hf : f.off + size α ≤ sizeofMapBulk) (hQ : Q (s.field (B + ix.tbl) (bulkField i f)) s) :
    wp G (load (B + ix.tbl + sizeofMapBulk * i) f) Q s :=
  (wp_ok (loadBulk_ok h ht hi hf)).mpr ⟨by simp, hQ⟩

theorem storeBulk_ok {α : Type} [Layout α] {f : Field α} {v : α} {i : ℕ} (h : Heap B s a)
    (ht : Owns a ix.tbl (sizeofMapBulk * ix.count)) (hi : i < ix.count)
    (hf : f.off + size α ≤ sizeofMapBulk) :
    store (B + ix.tbl + sizeofMapBulk * i) f v s =
      .ok ((), s.write (B + ix.tbl + (bulkField i f).off) (enc v),
        [.store (B + ix.tbl + (bulkField i f).off) (size α)
          (s.write (B + ix.tbl + (bulkField i f).off) (enc v))]) := by
  have hb := ht.bounds
  exact (store_shift (by omega)).trans (h.store_ok ht (bulkField_le hi hf))

/-- The pointer that a link stands for. -/
def linkPtr (B : ℕ) : Option ℕ → ℕ
  | none => NULL
  | some o => B + o

theorem wp_nextEntry {o : ℕ} {l : Option ℕ} {Q : ℕ → Touchdb → Prop} (h : Heap B s a)
    (hG : Reads G) (ho : Owns a o mapEntrySize) (hl : nextOf B s o = l)
    (hlo : ∀ x, l = some x → Owns a x 0) (hQ : Q (linkPtr B l) s) :
    wp G (nextEntry (B + o)) Q s := by
  unfold nextEntry
  rw [if_pos (ho.ptr_ne B)]
  refine wp_bind (wp_loadCell h ho (by decide) ?_)
  cases l with
  | none =>
    rw [if_neg (not_not.mpr (linkOf_eq_none.mp hl))]
    exact wp_pure hQ
  | some x =>
    have hx := hlo x rfl
    have he := linkOf_eq_some hl hx.lt
    rw [he, if_pos (addrOf_ne_nil hx.lt (by have := hx.bounds; omega))]
    exact wp_ptrOfOwned h hG hx hQ

/-- The search of a list of entries. -/
theorem wp_getEntryLoop {l : List MapNode} {rounds : ℕ} {Q : ℕ → Touchdb → Prop} (h : Heap B s a)
    (hG : Reads G) (he : ∀ e ∈ l, EntryRep B s a e)
    (hl : Linked (nextOf B s) (l.map MapNode.blk)) (hr : l.length < rounds)
    (hQ : Q (linkPtr B ((l.find? fun e => e.key = k).map MapNode.blk)) s) :
    wp G (getEntryLoop (hash (hashCode k)) k rounds (linkPtr B (l.map MapNode.blk).head?)) Q s := by
  induction l generalizing rounds with
  | nil =>
    obtain ⟨r, rfl⟩ : ∃ r, rounds = r + 1 := ⟨rounds - 1, by omega⟩
    exact wp_pure hQ
  | cons e l ih =>
    obtain ⟨r, rfl⟩ : ∃ r, rounds = r + 1 := ⟨rounds - 1, by omega⟩
    have hrep := he e List.mem_cons_self
    change wp G (getEntryLoop _ k (r + 1) (B + e.blk)) Q s
    unfold getEntryLoop
    rw [if_neg (hrep.blk.ptr_ne B)]
    refine wp_bind (wp_loadCell h hrep.blk (by decide) ?_)
    rw [hrep.hash]
    -- equal keys have equal hashes, so a skipped comparison would have failed
    have hfound {R : Bool → Touchdb → Prop} (hR : R (decide (e.key = k)) s) :
        wp G (if hash (hashCode e.key) = hash (hashCode k) then (do
          let x ← load (B + e.blk) MapEntry.key
          let key ← touchdbPtrOf x
          strcmpEq key k.chars) else pure false) R s := by
      split_ifs with hh
      · refine wp_bind (wp_loadCell h hrep.blk (by decide) ?_)
        rw [hrep.key]
        exact wp_bind (wp_ptrOfOwned h hG hrep.keyBlk (wp_strcmpEq_key h hrep.keyBlk hrep.holds hR))
      · have hk : e.key ≠ k := fun hk => hh (by rw [hk])
        exact wp_pure (by simpa [hk] using hR)
    refine wp_bind (hfound ?_)
    by_cases hk : e.key = k
    · rw [if_pos (by simpa using hk)]
      refine wp_pure ?_
      simpa [hk, linkPtr] using hQ
    · rw [if_neg (by simpa using hk)]
      refine wp_bind (wp_nextEntry h hG hrep.blk hl.1 (fun x hx => ?_) ?_)
      · obtain ⟨d, hd, rfl⟩ := List.mem_map.mp (List.mem_of_head? hx)
        exact (he d (List.mem_cons_of_mem _ hd)).blk.mono (Nat.zero_le _)
      · refine ih (fun d hd => he d (List.mem_cons_of_mem _ hd)) hl.2 (by simpa using hr) ?_
        simpa [hk] using hQ

/-- A search in a bucket that has entries finds the entry of the key, if there is one. -/
theorem wp_getEntry {Q : ℕ → Touchdb → Prop} (h : Heap B s a) (hm : MapRep B s a ix) (hG : Reads G)
    (hne : ix.bucket (ix.bucketOf k) ≠ [])
    (hQ : Q (linkPtr B ((ix.find k).map MapNode.blk)) s) : wp G (getEntry k) Q s := by
  have hi := ix.bucketOf_lt k
  have hb := hm.bucket _ hi
  obtain ⟨e, l, hl⟩ := List.exists_cons_of_ne_nil hne
  have hmem {d : MapNode} (hd : d ∈ ix.bucket (ix.bucketOf k)) : EntryRep B s a d :=
    hm.entry d (Index.mem_bucket.mp hd).1
  have he : EntryRep B s a e := hmem (by rw [hl]; exact List.mem_cons_self)
  unfold getEntry
  refine wp_bind (wp_bulkFor h hm hG (wp_bind (wp_loadBulk h hm.table hi (by decide) ?_)))
  have hhead : s.field (B + ix.tbl) (bulkField (ix.bucketOf k) MapBulk.header) = addrOf e.blk := by
    refine linkOf_eq_some ?_ he.blk.lt
    rw [hb.header, hl]
    rfl
  rw [hhead]
  refine wp_bind (wp_ptrOfOwned h hG he.blk ?_)
  have hlt : (ix.bucket (ix.bucketOf k)).length < walkRounds :=
    Nat.lt_of_le_of_lt (List.length_filter_le _ _) hm.length_lt
  have hloop := wp_getEntryLoop (k := k) (G := G) (Q := Q) h hG (fun d hd => hmem hd) hb.next hlt
    (by rw [Index.find_bucket]; exact hQ)
  rwa [hl] at hloop

/-- The entry of a key, as both puts look for it. -/
theorem wp_findEntry {Q : ℕ → Touchdb → Prop} (h : Heap B s a) (hm : MapRep B s a ix) (hG : Reads G)
    (hQ : Q (linkPtr B ((ix.find k).map MapNode.blk)) s) :
    wp G (findEntry (B + ix.tbl + sizeofMapBulk * ix.bucketOf k) k) Q s := by
  have hi := ix.bucketOf_lt k
  have hb := hm.bucket _ hi
  unfold findEntry
  refine wp_bind (wp_loadBulk h hm.table hi (by decide) ?_)
  rw [hb.size]
  by_cases hne : ix.bucket (ix.bucketOf k) = []
  · rw [if_neg (by simp [hne])]
    refine wp_pure ?_
    rw [← Index.find_bucket, hne] at hQ
    exact hQ
  · have h0 : Int32.ofNat ((ix.bucket (ix.bucketOf k)).map MapNode.blk).length ≠ 0 := by
      rw [Ne, Words.ofNat_eq_zero (hm.bucket_length_lt _)]
      simpa using hne
    rw [if_pos h0]
    exact wp_getEntry h hm hG hne hQ

end TouchDb
