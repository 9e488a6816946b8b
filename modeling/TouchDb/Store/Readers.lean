import TouchDb.Store.Runs

/-! Readers that walk a bucket while `touchdb_put` is under way: each store is one step, and
a reader may look between any two of them. -/
namespace TouchDb
open Prog Layout

/-- The record of bucket `i`. -/
def bulkAt (s : Touchdb) (i : ℕ) : ℕ :=
  s.base 0 + s.map.bulkList.offset.toNat + sizeofMapBulk * i

/-- The entries that a reader of bucket `i` meets from the header on, and the link at which
the walk then stands. -/
def seen (s : Touchdb) (i : ℕ) : List ℕ × Option ℕ :=
  Linked.walk (nextOf (s.base 0) s) walkRounds (linkOf (s.field (bulkAt s i) MapBulk.header))

/-- Every byte of a field of the entry at `E` has been stored. -/
def FieldStored {α : Type} [Layout α] (s : Touchdb) (l : List Event) (E : ℕ) (f : Field α) : Prop :=
  ∀ i < size α, Stored l (s.base 0 + E + f.off + i)

structure EntryStored (s : Touchdb) (l : List Event) (E : ℕ) : Prop where
  hash : FieldStored s l E MapEntry.hash
  key : FieldStored s l E MapEntry.key
  val : FieldStored s l E MapEntry.val
  next : FieldStored s l E MapEntry.next

/-- What the entry at `E` is found by is as it was. -/
structure EntryKept (s t : Touchdb) (E : ℕ) : Prop where
  hash : t.field (s.base 0 + E) MapEntry.hash = s.field (s.base 0 + E) MapEntry.hash
  key : t.field (s.base 0 + E) MapEntry.key = s.field (s.base 0 + E) MapEntry.key

/-- A reader of bucket `i` sees the entries that `s` has there, after the stores of `l`
possibly followed by one whose fields all have been stored. -/
structure SeesBucket (s t : Touchdb) (l : List Event) (i : ℕ) : Prop where
  finite : (seen t i).2 = none
  kept : ∀ E ∈ (seen s i).1, EntryKept s t E
  entries : (seen t i).1 = (seen s i).1 ∨
    ∃ E, (seen t i).1 = (seen s i).1 ++ [E] ∧ EntryStored s l E

/-- At every point of `touchdb_put`, all readers do. -/
def ReadersSafe (s : Touchdb) (k v : CStr) : Prop :=
  ∀ pre post, (touchdbPut k v).trace s = pre ++ post →
    ∀ i < s.map.bulkListCount.toInt.toNat, SeesBucket s (viewAt s pre) pre i

/-- Nothing that a reader follows differs from `s`. -/
structure Unmoved (B : ℕ) (s : Touchdb) (ix : Index) (t : Touchdb) : Prop where
  base : t.base 0 = s.base 0
  map : t.map = s.map
  header : ∀ i < ix.count, t.field (B + ix.tbl) (bulkField i MapBulk.header) =
    s.field (B + ix.tbl) (bulkField i MapBulk.header)
  links : ∀ e ∈ ix.entries, SameLinks B s t e.blk

/-- A guard that lets no reader notice. -/
def unmoved (B : ℕ) (s : Touchdb) (ix : Index) : Guard Stop Event :=
  ⟨fun _ => True, fun e => ∀ t, e.after = some t → Unmoved B s ix t⟩

section View
variable {B : ℕ} {s t : Touchdb} {a a' : PoolAlloc} {ix : Index} {e : MapNode} {T : List ℕ}
variable {l : List Event} {i : ℕ}

theorem SameLinks.field {α : Type} [Layout α] {f : Field α} {blk : ℕ} (h : SameLinks B s t blk)
    (hf : f.off + size α ≤ MapEntry.val.off) : t.field (B + blk) f = s.field (B + blk) f := by
  refine field_congr fun j hj => ?_
  rw [Nat.add_assoc (B + blk)]
  exact h _ (by omega)

theorem Unmoved.refl (B : ℕ) (s : Touchdb) (ix : Index) : Unmoved B s ix s :=
  ⟨rfl, rfl, fun _ _ => rfl, fun _ _ _ _ => rfl⟩

theorem Unmoved.of_frame (hm : MapRep B s a ix) (hF : Frame B s a t a' T) (h0 : mapRecord ∉ T)
    (htbl : ix.tbl ∉ T) (hl : ∀ e ∈ ix.entries, e.blk ∈ T → SameLinks B s t e.blk) :
    Unmoved B s ix t where
  base := hF.base
  map := hF.map h0
  header i hi := hF.field htbl hm.table (bulkField_le hi (by decide))
  links e he := by
    by_cases hT : e.blk ∈ T
    · exact hl e he hT
    · intro j hj
      have hj' : j < mapEntrySize := Nat.lt_trans hj (by decide)
      exact hF.mem hT (hm.entry e he).blk hj'


/-- The state that an event leaves, where nobody can notice it. -/
theorem QuietEvent.frame {ev : Event} (h : QuietEvent B s a T ev) (ht : ev.after = some t) :
    Frame B s a t a T := by
  cases ev with
  | store p n u =>
    obtain rfl : u = t := Option.some.inj ht
    exact h.1
  | assign u =>
    obtain rfl : u = t := Option.some.inj ht
    exact h
  | translate x => exact h.elim

theorem reads_unmoved : Reads (unmoved B s ix) := fun _ _ _ t ht => by cases ht

theorem lets_unmoved (hm : MapRep B s a ix) : Lets (unmoved B s ix) B s a [] :=
  ⟨fun _ hev _ ht => .of_frame hm (hev.frame ht) (by simp) (by simp) (by simp), reads_unmoved⟩

theorem valLets_unmoved (hm : MapRep B s a ix) (he : e ∈ ix.entries) :
    ValLets (unmoved B s ix) B s a e.blk := by
  refine ⟨fun _ hev hl t ht => .of_frame hm (hev.frame ht) ?_ ?_ fun d _ hd' => ?_, reads_unmoved⟩
  · have hb := (hm.entry e he).blk.bounds
    simp only [List.mem_singleton, mapRecord]
    omega
  · simpa using (Index.blk_ne_tbl he).symm
  · rw [List.mem_singleton.mp hd']
    exact hl t ht

variable (h : Heap B s a) (hm : MapRep B s a ix)
include h hm

theorem bulkAt_eq (f : Field TouchdbAddr) (hbase : t.base 0 = s.base 0) (hmap : t.map = s.map) :
    t.field (bulkAt t i) f = t.field (B + ix.tbl) (bulkField i f) := by
  have hoff : (addrOf ix.tbl).offset.toNat = ix.tbl := addrOf_offset hm.table.lt
  have hbase' : t.base 0 = B := hbase.trans h.base_eq
  unfold bulkAt
  rw [hbase', hmap, hm.bulkList, hoff]
  simp only [Touchdb.field, bulkField, Nat.add_assoc]

/-- The walk through a bucket whose header and links are as in `s`. -/
theorem Unmoved.seen (hu : Unmoved B s ix t) (hi : i < ix.count) :
    seen t i = ((ix.bucket i).map MapNode.blk, none) := by
  have hb := hm.bucket i hi
  have hbase : t.base 0 = B := hu.base.trans h.base_eq
  have hlen : ((ix.bucket i).map MapNode.blk).length ≤ walkRounds := by
    have h1 : (ix.bucket i).length ≤ ix.entries.length := List.length_filter_le _ _
    have h2 := hm.length_lt
    rw [List.length_map]
    omega
  have hnext : Linked (nextOf B t) ((ix.bucket i).map MapNode.blk) := by
    refine hb.next.congr fun o ho => ?_
    obtain ⟨d, hd, rfl⟩ := List.mem_map.mp ho
    exact congrArg linkOf ((hu.links d (Index.mem_bucket.mp hd).1).field (by decide))
  unfold TouchDb.seen
  rw [bulkAt_eq h hm _ hu.base hu.map, hu.header i hi, hb.header, hbase]
  exact hnext.walk_of_le hlen

theorem Unmoved.sees (hu : Unmoved B s ix t) (hi : i < ix.count) : SeesBucket s t l i := by
  have hs := (Unmoved.refl B s ix).seen h hm hi
  have ht := hu.seen h hm hi
  refine ⟨by rw [ht], fun E hE => ?_, .inl (by rw [ht, hs])⟩
  rw [hs] at hE
  obtain ⟨d, hd, rfl⟩ := List.mem_map.mp hE
  have hl := hu.links d (Index.mem_bucket.mp hd).1
  rw [h.base_eq.symm] at hl
  exact ⟨hl.field (by decide), hl.field (by decide)⟩

/-- Readers are safe from stores that move nothing. -/
theorem readersSafe_of_unmoved {k v : CStr}
    (hq : ∀ ev ∈ (touchdbPut k v).trace s, ∀ t, ev.after = some t → Unmoved B s ix t) :
    ReadersSafe s k v := by
  intro pre post hpre i hi
  rw [hm.count_toInt, Int.toNat_natCast] at hi
  rcases viewAt_cases s pre with hv | ⟨ev, hev, ht⟩
  · rw [hv]
    exact (Unmoved.refl B s ix).sees h hm hi
  · exact (hq ev (by rw [hpre]; exact List.mem_append_left _ hev) _ ht).sees h hm hi

end View

section Overwrite
variable {B : ℕ} {s : Touchdb} {a : PoolAlloc} {ix : Index} {k v : Text}

/-- An overwrite moves no link. -/
theorem readersSafe_overwrite {e : MapNode} (h : Heap B s a) (hm : MapRep B s a ix)
    (hk : ix.find k.1 = some e) : ReadersSafe s k.1 v.1 := by
  have he := (Index.find_eq_some.mp hk).1
  have hl := valLets_unmoved hm he
  refine readersSafe_of_unmoved h hm (wp_trace (G := unmoved B s ix) (Q := fun _ _ => True) ?_)
  refine wp_touchdbMapPut_found h hm reads_unmoved hk ?_
  by_cases ht : (s.field (B + e.blk) MapEntry.val).type = .str
  · exact wp_mapPutOverwrite_str h hm he hl (.of_stops trivial _ _) v.2 ht fun _ _ _ _ _ _ _ _ => trivial
  · exact wp_mapPutOverwrite_other h hm he hl (.of_stops trivial _ _) v.2 ht fun _ _ _ _ _ _ => trivial

end Overwrite

section Insert
variable {B : ℕ} {s t u : Touchdb} {a a' a₁ : PoolAlloc} {ix : Index} {k v : Text} {E : ℕ}
variable {T : List ℕ} {l : List Event} {x : TouchdbAddr}

/-- A guard that allows nothing but translations of addresses. -/
def reading : Guard Stop Event := ⟨fun _ => False, fun e => ∃ x, e = .translate x⟩

theorem reads_reading : Reads reading := fun _ _ _ => ⟨_, rfl⟩

/-- A guard that allows no store to the next link of the entry at `E`. -/
def sparing (B E : ℕ) : Guard Stop Event :=
  ⟨fun _ => True, fun e => ∀ p n t, e = .store p n t → p + n ≤ B + E + 8 ∨ B + E + 16 ≤ p⟩

theorem lets_sparing (h : Owns a E mapEntrySize) : Lets (sparing B E) B s a [] := by
  refine ⟨fun e he p n t ht => ?_, fun _ _ _ p n t ht => by cases ht⟩
  subst ht
  obtain ⟨c, hc, hle⟩ := h
  have h1 := he.2 E (by simp) c hc
  simp only [mapEntrySize] at hle
  omega

theorem wp_store_sparing {α : Type} [Layout α] {f : Field α} {w : α} {Q : Unit → Touchdb → Prop}
    (h : Heap B t a) (hE : Owns a E mapEntrySize) (hf : 16 ≤ f.off)
    (hs : f.off + size α ≤ mapEntrySize) (hQ : ∀ u, Heap B u a → Q () u) :
    wp (sparing B E) (store (B + E) f w) Q t := by
  refine wp_storeCell h hE hs (fun p n t ht => ?_) fun hu _ => hQ _ hu
  obtain ⟨rfl, rfl, -⟩ := Event.store.inj ht
  omega

theorem wp_mallocAt_sparing {f : Field TouchdbAddr} {n : ℕ} {Q : ℕ → Touchdb → Prop}
    (h : Heap B t a) (hE : Owns a E mapEntrySize) (hf : 16 ≤ f.off) (hs : f.off + 8 ≤ mapEntrySize)
    (h1 : 1 ≤ n) (h2 : n ≤ 2 ^ 20)
    (hQ : ∀ o a' u, Handed a n o a' → Heap B u a' → Owns a' E mapEntrySize → Q (B + o) u) :
    wp (sparing B E) (touchdbMallocAt (B + E) f n) Q t := by
  have hB := h.base_pos'
  unfold touchdbMallocAt
  refine wp_bind (wp_touchdbMalloc h h1 h2 (fun _ => trivial)
    (fun _ _ ho e he => (lets_sparing (ho.keep hE)).quiet e he) fun o a' u ho hu _ => ?_)
  have hE' := ho.keep hE
  refine wp_bind (wp_store_shift (by omega) (wp_store_sparing hu hE' (by simp; omega)
    (by simp; omega) fun u₁ hu₁ => ?_))
  refine wp_bind (wp_store_shift (by omega) (wp_store_sparing hu₁ hE' (by simp; omega)
    (by simp; omega) fun u₂ hu₂ => wp_pure (hQ o a' u₂ ho hu₂ hE')))

theorem wp_storeBytes_sparing {o : ℕ} {bs : List UInt8} {Q : Unit → Touchdb → Prop} (h : Heap B t a)
    (hE : Owns a E mapEntrySize) (ho : Owns a o bs.length) (hne : o ≠ E)
    (hQ : ∀ u, Heap B u a → Q () u) : wp (sparing B E) (storeBytes (B + o) bs) Q t := by
  refine wp_storeBytesAt h ho (Nat.le_refl _) (fun p n t ht => ?_) fun hu _ => hQ _ hu
  obtain ⟨rfl, rfl, -⟩ := Event.store.inj ht
  have h1 := ho.disjoint hE hne
  simp only [mapEntrySize] at h1
  omega

/-- The next link of a new entry is not stored before the entry is linked. -/
theorem wp_newEntry_sparing (h : Heap B s a) (hE : Handed a mapEntrySize E a₁) :
    wp (sparing B E) (newEntry (hash (hashCode k.1)) k.1 v.1) (fun _ _ => True) s := by
  have hB := h.base_pos'
  unfold newEntry
  refine wp_bind (wp_touchdbMalloc h (by decide) (by decide) (fun _ => trivial)
    (fun o a' ho e he => ?_) fun o a' t ho ht _ => ?_)
  · obtain rfl := hE.unique ho
    exact (lets_sparing (ho.owns (by decide))).quiet e he
  obtain rfl := hE.unique ho
  have hO : Owns a' o mapEntrySize := ho.owns (by decide)
  refine wp_bind (wp_store_sparing ht hO (by decide) (by decide) fun t₁ ht₁ => ?_)
  refine wp_bind (wp_mallocAt_sparing ht₁ hO (by decide) (by decide) (by omega) k.2
    fun K a₂ t₂ hK ht₂ hO₂ => ?_)
  rw [touchdbMallocAt_shift]
  refine wp_bind (wp_mallocAt_sparing ht₂ hO₂ (by decide) (by decide) (by omega) v.2
    fun V a₃ t₃ hV ht₃ hO₃ => ?_)
  have hKO : Owns a₂ K (k.1.strlen + 1) := hK.owns (by omega)
  have hVO : Owns a₃ V (v.1.strlen + 1) := hV.owns (by omega)
  refine wp_bind (wp_storeBytes_sparing ht₃ hO₃ ((hV.keep hKO).mono (by simp)) (hO.ne hK.fresh).symm
    fun t₄ ht₄ => ?_)
  refine wp_bind (wp_storeBytes_sparing ht₄ hO₃ (hVO.mono (by simp)) (hO₂.ne hV.fresh).symm
    fun t₅ ht₅ => ?_)
  exact wp_bind (wp_store_shift (by omega) (wp_store_sparing ht₅ hO₃ (by decide) (by decide)
    fun _ _ => wp_pure trivial))

/-- The events `l` end with a store after which readers of bucket `i` meet the entry at `E`,
whose next link has not been stored. -/
def Exposes (B E i : ℕ) (s : Touchdb) (l : List Event) : Prop :=
  (∀ e ∈ l, (sparing B E).emits e) ∧ ∃ r p n t, l = r ++ [.store p n t] ∧ t.base 0 = s.base 0 ∧
    t.map = s.map ∧ E ∈ (seen t i).1

theorem Exposes.append {i : ℕ} (hl : ∀ e ∈ l, (sparing B E).emits e) {r : List Event}
    (h : Exposes B E i s r) : Exposes B E i s (l ++ r) := by
  obtain ⟨h1, r, p, n, t, rfl, h2⟩ := h
  refine ⟨fun e he => (List.mem_append.mp he).elim (hl e) (h1 e), l ++ r, p, n, t, ?_, h2⟩
  rw [List.append_assoc]

theorem mem_seen_of_header {i : ℕ} (h : Heap B s a) (hm : MapRep B s a ix)
    (hbase : t.base 0 = s.base 0) (hmap : t.map = s.map)
    (hh : linkOf (t.field (B + ix.tbl) (bulkField i MapBulk.header)) = some E) :
    E ∈ (seen t i).1 := by
  unfold seen
  rw [bulkAt_eq h hm _ hbase hmap, hh]
  exact Linked.mem_walk_head (by unfold walkRounds touchdbDefaultPoolSize; omega)

theorem mem_seen_of_last {i : ℕ} (h : Heap B s a) (hm : MapRep B s a ix) (hi : i < ix.count)
    (hne : (ix.bucket i).map MapNode.blk ≠ []) (hbase : t.base 0 = s.base 0) (hmap : t.map = s.map)
    (hh : t.field (B + ix.tbl) (bulkField i MapBulk.header) =
      s.field (B + ix.tbl) (bulkField i MapBulk.header))
    (hlast : ∀ y, ((ix.bucket i).map MapNode.blk).getLast? = some y → nextOf B t y = some E)
    (hkeep : ∀ y ∈ (ix.bucket i).map MapNode.blk, ((ix.bucket i).map MapNode.blk).getLast? ≠ some y →
      nextOf B t y = nextOf B s y) : E ∈ (seen t i).1 := by
  have hb := hm.bucket i hi
  have hlen : ((ix.bucket i).map MapNode.blk).length < walkRounds := by
    have h1 : (ix.bucket i).length ≤ ix.entries.length := List.length_filter_le _ _
    have h2 := hm.length_lt
    rw [List.length_map]
    omega
  unfold seen
  rw [bulkAt_eq h hm _ hbase hmap, hh, hb.header, hbase, h.base_eq]
  exact hb.next.mem_walk (ix.bucket_nodup i) hne hlen hlast hkeep

/-- The entry is seen as soon as the bucket or its old last entry points to it. -/
theorem linkEntry_exposes {K : ℕ} (h : Heap B u a) (hm : MapRep B u a ix)
    (he : EntryRep B u a ⟨E, k.1, K⟩) (hE : E ∉ ix.blocks) :
    Passes (linkEntry (B + ix.tbl + sizeofMapBulk * ix.bucketOf k.1) (B + E) (addrOf E)) u
      (Exposes B E (ix.bucketOf k.1) u) := by
  have hB := h.base_pos'
  have hi := ix.bucketOf_lt k.1
  have hbk := hm.bucket _ hi
  have hEO : Owns a E mapEntrySize := he.blk
  have hEb := hEO.bounds
  have hET : E ≠ ix.tbl := fun hc => hE (hc ▸ ix.tbl_mem)
  have hlE : linkOf (addrOf E) = some E := linkOf_addrOf hEO.lt (by omega)
  -- stores to the bucket keep off the new entry
  have hspare {α : Type} [Layout α] {f : Field α} {w : Touchdb}
      (hf : f.off + size α ≤ sizeofMapBulk) : (sparing B E).emits
        (.store (B + ix.tbl + (bulkField (ix.bucketOf k.1) f).off) (size α) w) := by
    intro p n t ht
    obtain ⟨rfl, rfl, -⟩ := Event.store.inj ht
    have h1 := hEO.disjoint hm.table hET
    have h2 := bulkField_le (f := f) hi hf
    simp only [mapEntrySize] at h1
    omega
  unfold linkEntry
  refine .bind (loadBulk_ok h hm.table hi (by decide)) (.left ?_)
  rw [hbk.size]
  by_cases hne : (ix.bucket (ix.bucketOf k.1)).map MapNode.blk = []
  · rw [if_pos (by rw [hne]; rfl)]
    have hs₁ := storeBulk_ok (f := MapBulk.tail) (v := addrOf E) h hm.table hi (by decide)
    have hk : (bulkField (ix.bucketOf k.1) MapBulk.tail).off + (enc (addrOf E)).length ≤
        sizeofMapBulk * ix.count := by
      rw [enc_length]
      exact bulkField_le hi (by decide)
    have h₁ := (h.write hm.table hk).1
    refine .bind hs₁ (.bind (storeBulk_ok h₁ hm.table hi (by decide)) (.here ⟨?_, [_], _, _, _, rfl,
      rfl, rfl, ?_⟩))
    · intro e he
      simp only [List.nil_append, List.append_nil, List.cons_append, List.mem_cons,
        List.not_mem_nil, or_false] at he
      rcases he with rfl | rfl
      · exact hspare (by decide)
      · exact hspare (by decide)
    · refine mem_seen_of_header h hm rfl rfl ?_
      rw [field_write_same, hlE]
  · have h0 : Int32.ofNat ((ix.bucket (ix.bucketOf k.1)).map MapNode.blk).length ≠ 0 := by
      rw [Ne, Words.ofNat_eq_zero (hm.bucket_length_lt _)]
      simpa using hne
    obtain ⟨y, hy⟩ : ∃ y, ((ix.bucket (ix.bucketOf k.1)).map MapNode.blk).getLast? = some y :=
      ⟨_, List.getLast?_eq_some_getLast hne⟩
    obtain ⟨d, hd, rfl, -⟩ := mem_of_last hy
    have hdO := (hm.entry d hd).blk
    have hdE : E ≠ d.blk := fun hc => hE (hc ▸ Index.blk_mem hd)
    have htail : u.field (B + ix.tbl) (bulkField (ix.bucketOf k.1) MapBulk.tail) = addrOf d.blk :=
      linkOf_eq_some (hbk.tail.trans hy) hdO.lt
    rw [if_neg h0]
    refine .bind (loadBulk_ok h hm.table hi (by decide)) ?_
    rw [htail]
    obtain ⟨p, u', l, hp, hl, rfl, rfl⟩ := wp_ends (G := reading) (Q := fun p t => t = u ∧ p = B + d.blk)
      (wp_ptrOfOwned h reads_reading hdO ⟨rfl, rfl⟩) fun _ h => h
    refine .bind hp (.bind (h.store_ok hdO (by decide)) (.here ⟨?_, l, _, _, _, rfl, rfl, rfl, ?_⟩))
    · intro e he p n t ht
      simp only [List.nil_append, List.append_nil, List.mem_append, List.mem_singleton] at he
      rcases he with he | rfl
      · obtain ⟨x, rfl⟩ := hl e he
        cases ht
      · obtain ⟨rfl, rfl, -⟩ := Event.store.inj ht
        have h1 := hEO.disjoint hdO hdE
        simp only [mapEntrySize, size_addr] at h1 ⊢
        omega
    · have hw {α : Type} [Layout α] {f : Field α} {o n : ℕ} (ho : Owns a o n)
          (hf : f.off + size α ≤ n) (hod : o ≠ d.blk) :
          (u'.write (B + d.blk + MapEntry.next.off) (enc (addrOf E))).field (B + o) f =
            u'.field (B + o) f := field_write_other hdO ho hod (by simp [mapEntrySize]) hf
      refine mem_seen_of_last h hm hi hne rfl rfl (hw hm.table (bulkField_le hi (by decide))
        (Index.blk_ne_tbl hd).symm) (fun y hy' => ?_) fun y hy' hlast => ?_
      · obtain rfl : d.blk = y := Option.some.inj (hy.symm.trans hy')
        unfold nextOf
        rw [field_write_same, hlE]
      · obtain ⟨d', hd', rfl⟩ := List.mem_map.mp hy'
        refine congrArg linkOf (hw (hm.entry d' (Index.mem_bucket.mp hd').1).blk (by decide)
          fun hc => hlast ?_)
        rw [hc]
        exact hy

/-- What the creation of an entry leaves. -/
theorem newEntry_created {p : ℕ} (h : Heap B s a)
    (hc : newEntry (hash (hashCode k.1)) k.1 v.1 s = .ok ((p, x), u, l)) :
    ∃ E K a', p = B + E ∧ x = addrOf E ∧ a.payload E = none ∧ Heap B u a' ∧ Frame B s a u a' [] ∧
      EntryRep B u a' ⟨E, k.1, K⟩ ∧ ∀ e ∈ l, (sparing B E).emits e := by
  have hw := wp_newEntry (k := k.1) (v := v.1) (G := served) (T := []) (Q := fun r u =>
      ∃ E K a₁ a', r = (B + E, addrOf E) ∧ Handed a mapEntrySize E a₁ ∧ Heap B u a' ∧
        Frame B s a u a' [] ∧ EntryRep B u a' ⟨E, k.1, K⟩)
    (Work.start h) (.of_all fun _ => trivial) (.of_stops rfl _ _) k.2 v.2
    fun E K V a₁ a₂ a' u hE hK hV hw hF he hval hh => ⟨E, K, a₁, a', rfl, hE, hw.heap, hF, he⟩
  obtain ⟨E, K, a₁, a', hr, hE, hu, hF, he⟩ := (wp_elim hw hc).2
  obtain ⟨rfl, rfl⟩ := Prod.mk.inj hr
  exact ⟨E, K, a', rfl, rfl, hE.fresh, hu, hF, he, (wp_elim (wp_newEntry_sparing h hE) hc).1⟩

/-- `touchdb_map_put` from the creation of the entry on. -/
def mapPutInsert (bulk : ℕ) (k v : CStr) : M ℕ := do
  let (entry, newAddr) ← newEntry (hash (hashCode k)) k v
  linkEntry bulk entry newAddr
  return NULL

/-- Until then it only reads, where the key is new. -/
theorem touchdbPut_absent (h : Heap B s a) (hm : MapRep B s a ix) (hk : ix.find k.1 = none) :
    ∃ l, (∀ e ∈ l, reading.emits e) ∧
      (touchdbPut k.1 v.1).next s =
        (mapPutInsert (B + ix.tbl + sizeofMapBulk * ix.bucketOf k.1) k.1 v.1).next s ∧
      (touchdbPut k.1 v.1).trace s =
        l ++ (mapPutInsert (B + ix.tbl + sizeofMapBulk * ix.bucketOf k.1) k.1 v.1).trace s := by
  obtain ⟨_, t, l₁, h₁, hl₁, rfl, rfl⟩ := wp_ends (Q := fun p t => t = s ∧
    p = B + ix.tbl + sizeofMapBulk * ix.bucketOf k.1) (wp_bulkFor h hm reads_reading ⟨rfl, rfl⟩)
    fun _ h => h
  obtain ⟨_, _, l₂, h₂, hl₂, rfl, rfl⟩ := wp_ends (Q := fun p t' => t' = t ∧ p = NULL)
    (wp_findEntry (k := k.1) h hm reads_reading (by rw [hk]; exact ⟨rfl, rfl⟩)) fun _ h => h
  refine ⟨l₁ ++ l₂, fun e he => (List.mem_append.mp he).elim (hl₁ e) (hl₂ e), ?_, ?_⟩
  · exact (next_bind h₁).trans (next_bind h₂)
  · rw [List.append_assoc]
    exact (trace_bind h₁).trans (congrArg (l₁ ++ ·) (trace_bind h₂))

/-- A put that has created an entry links it, and returns. -/
theorem linkEntry_ends {K : ℕ} (h : Heap B u a) (hm : MapRep B u a ix)
    (he : EntryRep B u a ⟨E, k.1, K⟩) (hE : E ∉ ix.blocks) :
    ∃ t, (linkEntry (B + ix.tbl + sizeofMapBulk * ix.bucketOf k.1) (B + E) (addrOf E) >>= fun _ =>
      pure NULL : M ℕ).next u = .ok t := by
  have hw := wp_linkEntry (T := E :: mapRecord :: ix.tbl :: ix.entries.map MapNode.blk)
    (G := anyEvent) (Q := fun _ _ => True) (.start h) (.of_all fun _ => trivial) hm he hE
    (.inl List.mem_cons_self) (fun o ho => .inl (List.mem_cons_of_mem _ ho)) fun _ _ _ => trivial
  obtain ⟨_, t, ht, -⟩ := next_ends (Q := fun _ _ => True)
    (wp_bind (wp_mono hw fun _ _ _ => wp_pure (a := NULL) trivial)) fun _ h => h
  exact ⟨t, ht⟩

/-- A put that creates no entry is not noticed. -/
theorem readersSafe_unserved (h : Heap B s a) (hm : MapRep B s a ix) (hk : ix.find k.1 = none)
    (hr : ∀ t, (touchdbPut k.1 v.1).next s ≠ .ok t) : ReadersSafe s k.1 v.1 := by
  obtain ⟨l, hl, hnext, htrace⟩ := touchdbPut_absent (v := v) h hm hk
  have hw := wp_newEntry (k := k.1) (v := v.1) (Q := fun _ _ => True)
    (Work.start h) (lets_unmoved hm) (.of_stops trivial _ _) k.2 v.2
    fun _ _ _ _ _ _ _ _ _ _ _ _ _ _ _ => trivial
  rcases hc : newEntry (hash (hashCode k.1)) k.1 v.1 s with ⟨e, l₁⟩ | ⟨⟨p, x⟩, u, l₁⟩
  · refine readersSafe_of_unmoved h hm fun ev hev t ht => ?_
    rw [htrace] at hev
    rcases List.mem_append.mp hev with hev | hev
    · obtain ⟨x, rfl⟩ := hl ev hev
      cases ht
    · have hev₁ : ev ∈ l₁ := by rwa [mapPutInsert, trace_bind_error hc] at hev
      exact ((wp_error hc).mp hw).1 ev hev₁ t ht
  · obtain ⟨E, K, a', rfl, rfl, hE, hu, hF, he, -⟩ := newEntry_created h hc
    obtain ⟨t, ht⟩ := linkEntry_ends hu (hm.frame hF (by simp) (by simp)) he
      fun hc => (hm.owns hc).ne_none hE
    exact absurd (hnext.trans ((next_bind hc).trans ht)) (hr t)

/-- A put that creates an entry shows it to readers before it has stored its next link. -/
theorem not_readersSafe_insert (h : Heap B s a) (hm : MapRep B s a ix) (hk : ix.find k.1 = none)
    (hr : (touchdbPut k.1 v.1).next s = .ok t) : ¬ ReadersSafe s k.1 v.1 := by
  obtain ⟨l, hl, hnext, htrace⟩ := touchdbPut_absent (v := v) h hm hk
  rcases hc : newEntry (hash (hashCode k.1)) k.1 v.1 s with ⟨e, l₁⟩ | ⟨⟨p, x⟩, u, l₁⟩
  · rw [hnext, mapPutInsert, next_bind_error hc] at hr
    cases hr
  · obtain ⟨E, K, a', rfl, rfl, hE, hu, hF, he, hl₁⟩ := newEntry_created h hc
    have hm' := hm.frame hF (by simp) (by simp)
    have hnew : E ∉ ix.blocks := fun hc => (hm.owns hc).ne_none hE
    have hlink : Passes (mapPutInsert (B + ix.tbl + sizeofMapBulk * ix.bucketOf k.1) k.1 v.1) s
        (Exposes B E (ix.bucketOf k.1) u) :=
      .bind hc (.left ((linkEntry_exposes hu hm' he hnew).mono fun r => .append hl₁))
    obtain ⟨pre, post, hpre, hexp⟩ := hlink
    have hl' : ∀ e ∈ l, (sparing B E).emits e := by
      rintro e he p n t rfl
      obtain ⟨x, hx⟩ := hl _ he
      cases hx
    obtain ⟨hspare, r, p, n, w, hrw, hbase, hmap, hsee⟩ := hexp.append hl'
    intro hsafe
    have hi : ix.bucketOf k.1 < s.map.bulkListCount.toInt.toNat := by
      rw [hm.count_toInt, Int.toNat_natCast]
      exact ix.bucketOf_lt k.1
    obtain ⟨-, -, hents⟩ := hsafe (l ++ pre) post (by rw [htrace, hpre, List.append_assoc]) _ hi
    rw [hrw, viewAt_store] at hents
    rw [(Unmoved.refl B s ix).seen h hm (ix.bucketOf_lt k.1)] at hents
    have hold : E ∉ (ix.bucket (ix.bucketOf k.1)).map MapNode.blk := fun hc => by
      obtain ⟨d, hd, rfl⟩ := List.mem_map.mp hc
      exact hnew (Index.blk_mem (Index.mem_bucket.mp hd).1)
    rcases hents with hs | ⟨E', hs, hst⟩
    · rw [hs] at hsee
      exact hold hsee
    · rw [hs] at hsee
      obtain rfl : E = E' := by
        rcases List.mem_append.mp hsee with hc | hc
        · exact absurd hc hold
        · exact List.mem_singleton.mp hc
      -- no store so far wrote the first byte of its next link
      obtain ⟨p', n', t', hmem, h1, h2⟩ := hst.next 0 (by decide)
      rw [← hrw] at hmem
      have h3 := hspare _ hmem p' n' t' rfl
      rw [h.base_eq] at h1 h2
      change p' ≤ B + E + 8 + 0 at h1
      change B + E + 8 + 0 < p' + n' at h2
      omega

end Insert

section Store
variable {B c : ℕ} {s t : Touchdb} {a : PoolAlloc} {ix : Index} {ops : List MapOp} {k v : Text}

theorem putSizes_le (k v : Text) :
    ∀ n ∈ [mapEntrySize, k.1.strlen + 1, v.1.strlen + 1], n ≤ 2 ^ 20 := by
  simp only [List.forall_mem_cons, List.not_mem_nil, false_implies, implies_true, and_true]
  exact ⟨by decide, k.2, v.2⟩

/-- A put of a new key returns if and only if the pool has blocks for what it stores. -/
theorem put_returns_iff (h : Heap B s a) (hm : MapRep B s a ix) (hk : ix.find k.1 = none) :
    (∃ t, (touchdbPut k.1 v.1).next s = .ok t) ↔
      HasBlocks s 0 [mapEntrySize, k.1.strlen + 1, v.1.strlen + 1] := by
  rw [← h.serves_iff (G := anyEvent) (fun hs => hs) (putSizes_le k v)]
  constructor
  · rintro ⟨t, ht⟩
    have hw : wp served (touchdbPut k.1 v.1) (fun _ _ => ∃ E K V a₁ a₂ a',
        Handed a mapEntrySize E a₁ ∧ Handed a₁ (k.1.strlen + 1) K a₂ ∧
          Handed a₂ (v.1.strlen + 1) V a') s :=
      wp_touchdbMapPut_insert h hm (.of_all fun _ => trivial) (.of_stops rfl _ _) k.2 v.2 hk
        fun E K V a₁ a₂ a' _ _ hE hK hV _ _ _ => ⟨E, K, V, a₁, a₂, a', hE, hK, hV⟩
    rcases hc : touchdbPut k.1 v.1 s with ⟨e, l⟩ | ⟨p, u, l⟩
    · simp only [next, hc] at ht
      cases ht
    · obtain ⟨_, _, _, _, _, _, hE, hK, hV⟩ := (wp_elim hw hc).2
      rw [hE.serves_cons, hK.serves_cons, hV.serves_cons]
      trivial
  · intro hs
    obtain ⟨_, t, ht, -⟩ := next_ends (Q := fun _ _ => True) (wp_touchdbMapPut_insert h hm
      (.of_all fun _ => trivial) hs k.2 v.2 hk fun _ _ _ _ _ _ _ _ _ _ _ _ _ _ => trivial)
      fun _ h => h
    exact ⟨t, ht⟩

theorem StoreInv.readers_iff (h : StoreInv B c ops s a ix) :
    ReadersSafe s k.1 v.1 ↔ (∃ op ∈ ops, op.key = k.1) ∨
      ¬ HasBlocks s 0 [mapEntrySize, k.1.strlen + 1, v.1.strlen + 1] := by
  rw [← h.keys k.1]
  rcases hk : ix.find k.1 with _ | e
  · have hnot := Index.find_eq_none.mp hk
    rw [← put_returns_iff h.heap h.rep hk]
    constructor
    · rintro hs
      exact .inr fun ⟨t, ht⟩ => not_readersSafe_insert h.heap h.rep hk ht hs
    · intro hc
      exact readersSafe_unserved h.heap h.rep hk fun t ht => hc.resolve_left hnot ⟨t, ht⟩
  · obtain ⟨he, hek⟩ := Index.find_eq_some.mp hk
    exact ⟨fun _ => .inl (hek ▸ List.mem_map_of_mem he), fun _ => readersSafe_overwrite h.heap h.rep hk⟩

theorem StoreInv.hasBlocks (h : StoreInv B c ops s a ix)
    (hroom : c + opsRoom (ops ++ [.put k v]) ≤ touchdbDefaultPoolSize) :
    HasBlocks s 0 [mapEntrySize, k.1.strlen + 1, v.1.strlen + 1] := by
  have hsizes : opsRoom [.put k v] = roomFor [mapEntrySize, k.1.strlen + 1, v.1.strlen + 1] := by
    simp [opsRoom, MapOp.sizes]
  have hcur := h.cur
  rw [opsRoom_append, hsizes] at hroom
  refine (h.heap.serves_iff (G := anyEvent) (fun hs => hs) (putSizes_le k v)).mp (.of_room ?_)
  omega

end Store

/-- Readers never see an entry before its fields are stored if and only if the put has no
entry to link: its key was put before, or the pool lacks a block for what it stores. -/
theorem readersSafe_iff (f : NewFiles) (ops : List MapOp) (k v : Text) :
    Run.Post (fun e => e = .noBlock) (runNew f ops) fun s =>
      ReadersSafe s k.1 v.1 ↔ (∃ op ∈ ops, op.key = k.1) ∨
        ¬ HasBlocks s 0 [mapEntrySize, k.1.strlen + 1, v.1.strlen + 1] :=
  (runNew_inv f ops).mono fun _ ⟨_, _, h⟩ => h.readers_iff

/-- The block of an entry may be one that held a value: readers follow what is left of it. -/
theorem readersSafe_reuse_fails : ∃ s, runNew .page [.put (text 1 97) (text 39 120),
      .put (text 1 97) (text 39 121)] = .ok s ∧
    ¬ ReadersSafe s (text 1 98).1 (text 1 122).1 := by
  obtain ⟨s, hs, a, ix, h⟩ := runNew_ends .page [.put (text 1 97) (text 39 120),
    .put (text 1 97) (text 39 121)] (by decide)
  have hblocks := h.hasBlocks (k := text 1 98) (v := text 1 122) (by decide)
  refine ⟨s, hs, fun hsafe => ?_⟩
  rcases h.readers_iff.mp hsafe with ⟨op, hop, hk⟩ | hnot
  · simp only [List.mem_cons, List.not_mem_nil, or_false] at hop
    rcases hop with rfl | rfl
    · exact absurd hk (by decide)
    · exact absurd hk (by decide)
  · exact hnot hblocks

end TouchDb
