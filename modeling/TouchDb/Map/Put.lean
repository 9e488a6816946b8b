import TouchDb.Map.Search

/-! What `touchdb_map_put` and `touchdb_map_put2` do to the index. -/
namespace TouchDb
open Prog Layout

theorem touchdbMallocAt_shift (p k n : ℕ) (f : Field TouchdbAddr) :
    touchdbMallocAt (p + k) f n = touchdbMallocAt p ⟨k + f.off⟩ n := by
  simp only [touchdbMallocAt, Nat.add_assoc]

section New
variable {B : ℕ} {s t : Touchdb} {a a' : PoolAlloc} {T : List ℕ} {k v : CStr}
variable {G : Guard Stop Event}

/-- The entry that `touchdb_map_put` is about to link. -/
theorem wp_newEntry {Q : ℕ × TouchdbAddr → Touchdb → Prop} (h : Work B s a T t a')
    (hG : Lets G B s a T) (hr : Serves G a' [mapEntrySize, k.strlen + 1, v.strlen + 1])
    (hk : k.Fits) (hv : v.Fits)
    (hQ : ∀ E K V a₁ a₂ a'' u, Handed a' mapEntrySize E a₁ → Handed a₁ (k.strlen + 1) K a₂ →
      Handed a₂ (v.strlen + 1) V a'' → Work B s a T u a'' → Frame B t a' u a'' [] →
      EntryRep B u a'' ⟨E, k, K⟩ → u.field (B + E) MapEntry.val = ⟨.str, addrOf V⟩ →
      u.holds (B + V) v → Q (B + E, addrOf E) u) :
    wp G (newEntry (hash (hashCode k)) k v) Q t := by
  unfold newEntry
  refine wp_bind (h.wp_malloc hG hr (by decide) (by decide) fun E a₁ t₁ hE hw₁ hf₁ => ?_)
  have hmE := h.mine hE
  have hE₁ : Owns a₁ E mapEntrySize := hE.owns (by decide)
  have hB := h.heap.base_pos'
  refine wp_bind (hw₁.wp_store hG hmE hE₁ (by decide) fun hw₂ hf₂ => ?_)
  refine wp_bind (hw₂.wp_mallocAt hG (hr.2 _ _ hE) hmE hE₁ (by decide) (by omega) hk
    fun K a₂ t₃ hK hw₃ hf₃ hkey hkeep₃ => ?_)
  have hE₂ := hK.keep hE₁
  have hmK := hw₂.mine hK
  have hK₂ : Owns a₂ K (k.strlen + 1) := hK.owns (by omega)
  rw [touchdbMallocAt_shift]
  refine wp_bind (hw₃.wp_mallocAt hG ((hr.2 _ _ hE).2 _ _ hK) hmE hE₂ (by decide) (by omega) hv
    fun V a'' t₄ hV hw₄ hf₄ hval hkeep₄ => ?_)
  have hE₃ := hV.keep hE₂
  have hK₃ := hV.keep hK₂
  have hmV := hw₃.mine hV
  have hV₃ : Owns a'' V (v.strlen + 1) := hV.owns (by omega)
  have hEK : E ≠ K := hE₁.ne hK.fresh
  have hEV : E ≠ V := hE₂.ne hV.fresh
  have hKV : K ≠ V := hK₂.ne hV.fresh
  refine wp_bind (hw₄.wp_storeBytes hG hmK hK₃ (by simp) fun hw₅ hf₅ => ?_)
  refine wp_bind (hw₅.wp_storeBytes hG hmV hV₃ (by simp) fun hw₆ hf₆ => ?_)
  refine wp_bind (wp_store_shift (by omega) (hw₆.wp_store hG hmE hE₃ (by decide)
    fun hw₇ hf₇ => wp_pure ?_))
  have h6 {α : Type} [Layout α] (f : Field α) (hf : f.off + size α ≤ mapEntrySize) :
      (Touchdb.write (t₄.write (B + K) k.bytes) (B + V) v.bytes).field (B + E) f =
        t₄.field (B + E) f := by
    rw [hf₆.field (by simpa using hEV) hE₃ hf, hf₅.field (by simpa using hEK) hE₃ hf]
  have hholdK := hf₇.holds (by simpa using hEK.symm) hK₃
    (hf₆.holds (by simpa using hKV) hK₃ (holds_write t₄ (B + K) k))
  refine hQ E K V a₁ a₂ a'' _ hE hK hV hw₇ ?_ ⟨hE₃, hK₃, ?_, ?_, hholdK, V, ?_, ?_, ?_⟩ ?_
    (hf₇.holds (by simpa using hEV.symm) hV₃ (holds_write _ _ _))
  · refine ((((((hf₁.trans hf₂).trans hf₃).trans hf₄).trans hf₅).trans hf₆).trans hf₇).drop ?_
    intro x hx
    simp only [List.nil_append, List.mem_append, List.mem_singleton] at hx
    rcases hx with ((((rfl | rfl) | rfl) | rfl) | rfl) | rfl
    · exact hE.mine
    · exact hE.mine
    · exact hE.mine
    · exact .inr ⟨hK.ne_mapRecord, hE.fresh_of hK.fresh⟩
    · exact .inr ⟨hV.ne_mapRecord, hE.fresh_of (hK.fresh_of hV.fresh)⟩
    · exact hE.mine
  · rw [field_write_disjoint (.inl (by simp)), h6 _ (by decide), hkeep₄ _ (by decide) (by decide),
      hkeep₃ _ (by decide) (by decide), field_write_same]
  · rw [field_write_disjoint (.inl (by simp)), h6 _ (by decide), hkeep₄ _ (by decide) (by decide),
      hkey]
  · have := hV₃.bounds
    omega
  · have := hV₃.bounds
    omega
  · rw [field_write_disjoint (.inr (by simp [valueField])), h6 _ (by decide)]
    exact hval
  · rw [field_val]
    refine congrArg₂ _ ?_ ?_
    · exact field_write_same _ (B + E) (⟨MapEntry.val.off + Val.type.off⟩ : Field TouchdbValType) _
    · change Touchdb.field _ (B + E) valueField = _
      rw [field_write_disjoint (.inr (by simp [valueField])), h6 _ (by decide)]
      exact hval

/-- The entry that `touchdb_map_put2` is about to link; its value is the one at `q`. -/
theorem wp_newEntry2 {q : ℕ} {w : TouchdbVal} {Q : ℕ × TouchdbAddr → Touchdb → Prop}
    (h : Work B s a T t a') (hG : Lets G B s a T)
    (hr : Serves G a' [mapEntrySize, k.strlen + 1]) (hk : k.Fits) (hq : Owns a' q sizeofVal)
    (hqw : t.field (B + q) Val.all = w)
    (hw : ∃ o, 0 < o ∧ o ≤ touchdbDefaultPoolSize ∧ w.value = addrOf o)
    (hQ : ∀ E K a₁ a'' u, Handed a' mapEntrySize E a₁ → Handed a₁ (k.strlen + 1) K a'' →
      Work B s a T u a'' → Frame B t a' u a'' [] → EntryRep B u a'' ⟨E, k, K⟩ →
      u.field (B + E) MapEntry.val = w → Q (B + E, addrOf E) u) :
    wp G (newEntry2 (hash (hashCode k)) k (B + q)) Q t := by
  unfold newEntry2
  refine wp_bind (h.wp_malloc hG hr (by decide) (by decide) fun E a₁ t₁ hE hw₁ hf₁ => ?_)
  have hmE := h.mine hE
  have hE₁ : Owns a₁ E mapEntrySize := hE.owns (by decide)
  have hq₁ := hE.keep hq
  have hqE : q ≠ E := hq.ne hE.fresh
  refine wp_bind (hw₁.wp_store hG hmE hE₁ (by decide) fun hw₂ hf₂ => ?_)
  refine wp_bind (wp_loadCell hw₂.heap hq₁ (by decide) ?_)
  rw [hf₂.field (by simpa using hqE) hq₁ (by decide), hf₁.field (by simp) hq (by decide), hqw]
  refine wp_bind (hw₂.wp_store hG hmE hE₁ (by decide) fun hw₃ hf₃ => ?_)
  refine wp_bind (hw₃.wp_mallocAt hG (hr.2 _ _ hE) hmE hE₁ (by decide) (by omega) hk
    fun K a'' t₄ hK hw₄ hf₄ hkey hkeep₄ => ?_)
  have hE₂ := hK.keep hE₁
  have hmK := hw₃.mine hK
  have hK₂ : Owns a'' K (k.strlen + 1) := hK.owns (by omega)
  have hEK : E ≠ K := hE₁.ne hK.fresh
  refine wp_bind (hw₄.wp_storeBytes hG hmK hK₂ (by simp) fun hw₅ hf₅ => wp_pure ?_)
  have h5 {α : Type} [Layout α] (f : Field α) (hf : f.off + size α ≤ mapEntrySize) :
      (Touchdb.write t₄ (B + K) k.bytes).field (B + E) f = t₄.field (B + E) f :=
    hf₅.field (by simpa using hEK) hE₂ hf
  have hval : (Touchdb.write t₄ (B + K) k.bytes).field (B + E) MapEntry.val = w := by
    rw [h5 _ (by decide), hkeep₄ _ (by decide) (by decide), field_write_same]
  refine hQ E K a₁ a'' _ hE hK hw₅ ?_ ⟨hE₂, hK₂, ?_, ?_, holds_write t₄ (B + K) k, ?_⟩ hval
  · refine ((((hf₁.trans hf₂).trans hf₃).trans hf₄).trans hf₅).drop fun x hx => ?_
    simp only [List.nil_append, List.mem_append, List.mem_singleton] at hx
    rcases hx with ((rfl | rfl) | rfl) | rfl
    · exact hE.mine
    · exact hE.mine
    · exact hE.mine
    · exact .inr ⟨hK.ne_mapRecord, hE.fresh_of hK.fresh⟩
  · rw [h5 _ (by decide), hkeep₄ _ (by decide) (by decide), field_write_disjoint (.inl (by simp)),
      field_write_same]
  · rw [h5 _ (by decide), hkey]
  · obtain ⟨o, h0, h1, ho⟩ := hw
    refine ⟨o, h0, h1, ?_⟩
    rw [field_val] at hval
    exact (congrArg TouchdbVal.value hval).trans ho

end New

section Link
variable {B : ℕ} {s t u : Touchdb} {a a' : PoolAlloc} {T : List ℕ} {ix : Index} {e : MapNode}
variable {G : Guard Stop Event}

/-- The bytes that `linkEntry` may store: the record of the bucket, the links of the new
entry, and the next link of the old last one. -/
def linkRanges (B : ℕ) (ix : Index) (e : MapNode) : List (ℕ × ℕ) :=
  (B + ix.tbl + sizeofMapBulk * ix.bucketOf e.key, sizeofMapBulk) ::
    (B + e.blk, 16) ::
    (((ix.bucket (ix.bucketOf e.key)).map MapNode.blk).getLast?.map fun y => (B + y + 8, 8)).toList

/-- What `linkEntry` leaves in those bytes. -/
structure Linking (B : ℕ) (t u : Touchdb) (ix : Index) (e : MapNode) (q : List ℕ) : Prop where
  within : t.Within u (linkRanges B ix e)
  header : linkOf (u.field (B + ix.tbl) (bulkField (ix.bucketOf e.key) MapBulk.header)) =
    (q ++ [e.blk]).head?
  tail : linkOf (u.field (B + ix.tbl) (bulkField (ix.bucketOf e.key) MapBulk.tail)) = some e.blk
  size : u.field (B + ix.tbl) (bulkField (ix.bucketOf e.key) MapBulk.size) =
    Int32.ofNat (q.length + 1)
  next : nextOf B u e.blk = none
  prev : prevOf B u e.blk = q.getLast?
  last : ∀ y, q.getLast? = some y → nextOf B u y = some e.blk
  bulkList : u.map.bulkList = t.map.bulkList
  count : u.map.bulkListCount = t.map.bulkListCount
  mapSize : u.map.size = t.map.size + 1

theorem mem_linkRanges {r : ℕ × ℕ} : r ∈ linkRanges B ix e ↔
    r = (B + ix.tbl + sizeofMapBulk * ix.bucketOf e.key, sizeofMapBulk) ∨
    r = (B + e.blk, 16) ∨
    ∃ y, ((ix.bucket (ix.bucketOf e.key)).map MapNode.blk).getLast? = some y ∧
      r = (B + y + 8, 8) := by
  unfold linkRanges
  simp only [List.mem_cons, Option.mem_toList, Option.map_eq_some_iff, @eq_comm _ r]

/-- The record of a bucket lies in the table. -/
theorem Index.bulk_le (ix : Index) (k : CStr) :
    sizeofMapBulk * ix.bucketOf k + sizeofMapBulk ≤ sizeofMapBulk * ix.count := by
  have h := Nat.mul_le_mul_left sizeofMapBulk (ix.bucketOf_lt k)
  simpa [Nat.mul_add] using h

theorem mem_of_last {y : ℕ} {i : ℕ} (h : ((ix.bucket i).map MapNode.blk).getLast? = some y) :
    ∃ d ∈ ix.entries, d.blk = y ∧ ix.bucketOf d.key = i := by
  obtain ⟨d, hd, rfl⟩ := List.mem_map.mp (List.mem_of_getLast? h)
  obtain ⟨h1, h2⟩ := Index.mem_bucket.mp hd
  exact ⟨d, h1, rfl, h2⟩

/-- Linking touches the table, the new entry and the entries only. -/
theorem Linking.frame {q : List ℕ} (hL : Linking B t u ix e q) (h : MapRep B t a' ix)
    (he : EntryRep B t a' e) (hbase : u.base 0 = t.base 0) :
    Frame B t a' u a' (mapRecord :: ix.tbl :: e.blk :: ix.entries.map MapNode.blk) := by
  refine ⟨hbase, fun h0 => absurd List.mem_cons_self h0, fun _ _ _ h => h, fun o ho c hc i hi => ?_⟩
  simp only [List.mem_cons, not_or] at ho
  obtain ⟨-, hot, hoe, hob⟩ := ho
  have hO : Owns a' o c := ⟨c, hc, Nat.le_refl c⟩
  refine hL.within _ fun r hr => ?_
  rcases mem_linkRanges.mp hr with rfl | rfl | ⟨y, hy, rfl⟩
  · have h1 := hO.disjoint h.table hot
    have h2 := ix.bulk_le e.key
    dsimp only
    omega
  · have h1 := hO.disjoint he.blk hoe
    simp only [mapEntrySize] at *
    omega
  · obtain ⟨d, hd, rfl, -⟩ := mem_of_last hy
    have h1 := hO.disjoint (h.entry d hd).blk fun heq => hob (heq ▸ List.mem_map_of_mem hd)
    simp only [mapEntrySize] at *
    omega

/-- A field of an entry that linking leaves alone. -/
theorem Linking.field {α : Type} [Layout α] {f : Field α} {q : List ℕ} {d : MapNode}
    (hL : Linking B t u ix e q) (h : MapRep B t a' ix) (he : EntryRep B t a' e)
    (hb : e.blk ∉ ix.blocks) (hd : d ∈ ix.entries) (hf : f.off + Layout.size α ≤ mapEntrySize)
    (hn : ((ix.bucket (ix.bucketOf e.key)).map MapNode.blk).getLast? ≠ some d.blk ∨
      f.off + Layout.size α ≤ 8 ∨ 16 ≤ f.off) :
    u.field (B + d.blk) f = t.field (B + d.blk) f := by
  have hO := (h.entry d hd).blk
  refine hL.within.field fun r hr => ?_
  rcases mem_linkRanges.mp hr with rfl | rfl | ⟨y, hy, rfl⟩
  · have h1 := hO.disjoint h.table (Index.blk_ne_tbl hd)
    have h2 := ix.bulk_le e.key
    dsimp only
    omega
  · have h1 := hO.disjoint he.blk fun heq => hb (heq ▸ Index.blk_mem hd)
    simp only [mapEntrySize] at *
    omega
  · obtain ⟨d', hd', rfl, -⟩ := mem_of_last hy
    by_cases hdd : d.blk = d'.blk
    · rw [← hdd] at hy ⊢
      have h1 := hn.resolve_left fun hc => hc hy
      dsimp only
      omega
    · have h1 := hO.disjoint (h.entry d' hd').blk hdd
      simp only [mapEntrySize] at *
      omega

/-- A field of the new entry that linking leaves alone. -/
theorem Linking.newField {α : Type} [Layout α] {f : Field α} {q : List ℕ}
    (hL : Linking B t u ix e q) (h : MapRep B t a' ix) (he : EntryRep B t a' e)
    (hb : e.blk ∉ ix.blocks) (hf : 16 ≤ f.off) (hs : f.off + Layout.size α ≤ mapEntrySize) :
    u.field (B + e.blk) f = t.field (B + e.blk) f := by
  refine hL.within.field fun r hr => ?_
  rcases mem_linkRanges.mp hr with rfl | rfl | ⟨y, hy, rfl⟩
  · have h1 := he.blk.disjoint h.table fun heq => hb (heq ▸ ix.tbl_mem)
    have h2 := ix.bulk_le e.key
    dsimp only
    omega
  · exact .inr (by dsimp only; omega)
  · obtain ⟨d, hd, rfl, -⟩ := mem_of_last hy
    have h1 := he.blk.disjoint (h.entry d hd).blk fun heq => hb (heq ▸ Index.blk_mem hd)
    simp only [mapEntrySize] at *
    omega

/-- The index with the new entry linked in. -/
theorem MapRep.link (h : MapRep B t a' ix) (he : EntryRep B t a' e)
    (hk : e.key ∉ ix.entries.map MapNode.key) (hb : e.blk ∉ ix.blocks) (hkb : e.keyBlk ∉ ix.blocks)
    (hne : e.blk ≠ e.keyBlk) (hbase : u.base 0 = t.base 0)
    (hL : Linking B t u ix e ((ix.bucket (ix.bucketOf e.key)).map MapNode.blk)) :
    MapRep B u a' (ix.insert e hk hb hkb hne) := by
  have hF := hL.frame h he hbase
  have hkey {d : MapNode} (hd : d.keyBlk ∉ mapRecord :: ix.tbl :: e.blk :: ix.entries.map MapNode.blk)
      (hr : EntryRep B t a' d) : u.holds (B + d.keyBlk) d.key := hF.holds hd hr.keyBlk hr.holds
  refine ⟨h.table, hL.bulkList.trans h.bulkList, hL.count.trans h.count, ?_, fun d hd => ?_,
    fun i hi => ?_⟩
  · rw [hL.mapSize, h.size]
    simp [Index.insert]
  · rcases List.mem_append.mp hd with hd | hd
    · have hr := h.entry d hd
      have hf {α : Type} [Layout α] (f : Field α) (hf : 16 ≤ f.off)
          (hs : f.off + Layout.size α ≤ mapEntrySize) :
          u.field (B + d.blk) f = t.field (B + d.blk) f :=
        hL.field h he hb hd hs (.inr (.inr hf))
      refine ⟨hr.blk, hr.keyBlk, ?_, ?_, hkey ?_ hr, ?_⟩
      · rw [hf _ (by decide) (by decide)]
        exact hr.hash
      · rw [hf _ (by decide) (by decide)]
        exact hr.key
      · have h1 := ix.apart
        simp only [List.nodup_cons, List.nodup_append, List.mem_append, not_or] at h1
        have h2 := hr.keyBlk.bounds
        simp only [List.mem_cons, not_or, mapRecord]
        refine ⟨by omega, fun hc => h1.1.2 (hc ▸ List.mem_map_of_mem hd), fun hc => hb (hc ▸
          Index.keyBlk_mem hd), fun hc => h1.2.2.2 _ hc _ (List.mem_map_of_mem hd) rfl⟩
      · rw [hf _ (by decide) (by decide)]
        exact hr.value
    · rw [List.mem_singleton.mp hd]
      refine ⟨he.blk, he.keyBlk, ?_, ?_, hkey ?_ he, ?_⟩
      · rw [hL.newField h he hb (by decide) (by decide)]
        exact he.hash
      · rw [hL.newField h he hb (by decide) (by decide)]
        exact he.key
      · have h2 := he.keyBlk.bounds
        simp only [List.mem_cons, not_or, mapRecord]
        refine ⟨by omega, fun hc => hkb (hc ▸ ix.tbl_mem), hne.symm, fun hc => ?_⟩
        obtain ⟨d, hd, hc⟩ := List.mem_map.mp hc
        exact hkb (hc ▸ Index.blk_mem hd)
      · rw [hL.newField h he hb (by decide) (by decide)]
        exact he.value
  · rw [Index.bucket_insert]
    change BucketRep B u ix.tbl i _
    change i < ix.count at hi
    by_cases hi' : ix.bucketOf e.key = i
    · subst hi'
      have hbk := h.bucket _ hi
      rw [if_pos rfl, List.map_append]
      refine ⟨hL.header, ?_, ?_, ?_, ?_, fun hc => ?_⟩
      · rw [hL.tail]
        simp
      · rw [hL.size]
        simp
      · refine hbk.next.snoc (ix.bucket_nodup _) hL.next hL.last fun o ho hlast => ?_
        obtain ⟨d, hd, rfl⟩ := List.mem_map.mp ho
        rw [nextOf, hL.field h he hb (Index.mem_bucket.mp hd).1 (by decide) (.inl hlast)]
        rfl
      · rw [List.map_singleton, List.reverse_append, List.reverse_singleton, List.singleton_append]
        refine ⟨by rw [List.head?_reverse]; exact hL.prev, hbk.prev.congr fun o ho => ?_⟩
        obtain ⟨d, hd, rfl⟩ := List.mem_map.mp (List.mem_reverse.mp ho)
        rw [prevOf, hL.field h he hb (Index.mem_bucket.mp hd).1 (by decide) (.inr (.inl (by decide)))]
        rfl
      · simp at hc
    · rw [if_neg hi', List.append_nil]
      refine (h.bucket i hi).congr (fun f hf => ?_) (fun o ho => ?_) fun o ho => ?_
      · refine hL.within.field fun r hr => ?_
        have h1 := bulkField_le hi hf
        simp only [bulkField] at h1 ⊢
        rcases mem_linkRanges.mp hr with rfl | rfl | ⟨y, hy, rfl⟩
        · -- two records of the table
          rcases Nat.lt_or_gt_of_ne hi' with h2 | h2
          · have h3 := Nat.mul_le_mul_left sizeofMapBulk h2
            simp only [Nat.succ_eq_add_one, Nat.mul_add, Nat.mul_one] at h3
            exact .inr (by dsimp only; omega)
          · have h3 := Nat.mul_le_mul_left sizeofMapBulk h2
            simp only [Nat.succ_eq_add_one, Nat.mul_add, Nat.mul_one] at h3
            exact .inl (by dsimp only; omega)
        · have h3 := h.table.disjoint he.blk fun heq => hb (heq ▸ ix.tbl_mem)
          simp only [mapEntrySize] at *
          omega
        · obtain ⟨d, hd, rfl, -⟩ := mem_of_last hy
          have h3 := h.table.disjoint (h.entry d hd).blk (Index.blk_ne_tbl hd).symm
          simp only [mapEntrySize] at *
          omega
      · obtain ⟨d, hd, rfl⟩ := List.mem_map.mp ho
        obtain ⟨hd, hdi⟩ := Index.mem_bucket.mp hd
        refine congrArg linkOf (hL.field h he hb hd (by decide) (.inl fun hc => hi' ?_))
        obtain ⟨d', hd', heq, hi₂⟩ := mem_of_last hc
        rw [← hi₂, List.inj_on_of_nodup_map ix.blks_nodup hd' hd heq, hdi]
      · obtain ⟨d, hd, rfl⟩ := List.mem_map.mp ho
        exact congrArg linkOf (hL.field h he hb (Index.mem_bucket.mp hd).1 (by decide)
          (.inr (.inl (by decide))))


/-- A store to the record of a bucket. -/
theorem wp_storeBulk {α : Type} [Layout α] {f : Field α} {v : α} {i : ℕ}
    {Q : Unit → Touchdb → Prop} (hw : Work B s a T t a') (hG : Lets G B s a T)
    (hm : Mine a T ix.tbl) (ht : Owns a' ix.tbl (sizeofMapBulk * ix.count)) (hi : i < ix.count)
    (hf : f.off + size α ≤ sizeofMapBulk)
    (hQ : Work B s a T (t.write (B + ix.tbl + (bulkField i f).off) (enc v)) a' →
      Q () (t.write (B + ix.tbl + (bulkField i f).off) (enc v))) :
    wp G (store (B + ix.tbl + sizeofMapBulk * i) f v) Q t := by
  have hb := ht.bounds
  exact wp_store_shift (by omega) (hw.wp_store hG hm ht (bulkField_le hi hf) fun hw' _ => hQ hw')

/-- An assignment to the map record of the info file. -/
theorem Work.wp_assignMap {g : TouchdbMap → TouchdbMap} {Q : Unit → Touchdb → Prop}
    (h : Work B s a T t a') (hG : Lets G B s a T) (hm : mapRecord ∈ T)
    (hQ : Work B s a T (t.setMap g) a' → Q () (t.setMap g)) :
    wp G (assignMap g) Q t := by
  have hf : Frame B s a (t.setMap g) a' T :=
    ⟨h.frame.base, fun h0 => absurd hm h0, h.frame.live, h.frame.bytes⟩
  exact wp_assign (hG.quiet _ ⟨hf.base, hf.map, fun _ _ _ h => h, hf.bytes⟩)
    (hQ ⟨⟨h.heap.toPoolRep.congr rfl rfl fun _ _ _ _ => rfl, h.heap.base_eq⟩, hf⟩)

theorem wp_linkEntry {Q : Unit → Touchdb → Prop} (hw : Work B s a T t a') (hG : Lets G B s a T)
    (h : MapRep B t a' ix) (he : EntryRep B t a' e) (hb : e.blk ∉ ix.blocks)
    (hmE : Mine a T e.blk) (hT : ∀ o ∈ mapRecord :: ix.tbl :: ix.entries.map MapNode.blk, Mine a T o)
    (hQ : ∀ u, Work B s a T u a' →
      Linking B t u ix e ((ix.bucket (ix.bucketOf e.key)).map MapNode.blk) → Q () u) :
    wp G (linkEntry (B + ix.tbl + sizeofMapBulk * ix.bucketOf e.key) (B + e.blk) (addrOf e.blk))
      Q t := by
  have hi := ix.bucketOf_lt e.key
  have hbk := h.bucket _ hi
  have hmt : Mine a T ix.tbl := hT _ (by simp)
  have hET : e.blk ≠ ix.tbl := fun heq => hb (heq ▸ ix.tbl_mem)
  have hEb := he.blk.bounds
  have hlE : linkOf (addrOf e.blk) = some e.blk := linkOf_addrOf he.blk.lt (by omega)
  have hm0 : mapRecord ∈ T := mine_mapRecord.mp (hT _ List.mem_cons_self)
  -- fields of the table and of the new entry across writes to the other
  have htE {α : Type} [Layout α] {f : Field α} {v : Touchdb} {k : ℕ} {ws : List UInt8}
      (hk : k + ws.length ≤ mapEntrySize) (hf : f.off + size α ≤ sizeofMapBulk) :
      (v.write (B + e.blk + k) ws).field (B + ix.tbl) (bulkField (ix.bucketOf e.key) f) =
        v.field (B + ix.tbl) (bulkField (ix.bucketOf e.key) f) :=
    field_write_other he.blk h.table hET.symm hk (bulkField_le hi hf)
  have hEt {α β : Type} [Layout α] [Layout β] {f : Field α} {g : Field β} {v : Touchdb} {w : β}
      (hg : g.off + size β ≤ sizeofMapBulk) (hf : f.off + size α ≤ mapEntrySize) :
      (v.write (B + ix.tbl + (bulkField (ix.bucketOf e.key) g).off) (enc w)).field (B + e.blk) f =
        v.field (B + e.blk) f :=
    field_write_other h.table he.blk hET (by simpa using bulkField_le hi hg) hf
  have hR1 : (B + ix.tbl + sizeofMapBulk * ix.bucketOf e.key, sizeofMapBulk) ∈ linkRanges B ix e :=
    mem_linkRanges.mpr (.inl rfl)
  have hR2 : (B + e.blk, 16) ∈ linkRanges B ix e := mem_linkRanges.mpr (.inr (.inl rfl))
  unfold linkEntry
  refine wp_bind (wp_loadBulk hw.heap h.table hi (by decide) ?_)
  rw [hbk.size]
  by_cases hne : (ix.bucket (ix.bucketOf e.key)).map MapNode.blk = []
  · rw [if_pos (by rw [hne]; rfl)]
    refine wp_bind (wp_bind (wp_storeBulk hw hG hmt h.table hi (by decide) fun hw₁ => ?_))
    refine wp_bind (wp_storeBulk hw₁ hG hmt h.table hi (by decide) fun hw₂ => ?_)
    refine hw₂.wp_store hG hmE he.blk (by decide) fun hw₃ _ => ?_
    refine wp_bind (hw₃.wp_store hG hmE he.blk (by decide) fun hw₄ _ => ?_)
    refine wp_bind (wp_loadBulk hw₄.heap h.table hi (by decide) ?_)
    refine wp_bind (wp_storeBulk hw₄ hG hmt h.table hi (by decide) fun hw₅ => ?_)
    refine hw₅.wp_assignMap hG hm0 fun hw₆ => hQ _ hw₆ ⟨?_, ?_, ?_, ?_, ?_, ?_, ?_, rfl, rfl, rfl⟩
    · refine (((((Touchdb.Within.refl t _).write hR1 ?_).write hR1 ?_).write hR2 ?_).write hR2
        ?_).write hR1 ?_
      all_goals simp [bulkField, sizeofMapBulk, Nat.add_assoc]
    · rw [setMap_field, field_write_apart (.inl (by simp [bulkField])), htE (by simp [mapEntrySize]) (by decide),
        htE (by simp [mapEntrySize]) (by decide), field_write_same, hlE, hne]
      rfl
    · rw [setMap_field, field_write_apart (.inl (by simp [bulkField])), htE (by simp [mapEntrySize]) (by decide),
        htE (by simp [mapEntrySize]) (by decide), field_write_apart (.inr (by simp [bulkField])),
        field_write_same, hlE]
    · rw [setMap_field, field_write_same, htE (by simp [mapEntrySize]) (by decide),
        htE (by simp [mapEntrySize]) (by decide), field_write_apart (.inr (by simp [bulkField])),
        field_write_apart (.inr (by simp [bulkField])), hbk.size]
      simp
    · change linkOf (Touchdb.field _ (B + e.blk) _) = _
      rw [setMap_field, hEt (by decide) (by decide), field_write_same]
      rfl
    · change linkOf (Touchdb.field _ (B + e.blk) _) = _
      rw [setMap_field, hEt (by decide) (by decide), field_write_apart (.inl (by simp)), field_write_same, hne]
      rfl
    · rw [hne]
      intro y hy
      cases hy
  · have h0 : Int32.ofNat ((ix.bucket (ix.bucketOf e.key)).map MapNode.blk).length ≠ 0 := by
      rw [Ne, Words.ofNat_eq_zero (h.bucket_length_lt _)]
      simpa using hne
    obtain ⟨y, hy⟩ : ∃ y, ((ix.bucket (ix.bucketOf e.key)).map MapNode.blk).getLast? = some y :=
      ⟨_, List.getLast?_eq_some_getLast hne⟩
    obtain ⟨d, hd, rfl, -⟩ := mem_of_last hy
    have hyO := (h.entry d hd).blk
    have hyt := Index.blk_ne_tbl hd
    have hyE : d.blk ≠ e.blk := fun heq => hb (heq ▸ Index.blk_mem hd)
    have hmy : Mine a T d.blk :=
      hT _ (List.mem_cons_of_mem _ (List.mem_cons_of_mem _ (List.mem_map_of_mem hd)))
    have hty : t.field (B + ix.tbl) (bulkField (ix.bucketOf e.key) MapBulk.tail) = addrOf d.blk :=
      linkOf_eq_some (hbk.tail.trans hy) hyO.lt
    have hR3 : (B + d.blk + 8, 8) ∈ linkRanges B ix e :=
      mem_linkRanges.mpr (.inr (.inr ⟨d.blk, hy, rfl⟩))
    -- fields of the table across a write to the old last entry
    have htY {α : Type} [Layout α] {f : Field α} {v : Touchdb} {k : ℕ} {ws : List UInt8}
        (hk : k + ws.length ≤ mapEntrySize) (hf : f.off + size α ≤ sizeofMapBulk) :
        (v.write (B + d.blk + k) ws).field (B + ix.tbl) (bulkField (ix.bucketOf e.key) f) =
          v.field (B + ix.tbl) (bulkField (ix.bucketOf e.key) f) :=
      field_write_other hyO h.table hyt.symm hk (bulkField_le hi hf)
    rw [if_neg h0]
    refine wp_bind (wp_bind (wp_loadBulk hw.heap h.table hi (by decide) ?_))
    rw [hty]
    refine wp_bind (wp_ptrOfOwned hw.heap hG.reads hyO ?_)
    refine wp_bind (hw.wp_store hG hmy hyO (by decide) fun hw₁ _ => ?_)
    refine wp_bind (wp_loadBulk hw₁.heap h.table hi (by decide) ?_)
    rw [htY (by simp [mapEntrySize]) (by decide), hty]
    refine wp_bind (hw₁.wp_store hG hmE he.blk (by decide) fun hw₂ _ => ?_)
    refine wp_storeBulk hw₂ hG hmt h.table hi (by decide) fun hw₃ => ?_
    refine wp_bind (hw₃.wp_store hG hmE he.blk (by decide) fun hw₄ _ => ?_)
    refine wp_bind (wp_loadBulk hw₄.heap h.table hi (by decide) ?_)
    refine wp_bind (wp_storeBulk hw₄ hG hmt h.table hi (by decide) fun hw₅ => ?_)
    refine hw₅.wp_assignMap hG hm0 fun hw₆ => hQ _ hw₆ ⟨?_, ?_, ?_, ?_, ?_, ?_, ?_, rfl, rfl, rfl⟩
    · refine (((((Touchdb.Within.refl t _).write hR3 ?_).write hR2 ?_).write hR1 ?_).write hR2
        ?_).write hR1 ?_
      all_goals simp [bulkField, sizeofMapBulk, Nat.add_assoc]
    · rw [setMap_field, field_write_apart (.inl (by simp [bulkField])), htE (by simp [mapEntrySize]) (by decide),
        field_write_apart (.inl (by simp [bulkField])), htE (by simp [mapEntrySize]) (by decide),
        htY (by simp [mapEntrySize]) (by decide), hbk.header, List.head?_append_of_ne_nil _ hne]
    · rw [setMap_field, field_write_apart (.inl (by simp [bulkField])), htE (by simp [mapEntrySize]) (by decide),
        field_write_same, hlE]
    · rw [setMap_field, field_write_same, htE (by simp [mapEntrySize]) (by decide),
        field_write_apart (.inr (by simp [bulkField])), htE (by simp [mapEntrySize]) (by decide),
        htY (by simp [mapEntrySize]) (by decide), hbk.size]
      simp
    · change linkOf (Touchdb.field _ (B + e.blk) _) = _
      rw [setMap_field, hEt (by decide) (by decide), field_write_same]
      rfl
    · change linkOf (Touchdb.field _ (B + e.blk) _) = _
      rw [setMap_field, hEt (by decide) (by decide), field_write_apart (.inl (by simp)), hEt (by decide) (by decide),
        field_write_same, hy]
      exact linkOf_addrOf hyO.lt (by have := hyO.bounds; omega)
    · intro x hx
      obtain rfl : d.blk = x := Option.some.inj (hy.symm.trans hx)
      change linkOf (Touchdb.field _ (B + d.blk) _) = _
      have hle {α : Type} [Layout α] {f : Field α} {w : α} (hf : f.off + size α ≤ sizeofMapBulk) :
          (bulkField (ix.bucketOf e.key) f).off + (enc w).length ≤ sizeofMapBulk * ix.count := by
        rw [enc_length]
        exact bulkField_le hi hf
      rw [setMap_field, field_write_other h.table hyO hyt (hle (by decide)) (by decide),
        field_write_other he.blk hyO hyE (by simp [mapEntrySize]) (by decide),
        field_write_other h.table hyO hyt (hle (by decide)) (by decide),
        field_write_other he.blk hyO hyE (by simp [mapEntrySize]) (by decide), field_write_same, hlE]

end Link

section Put
variable {B : ℕ} {s t : Touchdb} {a a' : PoolAlloc} {T : List ℕ} {ix : Index} {e : MapNode}
variable {k v : CStr} {G : Guard Stop Event}

/-- A write to the value of an entry, which leaves there an address of the pool. -/
theorem MapRep.writeVal {x : ℕ} {ws : List UInt8} (h : MapRep B t a ix) (he : e ∈ ix.entries)
    (hx : MapEntry.val.off ≤ x) (hl : x + ws.length ≤ mapEntrySize)
    (hv : ∃ o, 0 < o ∧ o ≤ touchdbDefaultPoolSize ∧
      (t.write (B + e.blk + x) ws).field (B + e.blk) valueField = addrOf o) :
    MapRep B (t.write (B + e.blk + x) ws) a ix := by
  have hO := (h.entry e he).blk
  have hx' : 28 ≤ x := hx
  -- the fields of the entries, the value of `e` apart
  have hf {α : Type} [Layout α] {f : Field α} {d : MapNode} (hd : d ∈ ix.entries)
      (hfs : f.off + Layout.size α ≤ mapEntrySize) (hne : d ≠ e ∨ f.off + Layout.size α ≤ 28) :
      (t.write (B + e.blk + x) ws).field (B + d.blk) f = t.field (B + d.blk) f := by
    by_cases hde : d = e
    · subst hde
      have h1 := hne.resolve_left fun hc => hc rfl
      exact field_write_apart (.inl (by omega))
    · refine field_write_other hO (h.entry d hd).blk (fun heq => hde ?_) hl hfs
      exact List.inj_on_of_nodup_map ix.blks_nodup hd he heq
  refine ⟨h.table, h.bulkList, h.count, h.size, fun d hd => ?_, fun i hi => ?_⟩
  · have hr := h.entry d hd
    refine ⟨hr.blk, hr.keyBlk, ?_, ?_, ?_, ?_⟩
    · rw [hf hd (by decide) (.inr (by decide))]
      exact hr.hash
    · rw [hf hd (by decide) (.inr (by decide))]
      exact hr.key
    · have hne : d.keyBlk ≠ e.blk := by
        have h1 := ix.apart
        simp only [List.nodup_cons, List.nodup_append, List.mem_append, not_or] at h1
        exact fun hc => h1.2.2.2 _ (List.mem_map_of_mem he) _ (List.mem_map_of_mem hd) hc.symm
      have hd := hr.keyBlk.disjoint hO hne
      unfold Touchdb.holds
      rw [← hr.holds]
      exact Mem.read_write_disjoint (by omega)
    · by_cases hde : d = e
      · subst hde
        exact hv
      · rw [hf hd (by decide) (.inl hde)]
        exact hr.value
  · refine (h.bucket i hi).congr (fun f hfs => ?_) (fun o ho => ?_) fun o ho => ?_
    · exact field_write_other hO h.table (Index.blk_ne_tbl he).symm hl (bulkField_le hi hfs)
    · obtain ⟨d, hd, rfl⟩ := List.mem_map.mp ho
      exact congrArg linkOf (hf (Index.mem_bucket.mp hd).1 (by decide) (.inr (by decide)))
    · obtain ⟨d, hd, rfl⟩ := List.mem_map.mp ho
      exact congrArg linkOf (hf (Index.mem_bucket.mp hd).1 (by decide) (.inr (by decide)))

/-- The blocks of the index that an insertion may store to. -/
def Index.linked (ix : Index) : List ℕ := mapRecord :: ix.tbl :: ix.entries.map MapNode.blk

/-- A block in use that is not in the index is not written when an entry is linked. -/
theorem Owns.notMem_linked {o n : ℕ} (ho : Owns a o n) (hb : o ∉ ix.blocks) : o ∉ ix.linked := by
  have hbd := ho.bounds
  simp only [Index.blocks, List.mem_cons, List.mem_append, not_or] at hb
  simp only [Index.linked, List.mem_cons, not_or, mapRecord]
  exact ⟨by omega, hb.1, hb.2.1⟩

/-- What an insertion leaves: the new entry at `E`, its key at `K`, and whatever `s` held
outside the table and the links. -/
structure Inserted (B : ℕ) (s : Touchdb) (a : PoolAlloc) (ix : Index) (k : CStr) (E K : ℕ)
    (u : Touchdb) (a' : PoolAlloc) (ix' : Index) : Prop where
  heap : Heap B u a'
  frame : Frame B s a u a' ix.linked
  rep : MapRep B u a' ix'
  entries : ix'.entries = ix.entries ++ [⟨E, k, K⟩]
  tbl : ix'.tbl = ix.tbl
  bits : ix'.bits = ix.bits
  vals : ∀ d ∈ ix.entries, u.field (B + d.blk) MapEntry.val = s.field (B + d.blk) MapEntry.val
  blk_fresh : a.payload E = none
  keyBlk_fresh : a.payload K = none

/-- An entry that has just been created is linked. -/
theorem wp_linkNew {E K : ℕ} {Q : Unit → Touchdb → Prop} (hm : MapRep B s a ix)
    (hG : Lets G B s a ix.linked) (hw : Work B s a ix.linked t a') (hF : Frame B s a t a' [])
    (he : EntryRep B t a' ⟨E, k, K⟩) (hfind : ix.find k = none) (hE : a.payload E = none)
    (hK : a.payload K = none) (hEK : E ≠ K)
    (hQ : ∀ u ix', Inserted B s a ix k E K u a' ix' →
      u.field (B + E) MapEntry.val = t.field (B + E) MapEntry.val → Frame B t a' u a' (E :: ix.linked) →
      Q () u) :
    wp G (linkEntry (B + ix.tbl + sizeofMapBulk * ix.bucketOf k) (B + E) (addrOf E)) Q t := by
  have hmt := hm.frame hF (by simp) (by simp)
  have hfree {o : ℕ} (ho : a.payload o = none) : o ∉ ix.blocks :=
    fun hc => (hm.owns hc).ne_none ho
  have hk := Index.find_eq_none.mp hfind
  have hEm : E ≠ mapRecord := by
    have hb := Owns.bounds (o := E) he.blk
    simp only [mapRecord]
    omega
  refine wp_linkEntry (e := ⟨E, k, K⟩) hw hG hmt he (hfree hE) (.inr ⟨hEm, hE⟩) (fun o ho => .inl ho)
    fun u hu hL => ?_
  have hbase : u.base 0 = t.base 0 := hu.frame.base.trans hw.frame.base.symm
  have hf := hL.frame hmt he hbase
  refine hQ u (ix.insert ⟨E, k, K⟩ hk (hfree hE) (hfree hK) hEK)
    ⟨hu.heap, hu.frame, hmt.link he hk (hfree hE) (hfree hK) hEK hbase hL, rfl, rfl, rfl,
      fun d hd => ?_, hE, hK⟩ ?_ (hf.drop fun o ho => .inl ?_)
  · rw [hL.field hmt he (hfree hE) hd (by decide) (.inr (.inr (by decide))),
      hF.field (by simp) (hm.entry d hd).blk (by decide)]
  · exact hL.newField hmt he (hfree hE) (by decide) (by decide)
  · simp only [List.mem_cons, Index.linked] at ho ⊢
    tauto

theorem wp_touchdbMapPut_insert {Q : ℕ → Touchdb → Prop} (h : Heap B s a) (hm : MapRep B s a ix)
    (hG : Lets G B s a ix.linked) (hr : Serves G a [mapEntrySize, k.strlen + 1, v.strlen + 1])
    (hk : k.Fits) (hv : v.Fits) (hfind : ix.find k = none)
    (hQ : ∀ E K V a₁ a₂ a' u ix', Handed a mapEntrySize E a₁ → Handed a₁ (k.strlen + 1) K a₂ →
      Handed a₂ (v.strlen + 1) V a' → Inserted B s a ix k E K u a' ix' →
      u.field (B + E) MapEntry.val = ⟨.str, addrOf V⟩ → u.holds (B + V) v → Q NULL u) :
    wp G (touchdbMapPut k v) Q s := by
  unfold touchdbMapPut
  refine wp_bind (wp_bulkFor h hm hG.reads (wp_bind (wp_findEntry h hm hG.reads ?_)))
  rw [hfind]
  change wp G (if NULL ≠ NULL then _ else _) Q s
  rw [if_neg (by simp)]
  refine wp_bind (wp_newEntry (Work.start h) hG hr hk hv
    fun E K V a₁ a₂ a' t hE hK hV hw hF he hval hhold => ?_)
  have hVO : Owns a' V (v.strlen + 1) := hV.owns (by omega)
  refine wp_bind (wp_linkNew hm hG hw hF he hfind hE.fresh (hE.fresh_of hK.fresh)
    ((hE.owns (n := mapEntrySize) (by decide)).ne hK.fresh) fun u ix' hi hvu hf => wp_pure ?_)
  refine hQ E K V a₁ a₂ a' u ix' hE hK hV hi (hvu.trans hval) (hf.holds ?_ hVO hhold)
  have hVE : E ≠ V := ((hK.keep (hE.owns (n := mapEntrySize) (by decide)))).ne hV.fresh
  have hVa : a.payload V = none := hE.fresh_of (hK.fresh_of hV.fresh)
  have hVb : ∀ o ∈ ix.blocks, o ≠ V := fun o ho => (hm.owns ho).ne hVa
  simp only [Index.linked, List.mem_cons, not_or]
  refine ⟨hVE.symm, hV.ne_mapRecord, (hVb _ ix.tbl_mem).symm, fun hc => ?_⟩
  obtain ⟨d, hd, hdV⟩ := List.mem_map.mp hc
  exact hVb _ (Index.blk_mem hd) hdV

theorem wp_touchdbMapPut2_insert {q : ℕ} {w : TouchdbVal} {Q : ℕ → Touchdb → Prop}
    (h : Heap B s a) (hm : MapRep B s a ix) (hG : Lets G B s a ix.linked)
    (hr : Serves G a [mapEntrySize, k.strlen + 1]) (hk : k.Fits)
    (hq : Owns a q sizeofVal) (hqw : s.field (B + q) Val.all = w)
    (hw : ∃ o, 0 < o ∧ o ≤ touchdbDefaultPoolSize ∧ w.value = addrOf o) (hfind : ix.find k = none)
    (hQ : ∀ E K a₁ a' u ix', Handed a mapEntrySize E a₁ → Handed a₁ (k.strlen + 1) K a' →
      Inserted B s a ix k E K u a' ix' → u.field (B + E) MapEntry.val = w → Q NULL u) :
    wp G (touchdbMapPut2 k (B + q)) Q s := by
  unfold touchdbMapPut2
  refine wp_bind (wp_bulkFor h hm hG.reads (wp_bind (wp_findEntry h hm hG.reads ?_)))
  rw [hfind]
  change wp G (if NULL ≠ NULL then _ else _) Q s
  rw [if_neg (by simp)]
  refine wp_bind (wp_newEntry2 (Work.start h) hG hr hk hq hqw hw
    fun E K a₁ a' t hE hK hwt hF he hval => ?_)
  refine wp_bind (wp_linkNew hm hG hwt hF he hfind hE.fresh (hE.fresh_of hK.fresh)
    ((hE.owns (n := mapEntrySize) (by decide)).ne hK.fresh) fun u ix' hi hvu hf => wp_pure ?_)
  exact hQ E K a₁ a' u ix' hE hK hi (hvu.trans hval)

end Put

end TouchDb
