import TouchDb.Map.Put

/-! The puts on a key that is in the index: they store to the value of its entry only. -/
namespace TouchDb
open Prog Layout

variable {B : ℕ} {s t u : Touchdb} {a a' a'' : PoolAlloc} {ix : Index} {e : MapNode}
variable {blk : ℕ} {k v : CStr} {G : Guard Stop Event}

/-- The bytes of an entry before its value: links, hash and key. -/
def SameLinks (B : ℕ) (s t : Touchdb) (blk : ℕ) : Prop :=
  ∀ i < MapEntry.val.off, t.mem (B + blk + i) = s.mem (B + blk + i)

/-- A guard that allows what leaves everything but the value of one entry as it is. -/
structure ValLets (G : Guard Stop Event) (B : ℕ) (s : Touchdb) (a : PoolAlloc) (blk : ℕ) :
    Prop where
  quiet : ∀ e, QuietEvent B s a [blk] e → (∀ t, e.after = some t → SameLinks B s t blk) → G.emits e
  reads : Reads G

/-- A stretch that touched, of the blocks in use, only the value of one entry. -/
structure ValWork (B : ℕ) (s : Touchdb) (a : PoolAlloc) (blk : ℕ) (t : Touchdb) (a' : PoolAlloc) :
    Prop where
  work : Work B s a [blk] t a'
  owns : Owns a' blk mapEntrySize
  links : SameLinks B s t blk

namespace ValWork

theorem start (h : Heap B s a) (ho : Owns a blk mapEntrySize) : ValWork B s a blk s a :=
  ⟨.start h, ho, fun _ _ => rfl⟩

theorem lets (h : ValWork B s a blk t a') (hG : ValLets G B s a blk) : Lets G B t a' [] := by
  refine ⟨fun e he => hG.quiet e (he.lift h.work.frame (by simp)) fun u hu i hi => ?_,
    hG.reads⟩
  have hf : Frame B t a' u a' [] := by
    cases e with
    | store p n v =>
      obtain rfl : v = u := Option.some.inj hu
      exact he.1
    | assign v =>
      obtain rfl : v = u := Option.some.inj hu
      exact he
    | translate x => exact he.elim
  have hi' : i < mapEntrySize := Nat.lt_trans hi (by decide)
  exact (hf.mem (by simp) h.owns hi').trans (h.links i hi)

theorem step {T : List ℕ} (h : ValWork B s a blk t a') (h' : Work B t a' T u a'')
    (hT : ∀ o ∈ T, Mine a [blk] o) (hb : blk ∉ T) : ValWork B s a blk u a'' := by
  refine ⟨h.work.step h' hT, h'.owns hb h.owns, fun i hi => ?_⟩
  have hi' : i < mapEntrySize := Nat.lt_trans hi (by decide)
  exact (h'.frame.mem hb h.owns hi').trans (h.links i hi)

/-- A store to the value of the entry. -/
theorem wp_store {α : Type} [Layout α] {f : Field α} {x : α} {Q : Unit → Touchdb → Prop}
    (h : ValWork B s a blk t a') (hG : ValLets G B s a blk)
    (hf : f.off + size α ≤ sizeofVal)
    (hQ : ValWork B s a blk (t.write (B + blk + (MapEntry.val.off + f.off)) (enc x)) a' →
      Frame B t a' (t.write (B + blk + (MapEntry.val.off + f.off)) (enc x)) a' [blk] →
      Q () (t.write (B + blk + (MapEntry.val.off + f.off)) (enc x))) :
    wp G (store (B + blk + MapEntry.val.off) f x) Q t := by
  have hB := h.work.heap.base_pos'
  have hle : MapEntry.val.off + f.off + size α ≤ mapEntrySize := by
    simp only [sizeofVal, mapEntrySize] at *
    omega
  have hk : MapEntry.val.off + f.off + (enc x).length ≤ mapEntrySize := by
    rw [enc_length]
    exact hle
  obtain ⟨h1, h2⟩ := h.work.store (.inl (by simp)) h.owns hk
  have hl : SameLinks B s (t.write (B + blk + (MapEntry.val.off + f.off)) (enc x)) blk := by
    intro i hi
    refine (Mem.write_outside (.inl ?_)).trans (h.links i hi)
    omega
  refine wp_store_shift (by omega) (wp_storeCell h.work.heap h.owns hle ?_ fun _ h4 =>
    hQ ⟨h1, h.owns, hl⟩ h4)
  rw [enc_length] at h2
  exact hG.quiet _ h2 fun u hu => by
    obtain rfl := Option.some.inj hu
    exact hl

end ValWork

/-- What an overwrite leaves: the entry with value `w`, and whatever `s` held outside the
blocks of `T`. -/
structure Overwritten (B : ℕ) (s : Touchdb) (a : PoolAlloc) (ix : Index) (blk : ℕ) (w : TouchdbVal)
    (T : List ℕ) (u : Touchdb) (a' : PoolAlloc) : Prop where
  heap : Heap B u a'
  frame : Frame B s a u a' (blk :: T)
  rep : MapRep B u a' ix
  val : u.field (B + blk) MapEntry.val = w

section Put
variable {Q : ℕ → Touchdb → Prop}

theorem val_parts {w : TouchdbVal} (h : t.field (B + blk) MapEntry.val = w) :
    t.field (B + blk) (⟨MapEntry.val.off + Val.type.off⟩ : Field TouchdbValType) = w.type ∧
      t.field (B + blk) (⟨MapEntry.val.off + Val.value.off⟩ : Field TouchdbAddr) = w.value := by
  rw [field_val] at h
  subst h
  exact ⟨rfl, rfl⟩

/-- A write that is not in the blocks of the index leaves the entry's value as it was. -/
theorem Frame.val {T : List ℕ} (h : Frame B s a t a' T) (ho : Owns a blk mapEntrySize)
    (hb : blk ∉ T) : t.field (B + blk) MapEntry.val = s.field (B + blk) MapEntry.val :=
  h.field hb ho (by decide)

/-- Storing the characters of the new value: the block is new, and the entry points to it. -/
theorem wp_storeNewVal {R : Unit → Touchdb → Prop} (hw : ValWork B s a e.blk t a')
    (hm : MapRep B t a' ix) (he : e ∈ ix.entries) (hG : ValLets G B s a e.blk)
    (hr : Serves G a' [v.strlen + 1]) (hv : v.Fits)
    (hQ : ∀ V a'' u, Handed a' (v.strlen + 1) V a'' → ValWork B s a e.blk u a'' →
      MapRep B u a'' ix → (u.field (B + e.blk) MapEntry.val).type =
        (t.field (B + e.blk) MapEntry.val).type →
      (u.field (B + e.blk) MapEntry.val).value = addrOf V → u.holds (B + V) v → R () u) :
    wp G (storeNewVal (B + e.blk) v) R t := by
  unfold storeNewVal
  have hw₀ : Work B t a' [] t a' := .start hw.work.heap
  refine wp_bind (hw₀.wp_malloc (hw.lets hG) hr (by omega) hv fun V a'' t₁ hV hw₁ hf₁ => ?_)
  have hVO : Owns a'' V (v.strlen + 1) := hV.owns (by omega)
  have hVb : ∀ o ∈ ix.blocks, o ≠ V := fun o ho => (hm.owns ho).ne hV.fresh
  have hblk := Index.blk_mem he
  refine wp_bind (hw₁.wp_storeBytes (hw.lets hG) (hV.mine) hVO (by simp)
    fun hw₂ hf₂ => ?_)
  have hv₂ := hw.step hw₂ (by simp) (by simp)
  have hm₂ := hm.frame hw₂.frame (by simp) (by simp)
  have hsame : Touchdb.field (t₁.write (B + V) v.bytes) (B + e.blk) MapEntry.val =
      t.field (B + e.blk) MapEntry.val := hw₂.frame.val hw.owns (by simp)
  refine hv₂.wp_store hG (by decide) fun hv₃ hf₃ => ?_
  have hval := field_write_same (t₁.write (B + V) v.bytes) (B + e.blk)
    (⟨MapEntry.val.off + Val.value.off⟩ : Field TouchdbAddr) (addrOf V)
  have hVbd := hVO.bounds
  refine hQ V a'' _ hV hv₃ (hm₂.writeVal he (by simp) (by simp [mapEntrySize])
    ⟨V, by omega, by omega, hval⟩) ?_ ?_ (hf₃.holds ?_ hVO (holds_write _ _ _))
  · rw [field_val]
    change Touchdb.field _ (B + e.blk) (⟨MapEntry.val.off + Val.type.off⟩ : Field TouchdbValType) = _
    rw [field_write_apart (.inl (by simp)), (val_parts hsame).1]
  · rw [field_val]
    exact hval
  · simpa using (hVb _ hblk).symm

/-- `touchdb_map_put` on a key whose value is a string: the block just stored is released. -/
theorem wp_mapPutOverwrite_str (h : Heap B s a) (hm : MapRep B s a ix) (he : e ∈ ix.entries)
    (hG : ValLets G B s a e.blk) (hr : Serves G a [v.strlen + 1]) (hv : v.Fits)
    (ht : (s.field (B + e.blk) MapEntry.val).type = .str)
    (hQ : ∀ V a₁ a' u, Handed a (v.strlen + 1) V a₁ → Freed a₁ V a' →
      Overwritten B s a ix e.blk ⟨.str, addrOf V⟩ [] u a' → u.holds (B + V) v → Q (B + V) u) :
    wp G (mapPutOverwrite (B + e.blk) v) Q s := by
  have hB := h.base_pos'
  have hO := (hm.entry e he).blk
  have hw := ValWork.start h hO
  unfold mapPutOverwrite
  refine wp_bind (wp_load_shift (by omega) (wp_loadCell h hO (by decide) ?_))
  rw [(val_parts rfl).1, ht, if_pos rfl]
  refine wp_bind (wp_pure (wp_bind (wp_storeNewVal hw hm he hG hr hv
    fun V a₁ t hV hw₁ hm₁ htype hval hhold => ?_)))
  have hVO : Owns a₁ V (v.strlen + 1) := hV.owns (by omega)
  have hVb : ∀ o ∈ ix.blocks, o ≠ V := fun o ho => (hm.owns ho).ne hV.fresh
  have hVe : e.blk ≠ V := hVb _ (Index.blk_mem he)
  rw [if_pos rfl]
  refine wp_bind (wp_load_shift (by omega) (wp_loadCell hw₁.work.heap hw₁.owns (by decide) ?_))
  rw [(val_parts rfl).2, hval]
  refine wp_bind (wp_touchdbFree hw₁.work.heap hVO (hw₁.lets hG).quiet
    fun a' u hF hu hf hfb => ?_)
  have hO' : Owns a' e.blk mapEntrySize := hF.keep hw₁.owns hVe
  refine wp_bind (wp_load_shift (by omega) (wp_loadCell hu hO' (by decide) ?_))
  have hval' := hf.val hw₁.owns (by simpa using hVe)
  rw [(val_parts hval').2, hval]
  have hVbd := hVO.bounds
  have hm' : MapRep B u a' ix := hm₁.frame hf (fun o ho => by simpa using hVb o ho)
    (by simpa using hV.ne_mapRecord.symm)
  refine wp_touchdbPtrOf hu (by omega) (hG.reads V (by omega) (by omega))
    (hQ V a₁ a' u hV hF ⟨hu, hw₁.work.frame.step hf ?_, hm', ?_⟩ (hfb.holds (by simp) hVO hhold))
  · intro o ho
    obtain rfl : o = V := by simpa using ho
    exact hV.mine
  · rw [hval', ← hval, ← ht, ← htype]

/-- `touchdb_map_put` on a key whose value is not a string: the value becomes one. -/
theorem wp_mapPutOverwrite_other (h : Heap B s a) (hm : MapRep B s a ix) (he : e ∈ ix.entries)
    (hG : ValLets G B s a e.blk) (hr : Serves G a [v.strlen + 1]) (hv : v.Fits)
    (ht : (s.field (B + e.blk) MapEntry.val).type ≠ .str)
    (hQ : ∀ V a' u, Handed a (v.strlen + 1) V a' →
      Overwritten B s a ix e.blk ⟨.str, addrOf V⟩ [] u a' → u.holds (B + V) v → Q NULL u) :
    wp G (mapPutOverwrite (B + e.blk) v) Q s := by
  have hB := h.base_pos'
  have hO := (hm.entry e he).blk
  have hw := ValWork.start h hO
  unfold mapPutOverwrite
  refine wp_bind (wp_load_shift (by omega) (wp_loadCell h hO (by decide) ?_))
  rw [(val_parts rfl).1, if_neg ht]
  refine wp_bind (hw.wp_store hG (by decide) fun hw₀ hf₀ => ?_)
  have hvalue : (s.write (B + e.blk + (MapEntry.val.off + Val.type.off))
      (enc TouchdbValType.str)).field (B + e.blk) valueField = s.field (B + e.blk) valueField :=
    field_write_apart (.inr (by simp [valueField]))
  obtain ⟨o, ho⟩ := (hm.entry e he).value
  have hm₀ : MapRep B (s.write (B + e.blk + (MapEntry.val.off + Val.type.off))
      (enc TouchdbValType.str)) a ix :=
    hm.writeVal he (by simp) (by simp [mapEntrySize])
      ⟨o, ho.1, ho.2.1, by rw [hvalue]; exact ho.2.2⟩
  refine wp_bind (wp_storeNewVal hw₀ hm₀ he hG hr hv
    fun V a₁ t hV hw₁ hm₁ htype hval hhold => ?_)
  rw [if_neg ht]
  refine wp_pure (hQ V a₁ t hV ⟨hw₁.work.heap, hw₁.work.frame, hm₁, ?_⟩ hhold)
  rw [← hval]
  have h1 : (t.field (B + e.blk) MapEntry.val).type = .str := by
    rw [htype, field_val]
    exact field_write_same s (B + e.blk)
      (⟨MapEntry.val.off + Val.type.off⟩ : Field TouchdbValType) .str
  rw [← h1]

/-- `touchdb_map_put` on a key of the index. -/
theorem wp_touchdbMapPut_found (h : Heap B s a) (hm : MapRep B s a ix) (hR : Reads G)
    (hfind : ix.find k = some e) (hover : wp G (mapPutOverwrite (B + e.blk) v) Q s) :
    wp G (touchdbMapPut k v) Q s := by
  have hO := (hm.entry e (Index.find_eq_some.mp hfind).1).blk
  unfold touchdbMapPut
  refine wp_bind (wp_bulkFor h hm hR (wp_bind (wp_findEntry h hm hR ?_)))
  rw [hfind]
  change wp G (if B + e.blk ≠ NULL then _ else _) Q s
  rw [if_pos (hO.ptr_ne B)]
  exact hover

/-- `touchdb_map_put2` on a key of the index. -/
theorem wp_touchdbMapPut2_found {q : ℕ} (h : Heap B s a) (hm : MapRep B s a ix) (hR : Reads G)
    (hfind : ix.find k = some e) (hover : wp G (mapPut2Overwrite (B + e.blk) (B + q)) Q s) :
    wp G (touchdbMapPut2 k (B + q)) Q s := by
  have hO := (hm.entry e (Index.find_eq_some.mp hfind).1).blk
  unfold touchdbMapPut2
  refine wp_bind (wp_bulkFor h hm hR (wp_bind (wp_findEntry h hm hR ?_)))
  rw [hfind]
  change wp G (if B + e.blk ≠ NULL then _ else _) Q s
  rw [if_pos (hO.ptr_ne B)]
  exact hover

/-- Both overwrites of `touchdb_map_put2` begin with the copy of the value at `q`. -/
theorem wp_mapPut2Overwrite {q : ℕ} {T : List ℕ} {w : TouchdbVal} (h : Heap B s a)
    (hm : MapRep B s a ix) (he : e ∈ ix.entries) (hG : Lets G B s a T) (hb : e.blk ∈ T)
    (hq : Owns a q sizeofVal) (hqw : s.field (B + q) Val.all = w)
    (hw : ∃ o, 0 < o ∧ o ≤ touchdbDefaultPoolSize ∧ w.value = addrOf o)
    (hQ : ∀ t, Work B s a T t a → Overwritten B s a ix e.blk w [] t a →
      wp G (touchdbValDestroy (B + e.blk + MapEntry.val.off))
        (fun _ => Q (B + e.blk + MapEntry.val.off)) t) :
    wp G (mapPut2Overwrite (B + e.blk) (B + q)) Q s := by
  have hO := (hm.entry e he).blk
  unfold mapPut2Overwrite
  refine wp_bind (wp_loadCell h hq (by decide) ?_)
  rw [hqw]
  refine wp_bind ((Work.start h).wp_store hG (.inl hb) hO (by decide) fun hw₁ hf₁ => ?_)
  have hval := field_write_same s (B + e.blk) MapEntry.val w
  obtain ⟨o, h0, h1, ho⟩ := hw
  have hm₁ : MapRep B (s.write (B + e.blk + MapEntry.val.off) (enc w)) a ix :=
    hm.writeVal he (Nat.le_refl _) (by simp [mapEntrySize])
      ⟨o, h0, h1, (val_parts hval).2.trans ho⟩
  exact wp_bind (wp_mono (hQ _ hw₁ ⟨hw₁.heap, hf₁, hm₁, hval⟩) fun _ u hu => wp_pure hu)

end Put

end TouchDb
