import TouchDb.Store.New
import TouchDb.Map.Overwrite
import TouchDb.Heap.Allocated

/-! Puts of a value that is built in a block of its own, which is released after
`touchdb_map_put2` has copied the value. -/
namespace TouchDb
open Prog Layout

/-- A caller of `touchdb_map_put2`, as `touchdb_put_str` is one. -/
def putVal (k : CStr) (w : TouchdbVal) : M Unit := do
  let (val, addr) ← touchdbMalloc sizeofVal
  store val Val.all w
  let _ ← touchdbMapPut2 k val
  touchdbFree addr

variable {B : ℕ} {s t u v : Touchdb} {a a' a₁ : PoolAlloc} {ix ix' : Index} {e : MapNode}
variable {k x : CStr} {E K q : ℕ} {w : TouchdbVal} {G : Guard Stop Event}

/-- An address that a value may hold. -/
def InPool (x : TouchdbAddr) : Prop := ∃ o, 0 < o ∧ o ≤ touchdbDefaultPoolSize ∧ x = addrOf o

theorem Owns.inPool {o n : ℕ} (h : Owns a o n) : InPool (addrOf o) := by
  have hb := h.bounds
  exact ⟨o, by omega, by omega, rfl⟩

section Insert

theorem Inserted.notMem_blocks (h : Inserted B s a ix k E K u a' ix') (hq : q ∉ ix.blocks)
    (hE : q ≠ E) (hK : q ≠ K) : q ∉ ix'.blocks := by
  simp only [Index.blocks, List.mem_cons, List.mem_append, not_or] at hq ⊢
  rw [h.tbl, h.entries]
  simp only [List.map_append, List.map_cons, List.map_nil, List.mem_append, List.mem_singleton,
    not_or]
  exact ⟨hq.1, ⟨hq.2.1, hE⟩, hq.2.2, hK⟩

/-- The block of a value that is allocated after those of the entry and of its key. -/
theorem Inserted.value_notMem {k : CStr} {a₁ a₂ : PoolAlloc} {V n : ℕ} (hi : Inserted B s a ix k E K u a' ix')
    (hm : MapRep B s a ix) (hE : Handed a mapEntrySize E a₁) (hK : Handed a₁ (k.strlen + 1) K a₂)
    (hV : Handed a₂ n V a') : V ∉ ix'.blocks := by
  have hEO : Owns a₁ E mapEntrySize := hE.owns (by decide)
  have hKO : Owns a₂ K (k.strlen + 1) := hK.owns (by omega)
  apply hi.notMem_blocks
  · exact fun hc => (hm.owns hc).ne_none (hE.fresh_of (hK.fresh_of hV.fresh))
  · exact ((hK.keep hEO).ne hV.fresh).symm
  · exact (hKO.ne hV.fresh).symm

/-- An insertion after a stretch that left all blocks in use alone. -/
theorem Inserted.lift (hF : Frame B s a t a₁ []) (hm : MapRep B s a ix)
    (h : Inserted B t a₁ ix k E K u a' ix') : Inserted B s a ix k E K u a' ix' where
  heap := h.heap
  frame := (hF.trans h.frame).drop fun o ho => .inl (by simpa using ho)
  rep := h.rep
  entries := h.entries
  tbl := h.tbl
  bits := h.bits
  vals d hd := (h.vals d hd).trans (hF.field (by simp) (hm.entry d hd).blk (by decide))
  blk_fresh := hF.fresh_of (by simp) h.blk_fresh
  keyBlk_fresh := hF.fresh_of (by simp) h.keyBlk_fresh

/-- Afterwards a block that is not in the index is released. -/
theorem Inserted.free (h : Inserted B s a ix k E K u a' ix')
    (hv : Heap B v a₁) (hf : Frame B u a' v a₁ [q]) (hq : q ∉ ix'.blocks) (hq0 : q ≠ mapRecord)
    (hqf : a.payload q = none) : Inserted B s a ix k E K v a₁ ix' where
  heap := hv
  frame := h.frame.step hf fun o ho => by
    obtain rfl : o = q := by simpa using ho
    exact .inr ⟨hq0, hqf⟩
  rep := h.rep.frame hf (fun o ho hc => hq (List.mem_singleton.mp hc ▸ ho)) fun hc =>
    hq0 (List.mem_singleton.mp hc).symm
  entries := h.entries
  tbl := h.tbl
  bits := h.bits
  vals d hd := by
    have hd' : d ∈ ix'.entries := by rw [h.entries]; exact List.mem_append_left _ hd
    refine (hf.val (h.rep.entry d hd').blk ?_).trans (h.vals d hd)
    exact fun hc => hq (List.mem_singleton.mp hc ▸ Index.blk_mem hd')
  blk_fresh := h.blk_fresh
  keyBlk_fresh := h.keyBlk_fresh

/-- `touchdb_map_put2` of a value in a new block, on a key that is not in the index. -/
theorem wp_put2Insert {R : ℕ → Touchdb → Prop} (hm : MapRep B s a ix)
    (hG : Lets G B s a ix.linked) (hw : Work B s a ix.linked t a₁) (hF : Frame B s a t a₁ [])
    (hr : Serves G a₁ [mapEntrySize, k.strlen + 1]) (hk : k.Fits) (hq : Owns a₁ q sizeofVal)
    (hqf : a.payload q = none) (hqw : t.field (B + q) Val.all = w) (hin : InPool w.value)
    (hfind : ix.find k = none)
    (hQ : ∀ E K a₂ a₃ u ix', Handed a₁ mapEntrySize E a₂ → Handed a₂ (k.strlen + 1) K a₃ →
      Inserted B s a ix k E K u a₃ ix' → Work B s a ix.linked u a₃ →
      Frame B t a₁ u a₃ ix.linked → u.field (B + E) MapEntry.val = w → q ∉ ix'.blocks →
      R NULL u) :
    wp G (touchdbMapPut2 k (B + q)) R t := by
  have hmt := hm.frame hF (by simp) (by simp)
  refine wp_touchdbMapPut2_insert hw.heap hmt (hw.lets hG fun o ho => .inl ho) hr hk hq hqw hin
    hfind fun E K a₂ a₃ u ix' hE hK hi hval => ?_
  have hqb : q ∉ ix.blocks := fun hc => (hm.owns hc).ne_none hqf
  have hq₂ := hE.keep hq
  exact hQ E K a₂ a₃ u ix' hE hK (hi.lift hF hm) ⟨hi.heap, hw.frame.step hi.frame fun o ho => .inl ho⟩
    hi.frame hval (hi.notMem_blocks hqb (hq.ne hE.fresh) (hq₂.ne hK.fresh))

/-- A value that has been built in a block of its own is put under a new key, and the block is
released. -/
theorem wp_moveInsert {Q : Unit → Touchdb → Prop} (hm : MapRep B s a ix)
    (hG : Lets G B s a ix.linked) (hw : Work B s a ix.linked t a₁) (hF : Frame B s a t a₁ [])
    (hr : Serves G a₁ [mapEntrySize, k.strlen + 1]) (hk : k.Fits) (hq : Owns a₁ q sizeofVal)
    (hq0 : q ≠ mapRecord) (hqf : a.payload q = none) (hqw : t.field (B + q) Val.all = w)
    (hin : InPool w.value) (hfind : ix.find k = none)
    (hQ : ∀ E K u a' ix', Inserted B s a ix k E K u a' ix' → u.field (B + E) MapEntry.val = w →
      (∀ o ∈ [E, K], ¬ Used a₁ o) → Frame B t a₁ u a' (q :: ix.linked) → a'.cur ≤ a₁.cur + roomFor [mapEntrySize, k.strlen + 1] →
      Q () u) :
    wp G (do
      let _ ← touchdbMapPut2 k (B + q)
      touchdbFree (addrOf q)) Q t := by
  have hmq : Mine a ix.linked q := .inr ⟨hq0, hqf⟩
  refine wp_bind (wp_put2Insert hm hG hw hF hr hk hq hqf hqw hin hfind
    fun E K a₂ a₃ u ix' hE hK hi hw₃ hf₃ hval hqb => ?_)
  refine hw₃.wp_free hG hmq (hK.keep (hE.keep hq)) fun a₄ v hfr hw₄ hf₄ _ => ?_
  have hEd : (⟨E, k, K⟩ : MapNode) ∈ ix'.entries := by rw [hi.entries]; simp
  refine hQ E K v a₄ ix' (hi.free hw₄.heap hf₄ hqb hq0 hqf) ?_ ?_ ((hf₃.trans hf₄).drop fun o ho => ?_)
    ?_
  · rw [hf₄.val (hi.rep.entry _ hEd).blk, hval]
    exact fun hc => hqb (List.mem_singleton.mp hc ▸ Index.blk_mem hEd)
  · intro o ho hu
    rcases List.mem_pair.mp ho with rfl | rfl
    · exact hu hE.fresh
    · exact hu (hE.fresh_of hK.fresh)
  · refine .inl ?_
    rcases List.mem_append.mp ho with ho | ho
    · exact List.mem_cons_of_mem _ ho
    · exact List.mem_cons.mpr (.inl (List.mem_singleton.mp ho))
  · have h2 := hE.cur_le
    have h3 := hK.cur_le
    rw [hfr.cur_eq]
    simp only [roomFor, List.map_cons, List.map_nil, List.sum_cons, List.sum_nil]
    omega

theorem wp_putVal_insert {Q : Unit → Touchdb → Prop} (h : Heap B s a) (hm : MapRep B s a ix)
    (hG : Lets G B s a ix.linked) (hr : Serves G a [sizeofVal, mapEntrySize, k.strlen + 1])
    (hk : k.Fits) (hin : InPool w.value) (hfind : ix.find k = none)
    (hQ : ∀ E K u a' ix', Inserted B s a ix k E K u a' ix' → u.field (B + E) MapEntry.val = w →
      a'.cur ≤ a.cur + roomFor [sizeofVal, mapEntrySize, k.strlen + 1] → Q () u) :
    wp G (putVal k w) Q s := by
  unfold putVal
  refine wp_bind ((Work.start h).wp_malloc hG hr (by decide) (by decide) fun q a₁ t₁ hq hw₁ hf₁ => ?_)
  have hqO : Owns a₁ q sizeofVal := hq.owns (by decide)
  refine wp_bind (hw₁.wp_store hG hq.mine hqO (by decide) fun hw₂ hf₂ => ?_)
  have hF := hf₁.step hf₂ fun o ho => by
    obtain rfl : o = q := by simpa using ho
    exact hq.mine
  refine wp_moveInsert hm hG hw₂ hF (hr.2 _ _ hq) hk hqO hq.ne_mapRecord hq.fresh
    (field_write_same t₁ (B + q) Val.all w) hin hfind fun E K u a' ix' hi hval _ _ hc => ?_
  refine hQ E K u a' ix' hi hval ?_
  have h1 := hq.cur_le
  simp only [roomFor, List.map_cons, List.map_nil, List.sum_cons, List.sum_nil] at hc ⊢
  omega

/-- `touchdb_put_str` on a new key: the entry points to the new string with its length, and four
blocks are newly in use. -/
theorem wp_touchdbPutStr_created {Q : ℕ → Touchdb → Prop} (h : Heap B s a) (hm : MapRep B s a ix)
    (hG : Lets G B s a ix.linked)
    (hr : Serves G a [sizeofVal, sizeofStr, x.strlen + 1, mapEntrySize, k.strlen + 1])
    (hk : k.Fits) (hx : x.Fits) (hfind : ix.find k = none)
    (hQ : ∀ E K S D u a' ix', Inserted B s a ix k E K u a' ix' →
      u.field (B + E) MapEntry.val = ⟨.str, addrOf S⟩ → StrRep B u a' S D x →
      S ∉ ix'.blocks → D ∉ ix'.blocks →
      a'.cur ≤ a.cur + roomFor [sizeofVal, sizeofStr, x.strlen + 1, mapEntrySize, k.strlen + 1] →
      ([E, K, S, D].Nodup ∧ ∀ o ∈ [E, K, S, D], ¬ Used a o) →
      (∀ o, Used a' o ↔ Used a o ∨ o ∈ [E, K, S, D]) →
      u.field (B + S) Str.len = UInt32.ofNat (x.strlen + 1) → Q NULL u) :
    wp G (touchdbPutStr k x) Q s := by
  unfold touchdbPutStr
  refine wp_bind ((Work.start h).wp_malloc hG hr (by decide) (by decide) fun q a₁ t₁ hq hw₁ hf₁ => ?_)
  have hqO : Owns a₁ q sizeofVal := hq.owns (by decide)
  have hmq : Mine a ix.linked q := hq.mine
  have hr₁ := hr.2 _ _ hq
  refine wp_bind (wp_touchdbStrNew2_len hw₁ hG
    ⟨hr₁.1, fun o a' ho => ⟨(hr₁.2 o a' ho).1, fun _ _ _ => trivial⟩⟩
    hmq hqO hx fun S D a₂ a₃ t₂ hS hD hw₂ hf₂ hrep hqw hlen => ?_)
  have hF := hf₁.step hf₂ fun o ho => by
    obtain rfl : o = q := by simpa using ho
    exact hq.mine
  have hqO₃ := hD.keep (hS.keep hqO)
  refine wp_bind (wp_put2Insert hm hG hw₂ hF ((hr₁.2 _ _ hS).2 _ _ hD) hk hqO₃ hq.fresh hqw
    hrep.str.inPool hfind fun E K a₄ a₅ u ix' hE hK hi hw₃ hf₃ hval hqb => ?_)
  have hSb : S ∉ ix.blocks := fun hc => (hm.owns hc).ne_none (hq.fresh_of hS.fresh)
  have hDb : D ∉ ix.blocks := fun hc => (hm.owns hc).ne_none (hq.fresh_of (hS.fresh_of hD.fresh))
  have hSb' := hi.notMem_blocks hSb (hrep.str.ne hE.fresh) ((hE.keep hrep.str).ne hK.fresh)
  have hDb' := hi.notMem_blocks hDb (hrep.chars.ne hE.fresh) ((hE.keep hrep.chars).ne hK.fresh)
  refine wp_bind (hw₃.wp_free hG hmq (hK.keep (hE.keep hqO₃)) fun a₆ v hfr hw₄ hf₄ _ => wp_pure ?_)
  have hSq : S ≠ q := fun hc => hqO.ne hS.fresh hc.symm
  have hDq : D ≠ q := fun hc => (hS.keep hqO).ne hD.fresh hc.symm
  have hi' := hi.free hw₄.heap hf₄ hqb hq.ne_mapRecord hq.fresh
  have hEd : (⟨E, k, K⟩ : MapNode) ∈ ix'.entries := by rw [hi.entries]; simp
  have hEq : E ≠ q := fun hc => hqO₃.ne hE.fresh hc.symm
  have hKq : K ≠ q := fun hc => (hE.keep hqO₃).ne hK.fresh hc.symm
  have hSE : S ≠ E := hrep.str.ne hE.fresh
  have hSK : S ≠ K := (hE.keep hrep.str).ne hK.fresh
  have hDE : D ≠ E := hrep.chars.ne hE.fresh
  have hDK : D ≠ K := (hE.keep hrep.chars).ne hK.fresh
  have hEK : E ≠ K := (hE.owns (n := mapEntrySize) (by decide)).ne hK.fresh
  have hrep₃ := hrep.frame hf₃ (hrep.str.notMem_linked hSb) (hrep.chars.notMem_linked hDb)
  refine hQ E K S D v a₆ ix' hi' ?_ (hrep₃.frame hf₄ (by simpa using hSq) (by simpa using hDq)) hSb'
    hDb' ?_ ⟨?_, ?_⟩ (fun o => ?_) ?_
  · rw [hf₄.val (hi.rep.entry _ hEd).blk, hval]
    exact fun hc => hqb (List.mem_singleton.mp hc ▸ Index.blk_mem hEd)
  · have h1 := hq.cur_le
    have h2 := hS.cur_le
    have h3 := hD.cur_le
    have h4 := hE.cur_le
    have h5 := hK.cur_le
    rw [hfr.cur_eq]
    simp only [roomFor, List.map_cons, List.map_nil, List.sum_cons, List.sum_nil]
    omega
  · simp only [List.nodup_cons, List.mem_cons, List.not_mem_nil, or_false, not_or, not_false_eq_true,
      List.nodup_nil, and_true]
    exact ⟨⟨hEK, hSE.symm, hDE.symm⟩, ⟨hSK.symm, hDK.symm⟩, hrep.ne⟩
  · have hSf : ¬ Used a S := fun hu => hS.not_used (hq.used_iff.mpr (.inl hu))
    have hDf : ¬ Used a D := fun hu => hD.not_used (hS.used_iff.mpr (.inl (hq.used_iff.mpr (.inl hu))))
    have hEf : ¬ Used a E := fun hu => hu hi.blk_fresh
    have hKf : ¬ Used a K := fun hu => hu hi.keyBlk_fresh
    simpa using ⟨hEf, hKf, hSf, hDf⟩
  · have hqf : ¬ Used a q := hq.not_used
    rw [hfr.used_iff, hK.used_iff, hE.used_iff, hD.used_iff, hS.used_iff, hq.used_iff]
    simp only [List.mem_cons, List.not_mem_nil, or_false]
    constructor
    · rintro ⟨((((hu | ho) | ho) | ho) | ho) | ho, hne⟩
      · exact .inl hu
      · exact absurd ho hne
      · exact .inr (.inr (.inr (.inl ho)))
      · exact .inr (.inr (.inr (.inr ho)))
      · exact .inr (.inl ho)
      · exact .inr (.inr (.inl ho))
    · rintro (hu | rfl | rfl | rfl | rfl)
      · refine ⟨by simp [hu], ?_⟩
        rintro rfl
        exact hqf hu
      · exact ⟨by simp, hEq⟩
      · exact ⟨by simp, hKq⟩
      · exact ⟨by simp, hSq⟩
      · exact ⟨by simp, hDq⟩
  · rw [hf₄.field (by simpa using hSq) hrep₃.str (by decide),
      hf₃.field (hrep.str.notMem_linked hSb) hrep.str (by decide)]
    exact hlen

/-- `touchdb_put_str` on a new key: the entry points to the new string. -/
theorem wp_touchdbPutStr_insert {Q : ℕ → Touchdb → Prop} (h : Heap B s a) (hm : MapRep B s a ix)
    (hG : Lets G B s a ix.linked)
    (hr : Serves G a [sizeofVal, sizeofStr, x.strlen + 1, mapEntrySize, k.strlen + 1])
    (hk : k.Fits) (hx : x.Fits) (hfind : ix.find k = none)
    (hQ : ∀ E K S D u a' ix', Inserted B s a ix k E K u a' ix' →
      u.field (B + E) MapEntry.val = ⟨.str, addrOf S⟩ → StrRep B u a' S D x →
      S ∉ ix'.blocks → D ∉ ix'.blocks →
      a'.cur ≤ a.cur + roomFor [sizeofVal, sizeofStr, x.strlen + 1, mapEntrySize, k.strlen + 1] →
      Q NULL u) :
    wp G (touchdbPutStr k x) Q s :=
  wp_touchdbPutStr_created h hm hG hr hk hx hfind fun E K S D u a' ix' hi hv hs hS hD hc _ _ _ =>
    hQ E K S D u a' ix' hi hv hs hS hD hc

end Insert

section Overwrite

/-- A value that is not a string is put on a key of the index, and its block is released. -/
theorem wp_moveOverwrite {Q : Unit → Touchdb → Prop} (hm : MapRep B s a ix)
    (hG : Lets G B s a [e.blk]) (hw : Work B s a [e.blk] t a₁) (hF : Frame B s a t a₁ [])
    (hq : Owns a₁ q sizeofVal) (hq0 : q ≠ mapRecord) (hqf : a.payload q = none)
    (hqw : t.field (B + q) Val.all = w) (hin : InPool w.value) (hwt : w.type ≠ .str)
    (hfind : ix.find k = some e)
    (hQ : ∀ u a', Overwritten B s a ix e.blk w [] u a' → Frame B t a₁ u a' [q, e.blk] →
      a'.cur = a₁.cur → Q () u) :
    wp G (do
      let _ ← touchdbMapPut2 k (B + q)
      touchdbFree (addrOf q)) Q t := by
  have he := (Index.find_eq_some.mp hfind).1
  have hmq : Mine a [e.blk] q := .inr ⟨hq0, hqf⟩
  have hqb : ∀ o ∈ ix.blocks, o ≠ q := fun o ho => (hm.owns ho).ne hqf
  have hm₂ := hm.frame hF (by simp) (by simp)
  refine wp_bind (wp_touchdbMapPut2_found hw.heap hm₂ hG.reads hfind (wp_mapPut2Overwrite hw.heap
    hm₂ he (hw.lets hG fun o ho => .inl ho) (by simp) hq hqw hin fun v hwv hov => ?_))
  refine wp_touchdbValDestroy_other hwv.heap (.of_field (hov.rep.entry e he).blk hov.val) hwt ?_
  have hw₃ := hw.step hwv fun o ho => .inl ho
  refine hw₃.wp_free hG hmq hq fun a₂ u hfr hw₄ hf₄ _ => ?_
  have hne : e.blk ∉ [q] := by simpa using hqb _ (Index.blk_mem he)
  refine hQ u a₂ ⟨hw₄.heap, hw₄.frame, hov.rep.frame hf₄ (fun o ho => by simpa using hqb o ho)
    (by simpa using hq0.symm), ?_⟩ ((hov.frame.trans hf₄).drop fun o ho => .inl ?_) hfr.cur_eq
  · rw [hf₄.val (hov.rep.entry e he).blk hne, hov.val]
  · simpa [or_comm] using ho

theorem wp_putVal_overwrite {Q : Unit → Touchdb → Prop} (h : Heap B s a) (hm : MapRep B s a ix)
    (hG : Lets G B s a [e.blk]) (hr : Serves G a [sizeofVal]) (hin : InPool w.value)
    (hw : w.type ≠ .str) (hfind : ix.find k = some e)
    (hQ : ∀ u a', Overwritten B s a ix e.blk w [] u a' →
      a'.cur ≤ a.cur + roomFor [sizeofVal] → Q () u) :
    wp G (putVal k w) Q s := by
  unfold putVal
  refine wp_bind ((Work.start h).wp_malloc hG hr (by decide) (by decide) fun q a₁ t₁ hq hw₁ hf₁ => ?_)
  have hqO : Owns a₁ q sizeofVal := hq.owns (by decide)
  refine wp_bind (hw₁.wp_store hG hq.mine hqO (by decide) fun hw₂ hf₂ => ?_)
  have hF := hf₁.step hf₂ fun o ho => by
    obtain rfl : o = q := by simpa using ho
    exact hq.mine
  refine wp_moveOverwrite hm hG hw₂ hF hqO hq.ne_mapRecord hq.fresh
    (field_write_same t₁ (B + q) Val.all w) hin hw hfind fun u a' ho _ hc => hQ u a' ho ?_
  have h1 := hq.cur_le
  rw [hc]
  simp only [roomFor, List.map_cons, List.map_nil, List.sum_cons, List.sum_nil]
  omega

/-- `touchdb_put_str` on a key of the index: the entry points to the new string, which has been
taken apart. -/
theorem wp_touchdbPutStr_overwrite {Q : ℕ → Touchdb → Prop} (h : Heap B s a)
    (hm : MapRep B s a ix) (hG : Lets G B s a [e.blk])
    (hr : Serves G a [sizeofVal, sizeofStr, x.strlen + 1]) (hx : x.Fits)
    (hfind : ix.find k = some e)
    (hQ : ∀ S u a', Overwritten B s a ix e.blk ⟨.str, addrOf S⟩ [] u a' → 0 < S →
      S ≤ touchdbDefaultPoolSize → a'.payload S = none →
      a'.cur ≤ a.cur + roomFor [sizeofVal, sizeofStr, x.strlen + 1] →
      Q (B + e.blk + MapEntry.val.off) u) :
    wp G (touchdbPutStr k x) Q s := by
  have he := (Index.find_eq_some.mp hfind).1
  unfold touchdbPutStr
  refine wp_bind ((Work.start h).wp_malloc hG hr (by decide) (by decide) fun q a₁ t₁ hq hw₁ hf₁ => ?_)
  have hqO : Owns a₁ q sizeofVal := hq.owns (by decide)
  have hmq : Mine a [e.blk] q := hq.mine
  refine wp_bind (wp_touchdbStrNew2 hw₁ hG (hr.2 _ _ hq) hmq hqO hx
    fun S D a₂ a₃ t₂ hS hD hw₂ hf₂ hrep hqw => ?_)
  have hqO₃ := hD.keep (hS.keep hqO)
  have hSf : a.payload S = none := hq.fresh_of hS.fresh
  have hDf : a.payload D = none := hq.fresh_of (hS.fresh_of hD.fresh)
  have hmS : Mine a [e.blk] S := .inr ⟨hS.ne_mapRecord, hSf⟩
  have hmD : Mine a [e.blk] D := .inr ⟨hD.ne_mapRecord, hDf⟩
  have hF := hf₁.step hf₂ fun o ho => by
    obtain rfl : o = q := by simpa using ho
    exact hq.mine
  have hm₂ := hm.frame hF (by simp) (by simp)
  have hnew {o : ℕ} (ho : a.payload o = none) : ∀ y ∈ ix.blocks, y ≠ o :=
    fun y hy => (hm.owns hy).ne ho
  have hblk := Index.blk_mem he
  refine wp_bind (wp_touchdbMapPut2_found hw₂.heap hm₂ hG.reads hfind (wp_mapPut2Overwrite
    (T := [e.blk, D, S]) hw₂.heap hm₂ he (hw₂.lets hG ?_) (by simp) hqO₃ hqw hrep.str.inPool
    fun t hwt hov => ?_))
  · intro o ho
    simp only [List.mem_cons, List.not_mem_nil, or_false] at ho
    rcases ho with rfl | rfl | rfl
    · exact .inl (by simp)
    · exact hmD
    · exact hmS
  have hw₃ : Work B s a [e.blk] t a₃ := by
    refine hw₂.step hwt fun o ho => ?_
    simp only [List.mem_cons, List.not_mem_nil, or_false] at ho
    rcases ho with rfl | rfl | rfl
    · exact .inl (by simp)
    · exact hmD
    · exact hmS
  have hO := (hov.rep.entry e he).blk
  have heS : e.blk ≠ S := hnew hSf _ hblk
  have heD : e.blk ≠ D := hnew hDf _ hblk
  have heq : e.blk ≠ q := hnew hq.fresh _ hblk
  have hqS : q ≠ S := hqO.ne hS.fresh
  have hqD : q ≠ D := (hS.keep hqO).ne hD.fresh
  have hdata : t.field (B + S) Str.data = addrOf D := by
    rw [hov.frame.field (by simpa using heS.symm) hrep.str (by decide)]
    exact hrep.data
  refine wp_touchdbValDestroy_str hw₃ hG (.of_field hO hov.val) hrep.str
    (hrep.chars.mono (by omega)) hdata hrep.ne heD hmS hmD fun a₄ a₅ t₅ hfD hfS hw₅ hf₅ => ?_
  have hqO₅ := hfS.keep (hfD.keep hqO₃ hqD) hqS
  refine wp_bind (hw₅.wp_free hG hmq hqO₅ fun a₆ u hfq hw₆ hf₆ _ => wp_pure ?_)
  have hm₅ := hov.rep.frame hf₅ (fun o ho => by simpa using ⟨hnew hDf o ho, hnew hSf o ho⟩)
    (by simpa using ⟨hD.ne_mapRecord.symm, hS.ne_mapRecord.symm⟩)
  have hm₆ := hm₅.frame hf₆ (fun o ho => by simpa using hnew hq.fresh o ho)
    (by simpa using hq.ne_mapRecord.symm)
  have hSb := hrep.str.bounds
  refine hQ S u a₆ ⟨hw₆.heap, hw₆.frame, hm₆, ?_⟩ (by omega) (by omega) ?_ ?_
  · rw [hf₆.val (hm₅.entry e he).blk (by simpa using heq),
      hf₅.val hO (by simpa using ⟨heD, heS⟩), hov.val]
  · rw [hfq.payload, Function.update_of_ne hqS.symm, hfS.payload, Function.update_self]
  · have h1 := hq.cur_le
    have h2 := hS.cur_le
    have h3 := hD.cur_le
    rw [hfq.cur_eq, hfS.cur_eq, hfD.cur_eq]
    simp only [roomFor, List.map_cons, List.map_nil, List.sum_cons, List.sum_nil]
    omega

end Overwrite

end TouchDb
