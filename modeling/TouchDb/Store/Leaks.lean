import TouchDb.Store.Owners

/-! Runs of both puts. An overwrite leaves the old value in use for ever and releases the new
one, so that a store has no leak as long as no key is written twice. -/
namespace TouchDb
open Prog Layout

/-- A run on a new store in which each key is written by one of the two calls. -/
def runApi (f : NewFiles) (api : CStr → Api) (kvs : Puts) : Except Stop Touchdb :=
  runNew f (kvs.map fun x => (api x.1.1).op x.1 x.2)

/-- What an insertion takes: the blocks of the entry, of its key and of its value. -/
structure Created (B : ℕ) (s : Touchdb) (a : PoolAlloc) (ix : Index) (k : CStr) (c : Api)
    (E K : ℕ) (l : List ℕ) (u : Touchdb) (a' : PoolAlloc) (ix' : Index) : Prop where
  inserted : Inserted B s a ix k E K u a' ix'
  held : ValHeld B u a' ⟨E, k, K⟩ c l
  nodup : (E :: K :: l).Nodup
  fresh : ∀ o ∈ E :: K :: l, ¬ Used a o
  used : ∀ o, Used a' o ↔ Used a o ∨ o ∈ E :: K :: l

/-- Every value is marked as a string. -/
def AllStr (B : ℕ) (s : Touchdb) (ix : Index) : Prop :=
  ∀ e ∈ ix.entries, (s.field (B + e.blk) MapEntry.val).type = .str

/-- The blocks in use are those of the index and those of the values, no block twice. -/
structure Tight (B : ℕ) (api : CStr → Api) (s : Touchdb) (a : PoolAlloc) (ix : Index)
    (vs : MapNode → List ℕ) : Prop where
  held : ∀ e ∈ ix.entries, ValHeld B s a e (api e.key) (vs e)
  nodup : (ix.blocks ++ ix.entries.flatMap vs).Nodup
  exact : ∀ o, Used a o ↔ o ∈ ix.blocks ++ ix.entries.flatMap vs

/-- The block at `V` belongs to the entry `d`. -/
def PartOf (B : ℕ) (api : CStr → Api) (s : Touchdb) (a : PoolAlloc) (ix : Index) (d : MapNode)
    (V : ℕ) : Prop :=
  V = d.blk ∨ V = d.keyBlk ∨
    ∃ l, ValHeld B s a d (api d.key) l ∧ V ∈ l ∧ ∀ o ∈ l, o ∉ ix.blocks

/-- The value of `e` refers to a block that is not in use, or belongs to another entry. -/
structure Lost (B : ℕ) (api : CStr → Api) (s : Touchdb) (a : PoolAlloc) (ix : Index) (e : MapNode)
    (V : ℕ) : Prop where
  mem : e ∈ ix.entries
  val : s.field (B + e.blk) MapEntry.val = ⟨.str, addrOf V⟩
  pos : 0 < V
  le : V ≤ touchdbDefaultPoolSize
  lost : ¬ Used a V ∨ ∃ d ∈ ix.entries, d ≠ e ∧ PartOf B api s a ix d V

structure LeakInv (B : ℕ) (api : CStr → Api) (kvs : Puts) (s : Touchdb) (a : PoolAlloc)
    (ix : Index) : Prop where
  heap : Heap B s a
  rep : MapRep B s a ix
  keys : ∀ k : Text, k.1 ∈ ix.entries.map MapNode.key ↔ k ∈ kvs.keys
  strs : AllStr B s ix
  tight : kvs.keys.Nodup → ∃ vs, Tight B api s a ix vs
  lost : ¬ kvs.keys.Nodup → ∃ e V, Lost B api s a ix e V

section Steps
variable {B : ℕ} {s u : Touchdb} {a a' : PoolAlloc} {ix ix' : Index} {e d : MapNode}
variable {api : CStr → Api} {k v : Text} {c : Api} {E K V : ℕ} {l : List ℕ}
variable {vs : MapNode → List ℕ} {kvs : Puts}

/-- A put of a new key. -/
theorem Api.wp_insert {Q : Touchdb → Prop} (h : Heap B s a) (hm : MapRep B s a ix)
    (hfind : ix.find k.1 = none)
    (hQ : ∀ E K l u a' ix', Created B s a ix k.1 c E K l u a' ix' → Q u) :
    wp served (c.op k v).run (fun _ => Q) s := by
  have hall : ∀ e, served.emits e := fun _ => trivial
  cases c with
  | put =>
    refine wp_bind (wp_touchdbMapPut_insert h hm (.of_all hall) (.of_stops rfl _ _) k.2 v.2 hfind
      fun E K V a₁ a₂ a' u ix' hE hK hV hi hval _ => wp_pure ?_)
    have hVO : Owns a' V (v.1.strlen + 1) := hV.owns (by omega)
    have hEO : Owns a₁ E mapEntrySize := hE.owns (by decide)
    have hKO : Owns a₂ K (k.1.strlen + 1) := hK.owns (by omega)
    refine hQ E K [V] u a' ix' ⟨hi, .put hval (hVO.mono (Nat.zero_le _)), ?_, ?_, fun o => ?_⟩
    · have h1 := hEO.ne hK.fresh
      have h2 := (hK.keep hEO).ne hV.fresh
      have h3 := hKO.ne hV.fresh
      simp [h1, h2, h3]
    · have h1 : ¬ Used a V := fun hu => hu (hE.fresh_of (hK.fresh_of hV.fresh))
      have h2 : ¬ Used a E := fun hu => hu hi.blk_fresh
      have h3 : ¬ Used a K := fun hu => hu hi.keyBlk_fresh
      simp [h1, h2, h3]
    · rw [hV.used_iff, hK.used_iff, hE.used_iff]
      simp only [List.mem_cons, List.not_mem_nil, or_false, or_assoc]
  | putStr =>
    refine wp_bind (wp_touchdbPutStr_created h hm (.of_all hall) (.of_stops rfl _ _) k.2 v.2 hfind
      fun E K S D u a' ix' hi hval hr _ _ _ hfresh hused _ => wp_pure ?_)
    exact hQ E K [S, D] u a' ix' ⟨hi, .putStr hval hr.str hr.data (hr.chars.mono (Nat.zero_le _)),
      hfresh.1, hfresh.2, hused⟩

/-- A put of a key that has a value: the new one is released at once. -/
theorem Api.wp_overwrite {Q : Touchdb → Prop} (h : Heap B s a) (hm : MapRep B s a ix)
    (hfind : ix.find k.1 = some e) (ht : (s.field (B + e.blk) MapEntry.val).type = .str)
    (hQ : ∀ V u a', Overwritten B s a ix e.blk ⟨.str, addrOf V⟩ [] u a' → ¬ Used a' V → 0 < V →
      V ≤ touchdbDefaultPoolSize → Q u) :
    wp served (c.op k v).run (fun _ => Q) s := by
  have hall : ∀ e, served.emits e := fun _ => trivial
  have he := (Index.find_eq_some.mp hfind).1
  cases c with
  | put =>
    refine wp_bind (wp_touchdbMapPut_found h hm (fun _ _ _ => hall _) hfind ?_)
    refine wp_mapPutOverwrite_str h hm he (.of_all hall) (.of_stops rfl _ _) v.2 ht
      fun V a₁ a' u hV hF ho _ => wp_pure ?_
    have hb := (hV.owns (by omega : 1 ≤ v.1.strlen + 1)).bounds
    exact hQ V u a' ho (fun hu => (hF.used_iff.mp hu).2 rfl) (by omega) (by omega)
  | putStr =>
    refine wp_bind (wp_touchdbPutStr_overwrite h hm (.of_all hall) (.of_stops rfl _ _) v.2 hfind
      fun S u a' ho h0 hS hgone _ => wp_pure ?_)
    exact hQ S u a' ho (fun hu => hu hgone) h0 hS

theorem Created.mem_blocks (h : Created B s a ix k.1 c E K l u a' ix') {o : ℕ} :
    o ∈ ix'.blocks ↔ o ∈ ix.blocks ∨ o = E ∨ o = K := by
  unfold Index.blocks
  rw [h.inserted.tbl, h.inserted.entries]
  simp only [List.map_append, List.map_cons, List.map_nil, List.mem_cons, List.mem_append,
    List.not_mem_nil, or_false]
  tauto

/-- The value of an older entry stays as it is. -/
theorem Created.valHeld (h : Created B s a ix k.1 c E K l u a' ix') (he : e ∈ ix.entries)
    {c' : Api} {l' : List ℕ} (hv : ValHeld B s a e c' l') (hb : ∀ o ∈ l', o ∉ ix.blocks) :
    ValHeld B u a' e c' l' :=
  hv.frame (h.inserted.vals e he) h.inserted.frame fun o ho => (hv.owns ho).notMem_linked (hb o ho)

theorem Created.new_notMem (h : Created B s a ix k.1 c E K l u a' ix') (hm : MapRep B s a ix) :
    (⟨E, k.1, K⟩ : MapNode) ∉ ix.entries := fun hc =>
  h.fresh E (by simp) (hm.owns (Index.blk_mem hc)).used

theorem Created.strs (h : Created B s a ix k.1 c E K l u a' ix') (hs : AllStr B s ix) :
    AllStr B u ix' := by
  intro e he
  rw [h.inserted.entries] at he
  rcases List.mem_append.mp he with he | he
  · rw [h.inserted.vals e he]
    exact hs e he
  · rw [List.mem_singleton.mp he]
    rcases h.held with ⟨val, -⟩ | ⟨val, -, -, -⟩
    · rw [val]
    · rw [val]

/-- A new key takes blocks that nobody had. -/
theorem Tight.insert (ht : Tight B api s a ix vs) (hm : MapRep B s a ix)
    (h : Created B s a ix k.1 (api k.1) E K l u a' ix') :
    Tight B api u a' ix' (Function.update vs ⟨E, k.1, K⟩ l) := by
  have hne {e : MapNode} (he : e ∈ ix.entries) : e ≠ ⟨E, k.1, K⟩ := fun hc =>
    h.new_notMem hm (hc ▸ he)
  have hold : ix.entries.flatMap (Function.update vs ⟨E, k.1, K⟩ l) = ix.entries.flatMap vs :=
    List.flatMap_congr fun e he => Function.update_of_ne (hne he) _ _
  have hflat : ix'.entries.flatMap (Function.update vs ⟨E, k.1, K⟩ l) =
      ix.entries.flatMap vs ++ l := by
    rw [h.inserted.entries, List.flatMap_append, hold]
    simp
  obtain ⟨-, hnv, hdisj⟩ := List.nodup_append.mp ht.nodup
  have hused {o : ℕ} (ho : o ∈ ix.blocks ∨ o ∈ ix.entries.flatMap vs) : Used a o :=
    (ht.exact o).mpr (List.mem_append.mpr ho)
  refine ⟨fun e he => ?_, ?_, fun o => ?_⟩
  · rw [h.inserted.entries] at he
    rcases List.mem_append.mp he with he | he
    · rw [Function.update_of_ne (hne he)]
      refine h.valHeld he (ht.held e he) fun o ho hb => ?_
      exact hdisj o hb o (List.mem_flatMap.mpr ⟨e, he, ho⟩) rfl
    · rw [List.mem_singleton.mp he, Function.update_self]
      exact h.held
  · obtain ⟨hE, hKl⟩ := List.nodup_cons.mp h.nodup
    obtain ⟨hK, hl⟩ := List.nodup_cons.mp hKl
    rw [hflat]
    refine List.nodup_append.mpr ⟨ix'.apart, List.nodup_append.mpr ⟨hnv, hl, ?_⟩, ?_⟩
    · rintro o ho _ hol rfl
      exact h.fresh o (by simp [hol]) (hused (.inr ho))
    · rintro o ho _ hol rfl
      rcases h.mem_blocks.mp ho with hb | rfl | rfl
      · rcases List.mem_append.mp hol with hv | hv
        · exact hdisj o hb o hv rfl
        · exact h.fresh o (by simp [hv]) (hused (.inl hb))
      · rcases List.mem_append.mp hol with hv | hv
        · exact h.fresh o (by simp) (hused (.inr hv))
        · exact hE (List.mem_cons_of_mem _ hv)
      · rcases List.mem_append.mp hol with hv | hv
        · exact h.fresh o (by simp) (hused (.inr hv))
        · exact hK hv
  · rw [h.used, ht.exact, hflat]
    simp only [List.mem_append, List.mem_cons, h.mem_blocks]
    tauto

/-- What is lost stays lost: the block comes back as part of a new entry only. -/
theorem Lost.insert (hl : Lost B api s a ix e V) (hm : MapRep B s a ix)
    (h : Created B s a ix k.1 (api k.1) E K l u a' ix') : Lost B api u a' ix' e V := by
  have hmem {d : MapNode} (hd : d ∈ ix.entries) : d ∈ ix'.entries := by
    rw [h.inserted.entries]
    exact List.mem_append_left _ hd
  refine ⟨hmem hl.mem, (h.inserted.vals e hl.mem).trans hl.val, hl.pos, hl.le, ?_⟩
  rcases hl.lost with hu | ⟨d, hd, hne, hp⟩
  · by_cases hV : V ∈ E :: K :: l
    · refine .inr ⟨⟨E, k.1, K⟩, ?_, fun hc => h.new_notMem hm (hc ▸ hl.mem), ?_⟩
      · rw [h.inserted.entries]
        simp
      · rcases List.mem_cons.mp hV with rfl | hV
        · exact .inl rfl
        · rcases List.mem_cons.mp hV with rfl | hV
          · exact .inr (.inl rfl)
          · refine .inr (.inr ⟨l, h.held, hV, fun o ho hb => ?_⟩)
            obtain ⟨hE, hKl⟩ := List.nodup_cons.mp h.nodup
            rcases h.mem_blocks.mp hb with hb | rfl | rfl
            · exact h.fresh o (by simp [ho]) (hm.owns hb).used
            · exact hE (List.mem_cons_of_mem _ ho)
            · exact (List.nodup_cons.mp hKl).1 ho
    · refine .inl fun hc => ?_
      exact (h.used V).mp hc |>.elim hu hV
  · refine .inr ⟨d, hmem hd, hne, ?_⟩
    rcases hp with hp | hp | ⟨l', hv, hV, hb⟩
    · exact .inl hp
    · exact .inr (.inl hp)
    · refine .inr (.inr ⟨l', h.valHeld hd hv hb, hV, fun o ho hc => ?_⟩)
      rcases h.mem_blocks.mp hc with hc | rfl | rfl
      · exact hb o ho hc
      · exact h.fresh o (by simp) (hv.owns ho).used
      · exact h.fresh o (by simp) (hv.owns ho).used

theorem Overwritten.strs (h : Overwritten B s a ix e.blk ⟨.str, addrOf V⟩ [] u a')
    (hm : MapRep B s a ix) (he : e ∈ ix.entries) (hs : AllStr B s ix) : AllStr B u ix := by
  intro d hd
  by_cases hde : d = e
  · rw [hde, h.val]
  · rw [(h.keeps hm he hd hde).val]
    exact hs d hd

theorem LeakInv.step (h : LeakInv B api kvs s a ix) :
    Run.Post (fun e => e = .noBlock) (((api k.1).op k v).step s) fun t =>
      ∃ a ix, LeakInv B api (kvs ++ [(k, v)]) t a ix := by
  refine .of_wp (G := served) (P := fun _ t => ∃ a ix, LeakInv B api (kvs ++ [(k, v)]) t a ix) ?_
    (fun _ h => h) fun _ _ h => h
  have hkeys := History.keys_append kvs (k, v)
  rcases hfind : ix.find k.1 with _ | e
  · refine Api.wp_insert h.heap h.rep hfind fun E K l u a' ix' hc => ⟨a', ix', ?_⟩
    have hnew : k ∉ kvs.keys := fun hk => Index.find_eq_none.mp hfind ((h.keys k).mpr hk)
    have hnodup : (kvs ++ [(k, v)]).keys.Nodup ↔ kvs.keys.Nodup := by
      rw [hkeys, List.nodup_append]
      refine ⟨fun hd => hd.1, fun hd => ⟨hd, List.nodup_singleton _, ?_⟩⟩
      rintro x hx y hy rfl
      obtain rfl : x = k := List.mem_singleton.mp hy
      exact hnew hx
    refine ⟨hc.inserted.heap, hc.inserted.rep, fun k' => ?_, hc.strs h.strs, fun hd => ?_,
      fun hd => ?_⟩
    · rw [hc.inserted.entries, List.map_append, List.mem_append, h.keys k', hkeys, List.mem_append]
      refine or_congr_right ?_
      simp only [List.map_cons, List.map_nil, List.mem_singleton]
      exact ⟨fun he => Subtype.ext he, fun he => he ▸ rfl⟩
    · obtain ⟨vs, ht⟩ := h.tight (hnodup.mp hd)
      exact ⟨_, ht.insert h.rep hc⟩
    · obtain ⟨e, V, hl⟩ := h.lost (mt hnodup.mpr hd)
      exact ⟨e, V, hl.insert h.rep hc⟩
  · obtain ⟨he, hek⟩ := Index.find_eq_some.mp hfind
    have hmem : k ∈ kvs.keys := (h.keys k).mp (hek ▸ List.mem_map_of_mem he)
    refine Api.wp_overwrite h.heap h.rep hfind (h.strs e he) fun V u a' ho hu h0 hV => ⟨a', ix, ?_⟩
    refine ⟨ho.heap, ho.rep, fun k' => ?_, ho.strs h.rep he h.strs, fun hd => ?_, fun _ =>
      ⟨e, V, he, ho.val, h0, hV, .inl hu⟩⟩
    · rw [h.keys k', hkeys, List.mem_append, List.mem_singleton]
      exact ⟨.inl, fun hc => hc.elim id fun hc => hc ▸ hmem⟩
    · rw [hkeys, List.nodup_append] at hd
      exact absurd rfl (hd.2.2 k hmem k (by simp))

theorem runApi_inv (f : NewFiles) (api : CStr → Api) (kvs : Puts) :
    Run.Post (fun e => e = .noBlock) (runApi f api kvs) fun s =>
      ∃ a ix, LeakInv f.ptr api kvs s a ix := by
  refine runNew_of_step (fun k v => (api k.1).op k v)
    (I := fun kvs s => ∃ a ix, LeakInv f.ptr api kvs s a ix) (fun tbl a u ht hu hm => ?_)
    (fun kvs k v s ⟨a, ix, h⟩ => h.step) kvs
  refine ⟨a, _, hu, hm, by simp [Index.empty, History.keys], fun e he => ?_, fun _ => ?_, fun hd =>
    absurd List.nodup_nil hd⟩
  · exact absurd he List.not_mem_nil
  · refine ⟨fun _ => [], fun e he => absurd he List.not_mem_nil, ?_, fun o => ?_⟩
    · simp [Index.empty, Index.blocks]
    · have h0 : ¬ Used freshAlloc o := fun hu => hu rfl
      rw [ht.used_iff]
      simp [Index.empty, Index.blocks, h0]

/-- A store whose blocks in use are those of its index has no leak. -/
theorem Tight.noLeak (ht : Tight B api s a ix vs) (hh : Heap B s a) (hm : MapRep B s a ix) :
    NoLeak s api := by
  have hmap : (ix.owners api).map (·.block s) = (ix.blocks ++ ix.entries.flatMap vs).map some := by
    unfold Index.owners Index.blocks
    simp only [List.map_append, List.map_cons, List.map_map, List.map_flatMap]
    refine congrArg₂ _ (congrArg₂ _ hm.block_table (congrArg₂ _ rfl ?_)) ?_
    · exact List.map_congr_left fun e he => hm.block_key hh he
    · exact List.flatMap_congr fun e he => (ht.held e he).blocks hh
  constructor
  · intro o
    rw [hh.allocated_zero, ht.exact]
    constructor
    · intro ho
      have hs : some o ∈ (ix.owners api).map (·.block s) := hmap ▸ List.mem_map_of_mem ho
      obtain ⟨w, hw, hb⟩ := List.mem_map.mp hs
      exact ⟨w, (hm.reachable_iff hh).mpr hw, hb⟩
    · rintro ⟨w, hw, hb⟩
      have hs : w.block s ∈ (ix.owners api).map (·.block s) :=
        List.mem_map_of_mem ((hm.reachable_iff hh).mp hw)
      rw [hmap, hb] at hs
      obtain ⟨x, hx, hxo⟩ := List.mem_map.mp hs
      exact Option.some.inj hxo ▸ hx
  · intro o w w' hw hw' hb hb'
    have hn : ((ix.owners api).map (·.block s)).Nodup := by
      rw [hmap]
      exact ht.nodup.map fun _ _ h => Option.some.inj h
    exact List.inj_on_of_nodup_map hn ((hm.reachable_iff hh).mp hw) ((hm.reachable_iff hh).mp hw')
      (hb.trans hb'.symm)

/-- A value that refers to no block of its own is a dangling reference, or a second owner. -/
theorem Lost.not_noLeak (hl : Lost B api s a ix e V) (hh : Heap B s a) (hm : MapRep B s a ix) :
    ¬ NoLeak s api := by
  intro hn
  have hlt := poolSize_lt
  have hle := hl.le
  have hin {d : MapNode} (hd : d ∈ ix.entries) : InIndex s d.blk :=
    (hm.inIndex_iff hh).mpr ⟨d, hd, rfl⟩
  have hw : Reachable s api (.value e.blk) := hin hl.mem
  have hb : (Owner.value e.blk).block s = some V := block_value hh hl.val hl.pos (by omega)
  rcases hl.lost with hu | ⟨d, hd, hne, hp⟩
  · exact hu (hh.allocated_zero.mp ((hn.exact V).mpr ⟨_, hw, hb⟩))
  · have hblk : d.blk ≠ e.blk := fun hc =>
      hne (List.inj_on_of_nodup_map ix.blks_nodup hd hl.mem hc)
    rcases hp with rfl | rfl | ⟨l, hv, hV, -⟩
    · exact absurd (hn.single d.blk _ (.entry d.blk) hw (hin hd) hb rfl) (by simp)
    · exact absurd (hn.single d.keyBlk _ (.key d.blk) hw (hin hd) hb (hm.block_key hh hd)) (by simp)
    · have hs : some V ∈ (valOwners d.blk (api d.key)).map (·.block s) :=
        hv.blocks hh ▸ List.mem_map_of_mem hV
      obtain ⟨w, hwd, hwb⟩ := List.mem_map.mp hs
      have hr : Reachable s api w := (hm.reachable_iff hh).mpr
        (List.mem_append_right _ (List.mem_flatMap.mpr ⟨d, hd, hwd⟩))
      have heq := hn.single V _ w hw hr hb hwb
      rcases mem_valOwners.mp hwd with rfl | ⟨-, rfl⟩
      · exact hblk (Owner.value.inj heq).symm
      · cases heq

end Steps

/-- A store has no leak and no dangling reference if and only if no key was written twice. -/
theorem noLeak_iff (f : NewFiles) (api : CStr → Api) (kvs : Puts) :
    Run.Post (fun e => e = .noBlock) (runApi f api kvs) fun s =>
      NoLeak s api ↔ kvs.keys.Nodup := by
  refine (runApi_inv f api kvs).mono fun s ⟨a, ix, h⟩ => ⟨fun hn => ?_, fun hd => ?_⟩
  · by_contra hd
    obtain ⟨e, V, hl⟩ := h.lost hd
    exact hl.not_noLeak h.heap h.rep hn
  · obtain ⟨vs, ht⟩ := h.tight hd
    exact ht.noLeak h.heap h.rep

/-- A key that is written twice. -/
theorem noLeak_overwrite_fails :
    ∃ s, runApi .page (fun _ => .put) [(text 1 97, text 1 120), (text 1 97, text 1 121)] = .ok s ∧
      ¬ NoLeak s fun _ => .put := by
  obtain ⟨s, hs, -⟩ := runNew_ends .page [.put (text 1 97) (text 1 120),
    .put (text 1 97) (text 1 121)] (by decide)
  obtain ⟨a, ix, h⟩ := (runApi_inv .page (fun _ => .put)
    [(text 1 97, text 1 120), (text 1 97, text 1 121)]).ok hs
  obtain ⟨e, V, hl⟩ := h.lost (by decide)
  exact ⟨s, hs, hl.not_noLeak h.heap h.rep⟩

end TouchDb
