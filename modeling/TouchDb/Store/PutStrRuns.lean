import TouchDb.Store.Puts

/-! Runs of `touchdb_put_str` alone. An overwrite takes the new string apart, so that a key has
a string in use as long as it is put once only. -/
namespace TouchDb
open Prog Layout

/-- A run of `touchdb_put_str` on a new store. -/
def runPutStrs (f : NewFiles) (kvs : Puts) : Except Stop Touchdb :=
  runNew f (kvs.map fun x => .putStr x.1 x.2)

/-- What `touchdb_get_str` goes through for `k`: the value in the entry at `E`, the struct at
`S` and the characters at `D`. All of them are in use, and the characters are `v`. -/
structure StrPath (s : Touchdb) (k v : CStr) (E S D : ℕ) : Prop where
  entry : ∃ l, touchdbMapGet2 k s = .ok (s.base 0 + E + MapEntry.val.off, s, l)
  val : s.field (s.base 0 + E) MapEntry.val = ⟨.str, addrOf S⟩
  data : s.field (s.base 0 + S) Str.data = addrOf D
  result : ∃ l, touchdbGetStr k s = .ok (s.base 0 + D, s, l)
  holds : s.holds (s.base 0 + D) v
  entry_used : Allocated s E mapEntrySize
  str_used : Allocated s S sizeofStr
  chars_used : Allocated s D (v.strlen + 1)

/-- `touchdb_get_str` returns `v` for `k`, by blocks in use only. -/
def GetsStr (s : Touchdb) (k v : CStr) : Prop := ∃ E S D, StrPath s k v E S D

/-- The string that the index holds for `e`, with its struct at `S`. -/
structure StrVal (B : ℕ) (kvs : Puts) (s : Touchdb) (a : PoolAlloc) (ix : Index) (e : MapNode)
    (S : ℕ) : Prop where
  val : s.field (B + e.blk) MapEntry.val = ⟨.str, addrOf S⟩
  le : S ≤ touchdbDefaultPoolSize
  /-- what was put once is in use -/
  once : ∀ k v : Text, k.1 = e.key → kvs.last k = some v → kvs.Once k →
    ∃ D, StrRep B s a S D v.1 ∧ S ∉ ix.blocks ∧ D ∉ ix.blocks
  /-- what has just been overwritten is not -/
  gone : ∀ k v : Text, k.1 = e.key → kvs.getLast? = some (k, v) → ¬ kvs.Once k → a.payload S = none

abbrev StrInv (B : ℕ) := PutsInv (fun kvs s a ix e => ∃ S, StrVal B kvs s a ix e S) B

section Step
variable {B : ℕ} {s u : Touchdb} {a a' : PoolAlloc} {ix ix' : Index} {e : MapNode}
variable {kvs : Puts} {k v : Text} {E K S D : ℕ}

/-- The string of an entry whose key is not the one that is put. -/
theorem StrVal.other (h : StrVal B kvs s a ix e S) (hkeep : Keeps B s a ix u a' ix' e)
    (hne : e.key ≠ k.1) : StrVal B (kvs ++ [(k, v)]) u a' ix' e S where
  val := hkeep.val.trans h.val
  le := h.le
  once k' v' hk hl ho := by
    obtain ⟨T, hF, hT⟩ := hkeep.frame
    obtain ⟨hl, ho⟩ := once_of_append hne hk hl ho
    obtain ⟨D, h1, hS, hD⟩ := h.once k' v' hk hl ho
    obtain ⟨h2, h3⟩ := hT S _ h1.str hS
    obtain ⟨h4, h5⟩ := hT D _ h1.chars hD
    exact ⟨D, h1.frame hF h2 h4, h3, h5⟩
  gone k' v' hk hl := by
    have hx : (k, v) = (k', v') := by simpa using hl
    obtain ⟨rfl, rfl⟩ := Prod.mk.inj hx
    exact absurd hk.symm hne

/-- The string of an entry that has just been inserted. -/
theorem StrVal.new (hval : u.field (B + e.blk) MapEntry.val = ⟨.str, addrOf S⟩) (hk : k.1 = e.key)
    (hnew : k ∉ kvs.keys) (hr : StrRep B u a' S D v.1) (hS : S ∉ ix'.blocks) (hD : D ∉ ix'.blocks) :
    StrVal B (kvs ++ [(k, v)]) u a' ix' e S where
  val := hval
  le := by
    have hb := hr.str.bounds
    omega
  once k' v' hk' hl _ := by
    obtain rfl : k' = k := Subtype.ext (hk'.trans hk.symm)
    rw [History.last_append_same] at hl
    obtain rfl := Option.some.inj hl
    exact ⟨D, hr, hS, hD⟩
  gone k' v' hk' _ ho := by
    obtain rfl : k' = k := Subtype.ext (hk'.trans hk.symm)
    exact absurd (History.once_append_new hnew) ho

/-- The string of an entry that has just been overwritten. -/
theorem StrVal.overwritten (hval : u.field (B + e.blk) MapEntry.val = ⟨.str, addrOf S⟩)
    (hk : k.1 = e.key) (hmem : k ∈ kvs.keys) (hS : S ≤ touchdbDefaultPoolSize)
    (hgone : a'.payload S = none) : StrVal B (kvs ++ [(k, v)]) u a' ix' e S where
  val := hval
  le := hS
  once k' v' hk' _ ho := by
    obtain rfl : k' = k := Subtype.ext (hk'.trans hk.symm)
    exact absurd ho (History.not_once_append hmem)
  gone _ _ _ _ _ := hgone

theorem StrInv.step (h : StrInv B kvs s a ix) :
    Run.Post (fun e => e = .noBlock) ((MapOp.putStr k v).step s) fun t =>
      ∃ a ix, StrInv B (kvs ++ [(k, v)]) t a ix := by
  refine .of_wp (G := served) (P := fun _ t => ∃ a ix, StrInv B (kvs ++ [(k, v)]) t a ix) ?_
    (fun _ h => h) fun _ _ h => h
  have hall : ∀ e, served.emits e := fun _ => trivial
  rcases hfind : ix.find k.1 with _ | e
  · have hnew : k ∉ kvs.keys := fun hc => Index.find_eq_none.mp hfind ((h.keys k).mpr hc)
    refine wp_bind (wp_touchdbPutStr_insert h.heap h.rep (.of_all hall) (.of_stops rfl _ _) k.2 v.2
      hfind fun E K S D u a' ix' hi hval hr hS hD _ => wp_pure ⟨a', ix', ?_⟩)
    exact h.insert hi hfind (fun e he hne ⟨S', hS'⟩ => ⟨S', hS'.other (hi.keeps he) hne⟩)
      ⟨S, .new hval rfl hnew hr hS hD⟩
  · obtain ⟨he, hek⟩ := Index.find_eq_some.mp hfind
    refine wp_bind (wp_touchdbPutStr_overwrite h.heap h.rep (.of_all hall) (.of_stops rfl _ _) v.2
      hfind fun S u a' ho _ hS hgone _ => wp_pure ⟨a', ix, ?_⟩)
    exact h.overwrite hfind ho (fun d hd hde hne ⟨S', hS'⟩ =>
      ⟨S', hS'.other (ho.keeps h.rep he hd hde) hne⟩)
      ⟨S, .overwritten ho.val hek.symm (h.mem_keys hfind) hS hgone⟩

theorem runPutStrs_inv (f : NewFiles) (kvs : Puts) :
    Run.Post (fun e => e = .noBlock) (runPutStrs f kvs) fun s => ∃ a ix, StrInv f.ptr kvs s a ix :=
  runNew_putsInv .putStr (fun _ _ _ _ _ _ h => StrInv.step h) kvs

/-- `touchdb_get_str` of a string in use. -/
theorem wp_touchdbGetStr_found {G : Guard Stop Event} {Q : ℕ → Touchdb → Prop} {k x : CStr}
    (h : Heap B s a) (hm : MapRep B s a ix) (hR : Reads G) (hk : ix.find k = some e)
    (hval : s.field (B + e.blk) MapEntry.val = ⟨.str, addrOf S⟩) (hr : StrRep B s a S D x)
    (hQ : Q (B + D) s) : wp G (touchdbGetStr k) Q s := by
  have hrep := hm.entry e (Index.find_eq_some.mp hk).1
  have hB := h.base_pos'
  have hval' : ValAt B s a e.blk MapEntry.val.off ⟨.str, addrOf S⟩ := .of_field hrep.blk hval
  have hv : B + e.blk + MapEntry.val.off ≠ NULL := by
    change B + e.blk + 28 ≠ 0
    omega
  unfold touchdbGetStr
  refine wp_bind (wp_touchdbMapGet2_found h hm hR hk ?_)
  rw [if_pos hv]
  refine wp_bind (wp_load_shift (by omega) (wp_loadCell h hrep.blk (by decide) ?_))
  rw [hval'.type, if_pos rfl]
  refine wp_bind (wp_load_shift (by omega) (wp_loadCell h hrep.blk (by decide) ?_))
  rw [hval'.value]
  refine wp_bind (wp_ptrOfOwned h hR hr.str (wp_bind (wp_loadCell h hr.str (by decide) ?_)))
  rw [hr.data]
  exact wp_ptrOfOwned h hR hr.chars hQ

/-- The pointer that `touchdb_map_get2` returns. -/
theorem MapRep.get2_ptr {k : CStr} (hm : MapRep B s a ix) (h : Heap B s a) (hk : ix.find k = some e) :
    ∃ l, touchdbMapGet2 k s = .ok (B + e.blk + MapEntry.val.off, s, l) := by
  obtain ⟨p, t, l, hg, -, rfl, rfl⟩ := wp_ends (G := anyEvent)
    (Q := fun p t => s = t ∧ p = B + e.blk + MapEntry.val.off)
    (wp_touchdbMapGet2_found h hm (fun _ _ _ => trivial) hk ⟨rfl, rfl⟩) fun _ h => h
  exact ⟨l, hg⟩

theorem StrRep.get_ptr {k x : CStr} (hr : StrRep B s a S D x) (h : Heap B s a) (hm : MapRep B s a ix)
    (hk : ix.find k = some e) (hval : s.field (B + e.blk) MapEntry.val = ⟨.str, addrOf S⟩) :
    ∃ l, touchdbGetStr k s = .ok (B + D, s, l) := by
  obtain ⟨p, t, l, hg, -, rfl, rfl⟩ := wp_ends (G := anyEvent) (Q := fun p t => s = t ∧ p = B + D)
    (wp_touchdbGetStr_found h hm (fun _ _ _ => trivial) hk hval hr ⟨rfl, rfl⟩) fun _ h => h
  exact ⟨l, hg⟩

theorem StrRep.gets {k x : CStr} (hr : StrRep B s a S D x) (h : Heap B s a) (hm : MapRep B s a ix)
    (hk : ix.find k = some e) (hval : s.field (B + e.blk) MapEntry.val = ⟨.str, addrOf S⟩) :
    GetsStr s k x := by
  obtain ⟨l, hg⟩ := hm.get2_ptr h hk
  obtain ⟨l', hg'⟩ := hr.get_ptr h hm hk hval
  have hB := h.base_eq
  exact ⟨e.blk, S, D, ⟨l, by rw [hB]; exact hg⟩, hB ▸ hval, hB ▸ hr.data,
    ⟨l', by rw [hB]; exact hg'⟩, hB ▸ hr.holds,
    h.allocated_iff.mpr (hm.entry e (Index.find_eq_some.mp hk).1).blk,
    h.allocated_iff.mpr hr.str, h.allocated_iff.mpr hr.chars⟩

/-- A key that is put once has its string. -/
theorem StrInv.gets (h : StrInv B kvs s a ix) (hl : kvs.last k = some v) (ho : kvs.Once k) :
    GetsStr s k.1 v.1 := by
  obtain ⟨e, he, hek, hfind⟩ := h.find_some (History.mem_keys_of_last hl)
  obtain ⟨S, hS⟩ := h.vals e he
  obtain ⟨D, hr, -, -⟩ := hS.once k v hek.symm hl ho
  exact hr.gets h.heap h.rep hfind hS.val

/-- What is returned stands behind the block that the entry refers to. -/
theorem GetsStr.struct {k x : CStr} (hg : GetsStr s k x) (h : Heap B s a) (hm : MapRep B s a ix)
    (hk : ix.find k = some e) (hval : s.field (B + e.blk) MapEntry.val = ⟨.str, addrOf S⟩)
    (hS : S ≤ touchdbDefaultPoolSize) :
    Owns a S sizeofStr ∧ ∃ D, s.field (B + S) Str.data = addrOf D := by
  obtain ⟨E, S', D, hp⟩ := hg
  obtain ⟨l, hg⟩ := hm.get2_ptr h hk
  obtain ⟨l', hg'⟩ := hp.entry
  rw [hg] at hg'
  have hptr := (Prod.mk.inj (Except.ok.inj hg')).1
  have hval' := hp.val
  have hB := h.base_eq
  rw [hB] at hptr hval'
  obtain rfl : E = e.blk := by omega
  rw [hval] at hval'
  have hown := h.allocated_iff.mp hp.str_used
  have hlt := poolSize_lt
  have haddr : addrOf S = addrOf S' := congrArg TouchdbVal.value hval'
  obtain rfl : S = S' := by
    rw [← addrOf_offset (o := S) (by omega), ← addrOf_offset hown.lt, haddr]
  exact ⟨hown, D, hB ▸ hp.data⟩

/-- A key that has just been overwritten has a string that is not in use. -/
theorem StrInv.not_gets {x : CStr} (h : StrInv B (kvs ++ [(k, v)]) s a ix) (hk : k ∈ kvs.keys) :
    ¬ GetsStr s k.1 x := by
  intro hg
  obtain ⟨e, he, hek, hfind⟩ := h.find_some (k := k) (by simp [History.keys_append])
  obtain ⟨S, hS⟩ := h.vals e he
  have hgone := hS.gone k v hek.symm (by simp) (History.not_once_append hk)
  exact (hg.struct h.heap h.rep hfind hS.val hS.le).1.ne_none hgone

end Step

section Runs
variable {f : NewFiles} {k x y : Text} {s t : Touchdb} {kvs pre post : Puts}

/-- The first part of a run. -/
theorem runPutStrs_prefix (h : runPutStrs f (pre ++ post) = .ok s) :
    ∃ t, runPutStrs f pre = .ok t := by
  unfold runPutStrs runNew runFrom at *
  rcases hn : (touchdbNew f.ptr).next f.db with e | m
  · rw [hn] at h
    cases h
  · rw [hn] at h
    change Run.exec MapOp.step ((pre ++ post).map _) m = .ok s at h
    rw [List.map_append] at h
    obtain ⟨t, ht, -⟩ := Run.exec_append_ok h
    exact ⟨t, ht⟩

end Runs

/-- In every state of a run the key `k` has the string that was last put on it, by blocks in
use, if and only if it is put once. -/
theorem getStr_lastPutStr (f : NewFiles) (kvs : Puts) (k : Text) (hk : k ∈ kvs.keys) :
    Run.Post (fun e => e = .noBlock) (runPutStrs f kvs) fun _ =>
      (∀ pre post t v, kvs = pre ++ post → runPutStrs f pre = .ok t → pre.last k = some v →
        GetsStr t k.1 v.1) ↔ kvs.Once k := by
  have hpost := runPutStrs_inv f kvs
  rcases hs : runPutStrs f kvs with e | s
  · rwa [hs] at hpost
  · refine ⟨fun h => ?_, ?_⟩
    · by_contra ho
      obtain ⟨pre, v, post, rfl, hpre⟩ := History.exists_rewrite hk ho
      have hsplit : pre ++ (k, v) :: post = (pre ++ [(k, v)]) ++ post := by simp
      obtain ⟨t, ht⟩ := runPutStrs_prefix (hsplit ▸ hs)
      obtain ⟨a, ix, hinv⟩ := (runPutStrs_inv f _).ok ht
      exact hinv.not_gets hpre (h _ _ t v hsplit ht (History.last_append_same _ _ _))
    · rintro ho pre post t v rfl ht hl
      obtain ⟨a, ix, hinv⟩ := (runPutStrs_inv f pre).ok ht
      exact hinv.gets hl (ho.of_append (History.mem_keys_of_last hl))

/-- Two keys, put once each. -/
theorem getStr_lastPutStr_two :
    (text 1 97) ∈ History.keys [(text 1 97, text 1 120), (text 1 98, text 8 121)] ∧
    ∃ s, runPutStrs .page [(text 1 97, text 1 120), (text 1 98, text 8 121)] = .ok s ∧
      GetsStr s (text 1 97).1 (text 1 120).1 := by
  obtain ⟨s, hs, -⟩ := runNew_ends .page [.putStr (text 1 97) (text 1 120),
    .putStr (text 1 98) (text 8 121)] (by decide)
  have h := (getStr_lastPutStr .page [(text 1 97, text 1 120), (text 1 98, text 8 121)]
    (text 1 97) (by decide)).ok hs
  exact ⟨by decide, s, hs, h.mpr (by decide) [(text 1 97, text 1 120), (text 1 98, text 8 121)] []
    s (text 1 120) rfl hs (by decide)⟩

/-- A key that is put twice has a string that is not in use. -/
theorem getStr_lastPutStr_lost :
    ∃ s, runPutStrs .page [(text 1 97, text 1 120), (text 1 97, text 1 121)] = .ok s ∧
      History.last [(text 1 97, text 1 120), (text 1 97, text 1 121)] (text 1 97) = some (text 1 121) ∧
      ¬ GetsStr s (text 1 97).1 (text 1 121).1 := by
  obtain ⟨s, hs, -⟩ := runNew_ends .page [.putStr (text 1 97) (text 1 120),
    .putStr (text 1 97) (text 1 121)] (by decide)
  obtain ⟨a, ix, hinv⟩ := (runPutStrs_inv .page
    ([(text 1 97, text 1 120)] ++ [(text 1 97, text 1 121)])).ok hs
  exact ⟨s, hs, by decide, hinv.not_gets (by decide)⟩

end TouchDb
