import TouchDb.Store.Leaks
import TouchDb.Store.PutStrRuns

/-! What the ways to read a string return. Both puts mark a value as a string, one for its
characters and one for a `touchdb_str_t`, and each reader takes it for one of the two. -/
namespace TouchDb
open Prog Layout

/-- `touchdb_get` returns `v` for `k`. -/
def Gets (s : Touchdb) (k v : CStr) : Prop :=
  ∃ p l, touchdbGet k s = .ok (p, s, l) ∧ s.holds p v

/-- `touchdb_iter` calls back with `k` and `v`. -/
def Iterates (s : Touchdb) (k v : CStr) : Prop :=
  ∃ calls l, touchdbIter s = .ok (calls, s, l) ∧ ∃ c ∈ calls, s.holds c.1 k ∧ s.holds c.2 v

/-- Every way to read a string returns `v` for `k`. What `touchdb_get_str` would find by bytes that
are in no block in use does not count. -/
structure ReadsAgree (s : Touchdb) (k v : CStr) : Prop where
  get : Gets s k v
  getStr : GetsStr s k v
  iter : Iterates s k v

/-- What the value of `e` refers to, where `v` was put under its key. -/
inductive Written (B : ℕ) (s : Touchdb) (a : PoolAlloc) (ix : Index) (e : MapNode) (v : CStr) : Api → Prop
  | put {V c : ℕ} (val : s.field (B + e.blk) MapEntry.val = ⟨.str, addrOf V⟩)
    (own : a.payload V = some c) (le : v.strlen + 1 ≤ c) (short : sizeofStr ≤ c → 8 ≤ v.strlen)
    (holds : s.holds (B + V) v) (notMem : V ∉ ix.blocks) : Written B s a ix e v .put
  | putStr {S D : ℕ} (val : s.field (B + e.blk) MapEntry.val = ⟨.str, addrOf S⟩)
    (rep : StrRep B s a S D v) (len : s.field (B + S) Str.len = UInt32.ofNat (v.strlen + 1))
    (str_notMem : S ∉ ix.blocks) (chars_notMem : D ∉ ix.blocks) : Written B s a ix e v .putStr

/-- Every value is marked as a string, and what was put once is stored. -/
structure ApiVal (B : ℕ) (api : CStr → Api) (kvs : Puts) (s : Touchdb) (a : PoolAlloc) (ix : Index)
    (e : MapNode) : Prop where
  type : (s.field (B + e.blk) MapEntry.val).type = .str
  once : ∀ k v : Text, k.1 = e.key → kvs.last k = some v → kvs.Once k →
    Written B s a ix e v.1 (api e.key)

abbrev ApiInv (B : ℕ) (api : CStr → Api) := PutsInv (ApiVal B api) B

/-! Strings and structs, byte by byte. -/
section Bytes
variable {s : Touchdb} {p D n : ℕ} {v : CStr}

theorem mem_ne_zero_of_holds (h : s.holds p v) {i : ℕ} (hi : i < v.strlen) : s.mem (p + i) ≠ 0 := by
  have h1 : v.bytes[i]? = some (s.mem (p + i)) := by
    rw [← h]
    exact Mem.read_getElem? _ _ _ _ (by omega)
  have h2 : v.bytes[i]? = v.chars[i]? := List.getElem?_append_left hi
  intro h0
  exact v.nul_notMem (List.mem_of_getElem? (by rw [← h2, h1, h0]))

theorem mem_strlen_of_holds (h : s.holds p v) : s.mem (p + v.strlen) = 0 := by
  have h1 : v.bytes[v.strlen]? = some (s.mem (p + v.strlen)) := by
    rw [← h]
    exact Mem.read_getElem? _ _ _ _ (by omega)
  have h2 : v.bytes[v.strlen]? = some 0 := by simp [CStr.bytes, CStr.strlen]
  exact Option.some.inj (h1.symm.trans h2)

/-- The pool index of an address of the first pool. -/
theorem mem_of_addrOf (h : s.field p Str.data = addrOf D) : s.mem (p + 4) = 0 := by
  rw [field_addr] at h
  have hidx : s.mem.peek Int32 (p + 4 + 0) = 0 := congrArg TouchdbAddr.poolIdx h
  have hword : s.mem.peek UInt32 (p + 4) = 0 := by
    have h1 : (s.mem.peek UInt32 (p + 4)).toInt32 = 0 := hidx
    exact congrArg Int32.toUInt32 h1
  have hsum := Mem.peek_toNat s.mem (p + 4)
  rw [hword] at hsum
  have h0 : (s.mem (p + 4)).toNat = 0 := by
    simp only [UInt32.toNat_zero] at hsum
    omega
  exact UInt8.toNat_inj.mp h0

/-- A struct read as the string that it points to: the length of the string with its terminator is the
only character. -/
theorem holds_struct_iff (hv : v.Fits) (hlen : s.field p Str.len = UInt32.ofNat (v.strlen + 1))
    (hdata : s.field p Str.data = addrOf D) : s.holds p v ↔ v.chars = [2] := by
  have hword : (s.mem.peek UInt32 (p + 0)).toNat = v.strlen + 1 := by
    have hfit : v.strlen + 1 < 2 ^ 32 := by
      unfold CStr.Fits at hv
      omega
    exact (congrArg UInt32.toNat hlen).trans (Words.toNat_ofNat hfit)
  rw [Mem.peek_toNat] at hword
  simp only [Nat.add_zero] at hword
  have h0 := (s.mem p).toNat_lt
  have h1 := (s.mem (p + 1)).toNat_lt
  have hpos {i : ℕ} (hi : s.mem (p + i) ≠ 0) : 0 < (s.mem (p + i)).toNat := by
    apply Nat.pos_of_ne_zero
    exact fun hz => hi (UInt8.toNat_inj.mp hz)
  constructor
  · intro h
    have hend := mem_strlen_of_holds h
    have hle : v.strlen ≤ 4 := by
      by_contra hlt
      exact mem_ne_zero_of_holds h (i := 4) (by omega) (mem_of_addrOf hdata)
    have hone : v.strlen = 1 := by
      by_contra hne
      rcases Nat.lt_or_ge v.strlen 1 with hlt | hge
      · have hz : v.strlen = 0 := by omega
        rw [hz, Nat.add_zero] at hend
        rw [hz, hend] at hword
        simp only [UInt8.toNat_zero] at hword
        omega
      · have hb := hpos (mem_ne_zero_of_holds h (i := 1) (by omega))
        omega
    rw [hone] at hend hword
    obtain ⟨c, hc⟩ := List.length_eq_one_iff.mp hone
    have hbytes : [s.mem (p + 0), s.mem (p + 1)] = v.bytes := by
      rw [← h, hone]
      rfl
    rw [CStr.bytes, hc] at hbytes
    obtain rfl : s.mem p = c := (List.cons.inj hbytes).1
    rw [hc]
    rw [hend] at hword
    simp only [UInt8.toNat_zero] at hword
    have h2 : (s.mem p).toNat = (2 : UInt8).toNat := by
      show _ = 2
      omega
    rw [UInt8.toNat_inj.mp h2]
  · intro hc
    have hone : v.strlen = 1 := congrArg List.length hc
    rw [hone] at hword
    have h2 : s.mem p = 2 := by
      apply UInt8.toNat_inj.mp
      show _ = 2
      omega
    have h3 : s.mem (p + 1) = 0 := by
      apply UInt8.toNat_inj.mp
      show _ = 0
      omega
    show s.mem.read p (v.strlen + 1) = v.bytes
    rw [hone, CStr.bytes, hc]
    show [s.mem (p + 0), s.mem (p + 1)] = [2, 0]
    rw [Nat.add_zero, h2, h3]

end Bytes

section Step
variable {B : ℕ} {s u : Touchdb} {a a' : PoolAlloc} {ix ix' : Index} {e : MapNode} {c : Api}
variable {api : CStr → Api} {kvs : Puts} {k v : Text} {x : CStr}

theorem Written.keep (h : Written B s a ix e x c) (hkeep : Keeps B s a ix u a' ix' e) :
    Written B u a' ix' e x c := by
  obtain ⟨T, hF, hT⟩ := hkeep.frame
  cases h with
  | put val own le short holds notMem =>
    have hO : Owns a _ (x.strlen + 1) := ⟨_, own, le⟩
    obtain ⟨h1, h2⟩ := hT _ _ hO notMem
    exact .put (hkeep.val.trans val) (hF.live _ h1 _ own) le short (hF.holds h1 hO holds) h2
  | putStr val rep len str_notMem chars_notMem =>
    obtain ⟨h1, h2⟩ := hT _ _ rep.str str_notMem
    obtain ⟨h3, h4⟩ := hT _ _ rep.chars chars_notMem
    refine .putStr (hkeep.val.trans val) (rep.frame hF h1 h3) ?_ h2 h4
    rw [hF.field h1 rep.str (by decide)]
    exact len

/-- A put of a new key stores the value. -/
theorem Api.wp_stored {Q : Touchdb → Prop} (h : Heap B s a) (hm : MapRep B s a ix)
    (hfind : ix.find k.1 = none)
    (hQ : ∀ E K u a' ix', Inserted B s a ix k.1 E K u a' ix' →
      (u.field (B + E) MapEntry.val).type = .str → Written B u a' ix' ⟨E, k.1, K⟩ v.1 c → Q u) :
    wp served (c.op k v).run (fun _ => Q) s := by
  have hall : ∀ e, served.emits e := fun _ => trivial
  cases c with
  | put =>
    refine wp_bind (wp_touchdbMapPut_insert h hm (.of_all hall) (.of_stops rfl _ _) k.2 v.2 hfind
      fun E K V a₁ a₂ a' u ix' hE hK hV hi hval hh => wp_pure ?_)
    have hVb := hi.value_notMem hm hE hK hV
    have hpay : a'.payload V = some (blkCap (sizeClass (v.1.strlen + 1))) := by
      rw [hV.payload, Function.update_self]
    refine hQ E K u a' ix' hi (by rw [hval]) (.put hval hpay (le_blkCap (by omega)) (fun hc => ?_) hh hVb)
    unfold sizeofStr blkCap sizeClass at hc
    omega
  | putStr =>
    refine wp_bind (wp_touchdbPutStr_created h hm (.of_all hall) (.of_stops rfl _ _) k.2 v.2 hfind
      fun E K S D u a' ix' hi hval hr hS hD _ _ _ hlen => wp_pure ?_)
    exact hQ E K u a' ix' hi (by rw [hval]) (.putStr hval hr hlen hS hD)

theorem ApiVal.other (h : ApiVal B api kvs s a ix e) (hkeep : Keeps B s a ix u a' ix' e)
    (hne : e.key ≠ k.1) : ApiVal B api (kvs ++ [(k, v)]) u a' ix' e where
  type := by
    rw [hkeep.val]
    exact h.type
  once k' v' hk hl ho := by
    obtain ⟨hl, ho⟩ := once_of_append hne hk hl ho
    exact (h.once k' v' hk hl ho).keep hkeep

theorem ApiInv.step (h : ApiInv B api kvs s a ix) :
    Run.Post (fun e => e = .noBlock) (((api k.1).op k v).step s) fun t =>
      ∃ a ix, ApiInv B api (kvs ++ [(k, v)]) t a ix := by
  refine .of_wp (G := served) (P := fun _ t => ∃ a ix, ApiInv B api (kvs ++ [(k, v)]) t a ix) ?_
    (fun _ h => h) fun _ _ h => h
  rcases hfind : ix.find k.1 with _ | e
  · refine Api.wp_stored h.heap h.rep hfind fun E K u a' ix' hi ht hs => ⟨a', ix', ?_⟩
    refine h.insert hi hfind (fun e he hne he' => he'.other (hi.keeps he) hne)
      ⟨ht, fun k' v' hk hl _ => ?_⟩
    obtain rfl : k' = k := Subtype.ext hk
    rw [History.last_append_same] at hl
    obtain rfl := Option.some.inj hl
    exact hs
  · obtain ⟨he, hek⟩ := Index.find_eq_some.mp hfind
    refine Api.wp_overwrite h.heap h.rep hfind (h.vals e he).type fun V u a' ho _ _ _ => ⟨a', ix, ?_⟩
    refine h.overwrite hfind ho (fun d hd hde hne hd' => hd'.other (ho.keeps h.rep he hd hde) hne)
      ⟨by rw [ho.val], fun k' v' hk _ hon => ?_⟩
    obtain rfl : k' = k := Subtype.ext (hk.trans hek)
    exact absurd hon (History.not_once_append (h.mem_keys hfind))

theorem runApi_stored (f : NewFiles) (api : CStr → Api) (kvs : Puts) :
    Run.Post (fun e => e = .noBlock) (runApi f api kvs) fun s =>
      ∃ a ix, ApiInv f.ptr api kvs s a ix :=
  runNew_putsInv (fun k v => (api k.1).op k v) (fun _ _ _ _ _ _ h => ApiInv.step h) kvs

end Step

section Reads
variable {B : ℕ} {s : Touchdb} {a : PoolAlloc} {ix : Index} {e : MapNode} {k v : CStr} {c : Api}

/-- `touchdb_get` reads what the value of the entry refers to. -/
theorem gets_iff (h : Heap B s a) (hm : MapRep B s a ix) (hk : ix.find k = some e) :
    Gets s k v ↔ s.holds (valuePtr B s e) v := by
  obtain ⟨p, t, l, hg, -, rfl, rfl⟩ := wp_ends (G := anyEvent)
    (Q := fun p t => t = s ∧ p = valuePtr B s e)
    (wp_touchdbMapGet_found h hm (fun _ _ _ => trivial) hk ⟨rfl, rfl⟩) fun _ h => h
  constructor
  · rintro ⟨p', l', hg', hh⟩
    have hp := (Prod.mk.inj (Except.ok.inj (hg.symm.trans hg'))).1
    rwa [hp]
  · intro hh
    exact ⟨_, l, hg, hh⟩

/-- And so does `touchdb_iter`. -/
theorem iterates_iff (h : Heap B s a) (hm : MapRep B s a ix) (hk : ix.find k = some e) :
    Iterates s k v ↔ s.holds (valuePtr B s e) v := by
  obtain ⟨he, hek⟩ := Index.find_eq_some.mp hk
  obtain ⟨calls, t, l, hc, -, rfl, rfl⟩ := wp_ends (G := anyEvent)
    (Q := fun calls t => t = s ∧ calls = ix.byBucket.map (iterCall B s))
    (wp_touchdbMapIter h hm (fun _ _ _ => trivial) ⟨rfl, rfl⟩) fun _ h => h
  constructor
  · rintro ⟨calls', l', hc', x, hx, hxk, hxv⟩
    have hcalls := (Prod.mk.inj (Except.ok.inj (hc.symm.trans hc'))).1
    rw [← hcalls] at hx
    obtain ⟨d, hd, rfl⟩ := List.mem_map.mp hx
    have hd' := Index.mem_byBucket.mp hd
    have hdk : d.key = e.key := (holds_inj (hm.entry d hd').holds hxk).trans hek.symm
    obtain rfl : d = e := List.inj_on_of_nodup_map ix.keys hd' he hdk
    exact hxv
  · intro hh
    refine ⟨_, l, hc, iterCall B t e, List.mem_map_of_mem (Index.mem_byBucket.mpr he), ?_, hh⟩
    exact hek ▸ (hm.entry e he).holds

/-- The characters of a value are no struct: they are too short for one, or the pool index would be made
of characters. -/
theorem Written.not_getsStr (hs : Written B s a ix e v .put) (h : Heap B s a) (hm : MapRep B s a ix)
    (hk : ix.find k = some e) : ¬ GetsStr s k v := by
  cases hs with
  | put val own le short holds notMem =>
    intro hg
    have hO : Owns a _ (v.strlen + 1) := ⟨_, own, le⟩
    have hb := hO.bounds
    obtain ⟨⟨c, hc, hle⟩, D, hdata⟩ := hg.struct h hm hk val (by omega)
    obtain rfl := Option.some.inj (own.symm.trans hc)
    have hlen := short hle
    exact mem_ne_zero_of_holds holds (i := 4) (by omega) (mem_of_addrOf hdata)

/-- The struct of a string is read as the string. -/
theorem Written.holds_iff (hs : Written B s a ix e v .putStr) (hv : v.Fits) :
    s.holds (valuePtr B s e) v ↔ v.chars = [2] := by
  cases hs with
  | putStr val rep len str_notMem chars_notMem =>
    rw [valuePtr_eq val rep.str.lt]
    exact holds_struct_iff hv len rep.data

theorem Written.getsStr (hs : Written B s a ix e v .putStr) (h : Heap B s a) (hm : MapRep B s a ix)
    (hk : ix.find k = some e) : GetsStr s k v := by
  cases hs with
  | putStr val rep len str_notMem chars_notMem => exact rep.gets h hm hk val

/-- The ways to read a string that was written. -/
theorem Written.readsAgree_iff (hs : Written B s a ix e v c) (hv : v.Fits) (h : Heap B s a)
    (hm : MapRep B s a ix) (hk : ix.find k = some e) :
    ReadsAgree s k v ↔ c = .putStr ∧ v.chars = [2] := by
  cases c with
  | put => exact iff_of_false (fun hr => hs.not_getsStr h hm hk hr.getStr) (by simp)
  | putStr =>
    have hread := hs.holds_iff hv
    constructor
    · intro hr
      exact ⟨rfl, hread.mp ((gets_iff h hm hk).mp hr.get)⟩
    · rintro ⟨-, hc⟩
      have hh := hread.mpr hc
      exact ⟨(gets_iff h hm hk).mpr hh, hs.getsStr h hm hk, (iterates_iff h hm hk).mpr hh⟩

end Reads

section Runs
variable {B : ℕ} {api : CStr → Api} {kvs : Puts} {s : Touchdb} {a : PoolAlloc} {ix : Index}
variable {k v : Text}

/-- The entry of a key that was written once. -/
theorem ApiInv.exists_written (h : ApiInv B api kvs s a ix) (hl : kvs.last k = some v)
    (ho : kvs.Once k) : ∃ e, ix.find k.1 = some e ∧ Written B s a ix e v.1 (api k.1) := by
  obtain ⟨e, he, hek, hfind⟩ := h.find_some (History.mem_keys_of_last hl)
  exact ⟨e, hfind, hek ▸ (h.vals e he).once k v hek.symm hl ho⟩

end Runs

/-- Where no key is written twice, all ways to read a key return what was written if and only if this is
the string with the one character 2, put by `touchdb_put_str`. -/
theorem runApi_readsAgree (f : NewFiles) (api : CStr → Api) (kvs : Puts) (hd : kvs.keys.Nodup) :
    Run.Post (fun e => e = .noBlock) (runApi f api kvs) fun s =>
      ∀ k v, (k, v) ∈ kvs → (ReadsAgree s k.1 v.1 ↔ api k.1 = .putStr ∧ v.1.chars = [2]) := by
  refine (runApi_stored f api kvs).mono fun s ⟨a, ix, h⟩ k v hx => ?_
  obtain ⟨hl, ho⟩ := History.last_of_nodup hd hx
  obtain ⟨e, hfind, hs⟩ := h.exists_written hl ho
  exact hs.readsAgree_iff v.2 h.heap h.rep hfind

/-- That string. -/
theorem runApi_readsAgree_two : ∃ s, runApi .page (fun _ => .putStr) [(text 1 97, text 1 2)] = .ok s ∧
    ReadsAgree s (text 1 97).1 (text 1 2).1 := by
  obtain ⟨s, hs, -⟩ := runNew_ends .page [.putStr (text 1 97) (text 1 2)] (by decide)
  have h := (runApi_readsAgree .page (fun _ => .putStr) [(text 1 97, text 1 2)] (by decide)).ok hs
  exact ⟨s, hs, (h _ _ List.mem_cons_self).mpr ⟨rfl, by decide⟩⟩

/-- A string put by `touchdb_put_str` is lost to `touchdb_get` and to `touchdb_iter`, and one put by
`touchdb_put` to `touchdb_get_str`. -/
theorem runApi_readsAgree_fails :
    (∃ s, runApi .page (fun _ => .putStr) [(text 1 97, text 1 120)] = .ok s ∧
      ¬ Gets s (text 1 97).1 (text 1 120).1 ∧ ¬ Iterates s (text 1 97).1 (text 1 120).1) ∧
    ∃ s, runApi .page (fun _ => .put) [(text 1 97, text 1 120)] = .ok s ∧
      ¬ GetsStr s (text 1 97).1 (text 1 120).1 := by
  constructor
  · obtain ⟨s, hs, -⟩ := runNew_ends .page [.putStr (text 1 97) (text 1 120)] (by decide)
    obtain ⟨a, ix, h⟩ := (runApi_stored .page (fun _ => .putStr) [(text 1 97, text 1 120)]).ok hs
    obtain ⟨e, hfind, hw⟩ := h.exists_written (k := text 1 97) (v := text 1 120) (by decide) (by decide)
    have hread : ¬ s.holds (valuePtr NewFiles.page.ptr s e) (text 1 120).1 := by
      rw [hw.holds_iff (text 1 120).2]
      decide
    exact ⟨s, hs, fun hg => hread ((gets_iff h.heap h.rep hfind).mp hg),
      fun hi => hread ((iterates_iff h.heap h.rep hfind).mp hi)⟩
  · obtain ⟨s, hs, -⟩ := runNew_ends .page [.put (text 1 97) (text 1 120)] (by decide)
    obtain ⟨a, ix, h⟩ := (runApi_stored .page (fun _ => .put) [(text 1 97, text 1 120)]).ok hs
    obtain ⟨e, hfind, hw⟩ := h.exists_written (k := text 1 97) (v := text 1 120) (by decide) (by decide)
    exact ⟨s, hs, hw.not_getsStr h.heap h.rep hfind⟩

end TouchDb
