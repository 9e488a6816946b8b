import TouchDb.Store.KeyedRuns
import TouchDb.Worker.Tracks

/-! Sessions of the worker on a new store. -/
namespace TouchDb
open Prog Layout

section
variable {B : ℕ} {p p' : KeyedPlan} {r : KeyedClient} {s t : Touchdb} {a : PoolAlloc} {ix : Index}
variable {ls : KeyedChains} {vs : List ValCell} {ss : List StrCell} {σ σ' : Shelf} {k : Text} {e : MapNode}
variable {G : Guard Stop Event} {w : TouchdbVal} {x : CStr}

/-- The characters at a pointer that is not null. -/
theorem wp_readChars {o : ℕ} {Q : Option CStr → Touchdb → Prop} (h : Heap B s a) (ho : 0 < o)
    (hb : o + (x.strlen + 1) ≤ touchdbDefaultPoolSize) (hx : s.holds (B + o) x) (hQ : Q (some x) s) :
    wp G (readChars (B + o)) Q s := by
  unfold readChars
  rw [if_neg (by simp only [NULL]; omega)]
  exact wp_bind (h.wp_readStr hb hx (wp_pure hQ))

theorem wp_readChars_null {Q : Option CStr → Touchdb → Prop} (hQ : Q none s) :
    wp G (readChars NULL) Q s := by
  unfold readChars
  rw [if_pos rfl]
  exact wp_pure hQ

/-- What is printed of a value. -/
theorem Legible.wp_show {α : Type} {q m : ℕ} {c : Option CStr → M α} {Q : α → Touchdb → Prop}
    (hl : Legible B s w x) (h : Heap B s a) (hG : Reads G) (hq : ValAt B s a q m w)
    (hQ : wp G (c (some x)) Q s) :
    wp G (do
      let p ← touchdbStrData (B + q + m)
      let v ← readChars p
      c v) Q s :=
  wp_bind (hl.wp_touchdbStrData h hG hq fun _ h0 hD hx => wp_bind (wp_readChars h h0 hD hx hQ))

theorem wp_show_null {α : Type} {c : Option CStr → M α} {Q : α → Touchdb → Prop} (hQ : wp G (c none) Q s) :
    wp G (do
      let p ← touchdbStrData NULL
      let v ← readChars p
      c v) Q s := by
  unfold touchdbStrData
  rw [if_pos rfl]
  exact wp_bind (wp_pure (wp_bind (wp_readChars_null hQ)))

/-- `touchdb_get_str` of a value that is no string. -/
theorem wp_touchdbGetStr_other {Q : ℕ → Touchdb → Prop} (h : Heap B s a) (hm : MapRep B s a ix) (hR : Reads G)
    (hk : ix.find k.1 = some e) (ht : (s.field (B + e.blk) MapEntry.val).type ≠ .str) (hQ : Q NULL s) :
    wp G (touchdbGetStr k.1) Q s := by
  have hrep := hm.entry e (Index.find_eq_some.mp hk).1
  have hB := h.base_pos'
  unfold touchdbGetStr
  refine wp_bind (wp_touchdbMapGet2_found h hm hR hk ?_)
  rw [if_pos (by simp only [NULL]; omega)]
  refine wp_bind (wp_load_shift (by omega) (wp_loadCell h hrep.blk (by decide) ?_))
  rw [(val_parts rfl).1, if_neg ht]
  exact wp_pure hQ

theorem wp_touchdbGetStr_absent {Q : ℕ → Touchdb → Prop} (h : Heap B s a) (hm : MapRep B s a ix) (hR : Reads G)
    (hne : ix.bucket (ix.bucketOf k.1) ≠ []) (hk : ix.find k.1 = none) (hQ : Q NULL s) :
    wp G (touchdbGetStr k.1) Q s := by
  unfold touchdbGetStr
  refine wp_bind (wp_touchdbMapGet2_absent h hm hR hne hk ?_)
  rw [if_neg (by simp)]
  exact wp_pure hQ

namespace KeyedInv

/-- A string in use can be read. -/
theorem legible {v : ValKind} {y : Text} (hi : KeyedInv B p r s a ix ls vs ss) (hw : IsVal ss w v)
    (hy : p.Shows v y) : Legible B s w y.1 := by
  obtain ⟨i, rfl, hx⟩ := hy
  obtain ⟨z, hz, rfl⟩ := hw
  obtain ⟨o, ho, hzo⟩ := hi.strs.at_place hz
  obtain rfl : o = some y := Option.some.inj (ho.symm.trans hx)
  exact (hzo.rep y rfl).legible (Frame.refl B s a []).kept (by simp) (by simp)

/-- The size of the store. -/
theorem wp_count (hi : KeyedInv B p r s a ix ls vs ss) (ht : Tracks p σ) {Q : Int32 → Touchdb → Prop}
    (hQ : Q (Int32.ofNat σ.keys.length) s) : wp G touchdbSize Q s := by
  have hkeys : (ix.entries.map MapNode.key).Perm (σ.keys.map Subtype.val) := by
    refine (List.perm_ext_iff_of_nodup ix.keys (σ.keys_nodup.map Subtype.val_injective)).mpr fun c => ?_
    rw [hi.keys, List.mem_map]
    exact exists_congr fun j => and_congr_left fun _ => ht.keys j
  have hlen : ix.entries.length = σ.keys.length := by simpa using hkeys.length_eq
  have hsize := hi.rep.index.size
  rw [hlen] at hsize
  unfold touchdbSize touchdbMapSize
  have hmap : getMap s = .ok (s.map, s, []) := rfl
  refine wp_bind ((wp_ok hmap).mpr ⟨by simp, wp_pure ?_⟩)
  rwa [hsize]

end KeyedInv

/-- The store is what the user of the worker takes it for. -/
def WorkerInv (B : ℕ) (σ : Shelf) (s : Touchdb) : Prop :=
  ∃ p r a ix ls vs ss, KeyedInv B p r s a ix ls vs ss ∧ Tracks p σ

namespace WorkerInv

theorem wp_put (h : WorkerInv B σ s) (k v : Text) : wp served (touchdbPutStr k.1 v.1) (fun _ t =>
    WorkerInv B (σ.insert k (if k ∈ σ then .lost else .text v)) t) s := by
  obtain ⟨p, r, a, ix, ls, vs, ss, hi, ht⟩ := h
  refine wp_mono (wp_bind_iff.mp (hi.wp_putStr k v)) fun _ t hn => ?_
  obtain ⟨a, ix, ls, vs, ss, hi⟩ := (wp_elim hn rfl).2
  refine ⟨_, _, a, ix, ls, vs, ss, hi, ?_⟩
  split_ifs with h1 h2 h2
  · exact ht.clear k
  · exact absurd ((ht.keys k).mp h1) h2
  · exact absurd ((ht.keys k).mpr h2) h1
  · exact ht.keep k v

theorem wp_push {α : Type} {c : M α} {Q : α → Touchdb → Prop} {v : Text} (h : WorkerInv B σ s)
    (hready : σ.ready k = true)
    (hQ : ∀ t, WorkerInv B (σ.insert k (.list ((σ.listAt k).getD [] ++ [v]))) t → wp served c Q t) :
    wp served (do
      let (val, addr) ← touchdbMalloc sizeofVal
      let _ ← touchdbStrNew2 val v.1
      touchdbListPush k.1 val
      touchdbFree addr
      c) Q s := by
  obtain ⟨p, r, a, ix, ls, vs, ss, hi, ht⟩ := h
  refine hi.wp_newStr_bind (c := fun q x => do touchdbListPush k.1 q; touchdbFree x; c) v
    fun V z t a' h => ?_
  refine wp_bind (wp_mono (h.wp_listPush (v := ⟨V, .str ss.length⟩) (by simp) ?_) fun _ t hp => ?_)
  · exact (ht.ready_eq k).trans hready
  · obtain ⟨a, ix, ls, h⟩ := hp
    have hv : (vs ++ [(⟨V, .str ss.length⟩ : ValCell)])[vs.length]? = some ⟨V, .str ss.length⟩ := by simp
    refine wp_bind (h.rep.family.wp_release hv (fun _ => trivial) fun a' t hf hF => hQ t ?_)
    refine ⟨_, _, a', ix, ls, _, _, h.released hv hf hF, ht.push v rfl ?_ rfl rfl⟩
    rw [hi.strs.length_eq]
    rfl

/-- A pop releases the string of the value; the worker prints it all the same. -/
theorem wp_pop {α : Type} {c : Option CStr → M α} {Q : α → Touchdb → Prop} (h : WorkerInv B σ s)
    (hready : σ.ready k = true)
    (hnil : ∀ t, (σ.listAt k).getD [] = [] → WorkerInv B σ t → wp served (c none) Q t)
    (hcons : ∀ t v q, σ.listAt k = some (v :: q) → WorkerInv B (σ.insert k (.list q)) t →
      wp served (c (some v.1)) Q t) :
    wp served (do
      let val ← touchdbListPop k.1
      let p ← touchdbStrData val
      let v ← readChars p
      c v) Q s := by
  obtain ⟨p, r, a, ix, ls, vs, ss, hi, ht⟩ := h
  have hpr : p.ready k = true := (ht.ready_eq k).trans hready
  have hshows := ht.shows k
  rcases hl : (p.lists k).getD [] with _ | ⟨y, kinds⟩
  · have hop : p.step (.pop k) = some p := by
      rcases hq : p.lists k with _ | _ | _
      · simp [KeyedPlan.step, hpr, hq]
      · simp [KeyedPlan.step, hpr, hq]
      · simp [hq] at hl
    rw [hl, List.forall₂_nil_left_iff] at hshows
    refine wp_bind (wp_mono (hi.wp_listPop hop) fun q t hn => ?_)
    cases hn with
    | none hi hp hq => exact wp_show_null (hnil t hshows ⟨p, _, _, _, _, _, _, hi, ht⟩)
    | some hi hq => simp [hq] at hl
  · obtain ⟨i, v, q, hq, rfl, hx, hlist⟩ : ∃ i v q, (σ.listAt k).getD [] = v :: q ∧ y = .str i ∧
        p.strs[i]? = some (some v) ∧ p.lists k = some (y :: kinds) := by
      rw [hl] at hshows
      obtain ⟨v, q, ⟨i, hi, hx⟩, -, hq⟩ := List.forall₂_cons_left_iff.mp hshows
      refine ⟨i, v, q, hq, hi, hx, ?_⟩
      rcases hp : p.lists k with _ | l
      · simp [hp] at hl
      · rw [hp, Option.getD_some] at hl
        rw [hl]
    have hat : σ.listAt k = some (v :: q) := by
      rcases hp : σ.listAt k with _ | l
      · simp [hp] at hq
      · rw [hp, Option.getD_some] at hq
        rw [hq]
    have hrel : KeyedPlan.release p.strs (.str i) = some (p.strs.set i none) := by
      simp [KeyedPlan.release, hx]
    have hop : p.step (.pop k) = some { p with
        lists := Function.update p.lists k (some kinds), vals := p.vals ++ [.str i]
        strs := p.strs.set i none } := by
      simp [KeyedPlan.step, hpr, hlist, hrel]
    refine wp_bind (wp_mono (hi.wp_listPop hop) fun o t hn => ?_)
    cases hn with
    | none hi hp hq => simp [hl] at hq
    | some hi hq' hrel' hp hR hval hread =>
      obtain ⟨rfl, rfl⟩ := List.cons.inj (Option.some.inj (hlist.symm.trans hq'))
      refine (hread i v rfl hx).wp_show (m := 0) hi.rep.family.heap (fun _ _ _ => trivial)
        (.of_field hR hval) (hcons t v q hat ?_)
      exact ⟨_, _, _, _, _, _, _, hi, ht.pop hlist hat rfl rfl rfl rfl⟩

theorem wp_index {α : Type} {c : Option CStr → M α} {Q : α → Touchdb → Prop} {idx : Int32}
    (h : WorkerInv B σ s) (hready : σ.ready k = true) (hidx : -2 ^ 31 < idx.toInt)
    (hQ : wp served (c ((Deques.nth ((σ.listAt k).getD []) idx.toInt).map Subtype.val)) Q s) :
    wp served (do
      let val ← touchdbListNodeIdx k.1 idx
      let p ← touchdbStrData val
      let v ← readChars p
      c v) Q s := by
  obtain ⟨p, r, a, ix, ls, vs, ss, hi, ht⟩ := h
  have hrel := Deques.nth_rel (ht.shows k) idx.toInt
  unfold touchdbListNodeIdx
  refine wp_bind (hi.wp_getChain_bind ((ht.ready_eq k).trans hready) (fun ls' x hi hne => ?_) fun hk => ?_)
  · have hX := hi.rep.family.chains x List.mem_cons_self
    have hh := hi.rep.family.heap
    rw [if_pos hne]
    refine wp_touchdbChainNodeIdx hh (fun _ _ _ => trivial) hX.chain hidx ?_
    rw [hi.list_at.1, Option.getD_some, ChainCells.kinds, Deques.nth_map] at hrel
    rw [ChainCells.nodes, Deques.nth_map]
    rcases hn : Deques.nth x.cells idx.toInt with _ | y
    · rw [hn] at hrel
      cases hv : Deques.nth ((σ.listAt k).getD []) idx.toInt with
      | none =>
        rw [hv] at hQ
        exact wp_show_null hQ
      | some v =>
        rw [hv] at hrel
        cases hrel
    · have hy : y ∈ x.cells := by
        unfold Deques.nth at hn
        split_ifs at hn
        exact List.mem_of_getElem? hn
      have hyn : y.node ∈ x.nodes := List.mem_map_of_mem hy
      rw [hn] at hrel
      cases hv : Deques.nth ((σ.listAt k).getD []) idx.toInt with
      | none =>
        rw [hv] at hrel
        cases hrel
      | some v =>
        rw [hv] at hrel hQ
        have hshow : p.Shows y.kind v := by
          cases hrel with
          | some hshow => exact hshow
        exact (hi.legible (hX.kinds y hy) hshow).wp_show hh (fun _ _ _ => trivial)
          (.of_field ((hX.chain.node _ hyn).mono (by decide)) (hX.chain.val _ hyn)) hQ
  · have hshows := ht.shows k
    rw [(hi.list_none hk).1, Option.getD_none, List.forall₂_nil_left_iff] at hshows
    have hnth : Deques.nth ([] : List Text) idx.toInt = none := by simp [Deques.nth]
    rw [hshows, hnth] at hQ
    rw [if_neg (by simp)]
    exact wp_pure (wp_show_null hQ)

theorem wp_size {Q : Int32 → Touchdb → Prop} (h : WorkerInv B σ s) (hready : σ.ready k = true)
    (hQ : Q ((σ.listAt k).elim (-1) fun q => Int32.ofNat q.length) s) :
    wp served (touchdbListSize k.1) Q s := by
  obtain ⟨p, r, a, ix, ls, vs, ss, hi, ht⟩ := h
  have hrel := ht.lists k
  unfold touchdbListSize
  refine hi.wp_getChain_bind ((ht.ready_eq k).trans hready) (fun ls' x hi hne => ?_) fun hk => ?_
  · have hX := (hi.rep.family.chains x List.mem_cons_self).chain
    rw [if_pos hne]
    refine wp_touchdbChainSize hi.rep.family.heap hX ?_
    rw [hi.list_at.1] at hrel
    cases hl : σ.listAt k with
    | none =>
      rw [hl] at hrel
      cases hrel
    | some q =>
      rw [hl] at hrel hQ
      have hlen : x.nodes.length = q.length := by
        cases hrel with
        | some hq => simpa [ChainCells.kinds, ChainCells.nodes] using hq.length_eq
      rwa [hlen]
  · rw [(hi.list_none hk).1] at hrel
    rw [if_neg (by simp)]
    cases hl : σ.listAt k with
    | none =>
      rw [hl] at hQ
      exact wp_pure hQ
    | some q =>
      rw [hl] at hrel
      cases hrel

theorem wp_getText {α : Type} {c : Option CStr → M α} {Q : α → Touchdb → Prop} {v : Text}
    (h : WorkerInv B σ s) (hv : σ.lookup k = some (.text v)) (hQ : wp served (c (some v.1)) Q s) :
    wp served (do
      let p ← touchdbGetStr k.1
      let v ← readChars p
      c v) Q s := by
  obtain ⟨p, r, a, ix, ls, vs, ss, hi, ht⟩ := h
  have hh := hi.rep.family.heap
  obtain ⟨i, hi', hx⟩ := ht.texts k v hv
  obtain ⟨e, z, hfind, hz, hval⟩ := hi.stored k i hi'
  obtain ⟨o, ho, hzo⟩ := hi.strs.at_place hz
  obtain rfl : o = some v := Option.some.inj (ho.symm.trans hx)
  have hr := hzo.rep v rfl
  have hb := hr.chars.bounds
  exact wp_bind (wp_touchdbGetStr_found hh hi.rep.index (fun _ _ _ => trivial) hfind hval hr
    (wp_bind (wp_readChars hh (by omega) hb.2 hr.holds hQ)))

theorem wp_getList {α : Type} {c : Option CStr → M α} {Q : α → Touchdb → Prop} {q : List Text}
    (h : WorkerInv B σ s) (hq : σ.lookup k = some (.list q)) (hQ : wp served (c none) Q s) :
    wp served (do
      let p ← touchdbGetStr k.1
      let v ← readChars p
      c v) Q s := by
  obtain ⟨p, r, a, ix, ls, vs, ss, hi, ht⟩ := h
  have hrel := ht.lists k
  rw [Shelf.listAt_eq, hq, hi.lists] at hrel
  rcases hl : ls.dlookup k with _ | x
  · rw [KeyedQueues.table, hl] at hrel
    cases hrel
  · obtain ⟨e, hfind, hval⟩ := hi.rep.named.entry _ (List.of_mem_dlookup (Option.mem_def.mpr hl))
    refine wp_bind (wp_touchdbGetStr_other hi.rep.family.heap hi.rep.index (fun _ _ _ => trivial) hfind ?_
      (wp_bind (wp_readChars_null hQ)))
    rw [hval]
    exact TouchdbValType.noConfusion

theorem wp_getAbsent {α : Type} {c : Option CStr → M α} {Q : α → Touchdb → Prop} (h : WorkerInv B σ s)
    (hk : σ.lookup k = none) (hready : σ.ready k = true) (hQ : wp served (c none) Q s) :
    wp served (do
      let p ← touchdbGetStr k.1
      let v ← readChars p
      c v) Q s := by
  obtain ⟨p, r, a, ix, ls, vs, ss, hi, ht⟩ := h
  have hfind : ix.find k.1 = none := by
    by_contra hne
    exact AList.lookup_eq_none.mp hk ((ht.keys k).mp (hi.mem_keys.mpr hne))
  exact wp_bind (wp_touchdbGetStr_absent hi.rep.family.heap hi.rep.index (fun _ _ _ => trivial)
    ((hi.ready_iff k).mp ((ht.ready_eq k).trans hready)) hfind (wp_bind (wp_readChars_null hQ)))

/-- A command prints what the shelf says. -/
theorem wp_cmd {cmd : WorkerCmd} {lines : List WorkerLine} (h : WorkerInv B σ s)
    (hs : σ.step cmd = some (lines, σ')) :
    wp served cmd.run (fun out t => out = lines ∧ WorkerInv B σ' t) s := by
  cases cmd with
  | put k v =>
    obtain ⟨rfl, rfl⟩ := Prod.mk.inj (Option.some.inj hs)
    exact wp_bind (wp_mono (h.wp_put k.text v.text) fun _ t ht => wp_pure ⟨rfl, ht⟩)
  | get k =>
    simp only [Shelf.step] at hs
    split at hs
    · next v hv =>
      obtain ⟨rfl, rfl⟩ := Prod.mk.inj (Option.some.inj hs)
      exact h.wp_getText (k := k.text) hv (wp_pure ⟨rfl, h⟩)
    · cases hs
    · next q hq =>
      obtain ⟨rfl, rfl⟩ := Prod.mk.inj (Option.some.inj hs)
      exact h.wp_getList (k := k.text) hq (wp_pure ⟨rfl, h⟩)
    · next hk =>
      split_ifs at hs with hready
      obtain ⟨rfl, rfl⟩ := Prod.mk.inj (Option.some.inj hs)
      exact h.wp_getAbsent (k := k.text) hk hready (wp_pure ⟨rfl, h⟩)
  | iter => cases hs
  | listPush k v =>
    simp only [Shelf.step] at hs
    split_ifs at hs with hready
    obtain ⟨rfl, rfl⟩ := Prod.mk.inj (Option.some.inj hs)
    exact h.wp_push (k := k.text) (v := v.text) hready fun t ht => wp_pure ⟨rfl, ht⟩
  | listPop k =>
    simp only [Shelf.step] at hs
    split_ifs at hs with hready
    refine h.wp_pop (k := k.text) hready (fun t hnil ht => wp_pure ?_) fun t v q hq ht => wp_pure ?_
    · rcases hl : σ.listAt k.text with _ | _ | ⟨v, q⟩
      · rw [hl] at hs
        obtain ⟨rfl, rfl⟩ := Prod.mk.inj (Option.some.inj hs)
        exact ⟨rfl, ht⟩
      · rw [hl] at hs
        obtain ⟨rfl, rfl⟩ := Prod.mk.inj (Option.some.inj hs)
        exact ⟨rfl, ht⟩
      · simp [hl] at hnil
    · rw [hq] at hs
      obtain ⟨rfl, rfl⟩ := Prod.mk.inj (Option.some.inj hs)
      exact ⟨rfl, ht⟩
  | listIndex k idx =>
    simp only [Shelf.step] at hs
    split_ifs at hs with hc
    obtain ⟨rfl, rfl⟩ := Prod.mk.inj (Option.some.inj hs)
    exact h.wp_index (k := k.text) hc.1 hc.2 (wp_pure ⟨rfl, h⟩)
  | listSize k =>
    simp only [Shelf.step] at hs
    split_ifs at hs with hready
    obtain ⟨rfl, rfl⟩ := Prod.mk.inj (Option.some.inj hs)
    exact wp_bind (h.wp_size (k := k.text) hready (wp_pure ⟨rfl, h⟩))
  | other =>
    obtain ⟨rfl, rfl⟩ := Prod.mk.inj (Option.some.inj hs)
    exact wp_pure ⟨rfl, h⟩

/-- A session prints what the shelf says. -/
theorem wp_worker {cmds : List WorkerCmd} {lines : List WorkerLine} (h : WorkerInv B σ s)
    (hs : Shelf.session cmds σ = some lines) : wp served (worker cmds) (fun out _ => out = lines) s := by
  have hcount {Q : Int32 → Touchdb → Prop} {t : Touchdb} {τ : Shelf} (h : WorkerInv B τ t)
      (hQ : Q (Int32.ofNat τ.keys.length) t) : wp served touchdbSize Q t := by
    obtain ⟨p, r, a, ix, ls, vs, ss, hi, ht⟩ := h
    exact hi.wp_count ht hQ
  induction cmds generalizing σ s lines with
  | nil => exact wp_bind (hcount h (wp_pure (Option.some.inj hs)))
  | cons cmd cmds ih =>
    obtain ⟨x, hx, hs⟩ := Option.bind_eq_some_iff.mp hs
    obtain ⟨rest, hrest, rfl⟩ := Option.map_eq_some_iff.mp hs
    refine wp_bind (hcount h (wp_bind (wp_mono (h.wp_cmd hx) fun out t ht => ?_)))
    obtain ⟨rfl, ht⟩ := ht
    exact wp_bind (wp_mono (ih ht hrest) fun out _ ho => wp_pure (by rw [ho]))

end WorkerInv

end

/-! The space that a session takes. -/

/-- The sizes that a command asks for at most. -/
def WorkerCmd.sizes : WorkerCmd → List ℕ
  | .put k v => [sizeofVal, sizeofStr, v.1.strlen + 1, mapEntrySize, k.1.strlen + 1]
  | .listPush k v => [sizeofVal, sizeofStr, v.1.strlen + 1] ++
      [sizeofVal, sizeofChain, touchdbChainNodeSize, mapEntrySize, k.1.strlen + 1]
  | .listPop _ => [sizeofVal]
  | .get _ | .iter | .listIndex _ _ | .listSize _ | .other => []

theorem unseen_readChars (p : ℕ) : Unseen (readChars p) :=
  .ite (fun _ => .pure _) fun _ => (unseen_readStr _ p).bind fun _ => .pure _

theorem unseen_printIter (calls : List (ℕ × ℕ)) : Unseen (printIter calls) := by
  induction calls with
  | nil => exact .pure _
  | cons c calls ih =>
    apply (unseen_readChars c.1).bind
    intro k
    apply (unseen_readChars c.2).bind
    intro v
    exact ih.bind fun _ => .pure _

theorem WorkerCmd.asks (cmd : WorkerCmd) : Asks cmd.sizes cmd.run := by
  cases cmd with
  | put k v => exact (asks_touchdbPutStr k.text.2 v.text.2).last fun _ => .pure _
  | get k =>
    apply Asks.unseen
    exact (unseen_touchdbGetStr k.1).bind fun p => (unseen_readChars p).bind fun _ => .pure _
  | iter => exact .unseen (unseen_touchdbMapIter.bind fun calls => unseen_printIter calls)
  | listPush k v =>
    apply Asks.bind (l := [sizeofVal]) (asks_touchdbMalloc (by decide) (by decide))
    rintro ⟨val, addr⟩
    apply Asks.bind (asks_touchdbStrNew2 val v.text.2)
    intro _
    exact (asks_touchdbListPush k.text.2 val).last fun _ =>
      (asks_touchdbFree addr).seq fun _ => .pure _
  | listPop k =>
    apply (asks_touchdbListPop k.1).last
    intro val
    apply Asks.unseen
    exact (unseen_touchdbStrData val).bind fun p => (unseen_readChars p).bind fun _ => .pure _
  | listIndex k idx =>
    apply Asks.unseen
    apply (unseen_touchdbListNodeIdx k.1 idx).bind
    intro val
    exact (unseen_touchdbStrData val).bind fun p => (unseen_readChars p).bind fun _ => .pure _
  | listSize k => exact .unseen ((unseen_touchdbListSize k.1).bind fun _ => .pure _)
  | other => exact .pure _

theorem asks_worker (cmds : List WorkerCmd) : Asks (cmds.flatMap WorkerCmd.sizes) (worker cmds) := by
  induction cmds with
  | nil => exact .unseen (unseen_touchdbMapSize.bind fun _ => .pure _)
  | cons cmd cmds ih =>
    apply (Asks.unseen unseen_touchdbMapSize).seq
    intro n
    apply cmd.asks.bind
    exact fun lines => ih.last fun _ => .pure _

/-- A session does not fail for want of a block where the store has room for all its commands. -/
theorem runWorker_supplied (f : NewFiles) (cmds : List WorkerCmd)
    (hroom : newRoom + roomFor (cmds.flatMap WorkerCmd.sizes) ≤ touchdbDefaultPoolSize) :
    Run.Post (fun e => e ≠ .noBlock) (runWorker f cmds) fun r => Ample 0 r.2 := by
  obtain ⟨s, hs, hA⟩ := touchdbNew_ample f hroom
  unfold runWorker
  rw [hs]
  exact .of_wp_run (asks_worker cmds 0 s hA) fun _ h => h

/-- In every session that the shelf describes, the worker prints what the shelf says: among other things
each popped value, whose string it has already released. -/
theorem worker_session (f : NewFiles) (cmds : List WorkerCmd) {lines : List WorkerLine}
    (hs : Shelf.session cmds ∅ = some lines) :
    Run.Post (fun e => e = .noBlock) (runWorker f cmds) fun r => r.1 = lines := by
  have hnew := runKeyed_start f
  unfold runWorker
  rcases hn : (touchdbNew f.ptr).next f.db with e | s
  · rwa [hn] at hnew
  · rw [hn] at hnew
    obtain ⟨a, ix, ls, vs, ss, hi⟩ := hnew
    have hinv : WorkerInv f.ptr ∅ s := ⟨_, _, a, ix, ls, vs, ss, hi, .zero⟩
    exact .of_wp_run (hinv.wp_worker hs) fun _ h => h

/-- A list takes the place of a string, and gives up its first value. -/
theorem worker_session_one : ∃ r, runWorker .page [.put (word 1 97) (word 2 120),
    .get (word 1 97), .listPush (word 1 97) (word 2 120), .listPush (word 1 97) (word 3 121),
    .get (word 1 97), .listPop (word 1 97), .listIndex (word 1 97) 1, .listSize (word 1 97)] = .ok r ∧
      r.1 = [.prompt 0, .prompt 1, .got (word 1 97) (some (word 2 120).1), .prompt 1, .prompt 1,
        .prompt 1, .got (word 1 97) none, .prompt 1, .popped (word 1 97) (some (word 2 120).1), .prompt 1,
        .index (word 1 97) 1 (some (word 3 121).1), .prompt 1, .size (word 1 97) 1, .prompt 1] :=
  (worker_session .page _ rfl).ends (runWorker_supplied .page _ (by decide))

end TouchDb
