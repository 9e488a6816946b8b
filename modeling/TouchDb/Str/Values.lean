import TouchDb.Chain.Moves
import TouchDb.Str.Compare

/-! Clients of string values: what the functions of `touchdb_str.c` do in a pool is what happens to a
list of strings. -/
namespace TouchDb
open Prog Layout

/-- The calls of a client. A place names a value that it has been given. -/
inductive StrOp where
  | new (v : Text)
  | new2 (v : Text)
  | newVal (w : NonStr)
  | alloc (n : PoolSize)
  | cpy (i j : ℕ)
  | cmp (i j : ℕ)
  | data (i : ℕ)
  | destroy (i : ℕ)

/-- What a call answers: the result of a copy, the sign of a comparison, or the characters. -/
inductive StrAnswer where
  | copied (r : ℤ)
  | order (sign : ℤ)
  | chars (v : Option CStr)
  deriving DecidableEq

structure StrClient where
  vals : List ℕ
  answers : List StrAnswer

/-- The string at `p`, where there is one. -/
def readChars (p : ℕ) : M (Option CStr) := do
  if p = NULL then return none
  else
    let v ← readStr touchdbDefaultPoolSize p
    return some v

/-- One call; a call with a place that names nothing is not made. -/
def StrOp.run (r : StrClient) : StrOp → M StrClient
  | .new v => do
    let (p, _) ← touchdbStrNew v.1
    return { r with vals := r.vals ++ [p] }
  | .new2 v => do
    let (p, _) ← touchdbMalloc sizeofVal
    let _ ← touchdbStrNew2 p v.1
    return { r with vals := r.vals ++ [p] }
  | .newVal w => do
    let (p, _) ← touchdbMalloc sizeofVal
    store p Val.all w.1
    return { r with vals := r.vals ++ [p] }
  | .alloc n => do
    let _ ← touchdbMalloc n.bytes
    return r
  | .cpy i j =>
    match r.vals[i]?, r.vals[j]? with
    | some dest, some src => do
      let n ← touchdbStrCpy dest src
      return { r with answers := r.answers ++ [.copied n.toInt] }
    | _, _ => return r
  | .cmp i j =>
    match r.vals[i]?, r.vals[j]? with
    | some v1, some v2 => do
      let n ← touchdbStrCmp v1 v2
      return { r with answers := r.answers ++ [.order n.toInt.sign] }
    | _, _ => return r
  | .data i =>
    match r.vals[i]? with
    | some v => do
      let p ← touchdbStrData v
      let x ← readChars p
      return { r with answers := r.answers ++ [.chars x] }
    | none => return r
  | .destroy i =>
    match r.vals[i]? with
    | some v => do
      touchdbValDestroy v
      return { r with vals := r.vals.eraseIdx i }
    | none => return r

abbrev StrRun := StrClient × Touchdb

def StrRun.step (op : StrOp) (r : StrRun) : Except Stop StrRun := (op.run r.1).run r.2

/-- The calls `ops`, on a new pool. -/
def runStrs (f : NewFiles) (ops : List StrOp) : Except Stop StrRun := do
  let s ← (touchdbPoolInit 0 f.ptr false).next f.db
  Run.exec StrRun.step ops (⟨[], []⟩, s)

/-- A list of strings, and what was asked about it; `none` is a value of another type. -/
structure StrState where
  texts : List (Option Text)
  answers : List StrAnswer
  deriving DecidableEq

/-- What the calls are for. -/
def StrState.step (x : StrState) : StrOp → StrState
  | .new v | .new2 v => { x with texts := x.texts ++ [some v] }
  | .newVal _ => { x with texts := x.texts ++ [none] }
  | .alloc _ => x
  | .cpy i j =>
    match x.texts[i]?, x.texts[j]? with
    | some (some _), some (some w) => ⟨x.texts.set i (some w), x.answers ++ [.copied 0]⟩
    | some _, some _ => { x with answers := x.answers ++ [.copied (-1)] }
    | _, _ => x
  | .cmp i j =>
    match x.texts[i]?, x.texts[j]? with
    | some (some v), some (some w) => { x with answers := x.answers ++ [.order (cmpSign v.1 w.1)] }
    | some _, some _ => { x with answers := x.answers ++ [.order (-1)] }
    | _, _ => x
  | .data i =>
    match x.texts[i]? with
    | some v => { x with answers := x.answers ++ [.chars (v.map Subtype.val)] }
    | none => x
  | .destroy i => { x with texts := x.texts.eraseIdx i }

def StrState.run (ops : List StrOp) : StrState := ops.foldl StrState.step ⟨[], []⟩

/-- Where the string of a value is. -/
structure StrParts where
  str : ℕ
  chars : ℕ
  text : Text

/-- A value of the client. -/
structure StrValue where
  blk : ℕ
  parts : Option StrParts

namespace StrValue

def text (v : StrValue) : Option Text := v.parts.map StrParts.text

def blocks (v : StrValue) : List ℕ :=
  v.blk :: match v.parts with
    | some x => [x.str, x.chars]
    | none => []

structure Rep (B : ℕ) (s : Touchdb) (a : PoolAlloc) (v : StrValue) : Prop where
  owns : Owns a v.blk sizeofVal
  plain : v.parts = none → (s.field (B + v.blk) Val.all).type ≠ .str
  str : ∀ x ∈ v.parts, s.field (B + v.blk) Val.all = ⟨.str, addrOf x.str⟩ ∧
    StrRep B s a x.str x.chars x.text.1

end StrValue

/-- The client knows the values `vs`, each of which has its blocks to itself. -/
structure StrsInv (B : ℕ) (x : StrState) (r : StrClient) (s : Touchdb) (a : PoolAlloc) (vs : List StrValue) :
    Prop where
  heap : Heap B s a
  vals : r.vals = vs.map fun v => B + v.blk
  texts : x.texts = vs.map StrValue.text
  answers : r.answers = x.answers
  rep : ∀ v ∈ vs, v.Rep B s a
  apart : (vs.flatMap StrValue.blocks).Nodup

section
variable {B : ℕ} {x : StrState} {r : StrClient} {s t : Touchdb} {a a' : PoolAlloc} {T : List ℕ}
variable {vs : List StrValue} {v w : StrValue} {i j o : ℕ}

namespace StrValue

theorem Rep.owned (h : v.Rep B s a) (ho : o ∈ v.blocks) : Owns a o 0 := by
  rcases List.mem_cons.mp ho with rfl | ho
  · exact h.owns.mono (Nat.zero_le _)
  · rcases hp : v.parts with _ | x
    · rw [hp] at ho
      cases ho
    · have hx := (h.str x hp).2
      rw [hp] at ho
      rcases List.mem_pair.mp ho with rfl | rfl
      · exact hx.str.mono (Nat.zero_le _)
      · exact hx.chars.mono (Nat.zero_le _)

theorem mem_parts {x : StrParts} (hx : v.parts = some x) : x.str ∈ v.blocks ∧ x.chars ∈ v.blocks := by
  simp [blocks, hx]

theorem Rep.frame (h : v.Rep B s a) (hF : Frame B s a t a' T) (hT : ∀ o ∈ v.blocks, o ∉ T) :
    v.Rep B t a' where
  owns := hF.owns (hT _ List.mem_cons_self) h.owns
  plain hp := by
    rw [hF.field (hT _ List.mem_cons_self) h.owns (by decide)]
    exact h.plain hp
  str x hx := by
    obtain ⟨h1, h2⟩ := h.str x hx
    obtain ⟨hS, hD⟩ := mem_parts hx
    rw [hF.field (hT _ List.mem_cons_self) h.owns (by decide)]
    exact ⟨h1, h2.frame hF (hT _ hS) (hT _ hD)⟩

/-- The value, as an argument of a call. -/
def arg (v : StrValue) (h : v.Rep B s a) : ValArg a := ⟨v.blk, 0, by simpa using h.owns⟩

/-- The string that the value refers to. -/
def strOf (h : v.Rep B s a) {x : StrParts} (hx : v.parts = some x) : StrOf B s a (v.arg h) :=
  ⟨x.str, x.chars, x.text, (h.str x hx).1, (h.str x hx).2⟩

end StrValue

namespace StrsInv

/-- After the step the client knows its values again. -/
def Next (B : ℕ) (x : StrState) (r : StrClient) (s : Touchdb) : Prop := ∃ a vs, StrsInv B x r s a vs

theorem text_at (hi : StrsInv B x r s a vs) (hv : vs[i]? = some v) :
    r.vals[i]? = some (B + v.blk) ∧ x.texts[i]? = some v.text := by
  simp [hi.vals, hi.texts, hv]

theorem text_none (hi : StrsInv B x r s a vs) (hv : vs[i]? = none) :
    r.vals[i]? = none ∧ x.texts[i]? = none := by
  simp [hi.vals, hi.texts, hv]

theorem owned (hi : StrsInv B x r s a vs) (ho : o ∈ vs.flatMap StrValue.blocks) : Owns a o 0 := by
  obtain ⟨v, hv, ho⟩ := List.mem_flatMap.mp ho
  exact (hi.rep v hv).owned ho

/-- A new value in blocks that were free. -/
theorem add (hi : StrsInv B x r s a vs) (ht : Heap B t a') (hF : Frame B s a t a' []) (hv : v.Rep B t a')
    (hfresh : ∀ o ∈ v.blocks, a.payload o = none) (hn : v.blocks.Nodup) :
    Next B { x with texts := x.texts ++ [v.text] } { r with vals := r.vals ++ [B + v.blk] } t := by
  refine ⟨a', vs ++ [v], ht, by simp [hi.vals], by simp [hi.texts], hi.answers, fun w hw => ?_, ?_⟩
  · rcases List.mem_append.mp hw with hw | hw
    · exact (hi.rep w hw).frame hF (by simp)
    · obtain rfl := List.mem_singleton.mp hw
      exact hv
  · rw [List.flatMap_append, List.flatMap_singleton, List.nodup_append']
    refine ⟨hi.apart, hn, fun o ho hov => ?_⟩
    exact (hi.owned ho).ne_none (hfresh o hov)

/-- The blocks of one value, and of the others. -/
theorem split (hi : StrsInv B x r s a vs) (hv : vs[i]? = some v) :
    (v.blocks ++ (vs.eraseIdx i).flatMap StrValue.blocks).Nodup := by
  obtain ⟨hlt, rfl⟩ := List.getElem?_eq_some_iff.mp hv
  have hp := (List.getElem_cons_eraseIdx_perm hlt).symm.flatMap_right StrValue.blocks
  exact hp.nodup_iff.mp hi.apart

/-- A stretch that touches one value alone. -/
theorem others (hi : StrsInv B x r s a vs) (hv : vs[i]? = some v) (hF : Frame B s a t a' T)
    (hT : ∀ o ∈ T, o ∈ v.blocks) : ∀ w ∈ vs.eraseIdx i, w.Rep B t a' := by
  intro w hw
  refine (hi.rep w (List.mem_of_mem_eraseIdx hw)).frame hF fun o ho hc => ?_
  exact (List.nodup_append'.mp (hi.split hv)).2.2 (hT o hc) (List.mem_flatMap.mpr ⟨w, hw, ho⟩)

/-- One value is changed. -/
theorem change (hi : StrsInv B x r s a vs) (hv : vs[i]? = some v) (ht : Heap B t a')
    (hF : Frame B s a t a' T) (hT : ∀ o ∈ T, o ∈ v.blocks) (hw : w.Rep B t a') (hblk : w.blk = v.blk)
    (hn : w.blocks.Nodup)
    (hnew : ∀ o ∈ w.blocks, o ∈ v.blocks ∨ o ∉ (vs.eraseIdx i).flatMap StrValue.blocks)
    (ans : StrAnswer) :
    Next B ⟨x.texts.set i w.text, x.answers ++ [ans]⟩ { r with answers := r.answers ++ [ans] } t := by
  obtain ⟨hlt, hvi⟩ := List.getElem?_eq_some_iff.mp hv
  have hp := List.set_perm_cons_eraseIdx hlt w
  refine ⟨a', vs.set i w, ht, hi.vals.trans (map_set_eq hv (by rw [hblk])).symm, by simp [hi.texts],
    by rw [hi.answers], fun u hu => ?_, ?_⟩
  · rcases List.mem_cons.mp (hp.mem_iff.mp hu) with rfl | hu
    · exact hw
    · exact hi.others hv hF hT u hu
  · refine (hp.flatMap_right StrValue.blocks).nodup_iff.mpr ?_
    rw [List.flatMap_cons, List.nodup_append']
    obtain ⟨-, h2, h3⟩ := List.nodup_append'.mp (hi.split hv)
    refine ⟨hn, h2, fun o ho hc => ?_⟩
    rcases hnew o ho with hm | hm
    · exact h3 hm hc
    · exact hm hc

/-- A call that only reads. -/
theorem answer (hi : StrsInv B x r s a vs) (ans : StrAnswer) :
    Next B { x with answers := x.answers ++ [ans] } { r with answers := r.answers ++ [ans] } s :=
  ⟨a, vs, hi.heap, hi.vals, hi.texts, by rw [hi.answers], hi.rep, hi.apart⟩

theorem wp_new (hi : StrsInv B x r s a vs) (v : Text) :
    wp served ((StrOp.new v).run r) (Next B { x with texts := x.texts ++ [some v] }) s := by
  unfold StrOp.run
  refine wp_bind (wp_touchdbStrNew hi.heap (fun _ => trivial) rfl v.2
    fun V S D a₁ a₂ a₃ u hV hS hD hu hF hrep hval => wp_pure ?_)
  have hVO : Owns a₁ V sizeofVal := hV.owns (by decide)
  have hVS : V ≠ S := hVO.ne hS.fresh
  have hVD : V ≠ D := (hS.keep hVO).ne hD.fresh
  refine hi.add (v := ⟨V, some ⟨S, D, v⟩⟩) hu hF ⟨hD.keep (hS.keep hVO), by simp, ?_⟩ (fun o ho => ?_) ?_
  · rintro y hy
    obtain rfl := Option.some.inj hy
    exact ⟨hval, hrep⟩
  · simp only [StrValue.blocks, List.mem_cons, List.not_mem_nil, or_false] at ho
    rcases ho with rfl | rfl | rfl
    · exact hV.fresh
    · exact hV.fresh_of hS.fresh
    · exact hV.fresh_of (hS.fresh_of hD.fresh)
  · simp [StrValue.blocks, hVS, hVD, hrep.ne]

theorem wp_new2 (hi : StrsInv B x r s a vs) (v : Text) :
    wp served ((StrOp.new2 v).run r) (Next B { x with texts := x.texts ++ [some v] }) s := by
  have hall : ∀ e, served.emits e := fun _ => trivial
  unfold StrOp.run
  refine wp_bind ((Work.start hi.heap).wp_malloc (T := []) (.of_all hall) (.of_stops rfl _ [_]) (by decide)
    (by decide) fun V a₁ t₁ hV hw₁ hF₁ => ?_)
  have hVO : Owns a₁ V sizeofVal := hV.owns (by decide)
  refine wp_bind (wp_touchdbStrNew2 hw₁ (.of_all hall) (.of_stops rfl _ _) hV.mine hVO v.2
    fun S D a₂ a₃ u hS hD hw₂ hF₂ hrep hval => wp_pure ?_)
  have hVS : V ≠ S := hVO.ne hS.fresh
  have hVD : V ≠ D := (hS.keep hVO).ne hD.fresh
  refine hi.add (v := ⟨V, some ⟨S, D, v⟩⟩) hw₂.heap hw₂.frame ⟨hD.keep (hS.keep hVO), by simp, ?_⟩
    (fun o ho => ?_) ?_
  · rintro y hy
    obtain rfl := Option.some.inj hy
    exact ⟨hval, hrep⟩
  · simp only [StrValue.blocks, List.mem_cons, List.not_mem_nil, or_false] at ho
    rcases ho with rfl | rfl | rfl
    · exact hV.fresh
    · exact hV.fresh_of hS.fresh
    · exact hV.fresh_of (hS.fresh_of hD.fresh)
  · simp [StrValue.blocks, hVS, hVD, hrep.ne]

theorem wp_newVal (hi : StrsInv B x r s a vs) (w : NonStr) :
    wp served ((StrOp.newVal w).run r) (Next B { x with texts := x.texts ++ [none] }) s := by
  have hall : ∀ e, served.emits e := fun _ => trivial
  unfold StrOp.run
  refine wp_bind ((Work.start hi.heap).wp_malloc (T := []) (.of_all hall) (.of_stops rfl _ [_]) (by decide)
    (by decide) fun V a₁ t₁ hV hw₁ hF₁ => ?_)
  have hVO : Owns a₁ V sizeofVal := hV.owns (by decide)
  refine wp_bind (hw₁.wp_store (.of_all hall) hV.mine hVO (by decide) fun hw₂ hF₂ => wp_pure ?_)
  refine hi.add (v := ⟨V, none⟩) hw₂.heap hw₂.frame ⟨hVO, fun _ => ?_, by simp⟩ (fun o ho => ?_)
    (List.nodup_singleton V)
  · rw [field_write_same]
    exact w.2
  · obtain rfl := List.mem_singleton.mp ho
    exact hV.fresh

theorem wp_alloc (hi : StrsInv B x r s a vs) (n : PoolSize) :
    wp served ((StrOp.alloc n).run r) (Next B x) s := by
  unfold StrOp.run
  refine wp_bind ((Work.start hi.heap).wp_malloc (T := []) (.of_all fun _ => trivial) (.of_stops rfl _ [_])
    n.pos n.le fun N a₁ t hN hw hF => wp_pure ⟨a₁, vs, hw.heap, hi.vals, hi.texts, hi.answers,
      fun v hv => (hi.rep v hv).frame hF (by simp), hi.apart⟩)

/-- What a search for two places finds. -/
theorem two_places (hi : StrsInv B x r s a vs) (i j : ℕ) :
    (∃ v w, vs[i]? = some v ∧ vs[j]? = some w) ∨
      ((r.vals[i]? = none ∧ x.texts[i]? = none) ∨ r.vals[j]? = none ∧ x.texts[j]? = none) := by
  rcases hv : vs[i]? with _ | v
  · exact .inr (.inl (hi.text_none hv))
  rcases hw : vs[j]? with _ | w
  · exact .inr (.inr (hi.text_none hw))
  · exact .inl ⟨v, w, rfl, rfl⟩

theorem wp_cmp (hi : StrsInv B x r s a vs) (i j : ℕ) :
    wp served ((StrOp.cmp i j).run r) (Next B (x.step (.cmp i j))) s := by
  rcases hi.two_places i j with ⟨v, w, hv, hw⟩ | ⟨hr, hx⟩ | ⟨hr, hx⟩
  · obtain ⟨hrv, hxv⟩ := hi.text_at hv
    obtain ⟨hrw, hxw⟩ := hi.text_at hw
    have hV := hi.rep v (List.mem_of_getElem? hv)
    have hW := hi.rep w (List.mem_of_getElem? hw)
    simp only [StrOp.run, hrv, hrw, StrState.step, hxv, hxw, StrValue.text]
    rcases hpv : v.parts with _ | y
    · refine wp_bind (wp_touchdbStrCmp_other (d := v.arg hV) (w := w.arg hW) hi.heap
        (fun hc => hV.plain hpv hc.1) (wp_pure (hi.answer _)))
    rcases hpw : w.parts with _ | z
    · refine wp_bind (wp_touchdbStrCmp_other (d := v.arg hV) (w := w.arg hW) hi.heap
        (fun hc => hW.plain hpw hc.2) (wp_pure (hi.answer _)))
    · refine wp_bind (wp_touchdbStrCmp hi.heap (fun _ _ _ => trivial) (StrValue.strOf hV hpv)
        (StrValue.strOf hW hpw) (wp_pure ?_))
      rw [strDiff_sign]
      exact hi.answer _
  · simp only [StrOp.run, hr, StrState.step, hx]
    exact wp_pure ⟨a, vs, hi⟩
  · simp only [StrOp.run, hr, StrState.step, hx]
    rcases r.vals[i]? with _ | p <;> rcases x.texts[i]? with _ | _ | v <;> exact wp_pure ⟨a, vs, hi⟩

/-- Two values have no block in common. -/
theorem apart_of (hi : StrsInv B x r s a vs) (hv : vs[i]? = some v) (hw : vs[j]? = some w) (hij : j ≠ i)
    (ho : o ∈ v.blocks) : o ∉ w.blocks := by
  intro hc
  refine (List.nodup_append'.mp (hi.split hv)).2.2 ho (List.mem_flatMap.mpr ⟨w, ?_, hc⟩)
  exact List.mem_eraseIdx_iff_getElem?.mpr ⟨j, hij, hw⟩

/-- Two strings of the client may be copied. -/
theorem cpyStrs (hi : StrsInv B x r s a vs) (hv : vs[i]? = some v) (hw : vs[j]? = some w)
    (hV : v.Rep B s a) (hW : w.Rep B s a) {y z : StrParts} (hy : v.parts = some y)
    (hz : w.parts = some z) : ∃ c : CpyStrs B s a (v.arg hV) (w.arg hW),
      c.dest.str = y.str ∧ c.dest.chars = y.chars ∧ c.src.text = z.text := by
  obtain ⟨hyS, hyD⟩ := StrValue.mem_parts hy
  obtain ⟨hzS, hzD⟩ := StrValue.mem_parts hz
  have hn := (List.nodup_append'.mp (hi.split hv)).1
  have hb : v.blocks = [v.blk, y.str, y.chars] := by simp [StrValue.blocks, hy]
  rw [hb] at hn
  have hnv := (List.nodup_cons.mp hn).1
  by_cases hij : j = i
  · subst hij
    obtain rfl : v = w := Option.some.inj (hv.symm.trans hw)
    obtain rfl : y = z := Option.some.inj (hy.symm.trans hz)
    exact ⟨⟨StrValue.strOf hV hy, StrValue.strOf hW hz, fun h => absurd rfl h, hnv, hnv⟩, rfl, rfl, rfl⟩
  · have h1 := hi.apart_of hv hw hij hyS
    have h2 := hi.apart_of hv hw hij hyD
    have hne {o o' : ℕ} (ho : o ∉ w.blocks) (ho' : o' ∈ w.blocks) : o ≠ o' := fun h => ho (h ▸ ho')
    refine ⟨⟨StrValue.strOf hV hy, StrValue.strOf hW hz, fun _ => ?_, hnv, ?_⟩, rfl, rfl, rfl⟩
    · have hSD := (hV.str y hy).2.ne
      have hSD' := (hW.str z hz).2.ne
      simp [StrValue.strOf, hSD, hSD', hne h1 hzS, hne h1 hzD, hne h2 hzS, hne h2 hzD]
    · have hwb : w.blk ∈ w.blocks := List.mem_cons_self
      simp [StrValue.arg, StrValue.strOf, (hne h1 hwb).symm, (hne h2 hwb).symm]

/-- After a copy the value has the characters of the other one, in a block of their own. -/
theorem copied (hi : StrsInv B x r s a vs) (hv : vs[i]? = some v) {hV : v.Rep B s a} {hW : w.Rep B s a}
    {y z : StrParts} (hy : v.parts = some y) {c : CpyStrs B s a (v.arg hV) (w.arg hW)}
    (hS : c.dest.str = y.str) (hD : c.dest.chars = y.chars) (hz : c.src.text = z.text) {D : ℕ}
    (hc : Copied B s a c t a' D) :
    Next B ⟨x.texts.set i (some z.text), x.answers ++ [.copied 0]⟩
      { r with answers := r.answers ++ [.copied 0] } t := by
  obtain ⟨hyS, hyD⟩ := StrValue.mem_parts hy
  obtain ⟨a₁, hf, hh⟩ := hc.moved
  have hT := hc.frame
  have hrep := hc.rep
  rw [hS, hD] at hT
  rw [hS, hz] at hrep
  rw [hD] at hf
  have hn := (List.nodup_append'.mp (hi.split hv)).1
  have hb : v.blocks = [v.blk, y.str, y.chars] := by simp [StrValue.blocks, hy]
  rw [hb] at hn
  have hnv := (List.nodup_cons.mp hn).1
  have hVo := hV.owns
  have hVD : v.blk ≠ D := (hf.keep hVo fun h => hnv (by simp [h])).ne hh.fresh
  have hVS : v.blk ≠ y.str := fun h => hnv (by simp [h])
  refine hi.change (w := ⟨v.blk, some ⟨y.str, D, z.text⟩⟩) hv hc.heap hT (fun o ho => ?_)
    ⟨hT.owns hnv hVo, by simp, ?_⟩ rfl ?_ (fun o ho => ?_) (.copied 0)
  · rcases List.mem_pair.mp ho with rfl | rfl
    · exact hyS
    · exact hyD
  · rintro u hu
    obtain rfl := Option.some.inj hu
    refine ⟨?_, hrep⟩
    rw [hT.field hnv hVo (by decide)]
    exact (hV.str y hy).1
  · simp [StrValue.blocks, hVS, hVD, hrep.ne]
  · simp only [StrValue.blocks, List.mem_cons, List.not_mem_nil, or_false] at ho
    rcases ho with rfl | rfl | rfl
    · exact .inl List.mem_cons_self
    · exact .inl hyS
    · refine .inr fun hm => ?_
      have hne : o ≠ y.chars := fun h => (List.nodup_append'.mp (hi.split hv)).2.2 hyD (h ▸ hm)
      obtain ⟨u, hu, hou⟩ := List.mem_flatMap.mp hm
      have hO := (hi.rep u (List.mem_of_mem_eraseIdx hu)).owned hou
      exact (hf.keep hO hne).ne hh.fresh rfl

end StrsInv

/-- Values that are not both strings are not copied. -/
theorem wp_strCpyBy_other {mallocAt : ℕ → Field TouchdbAddr → ℕ → M ℕ} {d w : ValArg a}
    {G : Guard Stop Event} {Q : Int32 → Touchdb → Prop} (h : Heap B s a)
    (hno : ¬ ((d.val B s).type = .str ∧ (w.val B s).type = .str)) (hQ : Q (-1) s) :
    wp G (strCpyBy mallocAt (d.ptr B) (w.ptr B)) Q s := by
  have hB := h.base_pos'
  have hd := ValAt.of_field (w := d.val B s) d.owns rfl
  have hw := ValAt.of_field (w := w.val B s) w.owns rfl
  have hne : ¬ ((d.val B s).type = (w.val B s).type ∧ (d.val B s).type = .str) :=
    fun hc => hno ⟨hc.2, hc.1 ▸ hc.2⟩
  unfold strCpyBy ValArg.ptr
  refine wp_bind (wp_load_shift (by omega) (wp_loadCell h d.owns (by simp [sizeofVal]) ?_))
  refine wp_bind (wp_load_shift (by omega) (wp_loadCell h w.owns (by simp [sizeofVal]) ?_))
  rw [hd.type, hw.type, if_neg hne]
  exact wp_pure hQ

namespace StrsInv

theorem wp_cpy (hi : StrsInv B x r s a vs) (i j : ℕ) :
    wp served ((StrOp.cpy i j).run r) (Next B (x.step (.cpy i j))) s := by
  have hall : ∀ e, served.emits e := fun _ => trivial
  rcases hi.two_places i j with ⟨v, w, hv, hw⟩ | ⟨hr, hx⟩ | ⟨hr, hx⟩
  · obtain ⟨hrv, hxv⟩ := hi.text_at hv
    obtain ⟨hrw, hxw⟩ := hi.text_at hw
    have hV := hi.rep v (List.mem_of_getElem? hv)
    have hW := hi.rep w (List.mem_of_getElem? hw)
    simp only [StrOp.run, hrv, hrw, StrState.step, hxv, hxw, StrValue.text]
    rcases hpv : v.parts with _ | y
    · exact wp_bind (wp_strCpyBy_other (d := v.arg hV) (w := w.arg hW) hi.heap
        (fun hc => hV.plain hpv hc.1) (wp_pure (hi.answer _)))
    rcases hpw : w.parts with _ | z
    · exact wp_bind (wp_strCpyBy_other (d := v.arg hV) (w := w.arg hW) hi.heap
        (fun hc => hW.plain hpw hc.2) (wp_pure (hi.answer _)))
    · obtain ⟨c, hS, hD, hz⟩ := hi.cpyStrs hv hw hV hW hpv hpw
      exact wp_bind (wp_strCpyBy (requests_mallocAt hall rfl) hi.heap c hall
        (fun t a' D hc => wp_pure (hi.copied hv hpv hS hD hz hc)) fun h => h.elim)
  · simp only [StrOp.run, hr, StrState.step, hx]
    exact wp_pure ⟨a, vs, hi⟩
  · simp only [StrOp.run, hr, StrState.step, hx]
    rcases r.vals[i]? with _ | p <;> rcases x.texts[i]? with _ | _ | v <;> exact wp_pure ⟨a, vs, hi⟩

theorem wp_data (hi : StrsInv B x r s a vs) (i : ℕ) :
    wp served ((StrOp.data i).run r) (Next B (x.step (.data i))) s := by
  rcases hv : vs[i]? with _ | v
  · obtain ⟨hr, hx⟩ := hi.text_none hv
    simp only [StrOp.run, hr, StrState.step, hx]
    exact wp_pure ⟨a, vs, hi⟩
  · obtain ⟨hr, hx⟩ := hi.text_at hv
    have hV := hi.rep v (List.mem_of_getElem? hv)
    have hB := hi.heap.base_pos'
    have hat := ValAt.of_field (w := s.field (B + v.blk) Val.all) (k := 0) (by simpa using hV.owns) rfl
    have htype : s.field (B + v.blk) Val.type = (s.field (B + v.blk) Val.all).type := hat.type
    have hvalue : s.field (B + v.blk) Val.value = (s.field (B + v.blk) Val.all).value := hat.value
    simp only [StrOp.run, hr, StrState.step, hx, StrValue.text]
    unfold touchdbStrData
    rw [if_neg (hV.owns.ptr_ne B)]
    refine wp_bind (wp_bind (wp_loadCell hi.heap hV.owns (by decide) ?_))
    rcases hpv : v.parts with _ | y
    · rw [htype, if_neg (hV.plain hpv)]
      unfold readChars
      refine wp_pure (wp_bind ?_)
      rw [if_pos rfl]
      exact wp_pure (wp_pure (hi.answer _))
    · obtain ⟨hval, hrep⟩ := hV.str y hpv
      rw [hval] at htype hvalue
      rw [if_pos htype]
      refine wp_bind (wp_loadCell hi.heap hV.owns (by decide) ?_)
      rw [hvalue]
      refine wp_bind (wp_ptrOfOwned hi.heap (fun _ _ _ => trivial) hrep.str ?_)
      refine wp_bind (wp_loadCell hi.heap hrep.str (by decide) ?_)
      rw [hrep.data]
      refine wp_ptrOfOwned hi.heap (fun _ _ _ => trivial) hrep.chars ?_
      have hb := hrep.chars.bounds
      unfold readChars
      refine wp_bind ?_
      rw [if_neg (hrep.chars.ptr_ne B)]
      exact wp_bind (hi.heap.wp_readStr (by omega) hrep.holds (wp_pure (wp_pure (hi.answer _))))

/-- What is left after a value has been given up. -/
theorem erase (hi : StrsInv B x r s a vs) (hv : vs[i]? = some v) (ht : Heap B t a')
    (hF : Frame B s a t a' T) (hT : ∀ o ∈ T, o ∈ v.blocks) :
    Next B { x with texts := x.texts.eraseIdx i } { r with vals := r.vals.eraseIdx i } t :=
  ⟨a', vs.eraseIdx i, ht, by rw [hi.vals, List.eraseIdx_map], by rw [hi.texts, List.eraseIdx_map],
    hi.answers, hi.others hv hF hT, (List.nodup_append'.mp (hi.split hv)).2.1⟩

theorem wp_destroy (hi : StrsInv B x r s a vs) (i : ℕ) :
    wp served ((StrOp.destroy i).run r) (Next B (x.step (.destroy i))) s := by
  have hall : ∀ e, served.emits e := fun _ => trivial
  rcases hv : vs[i]? with _ | v
  · obtain ⟨hr, -⟩ := hi.text_none hv
    have hlen : x.texts.length ≤ i := by
      rw [hi.texts, List.length_map]
      exact List.getElem?_eq_none_iff.mp hv
    simp only [StrOp.run, hr, StrState.step, List.eraseIdx_of_length_le hlen]
    exact wp_pure ⟨a, vs, hi⟩
  · obtain ⟨hr, -⟩ := hi.text_at hv
    have hV := hi.rep v (List.mem_of_getElem? hv)
    have howns : Owns a v.blk (0 + sizeofVal) := by simpa using hV.owns
    simp only [StrOp.run, hr, StrState.step]
    rcases hpv : v.parts with _ | y
    · refine wp_bind (wp_touchdbValDestroy_other (k := 0) hi.heap (.of_field howns rfl) (hV.plain hpv)
        (wp_pure ?_))
      exact hi.erase hv hi.heap (.refl B s a []) (by simp)
    · obtain ⟨hval, hrep⟩ := hV.str y hpv
      obtain ⟨hS, hD⟩ := StrValue.mem_parts hpv
      have hn := (List.nodup_append'.mp (hi.split hv)).1
      have hb : v.blocks = [v.blk, y.str, y.chars] := by simp [StrValue.blocks, hpv]
      rw [hb] at hn
      have hqD : v.blk ≠ y.chars := fun h => (List.nodup_cons.mp hn).1 (by simp [h])
      refine wp_bind (wp_touchdbValDestroy_str (T := [y.chars, y.str]) (k := 0) (Work.start hi.heap)
        (.of_all hall) (.of_field howns hval) hrep.str (hrep.chars.mono (by omega)) hrep.data hrep.ne hqD
        (.inl (by simp)) (.inl (by simp)) fun a₁ a' u _ _ hw hF => wp_pure ?_)
      refine hi.erase hv hw.heap hF fun o ho => ?_
      rcases List.mem_pair.mp ho with rfl | rfl
      · exact hD
      · exact hS

theorem wp_run (hi : StrsInv B x r s a vs) (op : StrOp) :
    wp served (op.run r) (Next B (x.step op)) s := by
  cases op with
  | new v => exact hi.wp_new v
  | new2 v => exact hi.wp_new2 v
  | newVal w => exact hi.wp_newVal w
  | alloc n => exact hi.wp_alloc n
  | cpy i j => exact hi.wp_cpy i j
  | cmp i j => exact hi.wp_cmp i j
  | data i => exact hi.wp_data i
  | destroy i => exact hi.wp_destroy i

end StrsInv

/-- The value at `p` is `v`: a string in blocks in use, or no string. -/
def IsText (s : Touchdb) (p : ℕ) : Option Text → Prop
  | none => (s.field p Val.all).type ≠ .str
  | some v => ∃ S D, s.field p Val.all = ⟨.str, addrOf S⟩ ∧ s.field (s.base 0 + S) Str.data = addrOf D ∧
    Allocated s S sizeofStr ∧ Allocated s D (v.1.strlen + 1) ∧ s.holds (s.base 0 + D) v.1

theorem StrsInv.isText (hi : StrsInv B x r s a vs) : List.Forall₂ (IsText s) r.vals x.texts := by
  rw [hi.vals, hi.texts, List.forall₂_map_left_iff, List.forall₂_map_right_iff, List.forall₂_same]
  intro v hv
  have hV := hi.rep v hv
  have hb := hi.heap.base_eq
  unfold StrValue.text
  rcases hp : v.parts with _ | y
  · exact hV.plain hp
  · obtain ⟨hval, hrep⟩ := hV.str y hp
    refine ⟨y.str, y.chars, hval, ?_, hi.heap.allocated_iff.mpr hrep.str,
      hi.heap.allocated_iff.mpr hrep.chars, ?_⟩
    · rw [hb]
      exact hrep.data
    · rw [hb]
      exact hrep.holds

end

/-- Every run on a new pool does to the values what it does to a list of strings, and answers
accordingly; it stops only for want of a block. -/
theorem strs_refine (f : NewFiles) (ops : List StrOp) :
    Run.Post (fun e => e = .noBlock) (runStrs f ops) fun r =>
      r.1.answers = (StrState.run ops).answers ∧
        List.Forall₂ (IsText r.2) r.1.vals (StrState.run ops).texts := by
  have hw := wp_touchdbPoolInit (G := anyEvent) (s := f.db) (j := 0)
    (by simp [PoolIdxOk, NewFiles.db, Touchdb.zero, touchdbPoolListSize]) f.pos fun _ => trivial
  obtain ⟨_, s, hs, hr, hb, -, -⟩ := next_ends hw fun _ h => h
  have h0 : StrsInv.Next f.ptr (StrState.run []) ⟨[], []⟩ s :=
    ⟨freshAlloc, [], ⟨hr, hb⟩, rfl, rfl, rfl, by simp, List.nodup_nil⟩
  unfold runStrs
  rw [hs]
  refine (Run.exec_invariant (I := fun pre (r : StrRun) => StrsInv.Next f.ptr (StrState.run pre) r.1 r.2)
    (fun pre op r hr => ?_) ops [] (⟨[], []⟩, s) h0).mono fun r ⟨a, vs, hi⟩ =>
      ⟨hi.answers, hi.isText⟩
  obtain ⟨a, vs, hi⟩ := hr
  have hrun : StrState.run (pre ++ [op]) = (StrState.run pre).step op := List.foldl_concat ..
  rw [hrun]
  exact .of_wp_run (G := served) (hi.wp_run op) fun _ h => h

end TouchDb
