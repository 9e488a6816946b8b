import TouchDb.Str.Model
import TouchDb.Heap.Rules

/-! String values in a heap: a `touchdb_str_t` at `S` and its characters at `D`. -/
namespace TouchDb
open Prog Layout

/-- The C string at `p` is `v`. -/
def Touchdb.holds (s : Touchdb) (p : ℕ) (v : CStr) : Prop := s.mem.read p (v.strlen + 1) = v.bytes

/-- A string, with its NUL, is no longer than the largest block. -/
def CStr.Fits (v : CStr) : Prop := v.strlen + 1 ≤ 2 ^ 20

instance (v : CStr) : Decidable v.Fits := inferInstanceAs (Decidable (_ ≤ _))

/-- A string that a block can hold. -/
abbrev Text := {v : CStr // v.Fits}

/-- The character `c`, `n` times. -/
def text (n : ℕ) (c : UInt8) (hc : c ≠ 0 := by decide) (hn : n + 1 ≤ 2 ^ 20 := by decide) : Text :=
  ⟨⟨List.replicate n c, fun h => hc (List.eq_of_mem_replicate h).symm⟩, by
    simpa [CStr.Fits, CStr.strlen] using hn⟩

/-- A value that is not a string, at an offset of the first pool. -/
structure PlainVal where
  type : TouchdbValType
  offset : ℕ
  type_ne : type ≠ .str
  pos : 0 < offset
  le : offset ≤ touchdbDefaultPoolSize

def PlainVal.val (w : PlainVal) : TouchdbVal := ⟨w.type, addrOf w.offset⟩

structure StrRep (B : ℕ) (s : Touchdb) (a : PoolAlloc) (S D : ℕ) (v : CStr) : Prop where
  str : Owns a S sizeofStr
  chars : Owns a D (v.strlen + 1)
  ne : S ≠ D
  data : s.field (B + S) Str.data = addrOf D
  holds : s.holds (B + D) v

section Holds
variable {B : ℕ} {s t : Touchdb} {a a' : PoolAlloc} {T : List ℕ} {o S D : ℕ} {v : CStr}
variable {G : Guard Stop Event}

theorem holds_write (s : Touchdb) (p : ℕ) (v : CStr) : (s.write p v.bytes).holds p v := by
  unfold Touchdb.holds
  rw [← CStr.bytes_length]
  exact Mem.read_write_same s.mem p v.bytes

theorem Frame.holds (h : Frame B s a t a' T) (hT : o ∉ T) (ho : Owns a o (v.strlen + 1))
    (hv : s.holds (B + o) v) : t.holds (B + o) v := by
  unfold Touchdb.holds at *
  rw [← hv]
  exact Mem.read_congr fun i hi => h.mem hT ho hi

theorem StrRep.frame (h : StrRep B s a S D v) (hF : Frame B s a t a' T) (hS : S ∉ T) (hD : D ∉ T) :
    StrRep B t a' S D v where
  str := hF.owns hS h.str
  chars := hF.owns hD h.chars
  ne := h.ne
  data := by
    rw [hF.field hS h.str (by decide)]
    exact h.data
  holds := hF.holds hD h.chars h.holds

/-- Memory holds one string at a place. -/
theorem holds_inj {p : ℕ} {w : CStr} (hv : s.holds p v) (hw : s.holds p w) : v = w := by
  apply CStr.ext_chars
  obtain ⟨l, hl⟩ := v
  obtain ⟨m, hm⟩ := w
  simp only [Touchdb.holds, CStr.bytes, CStr.strlen] at hv hw ⊢
  induction l generalizing m p with
  | nil =>
    cases m with
    | nil => rfl
    | cons d m =>
      rw [Mem.read_succ] at hv hw
      have h1 := (List.cons.inj hv).1.symm.trans (List.cons.inj hw).1
      exact absurd (h1 ▸ List.mem_cons_self) hm
  | cons c l ih =>
    cases m with
    | nil =>
      rw [Mem.read_succ] at hv hw
      have h1 := (List.cons.inj hw).1.symm.trans (List.cons.inj hv).1
      exact absurd (h1 ▸ List.mem_cons_self) hl
    | cons d m =>
      rw [List.length_cons, Mem.read_succ] at hv hw
      obtain ⟨h1, hv⟩ := List.cons.inj hv
      obtain ⟨h2, hw⟩ := List.cons.inj hw
      have htail : l = m := by
        apply ih (fun h => hl (List.mem_cons_of_mem _ h)) hv
        · exact fun h => hm (List.mem_cons_of_mem _ h)
        · exact hw
      rw [htail, ← h1, ← h2]

/-- A string that is mapped is read to its end. -/
theorem wp_readStr {Q : CStr → Touchdb → Prop} {rounds p : ℕ} (hp : 0 < p)
    (hm : ∀ i ≤ v.strlen, s.mapped (p + i) 1 = true) (hv : s.holds p v) (hr : v.strlen < rounds)
    (hQ : Q v s) : wp G (readStr rounds p) Q s := by
  obtain ⟨l, hl⟩ := v
  simp only [CStr.strlen] at hm hr
  simp only [Touchdb.holds, CStr.bytes, CStr.strlen] at hv
  induction l generalizing p rounds Q with
  | nil =>
    obtain ⟨k, rfl⟩ : ∃ k, rounds = k + 1 := ⟨rounds - 1, by omega⟩
    have h0 : s.field p (⟨0⟩ : Field UInt8) = 0 := by
      have h1 := (Mem.read_succ s.mem p 0).symm.trans hv
      exact (List.cons.inj h1).1
    unfold readStr
    apply wp_bind
    apply wp_load hp (hm 0 (Nat.zero_le _))
    rw [dif_pos h0]
    exact wp_pure hQ
  | cons c l ih =>
    obtain ⟨k, rfl⟩ : ∃ k, rounds = k + 1 := ⟨rounds - 1, by omega⟩
    simp only [List.length_cons] at hm hr
    have h1 := (Mem.read_succ s.mem p (l.length + 1)).symm.trans hv
    obtain ⟨hc, htail⟩ := List.cons.inj h1
    have h0 : s.field p (⟨0⟩ : Field UInt8) = c := hc
    have hne : c ≠ 0 := fun hc0 => hl (hc0 ▸ List.mem_cons_self)
    unfold readStr
    apply wp_bind
    apply wp_load hp (hm 0 (Nat.zero_le _))
    rw [dif_neg (by rw [h0]; exact hne)]
    apply wp_bind
    have htail0 : 0 ∉ l := fun hm0 => hl (List.mem_cons_of_mem _ hm0)
    have hp1 : 0 < p + 1 := Nat.succ_pos p
    apply ih hp1 htail0 _ htail (by omega)
    · apply wp_pure
      simp only [h0]
      exact hQ
    · intro i hi
      rw [Nat.add_assoc, Nat.add_comm 1 i]
      exact hm (i + 1) (by omega)

theorem Heap.wp_readStr {Q : CStr → Touchdb → Prop} (h : Heap B s a)
    (ho : o + (v.strlen + 1) ≤ touchdbDefaultPoolSize) (hv : s.holds (B + o) v) (hQ : Q v s) :
    wp G (readStr touchdbDefaultPoolSize (B + o)) Q s := by
  have hB := h.base_pos'
  apply TouchDb.wp_readStr (by omega) _ hv (by omega) hQ
  intro i hi
  have hb := h.base_eq
  apply h.toPoolMapped.mapped
  · omega
  · omega

/-- The string of the value `w` reads `v`. It may be in use, or have just been released. -/
def Legible (B : ℕ) (s : Touchdb) (w : TouchdbVal) (v : CStr) : Prop :=
  ∃ S D, w = ⟨.str, addrOf S⟩ ∧ (0 < S ∧ S + sizeofStr ≤ touchdbDefaultPoolSize) ∧
    (0 < D ∧ D + (v.strlen + 1) ≤ touchdbDefaultPoolSize) ∧ s.field (B + S) Str.data = addrOf D ∧
    s.holds (B + D) v

/-- A string in use, over a stretch that may release it. -/
theorem StrRep.legible (h : StrRep B s a S D v) (hk : Kept B s a t T) (hS : S ∉ T) (hD : D ∉ T) :
    Legible B t ⟨.str, addrOf S⟩ v := by
  have hS0 := h.str.bounds
  have hD0 := h.chars.bounds
  refine ⟨S, D, rfl, ⟨by omega, hS0.2⟩, ⟨by omega, hD0.2⟩, ?_, ?_⟩
  · rw [hk.field hS h.str (by decide)]
    exact h.data
  · have hv := h.holds
    unfold Touchdb.holds at *
    rw [← hv]
    exact Mem.read_congr fun i hi => hk D hD _ h.chars i hi

end Holds

section Wp
variable {B : ℕ} {s t : Touchdb} {a a' : PoolAlloc} {T : List ℕ} {q S D : ℕ} {v : CStr}
variable {G : Guard Stop Event}

/-- `touchdb_str_new2` on a value in a block of the caller, with the length that is recorded. -/
theorem wp_touchdbStrNew2_len {Q : ℕ → Touchdb → Prop} (h : Work B s a T t a') (hG : Lets G B s a T)
    (hr : Serves G a' [sizeofStr, v.strlen + 1]) (hm : Mine a T q) (hq : Owns a' q sizeofVal)
    (hv : v.Fits)
    (hQ : ∀ S D a₁ a'' u, Handed a' sizeofStr S a₁ → Handed a₁ (v.strlen + 1) D a'' →
      Work B s a T u a'' → Frame B t a' u a'' [q] → StrRep B u a'' S D v →
      u.field (B + q) Val.all = ⟨.str, addrOf S⟩ →
      u.field (B + S) Str.len = UInt32.ofNat (v.strlen + 1) → Q (B + S) u) :
    wp G (touchdbStrNew2 (B + q) v) Q t := by
  have hlen : (UInt32.ofNat (v.strlen + 1)).toNat = v.strlen + 1 :=
    Words.toNat_ofNat (by unfold CStr.Fits at hv; omega)
  unfold touchdbStrNew2
  refine wp_bind (h.wp_store hG hm hq (by decide) fun hw₁ hf₁ => ?_)
  refine wp_bind (hw₁.wp_mallocAt hG hr hm hq (by decide) (by decide) (by decide)
    fun S a₁ t₂ hS hw₂ hf₂ hval hkeep => ?_)
  have hS₂ : Owns a₁ S sizeofStr := hS.owns (by decide)
  have hmS : Mine a T S := hw₁.mine hS
  have hq₂ := hS.keep hq
  have hqS : q ≠ S := hq.ne hS.fresh
  refine wp_bind (hw₂.wp_store hG hmS hS₂ (by decide) fun hw₃ hf₃ => ?_)
  refine wp_bind (wp_loadCell hw₃.heap hS₂ (by decide) ?_)
  rw [field_write_same, hlen]
  refine wp_bind (hw₃.wp_mallocAt hG (hr.2 _ _ hS) hmS hS₂ (by decide) (by omega) hv
    fun D a'' t₄ hD hw₄ hf₄ hdata hlen₄ => ?_)
  have hD₄ : Owns a'' D (v.strlen + 1) := hD.owns (by omega)
  have hSD : S ≠ D := hS₂.ne hD.fresh
  have hqD : q ≠ D := hq₂.ne hD.fresh
  refine wp_bind (hw₄.wp_storeBytes hG (hw₃.mine hD) hD₄ (by simp) fun hw₅ hf₅ => wp_pure ?_)
  refine hQ S D a₁ a'' _ hS hD hw₅ ?_ ⟨hD.keep hS₂, hD₄, hSD, ?_, holds_write _ _ _⟩ ?_ ?_
  · have hf := (((hf₁.trans hf₂).trans hf₃).trans hf₄).trans hf₅
    refine hf.drop fun x hx => ?_
    simp only [List.mem_append, List.mem_singleton, or_assoc] at hx
    rcases hx with rfl | rfl | rfl | rfl | rfl
    · exact .inl (by simp)
    · exact .inl (by simp)
    · exact hS.mine
    · exact hS.mine
    · exact .inr ⟨hD.ne_mapRecord, hS.fresh_of hD.fresh⟩
  · rw [hf₅.field (by simpa using hSD) (hD.keep hS₂) (by decide)]
    exact hdata
  · rw [field_val]
    have h5 {α : Type} [Layout α] {f : Field α} (hf : f.off + size α ≤ sizeofVal) :
        (Touchdb.write t₄ (B + D) v.bytes).field (B + q) f = t₂.field (B + q) f := by
      rw [hf₅.field (by simpa using hqD) (hD.keep hq₂) hf, hf₄.field (by simpa using hqS) hq₂ hf,
        hf₃.field (by simpa using hqS) hq₂ hf]
    refine congrArg₂ _ ?_ ?_
    · change Touchdb.field _ (B + q) Val.type = _
      rw [h5 (by decide), hkeep _ (by decide) (by decide)]
      exact field_write_same t _ Val.type _
    · change Touchdb.field _ (B + q) Val.value = _
      rw [h5 (by decide), hval]
  · rw [hf₅.field (by simpa using hSD) (hD.keep hS₂) (by decide), hlen₄ Str.len (by decide)
      (.inl (by decide))]
    exact field_write_same _ _ Str.len _

/-- `touchdb_str_new2` on a value in a block of the caller. -/
theorem wp_touchdbStrNew2 {Q : ℕ → Touchdb → Prop} (h : Work B s a T t a') (hG : Lets G B s a T)
    (hr : Serves G a' [sizeofStr, v.strlen + 1]) (hm : Mine a T q) (hq : Owns a' q sizeofVal)
    (hv : v.Fits)
    (hQ : ∀ S D a₁ a'' u, Handed a' sizeofStr S a₁ → Handed a₁ (v.strlen + 1) D a'' →
      Work B s a T u a'' → Frame B t a' u a'' [q] → StrRep B u a'' S D v →
      u.field (B + q) Val.all = ⟨.str, addrOf S⟩ → Q (B + S) u) :
    wp G (touchdbStrNew2 (B + q) v) Q t :=
  wp_touchdbStrNew2_len h hG hr hm hq hv fun S D a₁ a'' u hS hD hw hF hrep hval _ =>
    hQ S D a₁ a'' u hS hD hw hF hrep hval

/-- Where a string value is stored, at `k` in the block at `q`. -/
structure ValAt (B : ℕ) (s : Touchdb) (a : PoolAlloc) (q k : ℕ) (v : TouchdbVal) : Prop where
  owns : Owns a q (k + sizeofVal)
  type : s.field (B + q) ⟨k + Val.type.off⟩ = v.type
  value : s.field (B + q) ⟨k + Val.value.off⟩ = v.value

/-- A `touchdb_val_t` somewhere in a block in use. -/
structure ValArg (a : PoolAlloc) where
  blk : ℕ
  off : ℕ
  owns : Owns a blk (off + sizeofVal)

def ValArg.ptr {a : PoolAlloc} (v : ValArg a) (B : ℕ) : ℕ := B + v.blk + v.off

def ValArg.val {a : PoolAlloc} (v : ValArg a) (B : ℕ) (s : Touchdb) : TouchdbVal :=
  s.field (B + v.blk) ⟨v.off⟩

theorem ValAt.of_field {k : ℕ} {w : TouchdbVal} (ho : Owns a q (k + sizeofVal))
    (h : s.field (B + q) (⟨k⟩ : Field TouchdbVal) = w) : ValAt B s a q k w := by
  rw [field_val] at h
  subst h
  refine ⟨ho, ?_, ?_⟩
  · simp only [Touchdb.field, Nat.add_assoc]
  · simp only [Touchdb.field, Nat.add_assoc]

theorem Legible.wp_touchdbStrData {w : TouchdbVal} {q k : ℕ} {Q : ℕ → Touchdb → Prop}
    (hl : Legible B s w v) (h : Heap B s a) (hG : Reads G) (hq : ValAt B s a q k w)
    (hQ : ∀ D, 0 < D → D + (v.strlen + 1) ≤ touchdbDefaultPoolSize → s.holds (B + D) v → Q (B + D) s) :
    wp G (touchdbStrData (B + q + k)) Q s := by
  obtain ⟨S, D, rfl, ⟨hS0, hS⟩, ⟨hD0, hD⟩, hdata, hv⟩ := hl
  have hB := h.base_pos'
  have hO := hq.owns
  have hcell : S + Str.data.off + size TouchdbAddr ≤ touchdbDefaultPoolSize := hS
  unfold touchdbStrData
  rw [if_neg (by simp only [NULL]; omega)]
  refine wp_bind (wp_load_shift (by omega) (wp_loadCell h hO (by simp [sizeofVal]) ?_))
  rw [hq.type, if_pos rfl]
  refine wp_bind (wp_load_shift (by omega) (wp_loadCell h hO (by simp [sizeofVal]) ?_))
  rw [hq.value]
  refine wp_bind (TouchDb.wp_touchdbPtrOf h (by omega) (hG S hS0 (by omega)) ?_)
  refine wp_bind (wp_load (by omega) ?_ ?_)
  · rw [Nat.add_assoc]
    exact h.mapped hcell
  · rw [hdata]
    exact TouchDb.wp_touchdbPtrOf h (by omega) (hG D hD0 (by omega)) (hQ D hD0 hD hv)

/-- `touchdb_val_destroy` of a string: the characters are released, then the struct. Both can still
be read. -/
theorem wp_touchdbValDestroy_kept {k : ℕ} {Q : Unit → Touchdb → Prop} (h : Work B s a T t a')
    (hG : Lets G B s a T) (hv : ValAt B t a' q k ⟨.str, addrOf S⟩) (hS : Owns a' S sizeofStr)
    (hD : Owns a' D 1) (hdata : t.field (B + S) Str.data = addrOf D) (hSD : S ≠ D) (hqD : q ≠ D)
    (hmS : Mine a T S) (hmD : Mine a T D)
    (hQ : ∀ a₁ a'' u, Freed a' D a₁ → Freed a₁ S a'' → Work B s a T u a'' →
      Frame B t a' u a'' [D, S] → Unwritten B t a' u → Q () u) :
    wp G (touchdbValDestroy (B + q + k)) Q t := by
  have hB := h.heap.base_pos'
  have hq := hv.owns
  unfold touchdbValDestroy
  refine wp_bind (wp_load_shift (by omega) (wp_loadCell h.heap hq (by simp [sizeofVal]) ?_))
  rw [hv.type, if_pos rfl]
  unfold touchdbStrDestory
  refine wp_bind (wp_load_shift (by omega) (wp_loadCell h.heap hq (by simp [sizeofVal]) ?_))
  rw [hv.value]
  refine wp_bind (h.wp_ptrOf hG hS (wp_bind (wp_loadCell h.heap hS (by decide) ?_)))
  rw [hdata]
  refine wp_bind (h.wp_free_kept hG hmD hD fun a₁ t₁ hfD hw₁ hf₁ _ hk₁ => ?_)
  have hq₁ := hfD.keep hq hqD
  refine wp_bind (wp_load_shift (by omega) (wp_loadCell hw₁.heap hq₁ (by simp [sizeofVal]) ?_))
  rw [hf₁.field (by simpa using hqD) hq (by simp [sizeofVal]), hv.value]
  refine hw₁.wp_free_kept hG hmS (hfD.keep hS hSD) fun a'' u hfS hw₂ hf₂ _ hk₂ => ?_
  exact hQ a₁ a'' u hfD hfS hw₂ (hf₁.trans hf₂) (hk₁.trans hk₂ fun _ _ => hfD.isPayload)

theorem wp_touchdbValDestroy_str {k : ℕ} {Q : Unit → Touchdb → Prop} (h : Work B s a T t a')
    (hG : Lets G B s a T) (hv : ValAt B t a' q k ⟨.str, addrOf S⟩) (hS : Owns a' S sizeofStr)
    (hD : Owns a' D 1) (hdata : t.field (B + S) Str.data = addrOf D) (hSD : S ≠ D) (hqD : q ≠ D)
    (hmS : Mine a T S) (hmD : Mine a T D)
    (hQ : ∀ a₁ a'' u, Freed a' D a₁ → Freed a₁ S a'' → Work B s a T u a'' →
      Frame B t a' u a'' [D, S] → Q () u) :
    wp G (touchdbValDestroy (B + q + k)) Q t :=
  wp_touchdbValDestroy_kept h hG hv hS hD hdata hSD hqD hmS hmD fun a₁ a'' u hfD hfS hw hF _ =>
    hQ a₁ a'' u hfD hfS hw hF

theorem wp_touchdbValDestroy_other {k : ℕ} {w : TouchdbVal} {Q : Unit → Touchdb → Prop}
    (h : Heap B t a') (hv : ValAt B t a' q k w) (hw : w.type ≠ .str) (hQ : Q () t) :
    wp G (touchdbValDestroy (B + q + k)) Q t := by
  have hB := h.base_pos'
  unfold touchdbValDestroy
  refine wp_bind (wp_load_shift (by omega) (wp_loadCell h hv.owns (by simp [sizeofVal]) ?_))
  rw [hv.type, if_neg hw]
  exact wp_pure hQ

end Wp

end TouchDb
