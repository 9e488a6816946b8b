import TouchDb.Core.Terminated
import TouchDb.Str.Copy

/-! `touchdb_str_cmp` and `touchdb_str_new`: strings are compared by the codes of their characters. -/
namespace TouchDb
open Prog Layout

/-- The characters, as `unsigned char`. -/
def CStr.codes (v : CStr) : List ℕ := v.chars.map UInt8.toNat

/-- The sign of `strcmp`. -/
def cmpSign (v w : CStr) : ℤ := if v.codes < w.codes then -1 else if v = w then 0 else 1

/-- What `strcmp` returns. -/
def strDiff (v w : CStr) : Int32 :=
  Int32.ofNat (Terminated.parts 0 v.codes w.codes).1 - Int32.ofNat (Terminated.parts 0 v.codes w.codes).2

section Order
variable {v w : CStr}

theorem CStr.codes_pos : ∀ c ∈ v.codes, 0 < c := by
  intro c hc
  obtain ⟨b, hb, rfl⟩ := List.mem_map.mp hc
  rcases Nat.eq_zero_or_pos b.toNat with h0 | h0
  · have hb0 : b = 0 := UInt8.toNat_inj.mp h0
    exact absurd (hb0 ▸ hb) v.nul_notMem
  · exact h0

theorem CStr.codes_inj : v.codes = w.codes ↔ v = w := by
  constructor
  · intro h
    exact CStr.ext_chars (List.map_injective_iff.mpr (fun _ _ => UInt8.toNat_inj.mp) h)
  · exact congrArg _

theorem CStr.codes_lt : ∀ c ∈ 0 :: v.codes, c < 256 := by
  intro c hc
  rcases List.mem_cons.mp hc with rfl | hc
  · decide
  · obtain ⟨b, -, rfl⟩ := List.mem_map.mp hc
    exact b.toNat_lt

theorem strDiff_toInt : (strDiff v w).toInt =
    (Terminated.parts 0 v.codes w.codes).1 - (Terminated.parts 0 v.codes w.codes).2 := by
  obtain ⟨h1, h2⟩ := Terminated.parts_mem (z := 0) (l := v.codes) (m := w.codes)
  have hc := CStr.codes_lt _ h1
  have hd := CStr.codes_lt _ h2
  unfold strDiff
  rw [Int32.toInt_sub, Int32.toInt_ofNat_of_lt (by omega), Int32.toInt_ofNat_of_lt (by omega)]
  exact Int.bmod_eq_of_le (by omega) (by omega)

/-- The sign of `strcmp` tells how the strings are ordered. -/
theorem strDiff_sign : (strDiff v w).toInt.sign = cmpSign v w := by
  obtain ⟨hlt, heq, -⟩ := Terminated.parts_trichotomy (z := 0) (CStr.codes_pos (v := v))
    (CStr.codes_pos (v := w))
  rw [CStr.codes_inj] at heq
  rw [strDiff_toInt]
  unfold cmpSign
  split_ifs with h1 h2
  · have := hlt.mpr h1
    exact Int.sign_eq_neg_one_of_neg (by omega)
  · have := heq.mpr h2
    rw [this, sub_self, Int.sign_zero]
  · have h3 := mt hlt.mp h1
    have h4 := mt heq.mp h2
    exact Int.sign_eq_one_of_pos (by omega)

end Order

section Wp
variable {B : ℕ} {s t : Touchdb} {a a' : PoolAlloc} {T : List ℕ} {d w : ValArg a}
variable {G : Guard Stop Event} {Q : Int32 → Touchdb → Prop}

/-- Two strings that are mapped are compared to the end of the shorter one at most. -/
theorem wp_strcmp {u v : CStr} {rounds p q : ℕ} (hp : 0 < p) (hq : 0 < q)
    (hmp : ∀ i ≤ u.strlen, s.mapped (p + i) 1 = true) (hmq : ∀ i ≤ v.strlen, s.mapped (q + i) 1 = true)
    (hu : s.holds p u) (hv : s.holds q v) (hr : u.strlen < rounds) (hQ : Q (strDiff u v) s) :
    wp G (strcmp rounds p q) Q s := by
  obtain ⟨l, hl⟩ := u
  obtain ⟨m, hm⟩ := v
  simp only [CStr.strlen] at hmp hmq hr
  simp only [Touchdb.holds, CStr.bytes, CStr.strlen] at hu hv
  simp only [strDiff, CStr.codes] at hQ
  induction l generalizing m p q rounds with
  | nil =>
    obtain ⟨k, rfl⟩ : ∃ k, rounds = k + 1 := ⟨rounds - 1, by omega⟩
    have h0 : s.field p (⟨0⟩ : Field UInt8) = 0 :=
      (List.cons.inj ((Mem.read_succ s.mem p 0).symm.trans hu)).1
    unfold strcmp
    refine wp_bind (wp_load hp (hmp 0 (Nat.zero_le _)) (wp_bind (wp_load hq (hmq 0 (Nat.zero_le _)) ?_)))
    rw [h0, if_neg (by simp)]
    refine wp_pure ?_
    cases m with
    | nil =>
      have h1 : s.field q (⟨0⟩ : Field UInt8) = 0 :=
        (List.cons.inj ((Mem.read_succ s.mem q 0).symm.trans hv)).1
      rw [h1]
      exact hQ
    | cons e m =>
      have h1 : s.field q (⟨0⟩ : Field UInt8) = e :=
        (List.cons.inj ((Mem.read_succ s.mem q (m.length + 1)).symm.trans hv)).1
      rw [h1]
      exact hQ
  | cons c l ih =>
    obtain ⟨k, rfl⟩ : ∃ k, rounds = k + 1 := ⟨rounds - 1, by omega⟩
    simp only [List.length_cons] at hmp hr
    obtain ⟨h0, htail⟩ := List.cons.inj ((Mem.read_succ s.mem p (l.length + 1)).symm.trans hu)
    have hc : s.field p (⟨0⟩ : Field UInt8) = c := h0
    have hc0 : c ≠ 0 := fun h => hl (h ▸ List.mem_cons_self)
    unfold strcmp
    refine wp_bind (wp_load hp (hmp 0 (Nat.zero_le _)) (wp_bind (wp_load hq (hmq 0 (Nat.zero_le _)) ?_)))
    rw [hc]
    cases m with
    | nil =>
      have h1 : s.field q (⟨0⟩ : Field UInt8) = 0 :=
        (List.cons.inj ((Mem.read_succ s.mem q 0).symm.trans hv)).1
      rw [h1, if_neg (by simp [hc0])]
      exact wp_pure hQ
    | cons e m =>
      obtain ⟨h1, htail'⟩ := List.cons.inj ((Mem.read_succ s.mem q (m.length + 1)).symm.trans hv)
      have he : s.field q (⟨0⟩ : Field UInt8) = e := h1
      rw [he]
      simp only [List.map_cons, Terminated.parts, UInt8.toNat_inj] at hQ
      by_cases hce : c = e
      · rw [if_pos hce] at hQ
        rw [if_pos ⟨hce, hc0⟩]
        refine ih (Nat.succ_pos p) (Nat.succ_pos q) (fun h => hl (List.mem_cons_of_mem _ h))
          (fun i hi => ?_) htail (by omega) m (fun h => hm (List.mem_cons_of_mem _ h))
          (fun i hi => ?_) htail' hQ
        · rw [Nat.add_assoc, Nat.add_comm 1 i]
          exact hmp (i + 1) (by omega)
        · rw [Nat.add_assoc, Nat.add_comm 1 i]
          exact hmq (i + 1) (by simpa using hi)
      · rw [if_neg hce] at hQ
        rw [if_neg fun h => hce h.1]
        exact wp_pure hQ

theorem wp_touchdbStrCmp (h : Heap B s a) (hR : Reads G) (x : StrOf B s a d) (y : StrOf B s a w)
    (hQ : Q (strDiff x.text.1 y.text.1) s) : wp G (touchdbStrCmp (d.ptr B) (w.ptr B)) Q s := by
  have hB := h.base_pos'
  have hd := ValAt.of_field d.owns x.val
  have hw := ValAt.of_field w.owns y.val
  have hD := x.rep.chars.bounds
  have hD' := y.rep.chars.bounds
  have hb := h.base_eq
  unfold touchdbStrCmp ValArg.ptr
  refine wp_bind (wp_load_shift (by omega) (wp_loadCell h d.owns (by simp [sizeofVal]) ?_))
  refine wp_bind (wp_load_shift (by omega) (wp_loadCell h w.owns (by simp [sizeofVal]) ?_))
  rw [hd.type, hw.type, if_pos ⟨rfl, rfl⟩]
  refine wp_bind (wp_load_shift (by omega) (wp_loadCell h d.owns (by simp [sizeofVal]) ?_))
  rw [hd.value]
  refine wp_bind (wp_ptrOfOwned h hR x.rep.str ?_)
  refine wp_bind (wp_load_shift (by omega) (wp_loadCell h w.owns (by simp [sizeofVal]) ?_))
  rw [hw.value]
  refine wp_bind (wp_ptrOfOwned h hR y.rep.str ?_)
  refine wp_bind (wp_loadCell h x.rep.str (by decide) ?_)
  rw [x.rep.data]
  refine wp_bind (wp_ptrOfOwned h hR x.rep.chars ?_)
  refine wp_bind (wp_loadCell h y.rep.str (by decide) ?_)
  rw [y.rep.data]
  refine wp_bind (wp_ptrOfOwned h hR y.rep.chars ?_)
  refine wp_strcmp (by omega) (by omega) (fun i hi => ?_) (fun i hi => ?_) x.rep.holds y.rep.holds
    (by omega) hQ
  · exact h.toPoolMapped.mapped (by omega) (by omega)
  · exact h.toPoolMapped.mapped (by omega) (by omega)

/-- Values that are not both strings are not compared. -/
theorem wp_touchdbStrCmp_other (h : Heap B s a) (hno : ¬ ((d.val B s).type = .str ∧ (w.val B s).type = .str))
    (hQ : Q (-1) s) : wp G (touchdbStrCmp (d.ptr B) (w.ptr B)) Q s := by
  have hB := h.base_pos'
  have hd := ValAt.of_field (w := d.val B s) d.owns rfl
  have hw := ValAt.of_field (w := w.val B s) w.owns rfl
  have hne : ¬ ((d.val B s).type = (w.val B s).type ∧ (d.val B s).type = .str) :=
    fun hc => hno ⟨hc.2, hc.1 ▸ hc.2⟩
  unfold touchdbStrCmp ValArg.ptr
  refine wp_bind (wp_load_shift (by omega) (wp_loadCell h d.owns (by simp [sizeofVal]) ?_))
  refine wp_bind (wp_load_shift (by omega) (wp_loadCell h w.owns (by simp [sizeofVal]) ?_))
  rw [hd.type, hw.type, if_neg hne]
  exact wp_pure hQ

/-- `touchdb_str_new` takes three blocks: the value, the string and its characters. -/
theorem wp_touchdbStrNew {v : CStr} {R : ℕ × TouchdbAddr → Touchdb → Prop} (h : Heap B s a)
    (hG : ∀ e, G.emits e) (hs : G.stops .noBlock) (hv : v.Fits)
    (hR : ∀ V S D a₁ a₂ a₃ u, Handed a sizeofStr V a₁ → Handed a₁ sizeofStr S a₂ →
      Handed a₂ (v.strlen + 1) D a₃ → Heap B u a₃ → Frame B s a u a₃ [] → StrRep B u a₃ S D v →
      u.field (B + V) Val.all = ⟨.str, addrOf S⟩ → R (B + V, addrOf V) u) :
    wp G (touchdbStrNew v) R s := by
  have hlen : (UInt32.ofNat v.strlen).toNat = v.strlen :=
    Words.toNat_ofNat (by unfold CStr.Fits at hv; omega)
  have hL : Lets G B s a [] := .of_all hG
  unfold touchdbStrNew
  refine wp_bind ((Work.start h).wp_malloc hL (.of_stops hs _ [_]) (by decide) (by decide)
    fun V a₁ t₁ hV hw₁ hf₁ => ?_)
  have hVO : Owns a₁ V sizeofStr := hV.owns (by decide)
  refine wp_bind (hw₁.wp_store hL hV.mine hVO (by decide) fun hw₂ hf₂ => ?_)
  refine wp_bind (hw₂.wp_mallocAt hL (.of_stops hs _ [_]) hV.mine hVO (by decide) (by decide) (by decide)
    fun S a₂ t₃ hS hw₃ hf₃ hval hkeep => ?_)
  have hSO : Owns a₂ S sizeofStr := hS.owns (by decide)
  have hmS : Mine a [] S := hw₂.mine hS
  have hVO₂ := hS.keep hVO
  have hVS : V ≠ S := hVO.ne hS.fresh
  refine wp_bind (hw₃.wp_store hL hmS hSO (by decide) fun hw₄ hf₄ => ?_)
  refine wp_bind (wp_loadCell hw₄.heap hSO (by decide) ?_)
  rw [field_write_same, hlen]
  refine wp_bind (hw₄.wp_mallocAt hL (.of_stops hs _ [_]) hmS hSO (by decide) (by omega) hv
    fun D a₃ t₅ hD hw₅ hf₅ hdata _ => ?_)
  have hDO : Owns a₃ D (v.strlen + 1) := hD.owns (by omega)
  have hSD : S ≠ D := hSO.ne hD.fresh
  have hVD : V ≠ D := hVO₂.ne hD.fresh
  refine wp_bind (hw₅.wp_storeBytes hL (hw₄.mine hD) hDO (by simp) fun hw₆ hf₆ => wp_pure ?_)
  refine hR V S D a₁ a₂ a₃ _ hV hS hD hw₆.heap hw₆.frame
    ⟨hD.keep hSO, hDO, hSD, ?_, holds_write _ _ _⟩ ?_
  · rw [hf₆.field (by simpa using hSD) (hD.keep hSO) (by decide)]
    exact hdata
  · have h6 {α : Type} [Layout α] {f : Field α} (hf : f.off + size α ≤ sizeofStr) :
        (Touchdb.write t₅ (B + D) v.bytes).field (B + V) f = t₃.field (B + V) f := by
      rw [hf₆.field (by simpa using hVD) (hD.keep hVO₂) hf, hf₅.field (by simpa using hVS) hVO₂ hf,
        hf₄.field (by simpa using hVS) hVO₂ hf]
    rw [field_val]
    refine congrArg₂ _ ?_ ?_
    · change Touchdb.field _ (B + V) Val.type = _
      rw [h6 (by decide), hkeep _ (by decide) (by decide)]
      exact field_write_same _ _ Val.type _
    · change Touchdb.field _ (B + V) Val.value = _
      rw [h6 (by decide), hval]

end Wp

end TouchDb
