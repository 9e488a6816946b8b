import Mathlib.Data.List.Induction
import Mathlib.Tactic.Common

/-! Histories of writes: what was last written under a key, and keys written only once. -/

/-- Pairs of a key and the value written under it, oldest first. -/
abbrev History (κ ν : Type) := List (κ × ν)

namespace History
variable {κ ν : Type}

/-- The keys written so far. -/
def keys (h : History κ ν) : List κ := h.map Prod.fst

theorem keys_append (h : History κ ν) (x : κ × ν) : keys (h ++ [x]) = keys h ++ [x.1] := by
  simp [keys]

variable [DecidableEq κ] {h : History κ ν} {k k' : κ} {v v' : ν}

/-- The value last written under `k`. -/
def last (h : History κ ν) (k : κ) : Option ν :=
  ((h.filter fun x => x.1 = k).getLast?).map Prod.snd

/-- Exactly one write is under `k`. -/
def Once (h : History κ ν) (k : κ) : Prop := h.keys.count k = 1

instance (h : History κ ν) (k : κ) : Decidable (h.Once k) := inferInstanceAs (Decidable (_ = _))

theorem last_append_same (h : History κ ν) (k : κ) (v : ν) : last (h ++ [(k, v)]) k = some v := by
  simp [last, List.filter_append]

theorem last_append_other (hk : k' ≠ k) : last (h ++ [(k, v)]) k' = last h k' := by
  simp [last, List.filter_append, hk.symm]

theorem mem_keys_of_last (hl : last h k = some v) : k ∈ keys h := by
  obtain ⟨x, hx, -⟩ := Option.map_eq_some_iff.mp hl
  obtain ⟨h1, h2⟩ := List.mem_filter.mp (List.mem_of_getLast? hx)
  have hk : x.1 = k := by simpa using h2
  exact List.mem_map.mpr ⟨x, h1, hk⟩

theorem once_append_other (hk : k' ≠ k) : Once (h ++ [(k, v)]) k' ↔ Once h k' := by
  unfold Once
  rw [keys_append, List.count_append]
  simp [hk.symm]

/-- A write under a key that has one already. -/
theorem not_once_append (hk : k ∈ keys h) : ¬ Once (h ++ [(k, v)]) k := by
  have hpos := List.count_pos_iff.mpr hk
  unfold Once
  rw [keys_append, List.count_append]
  simp only [List.count_singleton_self]
  omega

/-- A write under a key that has none yet. -/
theorem once_append_new (hk : k ∉ keys h) : Once (h ++ [(k, v)]) k := by
  unfold Once
  rw [keys_append, List.count_append, List.count_eq_zero_of_not_mem hk]
  simp

/-- Where no key is written twice, every write is the last and the only one under its key. -/
theorem last_of_nodup (hd : (keys h).Nodup) (hx : (k, v) ∈ h) : last h k = some v ∧ Once h k := by
  induction h using List.reverseRecOn with
  | nil => exact absurd hx List.not_mem_nil
  | append_singleton h x ih =>
    obtain ⟨k', v'⟩ := x
    rw [keys_append, List.nodup_append] at hd
    obtain ⟨hd, -, hne⟩ := hd
    rcases List.mem_append.mp hx with hx | hx
    · have hkk : k ≠ k' := hne k (List.mem_map_of_mem hx) k' List.mem_cons_self
      rw [last_append_other hkk, once_append_other hkk]
      exact ih hd hx
    · obtain ⟨rfl, rfl⟩ := Prod.mk.inj (List.mem_singleton.mp hx)
      refine ⟨last_append_same h k v, once_append_new fun hk => ?_⟩
      exact hne k hk k List.mem_cons_self rfl

/-- A key that is not written once only is written again at some point. -/
theorem exists_rewrite (hk : k ∈ keys h) (ho : ¬ Once h k) :
    ∃ pre v post, h = pre ++ (k, v) :: post ∧ k ∈ keys pre := by
  induction h using List.reverseRecOn with
  | nil => simp [keys] at hk
  | append_singleton h x ih =>
    obtain ⟨k', v'⟩ := x
    by_cases hkk : k = k'
    · subst hkk
      by_cases hmem : k ∈ keys h
      · exact ⟨h, v', [], rfl, hmem⟩
      · exact absurd (once_append_new hmem) ho
    · rw [once_append_other hkk] at ho
      rw [keys_append, List.mem_append, List.mem_singleton] at hk
      obtain ⟨pre, w, post, rfl, hpre⟩ := ih (hk.resolve_right hkk) ho
      exact ⟨pre, w, post ++ [(k', v')], by simp, hpre⟩

/-- A key written once in a history is written once in every part of it that has it. -/
theorem Once.of_append {pre post : History κ ν} (ho : Once (pre ++ post) k) (hk : k ∈ keys pre) :
    Once pre k := by
  have hpos := List.count_pos_iff.mpr hk
  unfold Once keys at *
  rw [List.map_append, List.count_append] at ho
  omega

end History
