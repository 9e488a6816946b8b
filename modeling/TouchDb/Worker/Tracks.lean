import TouchDb.Worker.Shelf

/-! What the worker does, in the terms of a client of the lists: each string is in one place. -/
namespace TouchDb

namespace KeyedPlan

/-- The value is a string in use that reads `x`. -/
def Shows (p : KeyedPlan) (v : ValKind) (x : Text) : Prop :=
  ∃ i, v = .str i ∧ p.strs[i]? = some (some x)

/-- The key has the string at the place `i`, in its list or by itself. -/
def Uses (p : KeyedPlan) (k : Text) (i : ℕ) : Prop :=
  .str i ∈ (p.lists k).getD [] ∨ p.stored k = some i

end KeyedPlan

namespace Shelf
variable {σ : Shelf} {k j : Text} {y : Shown}

/-- The list that a value is. -/
def asList : Shown → Option (List Text)
  | .list q => some q
  | _ => none

theorem listAt_eq (σ : Shelf) (k : Text) : σ.listAt k = (σ.lookup k).bind asList := by
  unfold listAt
  rcases σ.lookup k with _ | _ | _ | _ <;> rfl

theorem listAt_insert (σ : Shelf) (k : Text) (y : Shown) : listAt (σ.insert k y) k = asList y := by
  rw [listAt_eq, AList.lookup_insert]
  rfl

theorem listAt_insert_ne (h : j ≠ k) : listAt (σ.insert k y) j = σ.listAt j := by
  rw [listAt_eq, listAt_eq, AList.lookup_insert_ne h]

end Shelf

theorem rel_imp {α β : Type} {R S : α → β → Prop} {a : Option α} {b : Option β}
    (h : ∀ x ∈ a, ∀ y, R x y → S x y) (hr : Option.Rel R a b) : Option.Rel S a b := by
  cases hr with
  | some hr => exact .some (h _ rfl _ hr)
  | none => exact .none

/-- The plan has the keys of the shelf, their lists and their strings, and no string twice. -/
structure Tracks (p : KeyedPlan) (σ : Shelf) : Prop where
  keys : ∀ k, k ∈ p.keys ↔ k ∈ σ
  lists : ∀ k, Option.Rel (List.Forall₂ p.Shows) (p.lists k) (σ.listAt k)
  texts : ∀ k v, σ.lookup k = some (.text v) → ∃ i ∈ p.stored k, p.strs[i]? = some (some v)
  lt : ∀ k i, p.Uses k i → i < p.strs.length
  nodup : ∀ k, ((p.lists k).getD []).Nodup
  apart : ∀ k j i, p.Uses k i → p.Uses j i → k = j

namespace Tracks
variable {p p' : KeyedPlan} {σ : Shelf} {k v : Text} {y : Shown} {l : Option (List ValKind)} {o : Option ℕ}

theorem zero : Tracks .zero ∅ where
  keys k := by simp [KeyedPlan.zero]
  lists _ := .none
  texts k v h := by simp at h
  lt k i h := by simp [KeyedPlan.Uses, KeyedPlan.zero] at h
  nodup _ := List.nodup_nil
  apart k j i h := by simp [KeyedPlan.Uses, KeyedPlan.zero] at h

theorem ready_eq (h : Tracks p σ) (k : Text) : p.ready k = σ.ready k := by
  unfold KeyedPlan.ready Shelf.ready
  rw [Bool.eq_iff_iff, List.any_eq_true, List.any_eq_true]
  exact exists_congr fun j => and_congr_left fun _ => h.keys j

/-- The values of the list under a key. -/
theorem shows (h : Tracks p σ) (k : Text) :
    List.Forall₂ p.Shows ((p.lists k).getD []) ((σ.listAt k).getD []) := by
  have hrel := h.lists k
  generalize p.lists k = a, σ.listAt k = b at hrel
  cases hrel with
  | some hq => exact hq
  | none => exact .nil

/-- Something else is under the key `k`. It has strings of its own, and the other keys keep theirs. -/
theorem insert (h : Tracks p σ) (hkeys : ∀ j, j ∈ p'.keys ↔ j = k ∨ j ∈ p.keys)
    (hlists : p'.lists = Function.update p.lists k l) (hstored : p'.stored = Function.update p.stored k o)
    (hstrs : ∀ j ≠ k, ∀ i x, p.Uses j i → p.strs[i]? = some (some x) → p'.strs[i]? = some (some x))
    (hlen : p.strs.length ≤ p'.strs.length)
    (hnew : ∀ i, p'.Uses k i → i < p'.strs.length ∧ ∀ j ≠ k, ¬ p.Uses j i)
    (hnodup : (l.getD []).Nodup) (hlist : Option.Rel (List.Forall₂ p'.Shows) l (Shelf.asList y))
    (htext : ∀ v, y = .text v → ∃ i ∈ o, p'.strs[i]? = some (some v)) :
    Tracks p' (σ.insert k y) := by
  have hat : p'.lists k = l ∧ p'.stored k = o := by
    rw [hlists, hstored, Function.update_self, Function.update_self]
    exact ⟨rfl, rfl⟩
  have hoff (j : Text) (hj : j ≠ k) : p'.lists j = p.lists j ∧ p'.stored j = p.stored j := by
    rw [hlists, hstored, Function.update_of_ne hj, Function.update_of_ne hj]
    exact ⟨rfl, rfl⟩
  have huses (j : Text) (hj : j ≠ k) (i : ℕ) : p'.Uses j i ↔ p.Uses j i := by
    unfold KeyedPlan.Uses
    rw [(hoff j hj).1, (hoff j hj).2]
  refine ⟨fun j => ?_, fun j => ?_, fun j v hv => ?_, fun j i hi => ?_, fun j => ?_, fun j m i hj hm => ?_⟩
  · rw [hkeys, h.keys, AList.mem_insert]
  · by_cases hj : j = k
    · subst hj
      rwa [hat.1, Shelf.listAt_insert]
    · rw [(hoff j hj).1, Shelf.listAt_insert_ne hj]
      refine rel_imp (fun q hq x hx => ?_) (h.lists j)
      have hq' := (List.forall₂_and_left q x).mpr ⟨fun v hv => hv, hx⟩
      refine hq'.imp fun v y ⟨hv, i, hvi, hy⟩ => ⟨i, hvi, hstrs j hj i y (.inl ?_) hy⟩
      rwa [hq, Option.getD_some, ← hvi]
  · by_cases hj : j = k
    · subst hj
      rw [AList.lookup_insert] at hv
      rw [hat.2]
      exact htext v (Option.some.inj hv)
    · rw [AList.lookup_insert_ne hj] at hv
      obtain ⟨i, hi, hx⟩ := h.texts j v hv
      rw [(hoff j hj).2]
      exact ⟨i, hi, hstrs j hj i v (.inr hi) hx⟩
  · by_cases hj : j = k
    · subst hj
      exact (hnew i hi).1
    · exact (h.lt j i ((huses j hj i).mp hi)).trans_le hlen
  · by_cases hj : j = k
    · subst hj
      rwa [hat.1]
    · rw [(hoff j hj).1]
      exact h.nodup j
  · by_cases hjk : j = k
    · subst hjk
      by_contra hne
      exact (hnew i hj).2 m (Ne.symm hne) ((huses m (Ne.symm hne) i).mp hm)
    · by_cases hmk : m = k
      · subst hmk
        by_contra hne
        exact (hnew i hm).2 j hjk ((huses j hjk i).mp hj)
      · exact h.apart j m i ((huses j hjk i).mp hj) ((huses m hmk i).mp hm)

theorem getD_append {n : ℕ} {ts : List (Option Text)} {x : Option Text} (h : ts[n]? = some x)
    (z : Option Text) : (ts ++ [z])[n]? = some x := by
  rw [List.getElem?_append_left (List.getElem?_eq_some_iff.mp h).1, h]

theorem getElem?_length (ts : List (Option Text)) (z : Option Text) : (ts ++ [z])[ts.length]? = some z := by
  simp

/-- The length is the place of no string. -/
theorem length_fresh (h : Tracks p σ) (j : Text) : ¬ p.Uses j p.strs.length :=
  fun hu => (h.lt j _ hu).false

theorem clear (h : Tracks p σ) (k : Text) : Tracks (p.clear k) (σ.insert k .lost) := by
  refine h.insert (y := .lost) (by simp [KeyedPlan.clear]) rfl rfl (fun _ _ _ _ _ h => h) le_rfl
    (fun i hi => ?_) List.nodup_nil .none (by simp)
  simp [KeyedPlan.Uses, KeyedPlan.clear] at hi

theorem keep (h : Tracks p σ) (k v : Text) : Tracks (p.keep k v) (σ.insert k (.text v)) := by
  refine h.insert (y := .text v) (by simp [KeyedPlan.keep]) rfl rfl
    (fun _ _ _ _ _ h => getD_append h _) (by simp [KeyedPlan.keep]) (fun i hi => ?_) List.nodup_nil .none
    fun w hw => ?_
  · obtain rfl : p.strs.length = i := by simpa [KeyedPlan.Uses, KeyedPlan.keep] using hi
    exact ⟨by simp [KeyedPlan.keep], fun j _ => h.length_fresh j⟩
  · obtain rfl := Shown.text.inj hw
    exact ⟨_, rfl, getElem?_length _ _⟩

/-- A new string is pushed. -/
theorem push (h : Tracks p σ) (v : Text) (hkeys : p'.keys = k :: p.keys)
    (hlists : p'.lists = Function.update p.lists k (some ((p.lists k).getD [] ++ [.str p.strs.length])))
    (hstored : p'.stored = Function.update p.stored k none) (hstrs : p'.strs = p.strs ++ [some v]) :
    Tracks p' (σ.insert k (.list ((σ.listAt k).getD [] ++ [v]))) := by
  have hnew : ValKind.str p.strs.length ∉ (p.lists k).getD [] := fun hm => h.length_fresh k (.inl hm)
  refine h.insert (by simp [hkeys]) hlists hstored (fun _ _ i x _ hx => ?_) (by simp [hstrs])
    (fun i hi => ?_) ?_ (.some ?_) (by simp)
  · rw [hstrs]
    exact getD_append hx _
  · have hi' : .str i ∈ (p.lists k).getD [] ∨ i = p.strs.length := by
      simpa [KeyedPlan.Uses, hlists, hstored] using hi
    rcases hi' with hi' | rfl
    · refine ⟨?_, fun j hj hu => hj (h.apart j k i hu (.inl hi'))⟩
      rw [hstrs, List.length_append]
      exact Nat.lt_add_right _ (h.lt k i (.inl hi'))
    · exact ⟨by simp [hstrs], fun j _ => h.length_fresh j⟩
  · exact (h.nodup k).append (List.nodup_singleton _) (by simpa using hnew)
  · have hlast : p'.Shows (.str p.strs.length) v := ⟨_, rfl, hstrs ▸ getElem?_length _ _⟩
    exact List.rel_append ((h.shows k).imp fun _ _ ⟨i, hi, hx⟩ => ⟨i, hi, hstrs ▸ getD_append hx _⟩)
      (.cons hlast .nil)

/-- The first string of a list is released. -/
theorem pop {q : List ValKind} {i : ℕ} {x : Text} {qs : List Text} (h : Tracks p σ)
    (hq : p.lists k = some (.str i :: q)) (hs : σ.listAt k = some (x :: qs)) (hkeys : p'.keys = p.keys)
    (hlists : p'.lists = Function.update p.lists k (some q)) (hstored : p'.stored = p.stored)
    (hstrs : p'.strs = p.strs.set i none) : Tracks p' (σ.insert k (.list qs)) := by
  have hin : k ∈ p.keys := by
    rw [Shelf.listAt_eq] at hs
    obtain ⟨y, hy, -⟩ := Option.bind_eq_some_iff.mp hs
    exact (h.keys k).mpr (AList.lookup_isSome.mp (by rw [hy]; rfl))
  have hnd := h.nodup k
  rw [hq, Option.getD_some, List.nodup_cons] at hnd
  have hui : p.Uses k i := .inl (by rw [hq]; exact List.mem_cons_self)
  have hset {n : ℕ} {y : Text} (hn : i ≠ n) (hy : p.strs[n]? = some (some y)) :
      p'.strs[n]? = some (some y) := by
    rw [hstrs, List.getElem?_set_ne hn, hy]
  refine h.insert (o := p.stored k) (fun j => ?_) hlists (by rw [hstored, Function.update_eq_self])
    (fun j hj n y hn hy => hset ?_ hy) (by simp [hstrs]) (fun n hn => ?_) hnd.2 (.some ?_) (by simp)
  · rw [hkeys]
    exact ⟨.inr, fun hj => hj.elim (fun hj => hj ▸ hin) id⟩
  · rintro rfl
    exact hj (h.apart j k i hn hui)
  · have hn' : p.Uses k n := by
      unfold KeyedPlan.Uses at hn ⊢
      rw [hlists, hstored, Function.update_self] at hn
      rw [hq]
      exact hn.imp_left (List.mem_cons_of_mem _)
    exact ⟨by rw [hstrs, List.length_set]; exact h.lt k n hn', fun j hj hu => hj (h.apart j k n hu hn')⟩
  · have hrel := h.shows k
    rw [hq, hs] at hrel
    have hrest := (List.forall₂_cons.mp hrel).2
    have hq' := (List.forall₂_and_left q qs).mpr ⟨fun v hv => hv, hrest⟩
    refine hq'.imp fun v y ⟨hv, n, hvn, hy⟩ => ⟨n, hvn, hset ?_ hy⟩
    rintro rfl
    exact hnd.1 (hvn ▸ hv)

end Tracks

end TouchDb
