import TouchDb.Store.Lists
import TouchDb.Chain.Family

/-! Which chain is which list of a client, and how many values wait there by the client's account. -/
namespace TouchDb
open Prog Layout

/-- The chain that a value refers to. -/
def chainBlk (w : TouchdbVal) : Option ℕ := if w.type = .chain then some w.value.offset.toNat else none

/-- The chains at the places of a client, as a store has them. -/
def placesOf (B : ℕ) (chains : List ℕ) (s : Touchdb) (ix : Index) : ListPlace → Option ℕ
  | .key k => (ix.find k.1).bind fun e => chainBlk (s.field (B + e.blk) MapEntry.val)
  | .chain c => chains[c]?.map fun p => p - B

/-- Each list is a chain of its own, in which as many values are as wait there. -/
structure Waits (place : ListPlace → Option ℕ) (queues : ListPlace → List (Option Text))
    (cs : List ChainCells) : Prop where
  family : ∀ n, ∀ C ∈ place n, ∃ x ∈ cs, x.blk = C ∧ x.cells.length = (queues n).length
  apart : ∀ n m, ∀ C ∈ place n, C ∈ place m → n = m
  none : ∀ n, place n = none → queues n = []

section Places
variable {B : ℕ} {chains : List ℕ} {s t : Touchdb} {ix ix' : Index} {k : Text} {n : MapNode}

theorem chainBlk_chain {C : ℕ} (hC : C < 2 ^ 32) : chainBlk ⟨.chain, addrOf C⟩ = some C := by
  have ho : (addrOf C).offset.toNat = C := addrOf_offset hC
  simp [chainBlk, ho]

theorem placesOf_congr (h : ∀ e ∈ ix.entries,
      t.field (B + e.blk) MapEntry.val = s.field (B + e.blk) MapEntry.val) :
    placesOf B chains t ix = placesOf B chains s ix := by
  funext p
  cases p with
  | chain c => rfl
  | key j =>
    simp only [placesOf]
    rcases hj : ix.find j.1 with _ | e
    · rfl
    · rw [Option.bind_some, Option.bind_some, h e (Index.find_eq_some.mp hj).1]

/-- A value is put under a key. -/
theorem placesOf_put (hother : ∀ j ≠ k.1, ix'.find j = ix.find j) (hfind : ix'.find k.1 = some n)
    (hval : ∀ e ∈ ix.entries, e.key ≠ k.1 →
      t.field (B + e.blk) MapEntry.val = s.field (B + e.blk) MapEntry.val) :
    placesOf B chains t ix' = Function.update (placesOf B chains s ix) (.key k)
      (chainBlk (t.field (B + n.blk) MapEntry.val)) := by
  funext p
  by_cases hp : p = .key k
  · subst hp
    rw [Function.update_self]
    simp only [placesOf, hfind, Option.bind_some]
  rw [Function.update_of_ne hp]
  cases p with
  | chain c => rfl
  | key j =>
    have hj : j.1 ≠ k.1 := fun hc => hp (congrArg ListPlace.key (Subtype.ext hc))
    simp only [placesOf, hother j.1 hj]
    rcases he : ix.find j.1 with _ | e
    · rfl
    · obtain ⟨hm, hkey⟩ := Index.find_eq_some.mp he
      rw [Option.bind_some, Option.bind_some, hval e hm (hkey ▸ hj)]

theorem placesOf_newChain (C : ℕ) : placesOf B (chains ++ [B + C]) s ix =
    Function.update (placesOf B chains s ix) (.chain chains.length) (some C) := by
  funext p
  by_cases hp : p = .chain chains.length
  · subst hp
    simp [placesOf]
  rw [Function.update_of_ne hp]
  cases p with
  | key j => rfl
  | chain c =>
    have hc : c ≠ chains.length := fun hc => hp (congrArg ListPlace.chain hc)
    simp only [placesOf]
    rcases Nat.lt_or_gt_of_ne hc with hlt | hgt
    · rw [List.getElem?_append_left hlt]
    · rw [List.getElem?_eq_none (by simp; omega), List.getElem?_eq_none (by omega)]

end Places

namespace Waits
variable {place : ListPlace → Option ℕ} {queues q : ListPlace → List (Option Text)}
variable {cs cs' : List ChainCells} {x : ChainCells} {n : ListPlace} {i : ℕ}

protected theorem zero : Waits (fun _ => Option.none) (fun _ => []) [] :=
  ⟨by simp, by simp, fun _ _ => rfl⟩

theorem mono (h : Waits place queues cs) (hs : cs ⊆ cs') : Waits place queues cs' where
  family n C hC := by
    obtain ⟨x, hx, hxC⟩ := h.family n C hC
    exact ⟨x, hs hx, hxC⟩
  apart := h.apart
  none := h.none

/-- A place has no list any more. -/
theorem clear (h : Waits place queues cs) (n : ListPlace) :
    Waits (Function.update place n Option.none) (Function.update queues n []) cs where
  family m C hC := by
    by_cases hm : m = n
    · subst hm
      simp at hC
    · rw [Function.update_of_ne hm] at hC ⊢
      exact h.family m C hC
  apart m₁ m₂ C h₁ h₂ := by
    by_cases hm₁ : m₁ = n
    · subst hm₁
      simp at h₁
    by_cases hm₂ : m₂ = n
    · subst hm₂
      simp at h₂
    rw [Function.update_of_ne hm₁] at h₁
    rw [Function.update_of_ne hm₂] at h₂
    exact h.apart m₁ m₂ C h₁ h₂
  none m hm := by
    by_cases hmn : m = n
    · rw [hmn, Function.update_self]
    · rw [Function.update_of_ne hmn] at hm ⊢
      exact h.none m hm

/-- A place has a new list. -/
theorem add (h : Waits place queues cs) (hs : cs ⊆ cs') (hx : x ∈ cs') (hnew : x.blk ∉ cs.map ChainCells.blk)
    (hq : ∀ m ≠ n, q m = queues m) (hl : x.cells.length = (q n).length) :
    Waits (Function.update place n (some x.blk)) q cs' := by
  have hne {m : ListPlace} (hm : x.blk ∈ place m) : False := by
    obtain ⟨y, hy, hyx, -⟩ := h.family m x.blk hm
    exact hnew (hyx ▸ List.mem_map_of_mem hy)
  refine ⟨fun m C hC => ?_, fun m₁ m₂ C h₁ h₂ => ?_, fun m hm => ?_⟩
  · by_cases hm : m = n
    · subst hm
      rw [Function.update_self] at hC
      exact ⟨x, hx, Option.some.inj hC, hl⟩
    · rw [Function.update_of_ne hm] at hC
      obtain ⟨y, hy, hyC⟩ := h.family m C hC
      exact ⟨y, hs hy, by rwa [hq m hm]⟩
  · by_cases hm₁ : m₁ = n
    · by_cases hm₂ : m₂ = n
      · exact hm₁.trans hm₂.symm
      · subst hm₁
        rw [Function.update_self] at h₁
        rw [Function.update_of_ne hm₂, ← Option.some.inj h₁] at h₂
        exact (hne h₂).elim
    · rw [Function.update_of_ne hm₁] at h₁
      by_cases hm₂ : m₂ = n
      · subst hm₂
        rw [Function.update_self] at h₂
        rw [← Option.some.inj h₂] at h₁
        exact (hne h₁).elim
      · rw [Function.update_of_ne hm₂] at h₂
        exact h.apart m₁ m₂ C h₁ h₂
  · by_cases hmn : m = n
    · subst hmn
      simp at hm
    · rw [Function.update_of_ne hmn] at hm
      rw [hq m hmn]
      exact h.none m hm

/-- The number of values in a list. -/
theorem length_eq (h : Waits place queues cs) (hd : (cs.map ChainCells.blk).Nodup) (hx : x ∈ cs)
    (hn : x.blk ∈ place n) : x.cells.length = (queues n).length := by
  obtain ⟨y, hy, hyx, hlen⟩ := h.family n x.blk hn
  obtain rfl : y = x := List.inj_on_of_nodup_map hd hy hx hyx
  exact hlen

/-- A value joins a list. -/
theorem push (h : Waits place queues cs) (hd : (cs.map ChainCells.blk).Nodup) (hx : cs[i]? = some x)
    (hn : x.blk ∈ place n) (y : Cell) (v : Option Text) :
    Waits place (Function.update queues n (queues n ++ [v])) (cs.set i ⟨x.blk, x.cells ++ [y]⟩) where
  family m C hC := by
    obtain ⟨hlt, -⟩ := List.getElem?_eq_some_iff.mp hx
    by_cases hm : m = n
    · subst hm
      obtain rfl : x.blk = C := Option.some.inj (hn.symm.trans hC)
      have hlen := h.length_eq hd (List.mem_of_getElem? hx) hn
      exact ⟨_, List.mem_set hlt _, rfl, by simp [hlen]⟩
    · obtain ⟨z, hz, rfl, hlen⟩ := h.family m C hC
      obtain ⟨j, hj⟩ := List.mem_iff_getElem?.mp hz
      have hij : i ≠ j := by
        rintro rfl
        obtain rfl : x = z := Option.some.inj (hx.symm.trans hj)
        exact hm (h.apart m n x.blk hC hn)
      refine ⟨z, List.mem_of_getElem? (i := j) ?_, rfl, ?_⟩
      · rw [List.getElem?_set_ne hij, hj]
      · rw [Function.update_of_ne hm, hlen]
  apart := h.apart
  none m hm := by
    have hmn : m ≠ n := by
      rintro rfl
      rw [hm] at hn
      cases hn
    rw [Function.update_of_ne hmn]
    exact h.none m hm

end Waits

end TouchDb
