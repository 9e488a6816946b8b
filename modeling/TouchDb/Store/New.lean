import TouchDb.Store.Model
import TouchDb.Map.Init

/-! A new store: its data files have just been created, and its index is empty. -/
namespace TouchDb
open Prog Layout

/-- A map in a new pool. -/
def newMap (ptr : ℕ) (capacity : Int32) : M Unit := do
  touchdbPoolInit 0 ptr false
  touchdbMapInit capacity

section New
variable {s : Touchdb} {G : Guard Stop Event} {Q : Unit → Touchdb → Prop}

theorem wp_newMap {ptr : ℕ} {capacity : Int32} (hi : PoolIdxOk s 0) (hp : 0 < ptr)
    (hsize : s.map.size = 0) (hG : ∀ e, G.emits e)
    (hcap : 0 ≤ capacity.toInt ∧ capacity.toInt ≤ 2 ^ 15 ∨ ∀ e, G.stops e)
    (hr : ∀ bits ≤ 15, CountFor capacity bits → Serves G freshAlloc [2 ^ bits * sizeofMapBulk])
    (hQ : ∀ bits tbl a u (hb : bits ≤ 15), CountFor capacity bits →
      Handed freshAlloc (2 ^ bits * sizeofMapBulk) tbl a → Heap ptr u a →
      MapRep ptr u a (Index.empty tbl bits (by omega)) → Q () u) :
    wp G (newMap ptr capacity) Q s := by
  unfold newMap
  refine wp_seq (wp_touchdbPoolInit hi hp fun t => hG _) fun _ t ht => ?_
  obtain ⟨hr₀, hb, -, hmap⟩ := ht
  refine wp_touchdbMapInit ⟨hr₀, hb⟩ ⟨fun e _ => hG e, fun _ _ _ => hG _⟩ (by rw [hmap]; exact hsize)
    hcap hr fun bits tbl a u hb hc htbl hw hm => hQ bits tbl a u hb hc htbl hw.heap hm

theorem CountFor.thousand {bits : ℕ} (h : CountFor 1000 bits) : bits = 10 := by
  obtain ⟨-, h1, h2⟩ := h
  have hc : (1000 : Int32).toInt = 1000 := by decide
  rw [hc] at h1 h2
  have hlow : 9 < bits := by
    by_contra hle
    have h3 : 2 ^ bits ≤ 2 ^ 9 := Nat.pow_le_pow_right (by decide) (by omega)
    have h4 : ((2 ^ bits : ℕ) : ℤ) ≤ ((2 ^ 9 : ℕ) : ℤ) := Int.ofNat_le.mpr h3
    push_cast at h4
    omega
  by_contra hne
  have h3 : 2 ^ 10 ≤ 2 ^ (bits - 1) := Nat.pow_le_pow_right (by decide) (by omega)
  have h4 : ((2 ^ 10 : ℕ) : ℤ) ≤ ((2 ^ (bits - 1) : ℕ) : ℤ) := Int.ofNat_le.mpr h3
  push_cast at h4
  rcases h2 with h2 | h2 <;> omega

theorem wp_touchdbNew {f : NewFiles} (hG : ∀ e, G.emits e)
    (hr : Serves G freshAlloc [2 ^ 10 * sizeofMapBulk])
    (hQ : ∀ tbl a u, Handed freshAlloc (2 ^ 10 * sizeofMapBulk) tbl a → Heap f.ptr u a →
      MapRep f.ptr u a (Index.empty tbl 10 (by decide)) → Q () u) :
    wp G (touchdbNew f.ptr) Q f.db := by
  unfold touchdbNew
  refine wp_bind (wp_assign (hG _) (wp_bind (wp_assign (hG _) ?_)))
  change wp G (newMap f.ptr 1000) Q _
  have hc : (1000 : Int32).toInt = 1000 := by decide
  refine wp_newMap ⟨?_, ?_⟩ f.pos rfl hG (.inl (by omega)) (fun bits _ hc => ?_)
    fun bits tbl a u _ hc htbl hu hm => ?_
  · simp
  · simp [touchdbPoolListSize]
  · obtain rfl := hc.thousand
    exact hr
  · obtain rfl := hc.thousand
    exact hQ tbl a u htbl hu hm

end New

end TouchDb
