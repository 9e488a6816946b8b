import TouchDb.Store.IndexOk

/-! Which keys a map can be asked about: the searches behind `touchdb_map_contains`,
`touchdb_map_get` and `touchdb_map_get2` do not look at the size of the bucket. -/
namespace TouchDb
open Prog Layout

/-- An address that `touchdb_ptr_of` may be given. -/
def Translatable (x : TouchdbAddr) : Prop :=
  x.offset ≠ NIL ∧ 0 ≤ x.poolIdx.toInt ∧ x.poolIdx.toInt < touchdbPoolListSize

/-- The call ends, translates only such addresses, and finds exactly what is present. -/
def Decides {α : Type} (c : M α) (found : α → Prop) (s : Touchdb) (present : Prop) : Prop :=
  ∃ r t l, c s = .ok (r, t, l) ∧ (∀ x, .translate x ∈ l → Translatable x) ∧ (found r ↔ present)

section
variable {B c : ℕ} {s : Touchdb} {a : PoolAlloc} {ix : Index} {ops : List MapOp} {k : CStr}

/-- Only addresses that may be translated are. -/
def translates : Guard Stop Event := ⟨fun _ => False, fun e => ∀ x, e = .translate x → Translatable x⟩

theorem Decides.of_wp {α : Type} {p : M α} {found : α → Prop} {present : Prop}
    (h : wp translates p (fun r _ => found r ↔ present) s) : Decides p found s present := by
  obtain ⟨r, t, l, hc, hl, hr⟩ := wp_ends h fun _ h => h
  exact ⟨r, t, l, hc, fun x hx => hl _ hx x rfl, hr⟩

end

theorem poolIdxOk_new (f : NewFiles) : PoolIdxOk f.db 0 := by
  have hi : (f.db.poolList 0).idx.toInt = 0 := rfl
  exact ⟨by omega, by rw [hi]; decide⟩

end TouchDb
