import TouchDb.Rbtree.Model

/-! What a tree function leaves alone in memory: it writes to nodes that it has accessed, and
nowhere else. -/
namespace TouchDb
open Prog Layout

/-- The calls of the pool that read only. -/
def ReadOnly {α : Type} (c : M α) : Prop := ∀ s a t l, c s = .ok (a, t, l) → t = s

/-- Memory changes only at the nodes that are accessed. -/
def Touches {α : Type} (c : RbM α) : Prop :=
  ∀ s a t l, c s = .ok (a, t, l) → ∀ z,
    (∀ p, .access p ∈ l → z < p ∨ p + sizeofRbtreeNode ≤ z) → t.db.mem z = s.db.mem z

section
variable {α β : Type}

theorem ReadOnly.pure (a : α) : ReadOnly (Pure.pure a : M α) := by
  intro s b t l h
  cases h
  rfl

theorem ReadOnly.bind {c : M α} {f : α → M β} (hc : ReadOnly c) (hf : ∀ a, ReadOnly (f a)) :
    ReadOnly (c >>= f) := by
  intro s b t l h
  obtain ⟨a, s₁, l₁, l₂, h₁, h₂, -⟩ := bind_ok h
  exact (hf a _ _ _ _ h₂).trans (hc _ _ _ _ h₁)

theorem ReadOnly.ite {p : Prop} [Decidable p] {c d : M α} (hc : ReadOnly c) (hd : ReadOnly d) :
    ReadOnly (if p then c else d) := by
  split_ifs
  · exact hc
  · exact hd

theorem readOnly_shmStart (j : ℕ) : ReadOnly (shmStart j) := by
  intro s a t l h
  simp only [shmStart] at h
  split_ifs at h
  cases h
  rfl

theorem readOnly_ptrOf (j : ℕ) (o : PtrOffset) : ReadOnly (ptrOf j o) := by
  unfold ptrOf
  apply ReadOnly.bind
  · intro s a t l h
    cases h
    rfl
  · intro pool
    apply ReadOnly.ite (.pure _)
    exact (readOnly_shmStart j).bind fun _ => .pure _

theorem readOnly_ptrOffsetOf (j p : ℕ) : ReadOnly (ptrOffsetOf j p) := by
  unfold ptrOffsetOf
  apply ReadOnly.ite (.pure _)
  apply (readOnly_shmStart j).bind
  exact fun _ => .ite (.pure _) (.pure _)

theorem readOnly_load [Layout α] (p : ℕ) (f : Field α) : ReadOnly (load p f) := by
  intro s a t l h
  simp only [load] at h
  split_ifs at h
  cases h
  rfl

theorem readOnly_readStr (n p : ℕ) : ReadOnly (readStr n p) := by
  induction n generalizing p with
  | zero =>
    intro s a t l h
    cases h
  | succ n ih =>
    unfold readStr
    apply (readOnly_load p _).bind
    intro c
    split_ifs
    · exact .pure _
    · exact (ih (p + 1)).bind fun _ => .pure _

namespace Touches

theorem pure (a : α) : Touches (Pure.pure a : RbM α) := by
  intro s b t l h z _
  cases h
  rfl

theorem bind {c : RbM α} {f : α → RbM β} (hc : Touches c) (hf : ∀ a, Touches (f a)) :
    Touches (c >>= f) := by
  intro s b t l h z hz
  obtain ⟨a, s₁, l₁, l₂, h₁, h₂, rfl⟩ := bind_ok h
  have e₁ := hc _ _ _ _ h₁ z fun p hp => hz p (List.mem_append_left _ hp)
  have e₂ := hf a _ _ _ _ h₂ z fun p hp => hz p (List.mem_append_right _ hp)
  exact e₂.trans e₁

theorem ite {p : Prop} [Decidable p] {c d : RbM α} (hc : Touches c) (hd : Touches d) :
    Touches (if p then c else d) := by
  split_ifs
  · exact hc
  · exact hd

theorem onPool {c : M α} (hc : ReadOnly c) : Touches (TouchDb.onPool c) := by
  intro s a t l h z _
  simp only [TouchDb.onPool] at h
  rcases hr : c s.db with e | ⟨b, db, l'⟩
  · simp [hr] at h
  · simp only [hr, Except.ok.injEq, Prod.mk.injEq] at h
    obtain ⟨-, rfl, -⟩ := h
    rw [hc _ _ _ _ hr]

theorem emit (e : RbEvent) : Touches (TouchDb.emit e) := by
  intro s a t l h z _
  cases h
  rfl

variable [Layout α] {f : Field α} {n : ℕ}

theorem getField (n : ℕ) (f : Field α) : Touches (TouchDb.getField n f) := by
  unfold TouchDb.getField
  exact (emit _).bind fun _ => onPool (readOnly_load n f)

/-- The one access that writes. -/
theorem setField (v : α) (hf : f.off + size α ≤ sizeofRbtreeNode) :
    Touches (TouchDb.setField n f v) := by
  intro s a t l h z hz
  unfold TouchDb.setField at h
  obtain ⟨_, s₁, l₁, l₂, h₁, h₂, rfl⟩ := bind_ok h
  cases h₁
  have hn := hz n (by simp)
  simp only [TouchDb.onPool, store, id] at h₂
  split_ifs at h₂
  cases h₂
  apply Mem.write_outside
  rw [enc_length]
  omega

end Touches

theorem touches_relative (n : ℕ) (f : Field PtrOffset) : Touches (relative n f) := by
  unfold relative
  apply Touches.ite (.pure _)
  apply (Touches.getField n f).bind
  exact fun o => .ite (.pure _) (.onPool (readOnly_ptrOf 0 o))

theorem touches_offsetOf (p : ℕ) : Touches (offsetOf p) := .onPool (readOnly_ptrOffsetOf 0 p)

theorem touches_setRoot (o : PtrOffset) : Touches (setRoot o) := by
  intro s a t l h z _
  cases h
  rfl

theorem touches_replaceChild (parent : ℕ) (nOffset offset : PtrOffset) :
    Touches (replaceChild parent nOffset offset) := by
  unfold replaceChild
  apply Touches.ite
  · apply (Touches.getField _ _).bind
    exact fun _ => .ite (.setField _ (by decide)) (.setField _ (by decide))
  · exact touches_setRoot _

theorem touches_strcmpKey (strcmp : Strcmp) (k : CStr) (o : PtrOffset) : Touches (strcmpKey strcmp k o) := by
  unfold strcmpKey
  apply Touches.bind (.onPool (readOnly_ptrOf 0 o))
  intro p
  apply Touches.bind (.onPool (readOnly_readStr _ p))
  exact fun _ => .pure _

theorem touches_rbtreeAttach (strcmp : Strcmp) (k : CStr) (n parent : ℕ) :
    Touches (rbtreeAttach strcmp k n parent) := by
  unfold rbtreeAttach
  apply (touches_offsetOf n).bind
  intro nOffset
  apply (touches_offsetOf parent).bind
  intro parentOffset
  apply (Touches.setField _ (by decide)).bind
  intro _
  apply Touches.ite (touches_setRoot _)
  apply (Touches.getField _ _).bind
  intro keyOffset
  apply (touches_strcmpKey _ _ _).bind
  intro r
  apply Touches.bind
  · exact .ite (.setField _ (by decide)) (.setField _ (by decide))
  intro _
  apply (Touches.setField _ (by decide)).bind
  intro _
  apply (Touches.setField _ (by decide)).bind
  exact fun _ => .setField _ (by decide)

theorem touches_leftRotate (n : ℕ) : Touches (leftRotate n) := by
  unfold leftRotate
  apply (touches_relative _ _).bind
  intro right
  apply Touches.ite _ (.pure _)
  apply (touches_offsetOf _).bind
  intro nOffset
  apply (touches_offsetOf _).bind
  intro rightOffset
  apply (Touches.getField _ _).bind
  intro x
  apply (Touches.setField _ (by decide)).bind
  intro _
  apply Touches.bind
  · apply Touches.ite _ (.pure _)
    exact (touches_relative _ _).bind fun _ => .setField _ (by decide)
  intro _
  apply (Touches.setField _ (by decide)).bind
  intro _
  apply (Touches.getField _ _).bind
  intro y
  apply (Touches.setField _ (by decide)).bind
  intro _
  apply (touches_relative _ _).bind
  intro parent
  apply (touches_replaceChild _ _ _).bind
  exact fun _ => .setField _ (by decide)

end

end TouchDb
