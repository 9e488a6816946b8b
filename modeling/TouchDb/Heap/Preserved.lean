import TouchDb.Core.Preserves
import TouchDb.Heap.Model

/-! Calls that only read, and what an allocation leaves as it is: the mappings and the indices of the
pools. -/
namespace TouchDb
open Prog Layout

variable {α β : Type} {c : M α} {f : α → M β} {s t t₀ : Touchdb} {p j : ℕ}

/-- The call changes nothing and asks for no block, whatever the state is, and no other process sees
a store of it. -/
def Unseen (c : M α) : Prop := ∀ I, Preserves ⟨fun e => e ≠ .noBlock, fun e => e.after = none⟩ I c

namespace Unseen

protected theorem pure (a : α) : Unseen (Pure.pure a) := fun _ => .pure a

protected theorem stop {e : Stop} (he : e ≠ .noBlock) : Unseen (Prog.stop e : M α) := fun _ => .stop he

protected theorem bind (h : Unseen c) (hf : ∀ a, Unseen (f a)) : Unseen (c >>= f) :=
  fun I => (h I).bind fun a => hf a I

protected theorem ite {d : M α} {p : Prop} [Decidable p] (hc : p → Unseen c) (hd : ¬ p → Unseen d) :
    Unseen (if p then c else d) := fun I => .ite (fun h => hc h I) fun h => hd h I

/-- What follows a reading call starts where it started. -/
theorem eq (h : Unseen c) {a : α} (hc : c.run s = .ok (a, t)) : t = s :=
  (h (· = s)).run rfl hc

theorem quiet (h : Unseen c) (s : Touchdb) : ∀ e ∈ c.trace s, e.after = none := (h fun _ => True).trace trivial

/-- Whatever a reader finds on the way is what was there before. -/
theorem viewAt_eq (h : Unseen c) {l : List Event} (hl : ∃ r, c.trace s = l ++ r) : viewAt s l = s := by
  obtain ⟨r, hr⟩ := hl
  rcases viewAt_cases s l with h1 | ⟨e, he, h1⟩
  · exact h1
  · have hq := h.quiet s e (by
      rw [hr]
      exact List.mem_append_left r he)
    rw [hq] at h1
    cases h1

end Unseen

section Accesses

/-- An access that is checked against a condition on the state. -/
theorem unseen_check {v : Touchdb → α} {b : Touchdb → Prop} [DecidablePred b]
    (h : ∀ s, c s = if b s then .ok (v s, s, []) else .error (.fault, [])) : Unseen c := by
  intro I
  apply Preserves.read
  intro s
  rw [h s]
  split_ifs
  · exact .inl ⟨_, rfl⟩
  · exact .inr ⟨_, by decide, rfl⟩

theorem unseen_state {v : Touchdb → α} (h : ∀ s, c s = .ok (v s, s, [])) : Unseen c :=
  fun _ => .read fun s => .inl ⟨_, h s⟩

theorem unseen_load [Layout α] (p : ℕ) (f : Field α) : Unseen (load p f) := unseen_check fun _ => rfl

theorem unseen_getPool (j : ℕ) : Unseen (getPool j) := unseen_state fun _ => rfl

theorem unseen_getList (j i : ℕ) : Unseen (getList j i) := unseen_state fun _ => rfl

theorem unseen_shmStart (j : ℕ) : Unseen (shmStart j) := unseen_check fun _ => rfl

theorem unseen_freeBlkListAt (idx : Int32) : Unseen (freeBlkListAt idx) :=
  unseen_check (b := fun _ => 0 ≤ idx.toInt ∧ idx.toInt < touchdbPoolFreeListCount) fun _ => rfl

theorem unseen_poolAt (idx : Int32) : Unseen (poolAt idx) :=
  unseen_check (b := fun _ => 0 ≤ idx.toInt ∧ idx.toInt < touchdbPoolListSize) fun _ => rfl

theorem unseen_shmInfoOf (j : ℕ) : Unseen (shmInfoOf j) := unseen_check fun _ => rfl

theorem unseen_translate (addr : TouchdbAddr) : Unseen (translate addr) :=
  fun _ => .update (by simp [Event.after]) fun _ h => h

theorem unseen_ptrOffsetOf (j p : ℕ) : Unseen (ptrOffsetOf j p) :=
  .ite (fun _ => .pure _) fun _ => (unseen_shmStart j).bind fun _ =>
    .ite (fun _ => .pure _) fun _ => .pure _

theorem unseen_ptrOf (j : ℕ) (offset : PtrOffset) : Unseen (ptrOf j offset) :=
  (unseen_getPool j).bind fun _ => .ite (fun _ => .pure _) fun _ =>
    (unseen_shmStart j).bind fun _ => .pure _

theorem unseen_touchdbPtrOf (addr : TouchdbAddr) : Unseen (touchdbPtrOf addr) :=
  (unseen_translate addr).bind fun _ => (unseen_poolAt _).bind fun j => unseen_ptrOf j _

theorem unseen_addrOfSearch (p rounds i : ℕ) : Unseen (addrOfSearch p rounds i) := by
  induction rounds generalizing i with
  | zero => exact .stop (by decide)
  | succ rounds ih =>
    unfold addrOfSearch
    apply (unseen_getPool i).bind
    intro pool
    apply Unseen.ite
    · intro _
      apply (unseen_shmInfoOf i).bind
      intro info
      exact .ite (fun _ => .pure _) fun _ => ih (i + 1)
    · exact fun _ => .stop (by decide)

theorem unseen_touchdbAddrOf (p : ℕ) : Unseen (touchdbAddrOf p) := unseen_addrOfSearch p _ 0

theorem unseen_readStr (n p : ℕ) : Unseen (readStr n p) := by
  induction n generalizing p with
  | zero => exact .stop (by decide)
  | succ n ih =>
    unfold readStr
    apply (unseen_load p _).bind
    intro c
    by_cases hc : c = 0
    · rw [dif_pos hc]
      exact .pure _
    · rw [dif_neg hc]
      exact (ih (p + 1)).bind fun _ => .pure _

end Accesses

/-! The mappings, and the indices of the pools. -/

/-- The mappings and the indices of the pools are those of `t₀`. -/
structure SamePools (t₀ t : Touchdb) : Prop where
  shmInfo : t.shmInfo = t₀.shmInfo
  idx : ∀ j, (t.poolList j).idx = (t₀.poolList j).idx

/-- The call leaves the mappings and the indices of the pools as they are. -/
def KeepsPools (c : M α) : Prop :=
  ∀ t₀, Preserves ⟨fun _ => True, fun _ => True⟩ (SamePools t₀) c

namespace KeepsPools

protected theorem pure (a : α) : KeepsPools (Pure.pure a) := fun _ => .pure a

protected theorem stop (e : Stop) : KeepsPools (Prog.stop e : M α) := fun _ => .stop trivial

protected theorem bind (h : KeepsPools c) (hf : ∀ a, KeepsPools (f a)) : KeepsPools (c >>= f) :=
  fun t₀ => (h t₀).bind fun a => hf a t₀

protected theorem ite {d : M α} {p : Prop} [Decidable p] (hc : p → KeepsPools c)
    (hd : ¬ p → KeepsPools d) : KeepsPools (if p then c else d) :=
  fun t₀ => .ite (fun h => hc h t₀) fun h => hd h t₀

/-- A reading call. -/
protected theorem unseen (h : Unseen c) : KeepsPools c :=
  fun t₀ => (h (SamePools t₀)).mono (fun _ _ => trivial) fun _ _ => trivial

protected theorem assign {g : Touchdb → Touchdb} (hs : ∀ s, (g s).shmInfo = s.shmInfo)
    (hi : ∀ s j, ((g s).poolList j).idx = (s.poolList j).idx) : KeepsPools (assign g) := by
  intro t₀
  apply Preserves.update
  · exact fun _ _ _ _ => trivial
  · exact fun s h => ⟨(hs s).trans h.shmInfo, fun j => (hi s j).trans (h.idx j)⟩

protected theorem setPool {g : TouchdbPool → TouchdbPool} (hg : ∀ pool, (g pool).idx = pool.idx) :
    KeepsPools (TouchDb.assign fun s => s.setPool j g) := by
  apply KeepsPools.assign
  · exact fun _ => rfl
  · intro s k
    by_cases hk : k = j
    · subst hk
      rw [setPool_poolList, hg]
    · rw [setPool_poolList_ne s j g hk]

protected theorem write {n : ℕ} {v : Touchdb → List UInt8} {ev : Touchdb → List Event}
    {b : Touchdb → Prop} [DecidablePred b] {e : Stop} {c : M Unit}
    (h : ∀ s, c s = if b s then .ok ((), s.write n (v s), ev s) else .error (e, [])) :
    KeepsPools c := by
  intro t₀ s hs
  unfold wp
  rw [h s]
  split_ifs
  · exact ⟨fun _ _ => trivial, hs.shmInfo, hs.idx⟩
  · exact ⟨fun _ _ => trivial, trivial⟩

end KeepsPools

theorem keepsPools_store [Layout α] (p : ℕ) (f : Field α) (v : α) : KeepsPools (store p f v) :=
  .write (v := fun _ => enc v) fun _ => rfl

theorem keepsPools_setList (j i : ℕ) (g : TouchdbFreeBlkList → TouchdbFreeBlkList) :
    KeepsPools (setList j i g) := .setPool fun _ => rfl

theorem keepsPools_poolMallocCarve (j : ℕ) (idx : Int32) : KeepsPools (poolMallocCarve j idx) := by
  apply (KeepsPools.unseen (unseen_getPool j)).bind
  intro pool
  apply KeepsPools.ite
  · exact fun _ => .pure _
  · intro _
    apply (KeepsPools.unseen (unseen_shmStart j)).bind
    intro start
    apply (keepsPools_store _ _ _).bind
    intro _
    apply KeepsPools.bind
    · exact .setPool fun _ => rfl
    · exact fun _ => .pure _

theorem keepsPools_poolMallocReuse (j i : ℕ) : KeepsPools (poolMallocReuse j i) := by
  apply (KeepsPools.unseen (unseen_getList j i)).bind
  intro list
  apply (KeepsPools.unseen (unseen_ptrOf j _)).bind
  intro hdr
  apply (KeepsPools.unseen (unseen_load hdr _)).bind
  intro next
  apply KeepsPools.bind
  · apply KeepsPools.ite
    · exact fun _ => (KeepsPools.unseen (unseen_ptrOf j _)).bind fun q => keepsPools_store _ _ _
    · exact fun _ => keepsPools_setList j i _
  · intro _
    apply (KeepsPools.unseen (unseen_load hdr _)).bind
    intro next
    apply (keepsPools_setList j i _).bind
    intro _
    exact (keepsPools_setList j i _).bind fun _ => .pure _

theorem keepsPools_touchdbPoolMalloc (j : ℕ) (size : UInt32) :
    KeepsPools (touchdbPoolMalloc j size) := by
  apply (KeepsPools.unseen (unseen_getPool j)).bind
  intro pool
  apply KeepsPools.ite
  · exact fun _ => .pure _
  · intro _
    apply (KeepsPools.unseen (unseen_freeBlkListAt _)).bind
    intro i
    apply (KeepsPools.unseen (unseen_getList j i)).bind
    intro list
    exact .ite (fun _ => keepsPools_poolMallocCarve j _) fun _ => keepsPools_poolMallocReuse j i

theorem keepsPools_mallocSearch (size : UInt32) (rounds i : ℕ) :
    KeepsPools (mallocSearch size rounds i) := by
  induction rounds generalizing i with
  | zero => exact .stop _
  | succ rounds ih =>
    unfold mallocSearch
    apply (keepsPools_touchdbPoolMalloc 0 size).bind
    intro p
    exact .ite (fun _ => .pure _) fun _ => ih (i + 1)

theorem keepsPools_touchdbMalloc (size : ℕ) : KeepsPools (touchdbMalloc size) := by
  apply (keepsPools_mallocSearch _ _ _).bind
  rintro ⟨p, i⟩
  exact (KeepsPools.unseen (unseen_ptrOffsetOf 0 p)).bind fun _ => .pure _

end TouchDb
