import TouchDb.Heap.Preserved
import TouchDb.Map.Model

/-! The lookups of the index only read, and its initialisation leaves the mappings as they are. -/
namespace TouchDb
open Prog

theorem unseen_getMap : Unseen getMap := unseen_state fun _ => rfl

theorem unseen_getBulk (idx : Int32) : Unseen (getBulk idx) :=
  unseen_getMap.bind fun _ => (unseen_touchdbPtrOf _).bind fun _ => .pure _

theorem unseen_bulkFor (h : Int32) : Unseen (bulkFor h) := unseen_getMap.bind fun _ => unseen_getBulk _

theorem unseen_nextEntry (entry : ℕ) : Unseen (nextEntry entry) := by
  apply Unseen.ite
  · intro _
    apply (unseen_load entry _).bind
    intro next
    exact .ite (fun _ => unseen_touchdbPtrOf next) fun _ => .pure _
  · exact fun _ => .pure _

theorem unseen_strcmpEq (p : ℕ) (k : List UInt8) : Unseen (strcmpEq p k) := by
  induction k generalizing p with
  | nil => exact (unseen_load p _).bind fun _ => .pure _
  | cons k ks ih =>
    unfold strcmpEq
    apply (unseen_load p _).bind
    intro c
    exact .ite (fun _ => ih (p + 1)) fun _ => .pure _

theorem unseen_getEntryLoop (h : Int32) (k : CStr) (rounds entry : ℕ) :
    Unseen (getEntryLoop h k rounds entry) := by
  induction rounds generalizing entry with
  | zero => exact .stop (by decide)
  | succ rounds ih =>
    unfold getEntryLoop
    apply Unseen.ite
    · exact fun _ => .pure _
    · intro _
      apply (unseen_load entry _).bind
      intro eh
      apply Unseen.bind
      · apply Unseen.ite
        · exact fun _ => (unseen_load entry _).bind fun x =>
            (unseen_touchdbPtrOf x).bind fun key => unseen_strcmpEq key _
        · exact fun _ => .pure _
      · intro found
        apply Unseen.ite
        · exact fun _ => .pure _
        · exact fun _ => (unseen_nextEntry entry).bind fun next => ih next

theorem unseen_getEntry (k : CStr) : Unseen (getEntry k) :=
  (unseen_bulkFor _).bind fun bulk => (unseen_load bulk _).bind fun header =>
    (unseen_touchdbPtrOf header).bind fun entry => unseen_getEntryLoop _ k _ entry

theorem unseen_touchdbMapGet (k : CStr) : Unseen (touchdbMapGet k) := by
  apply (unseen_getEntry k).bind
  intro entry
  apply Unseen.ite
  · exact fun _ => (unseen_load _ _).bind fun value => unseen_touchdbPtrOf value
  · exact fun _ => .pure _

theorem unseen_touchdbMapGet2 (k : CStr) : Unseen (touchdbMapGet2 k) :=
  (unseen_getEntry k).bind fun _ => .ite (fun _ => .pure _) fun _ => .pure _

theorem unseen_touchdbMapContains (k : CStr) : Unseen (touchdbMapContains k) :=
  (unseen_getEntry k).bind fun _ => .pure _

theorem unseen_touchdbMapSize : Unseen touchdbMapSize := unseen_getMap.bind fun _ => .pure _

theorem unseen_iterEntries (rounds entry : ℕ) : Unseen (iterEntries rounds entry) := by
  induction rounds generalizing entry with
  | zero => exact .stop (by decide)
  | succ rounds ih =>
    unfold iterEntries
    apply Unseen.ite
    · intro _
      apply (unseen_load entry _).bind
      intro x
      apply (unseen_touchdbPtrOf x).bind
      intro k
      apply (unseen_load _ _).bind
      intro x
      apply (unseen_touchdbPtrOf x).bind
      intro v
      apply (unseen_nextEntry entry).bind
      intro next
      exact (ih next).bind fun _ => .pure _
    · exact fun _ => .pure _

theorem unseen_iterBulks (n bulk : ℕ) : Unseen (iterBulks n bulk) := by
  induction n generalizing bulk with
  | zero => exact .pure _
  | succ n ih =>
    unfold iterBulks
    apply (unseen_load bulk _).bind
    intro size
    apply Unseen.bind
    · apply Unseen.ite
      · exact fun _ => (unseen_load bulk _).bind fun x =>
          (unseen_touchdbPtrOf x).bind fun entry => unseen_iterEntries _ entry
      · exact fun _ => .pure _
    · exact fun calls => (ih _).bind fun _ => .pure _

theorem unseen_touchdbMapIter : Unseen touchdbMapIter :=
  unseen_getMap.bind fun _ => (unseen_touchdbPtrOf _).bind fun bulk => unseen_iterBulks _ bulk

/-! The initialisation. -/

theorem keepsPools_assignMap (g : TouchdbMap → TouchdbMap) : KeepsPools (assignMap g) :=
  .assign (fun _ => rfl) fun _ _ => rfl

theorem keepsPools_doubleCount (capacity : Int32) (rounds : ℕ) :
    KeepsPools (doubleCount capacity rounds) := by
  induction rounds with
  | zero => exact .stop _
  | succ rounds ih =>
    unfold doubleCount
    apply (KeepsPools.unseen unseen_getMap).bind
    intro map
    exact .ite (fun _ => (keepsPools_assignMap _).bind fun _ => ih) fun _ => .pure _

theorem keepsPools_clearBulks (bulkList n i : ℕ) : KeepsPools (clearBulks bulkList n i) := by
  induction n generalizing i with
  | zero => exact .pure _
  | succ n ih =>
    unfold clearBulks
    apply (keepsPools_store _ _ _).bind
    intro _
    apply (keepsPools_store _ _ _).bind
    intro _
    apply (keepsPools_store _ _ _).bind
    intro _
    apply (keepsPools_store _ _ _).bind
    intro _
    exact (keepsPools_store _ _ _).bind fun _ => ih (i + 1)

theorem keepsPools_mapInitTable : KeepsPools mapInitTable := by
  apply (KeepsPools.unseen unseen_getMap).bind
  intro map
  apply (keepsPools_touchdbMalloc _).bind
  rintro ⟨p, addr⟩
  apply (keepsPools_assignMap _).bind
  intro _
  apply (keepsPools_assignMap _).bind
  intro _
  exact (KeepsPools.unseen unseen_getMap).bind fun map => keepsPools_clearBulks p _ 0

theorem keepsPools_touchdbMapInit (capacity : Int32) : KeepsPools (touchdbMapInit capacity) := by
  unfold touchdbMapInit
  apply KeepsPools.bind
  · apply KeepsPools.ite
    · exact fun _ => .stop _
    · exact fun _ => (keepsPools_assignMap _).bind fun _ => keepsPools_doubleCount _ _
  · exact fun _ => keepsPools_mapInitTable

end TouchDb
