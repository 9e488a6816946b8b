import TouchDb.Store.Keyed
import TouchDb.Store.Reads

/-! The space that the calls on a store take, and runs that have room for it. -/
namespace TouchDb
open Prog Layout

section
variable {k v : CStr}

/-! The index. -/

theorem asks_assignMap (g : TouchdbMap → TouchdbMap) : Asks [] (assignMap g) :=
  .assign fun h => h.of_pool rfl

theorem asks_mapPutOverwrite (entry : ℕ) (hv : v.Fits) : Asks [v.strlen + 1] (mapPutOverwrite entry v) := by
  apply (Asks.unseen (unseen_load _ _)).seq
  intro type
  apply Asks.seq
  · exact .ite (fun _ => .pure _) fun _ => .store _ _ _
  intro _
  apply Asks.last
  · apply (asks_touchdbMalloc (by omega) hv).last
    rintro ⟨newVal, newAddr⟩
    exact (Asks.storeBytes newVal _).seq fun _ => .store _ _ _
  intro _
  apply Asks.ite
  · intro _
    apply (Asks.unseen (unseen_load _ _)).seq
    intro value
    apply (asks_touchdbFree value).seq
    intro _
    exact (Asks.unseen (unseen_load _ _)).seq fun value => .unseen (unseen_touchdbPtrOf value)
  · exact fun _ => .pure _

theorem asks_linkEntry (bulk entry : ℕ) (newAddr : TouchdbAddr) : Asks [] (linkEntry bulk entry newAddr) := by
  apply (Asks.unseen (unseen_load bulk _)).seq
  intro size
  apply Asks.seq
  · apply Asks.ite
    · intro _
      apply (Asks.store bulk _ newAddr).seq
      intro _
      exact (Asks.store bulk _ newAddr).seq fun _ => .store entry _ _
    · intro _
      apply (Asks.unseen (unseen_load bulk _)).seq
      intro x
      apply (Asks.unseen (unseen_touchdbPtrOf x)).seq
      intro tail
      apply (Asks.store tail _ newAddr).seq
      intro _
      apply (Asks.unseen (unseen_load bulk _)).seq
      intro x
      exact (Asks.store entry _ x).seq fun _ => .store bulk _ newAddr
  intro _
  apply (Asks.store entry _ _).seq
  intro _
  apply (Asks.unseen (unseen_load bulk _)).seq
  intro size
  exact (Asks.store bulk _ _).seq fun _ => asks_assignMap _

theorem asks_newEntry (h : Int32) (hk : k.Fits) (hv : v.Fits) :
    Asks [mapEntrySize, k.strlen + 1, v.strlen + 1] (newEntry h k v) := by
  apply Asks.bind (l := [mapEntrySize]) (asks_touchdbMalloc (by decide) (by decide))
  rintro ⟨entry, newAddr⟩
  apply (Asks.store entry _ h).seq
  intro _
  apply Asks.bind (l := [k.strlen + 1]) (asks_touchdbMallocAt _ _ (by omega) hk)
  intro newKey
  apply (asks_touchdbMallocAt _ _ (by omega) hv).last
  intro newVal
  apply (Asks.storeBytes newKey _).seq
  intro _
  apply (Asks.storeBytes newVal _).seq
  intro _
  exact (Asks.store _ _ _).seq fun _ => .pure _

theorem unseen_findEntry (bulk : ℕ) (k : CStr) : Unseen (findEntry bulk k) :=
  (unseen_load bulk _).bind fun _ => .ite (fun _ => unseen_getEntry k) fun _ => .pure _

theorem asks_touchdbMapPut (hk : k.Fits) (hv : v.Fits) :
    Asks [mapEntrySize, k.strlen + 1, v.strlen + 1] (touchdbMapPut k v) := by
  apply (Asks.unseen (unseen_bulkFor _)).seq
  intro bulk
  apply (Asks.unseen (unseen_findEntry bulk k)).seq
  intro entry
  apply Asks.ite
  · exact fun _ => (asks_mapPutOverwrite entry hv).of_sublist (by simp)
  · intro _
    apply (asks_newEntry _ hk hv).last
    rintro ⟨entry, newAddr⟩
    exact (asks_linkEntry bulk entry newAddr).seq fun _ => .pure _

theorem asks_newEntry2 (h : Int32) (hk : k.Fits) (v : ℕ) :
    Asks [mapEntrySize, k.strlen + 1] (newEntry2 h k v) := by
  apply Asks.bind (l := [mapEntrySize]) (asks_touchdbMalloc (by decide) (by decide))
  rintro ⟨entry, newAddr⟩
  apply (Asks.store entry _ h).seq
  intro _
  apply (Asks.unseen (unseen_load v _)).seq
  intro val
  apply (Asks.store entry _ val).seq
  intro _
  apply (asks_touchdbMallocAt _ _ (by omega) hk).last
  exact fun newKey => (Asks.storeBytes newKey _).seq fun _ => .pure _

theorem asks_mapPut2Overwrite (entry v : ℕ) : Asks [] (mapPut2Overwrite entry v) :=
  (Asks.unseen (unseen_load v _)).seq fun val => (Asks.store entry _ val).seq fun _ =>
    (asks_touchdbValDestroy _).seq fun _ => .pure _

theorem asks_touchdbMapPut2 (hk : k.Fits) (v : ℕ) :
    Asks [mapEntrySize, k.strlen + 1] (touchdbMapPut2 k v) := by
  apply (Asks.unseen (unseen_bulkFor _)).seq
  intro bulk
  apply (Asks.unseen (unseen_findEntry bulk k)).seq
  intro entry
  apply Asks.ite
  · exact fun _ => (asks_mapPut2Overwrite entry v).of_sublist (List.nil_sublist _)
  · intro _
    apply (asks_newEntry2 _ hk v).last
    rintro ⟨entry, newAddr⟩
    exact (asks_linkEntry bulk entry newAddr).seq fun _ => .pure _

/-! The calls of `touchdb.c`. -/

theorem asks_touchdbPutStr (hk : k.Fits) (hv : v.Fits) :
    Asks [sizeofVal, sizeofStr, v.strlen + 1, mapEntrySize, k.strlen + 1] (touchdbPutStr k v) := by
  apply Asks.bind (l := [sizeofVal]) (asks_touchdbMalloc (by decide) (by decide))
  rintro ⟨val, addr⟩
  apply (asks_touchdbStrNew2 val hv).bind
  intro _
  apply (asks_touchdbMapPut2 hk val).last
  exact fun val => (asks_touchdbFree addr).seq fun _ => .pure val

theorem asks_touchdbListPush (hk : k.Fits) (v : ℕ) :
    Asks [sizeofVal, sizeofChain, touchdbChainNodeSize, mapEntrySize, k.strlen + 1]
      (touchdbListPush k v) := by
  apply (Asks.unseen (unseen_getChain k)).seq
  intro chain
  apply Asks.ite
  · exact fun _ => (asks_touchdbChainPushTail chain v).of_sublist (by simp)
  · intro _
    apply Asks.bind (l := [sizeofVal]) (asks_touchdbMalloc (by decide) (by decide))
    rintro ⟨val, addr⟩
    apply Asks.bind (l := [sizeofChain]) (asks_touchdbChainNew val)
    intro chain
    apply Asks.bind (l := [touchdbChainNodeSize]) (asks_touchdbChainPushTail chain v)
    intro _
    exact (asks_touchdbMapPut2 hk val).last fun _ => asks_touchdbFree addr

theorem asks_touchdbListPop (k : CStr) : Asks [sizeofVal] (touchdbListPop k) :=
  (Asks.unseen (unseen_getChain k)).seq fun chain => .ite (fun _ => asks_touchdbChainPullHead chain)
    fun _ => (Asks.pure NULL).of_sublist (List.nil_sublist _)

end

/-- What a new store has left. -/
theorem touchdbNew_ample (f : NewFiles) {n : ℕ} (hroom : newRoom + n ≤ touchdbDefaultPoolSize) :
    ∃ s, (touchdbNew f.ptr).next f.db = .ok s ∧ Ample n s := by
  have hnew := touchdbNew_inv (A := fun _ => False) f (.inr (Nat.le_trans (Nat.le_add_right _ _) hroom))
  rcases hs : (touchdbNew f.ptr).next f.db with e | s
  · rw [hs] at hnew
    exact hnew.elim
  · rw [hs] at hnew
    obtain ⟨a, ix, h⟩ := hnew
    have hcur : a.cur ≤ newRoom := h.cur
    exact ⟨s, rfl, h.heap.ample (by omega)⟩

/-! Clients of the lists of a store. -/

/-- The sizes that a call asks for at most. -/
def KeyedOp.sizes : KeyedOp → List ℕ
  | .put k v => [mapEntrySize, k.1.strlen + 1, v.1.strlen + 1]
  | .putStr k v => [sizeofVal, sizeofStr, v.1.strlen + 1, mapEntrySize, k.1.strlen + 1]
  | .newStr v => [sizeofVal, sizeofStr, v.1.strlen + 1]
  | .newVal _ | .pop _ => [sizeofVal]
  | .alloc n => [n.bytes]
  | .push k _ => [sizeofVal, sizeofChain, touchdbChainNodeSize, mapEntrySize, k.1.strlen + 1]
  | .drop _ | .nodeIdx _ _ | .size _ => []

theorem KeyedOp.asks (op : KeyedOp) (r : KeyedClient) : Asks op.sizes (op.run r) := by
  cases op with
  | put k v => exact (asks_touchdbMapPut k.2 v.2).last fun _ => .pure _
  | putStr k v => exact (asks_touchdbPutStr k.2 v.2).last fun _ => .pure _
  | newStr v => exact asks_newStr (k := fun p => pure { r with vals := r.vals ++ [p] }) v fun _ => .pure _
  | newVal w =>
    apply (asks_touchdbMalloc (by decide) (by decide)).last
    rintro ⟨p, _⟩
    exact (Asks.store p _ _).seq fun _ => .pure _
  | alloc n => exact (asks_touchdbMalloc n.pos n.le).last fun _ => .pure _
  | drop h =>
    rcases hv : r.vals[h]? with _ | v
    · simp only [KeyedOp.run, hv]
      exact .pure r
    · simp only [KeyedOp.run, hv]
      exact (Asks.unseen (unseen_touchdbAddrOf v)).seq fun addr =>
        (asks_touchdbFree addr).seq fun _ => .pure _
  | push k h =>
    rcases hv : r.vals[h]? with _ | v
    · simp only [KeyedOp.run, hv]
      exact (Asks.pure r).of_sublist (List.nil_sublist _)
    · simp only [KeyedOp.run, hv]
      exact (Asks.unseen (unseen_load v _)).seq fun w =>
        (asks_touchdbListPush k.2 v).last fun _ => .pure _
  | pop k =>
    exact (asks_touchdbListPop k.1).last fun v => (Asks.unseen (unseen_readVal v)).seq fun w => .pure _
  | nodeIdx k i =>
    exact (Asks.unseen (unseen_touchdbListNodeIdx k.1 _)).seq fun v =>
      (Asks.unseen (unseen_readVal v)).seq fun w => .pure _
  | size k => exact (Asks.unseen (unseen_touchdbListSize k.1)).seq fun n => .pure _

/-- A run does not fail for want of a block where the store has room for all its calls. -/
theorem runKeyed_supplied (f : NewFiles) (ops : List KeyedOp)
    (hroom : newRoom + (ops.map fun op => roomFor op.sizes).sum ≤ touchdbDefaultPoolSize) :
    Run.Post (fun e => e ≠ .noBlock) (runKeyed f ops) fun r => Ample 0 r.2 := by
  obtain ⟨s, hs, hA⟩ := touchdbNew_ample f hroom
  have hstep (op : KeyedOp) (m : ℕ) (r : KeyedRun) (hr : Ample (roomFor op.sizes + m) r.2) :
      Run.Post (fun e => e ≠ .noBlock) (KeyedRun.step op r) fun r => Ample m r.2 :=
    .of_wp_run (op.asks r.1 m r.2 hr) fun _ h => h
  unfold runKeyed
  rw [hs]
  exact Run.exec_costs (I := fun n (r : KeyedRun) => Ample n r.2) hstep ops hA

end TouchDb
