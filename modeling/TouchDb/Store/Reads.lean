import TouchDb.Core.Stutter
import TouchDb.Chain.Costs
import TouchDb.Map.Preserved
import TouchDb.Store.IndexOk
import TouchDb.Store.Relocate

/-! The calls that read: whatever a store has come to, they change nothing, and no other process
notices them. -/
namespace TouchDb
open Prog

/-- The string that a value points to. -/
theorem unseen_strOf (val : ℕ) : Unseen (do
    let value ← load val Val.value
    let s ← touchdbPtrOf value
    let data ← load s Str.data
    touchdbPtrOf data) := by
  apply (unseen_load val _).bind
  intro value
  apply (unseen_touchdbPtrOf value).bind
  intro s
  exact (unseen_load s _).bind fun data => unseen_touchdbPtrOf data

theorem unseen_touchdbStrData (s : ℕ) : Unseen (touchdbStrData s) :=
  .ite (fun _ => .pure _) fun _ => (unseen_load s _).bind fun _ =>
    .ite (fun _ => unseen_strOf s) fun _ => .pure _

theorem unseen_touchdbGetStr (k : CStr) : Unseen (touchdbGetStr k) := by
  apply (unseen_touchdbMapGet2 k).bind
  intro val
  apply Unseen.ite
  · exact fun _ => (unseen_load val _).bind fun _ => .ite (fun _ => unseen_strOf val) fun _ => .pure _
  · exact fun _ => .pure _

theorem unseen_getChain (k : CStr) : Unseen (getChain k) := by
  apply (unseen_touchdbMapGet2 k).bind
  intro val
  apply Unseen.ite
  · intro _
    apply (unseen_load val _).bind
    intro type
    apply Unseen.ite
    · intro _
      apply (unseen_load val _).bind
      intro value
      apply (unseen_touchdbPtrOf value).bind
      exact fun chain => .ite (fun _ => .pure _) fun _ => .pure _
    · exact fun _ => .pure _
  · exact fun _ => .pure _

theorem unseen_touchdbListNodeIdx (k : CStr) (idx : Int32) : Unseen (touchdbListNodeIdx k idx) :=
  (unseen_getChain k).bind fun chain =>
    .ite (fun _ => unseen_touchdbChainNodeIdx chain idx) fun _ => .pure _

theorem unseen_touchdbListSize (k : CStr) : Unseen (touchdbListSize k) :=
  (unseen_getChain k).bind fun chain =>
    .ite (fun _ => unseen_touchdbChainSize chain) fun _ => .pure _

/-- The calls that read. -/
def ApiCall.reads : ApiCall → Bool
  | .ptrOf _ | .addrOf _ | .get _ | .contains _ | .size | .iter | .getStr _ | .strData _ | .read _
  | .listNodeIdx _ _ | .listSize _ => true
  | _ => false

theorem ApiCall.unseen (start : ℕ) {c : ApiCall} (h : c.reads = true) : Unseen (c.run start) := by
  cases c with
  | ptrOf addr => exact (unseen_touchdbPtrOf addr).bind fun _ => .pure _
  | addrOf p => exact (unseen_touchdbAddrOf _).bind fun _ => .pure _
  | get k => exact (unseen_touchdbMapGet k).bind fun _ => .pure _
  | contains k => exact (unseen_touchdbMapContains k).bind fun _ => .pure _
  | size => exact unseen_touchdbMapSize.bind fun _ => .pure _
  | iter => exact unseen_touchdbMapIter.bind fun _ => .pure _
  | getStr k => exact (unseen_touchdbGetStr k).bind fun _ => .pure _
  | strData val => exact (unseen_touchdbStrData _).bind fun _ => .pure _
  | read p => exact (unseen_readStr _ _).bind fun _ => .pure _
  | listNodeIdx k idx => exact (unseen_touchdbListNodeIdx k idx).bind fun _ => .pure _
  | listSize k => exact (unseen_touchdbListSize k).bind fun _ => .pure _
  | malloc | free | put | putStr | putVal | strNew | strNew2 | listPush | listPop => cases h

theorem ApiCall.run_reads {start : ℕ} {c : ApiCall} {s t : Touchdb} {a : Answer} (h : c.reads = true)
    (hr : (c.run start).run s = .ok (a, t)) : t = s :=
  (ApiCall.unseen start h).eq hr

theorem next_bind_pure {α β : Type} (c : M α) (f : α → β) (s : Touchdb) :
    (c >>= fun a => pure (f a)).next s = c.next s := by
  rw [Run.next_of_run, Run.next_of_run, run_bind]
  rcases c.run s with e | ⟨a, t⟩ <;> rfl

/-- Calls that read may be left out of a run, from any state of a store: the files come out the same,
and the other calls get the same answers. -/
theorem history_writes (start : ℕ) (calls : List ApiCall) {s t : Touchdb}
    (h : (Run.history (ApiCall.run start) calls s).2 = .ok t) :
    Run.history (ApiCall.run start) (calls.filter fun c => !c.reads) s =
      (((calls.zip (Run.history (ApiCall.run start) calls s).1).filter fun x => !x.1.reads).map Prod.snd,
        .ok t) :=
  Run.history_filter (fun _ hc _ _ _ hr => ApiCall.run_reads (by simpa using hc) hr) calls h

theorem StoreInv.iter_next {B c : ℕ} {s : Touchdb} {a : PoolAlloc} {ix : Index} {ops : List MapOp}
    (h : StoreInv B c ops s a ix) (start : ℕ) : (ApiCall.run start .iter).next s = .ok s := by
  obtain ⟨calls, ks, l, hc, -⟩ := h.iter
  refine (next_bind_pure touchdbIter _ s).trans ?_
  rw [Run.next_of_run, run_ok hc]
  rfl

/-- A walk before and after a put. -/
theorem history_writes_put : ∃ (s t : Touchdb) (answers : List Answer), runNew .page [] = .ok s ∧
    (Run.history (ApiCall.run 4096) [.iter, .put (text 1 97).1 (text 1 120).1, .iter] s).2 = .ok t ∧
    Run.history (ApiCall.run 4096) [.put (text 1 97).1 (text 1 120).1] s = (answers, .ok t) := by
  obtain ⟨s, hs, a, ix, h⟩ := runNew_ends .page [] (by decide)
  have hroom : newRoom + opsRoom ([] ++ [.put (text 1 97) (text 1 120)]) ≤ touchdbDefaultPoolSize := by decide
  have hput := h.step (A := fun _ => False) (.inr hroom)
  rcases ht : (MapOp.put (text 1 97) (text 1 120)).step s with e | t
  · rw [ht] at hput
    exact hput.elim
  · rw [ht] at hput
    obtain ⟨a', ix', h'⟩ := hput
    have hcall : (ApiCall.run 4096 (.put (text 1 97).1 (text 1 120).1)).next s = .ok t :=
      (next_bind_pure _ _ s).trans ((next_bind_pure _ (fun _ => ()) s).symm.trans ht)
    have hend : (Run.history (ApiCall.run 4096)
        [.iter, .put (text 1 97).1 (text 1 120).1, .iter] s).2 = .ok t := by
      rw [Run.history_end]
      simp only [Run.exec, h.iter_next, hcall, h'.iter_next]
    exact ⟨s, t, _, hs, hend, history_writes 4096 _ hend⟩

/-- While a call reads, another process finds at each moment what was there before the call, in any
state of a store, also where the call stops. -/
theorem reads_unseen (start : ℕ) (c : ApiCall) (h : c.reads = true) (s : Touchdb) (l r : List Event)
    (hl : (c.run start).trace s = l ++ r) : viewAt s l = s :=
  (ApiCall.unseen start h).viewAt_eq ⟨r, hl⟩

/-- The first event of a walk. -/
theorem reads_unseen_iter : viewAt NewFiles.page.db
    (((ApiCall.iter.run 4096).trace NewFiles.page.db).take 1) = NewFiles.page.db :=
  reads_unseen 4096 .iter rfl _ _ _ (List.take_append_drop 1 _).symm

end TouchDb
