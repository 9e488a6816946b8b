import TouchDb.Store.Rebase
import TouchDb.Store.Model

/-! The whole interface of a store, in lockstep for two processes that map its pool at different
addresses. -/
namespace TouchDb
open Prog Layout

section Strings
variable {file : OnePoolFile} {a b : MapBase} {p q : ℕ}

/-- A string is read byte by byte. -/
theorem lockstep_readStr (rounds : ℕ) (h : Shifted a b p q) :
    Lockstep (Rebased file a b) Eq (readStr rounds p) (readStr rounds q) := by
  induction rounds generalizing p q with
  | zero => exact Lockstep.stop Stop.fault
  | succ rounds ih =>
    unfold readStr
    apply lockstep_load_bind h
    intro hm c
    by_cases hc : c = 0
    · simp only [dif_pos hc]
      exact Lockstep.pure rfl
    · simp only [dif_neg hc]
      apply (ih (hm.add 1).shifted).bind_eq
      intro s
      exact Lockstep.pure rfl

theorem lockstep_touchdbStrNew2 (v : CStr) (h : Moved a b p q) :
    Lockstep (Rebased file a b) (Moved a b) (touchdbStrNew2 p v) (touchdbStrNew2 q v) := by
  unfold touchdbStrNew2
  apply (lockstep_store h.shifted).bind_eq
  intro _
  apply (lockstep_touchdbMallocAt _ _ h).bind
  intro s s' hs
  apply (lockstep_store hs.shifted).bind_eq
  intro _
  apply (lockstep_load hs).bind_eq
  intro len
  apply (lockstep_touchdbMallocAt _ _ hs).bind
  intro data data' hdata
  apply (lockstep_storeBytes hdata).bind_eq
  intro _
  exact Lockstep.pure hs

theorem lockstep_touchdbStrNew (v : CStr) :
    Lockstep (Rebased file a b) (fun x y => Moved a b x.1 y.1 ∧ x.2 = y.2) (touchdbStrNew v)
      (touchdbStrNew v) := by
  unfold touchdbStrNew
  apply (lockstep_touchdbMalloc _).bind
  rintro ⟨p, addr⟩ ⟨q, _⟩ ⟨h, rfl⟩
  apply (lockstep_store h.shifted).bind_eq
  intro _
  apply (lockstep_touchdbMallocAt _ _ h).bind
  intro s s' hs
  apply (lockstep_store hs.shifted).bind_eq
  intro _
  apply (lockstep_load hs).bind_eq
  intro len
  apply (lockstep_touchdbMallocAt _ _ hs).bind
  intro data data' hdata
  apply (lockstep_storeBytes hdata).bind_eq
  intro _
  exact Lockstep.pure ⟨h, rfl⟩

theorem lockstep_touchdbStrData (h : Shifted a b p q) :
    Lockstep (Rebased file a b) (Shifted a b) (touchdbStrData p) (touchdbStrData q) := by
  unfold touchdbStrData
  apply Lockstep.ite h.null_iff
  · exact fun _ _ => Lockstep.pure (.null a b)
  · intro hp _
    have hm := h.moved hp
    apply (lockstep_load hm).bind_eq
    intro type
    apply Lockstep.ite Iff.rfl
    · intro _ _
      apply (lockstep_load hm).bind_eq
      intro value
      apply (lockstep_touchdbPtrOf value).bind
      intro s s' hs
      apply lockstep_load_bind hs
      exact fun _ data => lockstep_touchdbPtrOf data
    · exact fun _ _ => Lockstep.pure (.null a b)

end Strings

section Map
variable {file : OnePoolFile} {a b : MapBase} {p q : ℕ}

theorem lockstep_touchdbMapGet (k : CStr) :
    Lockstep (Rebased file a b) (Shifted a b) (touchdbMapGet k) (touchdbMapGet k) := by
  unfold touchdbMapGet
  apply (lockstep_getEntry k).bind
  intro e e' he
  apply Lockstep.ite (not_congr he.null_iff)
  · intro hp _
    apply (lockstep_load ((he.moved hp).add _)).bind_eq
    exact fun value => lockstep_touchdbPtrOf value
  · exact fun _ _ => Lockstep.pure (.null a b)

theorem lockstep_touchdbMapGet2 (k : CStr) :
    Lockstep (Rebased file a b) (Shifted a b) (touchdbMapGet2 k) (touchdbMapGet2 k) := by
  unfold touchdbMapGet2
  apply (lockstep_getEntry k).bind
  intro e e' he
  apply Lockstep.ite (not_congr he.null_iff)
  · exact fun hp _ => Lockstep.pure ((he.moved hp).add _).shifted
  · exact fun _ _ => Lockstep.pure (.null a b)

theorem lockstep_touchdbMapContains (k : CStr) :
    Lockstep (Rebased file a b) Eq (touchdbMapContains k) (touchdbMapContains k) := by
  unfold touchdbMapContains
  apply (lockstep_getEntry k).bind
  intro e e' he
  apply Lockstep.pure
  rw [decide_eq_decide]
  exact not_congr he.null_iff

theorem lockstep_touchdbMapSize :
    Lockstep (Rebased file a b) Eq touchdbMapSize touchdbMapSize := by
  unfold touchdbMapSize
  apply lockstep_getMap.bind
  rintro map _ ⟨rfl, -⟩
  exact Lockstep.pure rfl

/-- Two calls of the callback. -/
abbrev ShiftedPair (a b : MapBase) (x y : ℕ × ℕ) : Prop := Shifted a b x.1 y.1 ∧ Shifted a b x.2 y.2

theorem lockstep_iterEntries (rounds : ℕ) (h : Shifted a b p q) :
    Lockstep (Rebased file a b) (List.Forall₂ (ShiftedPair a b)) (iterEntries rounds p)
      (iterEntries rounds q) := by
  induction rounds generalizing p q with
  | zero => exact Lockstep.stop Stop.diverge
  | succ rounds ih =>
    unfold iterEntries
    apply Lockstep.ite (not_congr h.null_iff)
    · intro hp _
      have hm := h.moved hp
      apply (lockstep_load hm).bind_eq
      intro x
      apply (lockstep_touchdbPtrOf x).bind
      intro k k' hk
      apply (lockstep_load (hm.add _)).bind_eq
      intro x
      apply (lockstep_touchdbPtrOf x).bind
      intro v v' hv
      apply (lockstep_nextEntry h).bind
      intro next next' hnext
      apply (ih hnext).bind
      intro calls calls' hcalls
      exact Lockstep.pure (.cons ⟨hk, hv⟩ hcalls)
    · exact fun _ _ => Lockstep.pure .nil

theorem lockstep_iterBulks (n : ℕ) (h : Moved a b p q) :
    Lockstep (Rebased file a b) (List.Forall₂ (ShiftedPair a b)) (iterBulks n p)
      (iterBulks n q) := by
  induction n generalizing p q with
  | zero => exact Lockstep.pure .nil
  | succ n ih =>
    unfold iterBulks
    apply (lockstep_load h).bind_eq
    intro size
    have hcalls : Lockstep (Rebased file a b) (List.Forall₂ (ShiftedPair a b))
        (if size ≠ 0 then do
          let x ← load p MapBulk.header
          let entry ← touchdbPtrOf x
          iterEntries walkRounds entry
        else return [])
        (if size ≠ 0 then do
          let x ← load q MapBulk.header
          let entry ← touchdbPtrOf x
          iterEntries walkRounds entry
        else return []) := by
      apply Lockstep.ite Iff.rfl
      · intro _ _
        apply (lockstep_load h).bind_eq
        intro x
        apply (lockstep_touchdbPtrOf x).bind
        exact fun _ _ he => lockstep_iterEntries walkRounds he
      · exact fun _ _ => Lockstep.pure .nil
    apply hcalls.bind
    intro calls calls' hc
    apply (ih (h.add _)).bind
    intro rest rest' hr
    exact Lockstep.pure (List.rel_append hc hr)

theorem lockstep_touchdbMapIter :
    Lockstep (Rebased file a b) (List.Forall₂ (ShiftedPair a b)) touchdbMapIter
      touchdbMapIter := by
  unfold touchdbMapIter
  apply lockstep_getMap.bind
  rintro map _ ⟨rfl, hlist, -⟩
  rw [hlist]
  apply lockstep_table.bind
  exact fun _ _ h => lockstep_iterBulks _ h

theorem lockstep_mapPut2Overwrite {v v' : ℕ} (h : Moved a b p q) (hv : Moved a b v v') :
    Lockstep (Rebased file a b) (Shifted a b) (mapPut2Overwrite p v) (mapPut2Overwrite q v') := by
  unfold mapPut2Overwrite
  apply (lockstep_load hv).bind_eq
  intro val
  apply (lockstep_store h.shifted).bind_eq
  intro _
  apply (lockstep_touchdbValDestroy (h.add _)).bind_eq
  intro _
  exact Lockstep.pure (h.add _).shifted

theorem lockstep_newEntry2 (h : Int32) (k : CStr) {v v' : ℕ} (hv : Moved a b v v') :
    Lockstep (Rebased file a b) (fun x y => Moved a b x.1 y.1 ∧ x.2 = y.2)
      (newEntry2 h k v) (newEntry2 h k v') := by
  unfold newEntry2
  apply (lockstep_touchdbMalloc _).bind
  rintro ⟨entry, addr⟩ ⟨entry', _⟩ ⟨he, rfl⟩
  apply (lockstep_store he.shifted).bind_eq
  intro _
  apply (lockstep_load hv).bind_eq
  intro val
  apply (lockstep_store he.shifted).bind_eq
  intro _
  apply (lockstep_touchdbMallocAt _ _ he).bind
  intro key key' hkey
  apply (lockstep_storeBytes hkey).bind_eq
  intro _
  exact Lockstep.pure ⟨he, rfl⟩

theorem lockstep_touchdbMapPut2 (k : CStr) {v v' : ℕ} (hv : Moved a b v v') :
    Lockstep (Rebased file a b) (Shifted a b) (touchdbMapPut2 k v) (touchdbMapPut2 k v') := by
  unfold touchdbMapPut2
  apply (lockstep_bulkFor _).bind
  intro bulk bulk' hb
  apply (lockstep_findEntry k hb).bind
  intro entry entry' he
  apply Lockstep.ite (not_congr he.null_iff)
  · exact fun hp _ => lockstep_mapPut2Overwrite (he.moved hp) hv
  · intro _ _
    apply (lockstep_newEntry2 _ k hv).bind
    rintro ⟨x, addr⟩ ⟨y, _⟩ ⟨hxy, rfl⟩
    apply (lockstep_linkEntry addr hb hxy).bind_eq
    intro _
    exact Lockstep.pure (.null a b)

end Map

section Chain
variable {file : OnePoolFile} {a b : MapBase} {p q : ℕ}

theorem lockstep_touchdbChainNew (h : Moved a b p q) :
    Lockstep (Rebased file a b) (Moved a b) (touchdbChainNew p) (touchdbChainNew q) := by
  unfold touchdbChainNew
  apply (lockstep_touchdbMallocAt _ _ h).bind
  intro chain chain' hc
  apply (lockstep_store h.shifted).bind_eq
  intro _
  unfold touchdbChainInit
  apply (lockstep_storeBytes hc).bind_eq
  intro _
  exact Lockstep.pure hc

theorem lockstep_nodeIdxLoop (idx : Int32) (rounds : ℕ) (h : Shifted a b p q) (i : Int32) :
    Lockstep (Rebased file a b) (fun x y => Shifted a b x.1 y.1 ∧ x.2 = y.2)
      (nodeIdxLoop idx rounds p i) (nodeIdxLoop idx rounds q i) := by
  induction rounds generalizing p q i with
  | zero => exact Lockstep.stop Stop.diverge
  | succ rounds ih =>
    unfold nodeIdxLoop
    apply Lockstep.ite (and_congr_left' (not_congr h.null_iff))
    · intro _ _
      apply (lockstep_followLink _ h).bind
      exact fun _ _ hnext => ih hnext (i + 1)
    · exact fun _ _ => Lockstep.pure ⟨h, rfl⟩

theorem lockstep_touchdbChainNodeIdx (idx : Int32) (h : Shifted a b p q) :
    Lockstep (Rebased file a b) (Shifted a b) (touchdbChainNodeIdx p idx)
      (touchdbChainNodeIdx q idx) := by
  unfold touchdbChainNodeIdx
  apply (lockstep_followLink _ h).bind
  intro header header' hh
  apply (lockstep_nodeIdxLoop idx walkRounds hh 0).bind
  rintro ⟨n, i⟩ ⟨n', _⟩ ⟨hn, rfl⟩
  apply Lockstep.ite (and_congr_left' (not_congr hn.null_iff))
  · exact fun hp _ => Lockstep.pure ((hn.moved hp.1).add _).shifted
  · exact fun _ _ => Lockstep.pure (.null a b)

theorem lockstep_touchdbChainSize (h : Moved a b p q) :
    Lockstep (Rebased file a b) Eq (touchdbChainSize p) (touchdbChainSize q) := lockstep_load h

end Chain

/-! The interface of `touchdb.c`. -/
section Store
variable {file : OnePoolFile} {a b : MapBase} {p q : ℕ}

theorem lockstep_touchdbPutStr (k v : CStr) :
    Lockstep (Rebased file a b) (Shifted a b) (touchdbPutStr k v) (touchdbPutStr k v) := by
  unfold touchdbPutStr
  apply (lockstep_touchdbMalloc _).bind
  rintro ⟨val, addr⟩ ⟨val', _⟩ ⟨hv, rfl⟩
  apply (lockstep_touchdbStrNew2 v hv).bind
  intro _ _ _
  apply (lockstep_touchdbMapPut2 k hv).bind
  intro r r' hr
  apply (lockstep_touchdbFree addr).bind_eq
  intro _
  exact Lockstep.pure hr

theorem lockstep_touchdbGetStr (k : CStr) :
    Lockstep (Rebased file a b) (Shifted a b) (touchdbGetStr k) (touchdbGetStr k) := by
  unfold touchdbGetStr
  apply (lockstep_touchdbMapGet2 k).bind
  intro val val' hv
  apply Lockstep.ite (not_congr hv.null_iff)
  · intro hp _
    have hm := hv.moved hp
    apply (lockstep_load hm).bind_eq
    intro type
    apply Lockstep.ite Iff.rfl
    · intro _ _
      apply (lockstep_load hm).bind_eq
      intro value
      apply (lockstep_touchdbPtrOf value).bind
      intro s s' hs
      apply lockstep_load_bind hs
      exact fun _ data => lockstep_touchdbPtrOf data
    · exact fun _ _ => Lockstep.pure (.null a b)
  · exact fun _ _ => Lockstep.pure (.null a b)

theorem lockstep_getChain (k : CStr) :
    Lockstep (Rebased file a b) (Shifted a b) (getChain k) (getChain k) := by
  unfold getChain
  apply (lockstep_touchdbMapGet2 k).bind
  intro val val' hv
  apply Lockstep.ite (not_congr hv.null_iff)
  · intro hp _
    have hm := hv.moved hp
    apply (lockstep_load hm).bind_eq
    intro type
    apply Lockstep.ite Iff.rfl
    · intro _ _
      apply (lockstep_load hm).bind_eq
      intro value
      apply (lockstep_touchdbPtrOf value).bind
      intro chain chain' hc
      apply Lockstep.ite (not_congr hc.null_iff)
      · exact fun _ _ => Lockstep.pure hc
      · exact fun _ _ => Lockstep.pure (.null a b)
    · exact fun _ _ => Lockstep.pure (.null a b)
  · exact fun _ _ => Lockstep.pure (.null a b)

theorem lockstep_touchdbListPush (k : CStr) (h : Moved a b p q) :
    Lockstep (Rebased file a b) Eq (touchdbListPush k p) (touchdbListPush k q) := by
  unfold touchdbListPush
  apply (lockstep_getChain k).bind
  intro chain chain' hc
  apply Lockstep.ite (not_congr hc.null_iff)
  · exact fun hp _ => lockstep_touchdbChainPushTail (hc.moved hp) h
  · intro _ _
    apply (lockstep_touchdbMalloc _).bind
    rintro ⟨val, addr⟩ ⟨val', _⟩ ⟨hv, rfl⟩
    apply (lockstep_touchdbChainNew hv).bind
    intro chain chain' hc
    apply (lockstep_touchdbChainPushTail hc h).bind_eq
    intro _
    apply (lockstep_touchdbMapPut2 k hv).bind
    intro _ _ _
    exact lockstep_touchdbFree addr

theorem lockstep_touchdbListPop (k : CStr) :
    Lockstep (Rebased file a b) (Shifted a b) (touchdbListPop k) (touchdbListPop k) := by
  unfold touchdbListPop
  apply (lockstep_getChain k).bind
  intro chain chain' hc
  apply Lockstep.ite (not_congr hc.null_iff)
  · exact fun hp _ => lockstep_touchdbChainPullHead (hc.moved hp)
  · exact fun _ _ => Lockstep.pure (.null a b)

theorem lockstep_touchdbListNodeIdx (k : CStr) (idx : Int32) :
    Lockstep (Rebased file a b) (Shifted a b) (touchdbListNodeIdx k idx)
      (touchdbListNodeIdx k idx) := by
  unfold touchdbListNodeIdx
  apply (lockstep_getChain k).bind
  intro chain chain' hc
  apply Lockstep.ite (not_congr hc.null_iff)
  · exact fun _ _ => lockstep_touchdbChainNodeIdx idx hc
  · exact fun _ _ => Lockstep.pure (.null a b)

theorem lockstep_touchdbListSize (k : CStr) :
    Lockstep (Rebased file a b) Eq (touchdbListSize k) (touchdbListSize k) := by
  unfold touchdbListSize
  apply (lockstep_getChain k).bind
  intro chain chain' hc
  apply Lockstep.ite (not_congr hc.null_iff)
  · exact fun hp _ => lockstep_touchdbChainSize (hc.moved hp)
  · exact fun _ _ => Lockstep.pure rfl

end Store

/-! Calls whose answers name no address of a process. -/

/-- The calls that `touchdb.h` offers. A pointer that a call takes is given by its distance from the
start of the mapping. -/
inductive ApiCall where
  | malloc (n : ℕ)
  | free (addr : TouchdbAddr)
  | ptrOf (addr : TouchdbAddr)
  | addrOf (p : ℕ)
  | put (k v : CStr)
  | get (k : CStr)
  | contains (k : CStr)
  | size
  | iter
  | putStr (k v : CStr)
  | putVal (k : CStr) (val : ℕ)
  | getStr (k : CStr)
  | strNew (v : CStr)
  | strNew2 (val : ℕ) (v : CStr)
  | strData (val : ℕ)
  | read (p : ℕ)
  | listPush (k : CStr) (val : ℕ)
  | listPop (k : CStr)
  | listNodeIdx (k : CStr) (idx : Int32)
  | listSize (k : CStr)

/-- A pointer by its distance from the start of the mapping. -/
def distance (start p : ℕ) : Option ℤ := if p = NULL then none else some (p - start)

/-- What a call returns. -/
inductive Answer where
  | done
  | ptr (d : Option ℤ)
  | block (d : Option ℤ) (addr : TouchdbAddr)
  | addr (addr : TouchdbAddr)
  | num (n : Int32)
  | bool (b : Bool)
  | str (s : CStr)
  | pairs (l : List (Option ℤ × Option ℤ))

/-- A call in the process that maps the pool at `start`. -/
def ApiCall.run (start : ℕ) : ApiCall → M Answer
  | .malloc n => do
    let (p, addr) ← touchdbMalloc n
    return .block (distance start p) addr
  | .free addr => do
    touchdbFree addr
    return .done
  | .ptrOf addr => do
    let p ← touchdbPtrOf addr
    return .ptr (distance start p)
  | .addrOf p => do
    let addr ← touchdbAddrOf (start + p)
    return .addr addr
  | .put k v => do
    let p ← touchdbPut k v
    return .ptr (distance start p)
  | .get k => do
    let p ← touchdbGet k
    return .ptr (distance start p)
  | .contains k => do
    let b ← touchdbMapContains k
    return .bool b
  | .size => do
    let n ← touchdbSize
    return .num n
  | .iter => do
    let calls ← touchdbIter
    return .pairs (calls.map fun c => (distance start c.1, distance start c.2))
  | .putStr k v => do
    let p ← touchdbPutStr k v
    return .ptr (distance start p)
  | .putVal k val => do
    let p ← touchdbMapPut2 k (start + val)
    return .ptr (distance start p)
  | .getStr k => do
    let p ← touchdbGetStr k
    return .ptr (distance start p)
  | .strNew v => do
    let (p, addr) ← touchdbStrNew v
    return .block (distance start p) addr
  | .strNew2 val v => do
    let p ← touchdbStrNew2 (start + val) v
    return .ptr (distance start p)
  | .strData val => do
    let p ← touchdbStrData (start + val)
    return .ptr (distance start p)
  | .read p => do
    let s ← readStr touchdbDefaultPoolSize (start + p)
    return .str s
  | .listPush k val => do
    touchdbListPush k (start + val)
    return .done
  | .listPop k => do
    let p ← touchdbListPop k
    return .ptr (distance start p)
  | .listNodeIdx k idx => do
    let p ← touchdbListNodeIdx k idx
    return .ptr (distance start p)
  | .listSize k => do
    let n ← touchdbListSize k
    return .num n

section Calls
variable {file : OnePoolFile} {a b : MapBase} {p q : ℕ}

theorem Shifted.distance_eq (h : Shifted a b p q) : distance a.ptr p = distance b.ptr q := by
  unfold distance
  rcases h with ⟨rfl, rfl⟩ | ⟨hp, hq, hpq⟩
  · rfl
  · rw [if_neg hp, if_neg hq]
    congr 1
    omega

/-- A call that returns a pointer. -/
theorem lockstep_answer {c d : M ℕ} (h : Lockstep (Rebased file a b) (Shifted a b) c d) :
    Lockstep (Rebased file a b) Eq (do
        let p ← c
        return Answer.ptr (distance a.ptr p)) (do
        let q ← d
        return Answer.ptr (distance b.ptr q)) := by
  apply h.bind
  intro p q hpq
  apply Lockstep.pure
  rw [hpq.distance_eq]

/-- A call that returns a block and its address. -/
theorem lockstep_block {c d : M (ℕ × TouchdbAddr)}
    (h : Lockstep (Rebased file a b) (fun x y => Moved a b x.1 y.1 ∧ x.2 = y.2) c d) :
    Lockstep (Rebased file a b) Eq (do
        let (p, addr) ← c
        return Answer.block (distance a.ptr p) addr) (do
        let (q, addr) ← d
        return Answer.block (distance b.ptr q) addr) := by
  apply h.bind
  rintro ⟨p, addr⟩ ⟨q, _⟩ ⟨hpq, rfl⟩
  apply Lockstep.pure
  rw [hpq.shifted.distance_eq]

theorem distances_eq {xs ys : List (ℕ × ℕ)} (h : List.Forall₂ (ShiftedPair a b) xs ys) :
    (xs.map fun c => (distance a.ptr c.1, distance a.ptr c.2)) =
      ys.map fun c => (distance b.ptr c.1, distance b.ptr c.2) := by
  induction h with
  | nil => rfl
  | cons hxy _ ih => rw [List.map_cons, List.map_cons, hxy.1.distance_eq, hxy.2.distance_eq, ih]

/-- Every call of the interface gives the same answer in both processes. -/
theorem ApiCall.lockstep (file : OnePoolFile) (a b : MapBase) (call : ApiCall) :
    Lockstep (Rebased file a b) Eq (call.run a.ptr) (call.run b.ptr) := by
  cases call with
  | malloc n => exact lockstep_block (lockstep_touchdbMalloc n)
  | free addr =>
    apply (lockstep_touchdbFree addr).bind_eq
    exact fun _ => Lockstep.pure rfl
  | ptrOf addr => exact lockstep_answer (lockstep_touchdbPtrOf addr)
  | addrOf p =>
    apply (lockstep_touchdbAddrOf (.start a b p)).bind_eq
    exact fun _ => Lockstep.pure rfl
  | put k v => exact lockstep_answer (lockstep_touchdbMapPut k v)
  | get k => exact lockstep_answer (lockstep_touchdbMapGet k)
  | contains k =>
    apply (lockstep_touchdbMapContains k).bind_eq
    exact fun _ => Lockstep.pure rfl
  | size =>
    apply lockstep_touchdbMapSize.bind_eq
    exact fun _ => Lockstep.pure rfl
  | iter =>
    apply lockstep_touchdbMapIter.bind
    intro xs ys h
    apply Lockstep.pure
    rw [distances_eq h]
  | putStr k v => exact lockstep_answer (lockstep_touchdbPutStr k v)
  | putVal k val => exact lockstep_answer (lockstep_touchdbMapPut2 k (.start a b val))
  | getStr k => exact lockstep_answer (lockstep_touchdbGetStr k)
  | strNew v => exact lockstep_block (lockstep_touchdbStrNew v)
  | strNew2 val v =>
    apply lockstep_answer
    exact (lockstep_touchdbStrNew2 v (.start a b val)).mono fun _ _ h => h.shifted
  | strData val => exact lockstep_answer (lockstep_touchdbStrData (Moved.start a b val).shifted)
  | read p =>
    apply (lockstep_readStr _ (Moved.start a b p).shifted).bind_eq
    exact fun _ => Lockstep.pure rfl
  | listPush k val =>
    apply (lockstep_touchdbListPush k (.start a b val)).bind_eq
    exact fun _ => Lockstep.pure rfl
  | listPop k => exact lockstep_answer (lockstep_touchdbListPop k)
  | listNodeIdx k idx => exact lockstep_answer (lockstep_touchdbListNodeIdx k idx)
  | listSize k =>
    apply (lockstep_touchdbListSize k).bind_eq
    exact fun _ => Lockstep.pure rfl

end Calls

end TouchDb
