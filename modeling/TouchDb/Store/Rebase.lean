import TouchDb.Heap.Rebase
import TouchDb.Map.Rep
import TouchDb.Chain.Model
import TouchDb.Core.Words
import Mathlib.Data.List.Forall2
import Mathlib.Data.Int.Notation

/-! The map and the chains of a file that two processes map at different addresses. -/
namespace TouchDb
open Prog Layout

/-- The files of a store, from a process that has them mapped. -/
def OnePoolFile.ofStore {B : ℕ} {s : Touchdb} {u : PoolAlloc} {ix : Index} (h : Heap B s u)
    (hm : MapRep B s u ix) (hidx : ∀ j, (s.poolList j).idx = 0) : OnePoolFile where
  map := s.map
  poolList := s.poolList
  bytes i := s.mem (B + i)
  idx_eq := hidx
  table_le := by
    have hb := hm.table.bounds
    have hN := poolSize_lt
    rw [hm.bulkList]
    show (addrOf ix.tbl).offset ≤ (s.poolList 0).size.toUInt32
    rw [h.size_eq, Int32.toUInt32_ofNat', UInt32.le_iff_toNat_le, Words.toNat_ofNat (by omega),
      addrOf_offset (by omega)]
    omega
  count_pos := by
    rw [hm.count_toInt]
    exact Int.natCast_pos.mpr ix.count_pos

section Map
variable {file : OnePoolFile} {a b : MapBase} {p q : ℕ}

theorem lockstep_getMap :
    Lockstep (Rebased file a b)
      (fun x y => x = y ∧ x.bulkList = file.map.bulkList ∧
        x.bulkListCount = file.map.bulkListCount) getMap getMap := by
  intro s t hst
  exact .ok ⟨hst.map.symm, hst.bulkList, hst.count⟩ hst

/-- An assignment to a field of the map that keeps the table. -/
theorem lockstep_assignMap {g : TouchdbMap → TouchdbMap} (hlist : ∀ x, (g x).bulkList = x.bulkList)
    (hcount : ∀ x, (g x).bulkListCount = x.bulkListCount) :
    Lockstep (Rebased file a b) Eq (assignMap g) (assignMap g) := by
  unfold assignMap assign
  apply Lockstep.update
  intro s t hst
  constructor
  case toSameFiles => exact ⟨congrArg g hst.map, hst.poolList, hst.bytes⟩
  case shm_left => exact hst.shm_left
  case shm_right => exact hst.shm_right
  case idx => exact hst.idx
  case size => exact hst.size
  case bulkList => exact (hlist s.map).trans hst.bulkList
  case count => exact (hcount s.map).trans hst.count

theorem lockstep_getBulk {idx : Int32} (hidx : 0 ≤ idx.toInt) :
    Lockstep (Rebased file a b) (Moved a b) (getBulk idx) (getBulk idx) := by
  unfold getBulk
  apply lockstep_getMap.bind
  rintro map _ ⟨rfl, hlist, -⟩
  rw [hlist]
  apply lockstep_table.bind
  intro bulk bulk' h
  obtain ⟨k, hk⟩ := Int.eq_ofNat_of_zero_le hidx
  have hadd (x : ℕ) : ((x : ℤ) + sizeofMapBulk * idx.toInt).toNat = x + sizeofMapBulk * k := by
    rw [hk]
    omega
  rw [hadd, hadd]
  exact Lockstep.pure (h.add _)

theorem lockstep_bulkFor (h : Int32) :
    Lockstep (Rebased file a b) (Moved a b) (bulkFor h) (bulkFor h) := by
  unfold bulkFor
  apply lockstep_getMap.bind
  rintro map _ ⟨rfl, -, hcount⟩
  apply lockstep_getBulk
  have hpos := file.count_pos
  have hsub := Words.toInt_sub_one (x := map.bulkListCount) (by rw [hcount]; omega)
  apply Words.and_nonneg
  rw [hsub, hcount]
  omega

theorem lockstep_nextEntry (h : Shifted a b p q) :
    Lockstep (Rebased file a b) (Shifted a b) (nextEntry p) (nextEntry q) := by
  unfold nextEntry
  apply Lockstep.ite (not_congr h.null_iff)
  · intro hp _
    apply (lockstep_load (h.moved hp)).bind_eq
    intro next
    apply Lockstep.ite Iff.rfl
    · exact fun _ _ => lockstep_touchdbPtrOf next
    · exact fun _ _ => Lockstep.pure (.null a b)
  · exact fun _ _ => Lockstep.pure (.null a b)

theorem lockstep_strcmpEq (h : Shifted a b p q) (ks : List UInt8) :
    Lockstep (Rebased file a b) Eq (strcmpEq p ks) (strcmpEq q ks) := by
  induction ks generalizing p q with
  | nil =>
    apply lockstep_load_bind h
    exact fun _ _ => Lockstep.pure rfl
  | cons k ks ih =>
    apply lockstep_load_bind h
    intro hm c
    apply Lockstep.ite Iff.rfl
    · exact fun _ _ => ih (hm.add 1).shifted
    · exact fun _ _ => Lockstep.pure rfl

theorem lockstep_getEntryLoop (h : Int32) (k : CStr) (rounds : ℕ) (hpq : Shifted a b p q) :
    Lockstep (Rebased file a b) (Shifted a b) (getEntryLoop h k rounds p)
      (getEntryLoop h k rounds q) := by
  induction rounds generalizing p q with
  | zero => exact Lockstep.stop Stop.diverge
  | succ rounds ih =>
    unfold getEntryLoop
    apply Lockstep.ite hpq.null_iff
    · exact fun _ _ => Lockstep.pure (.null a b)
    · intro hp _
      have hm := hpq.moved hp
      apply (lockstep_load hm).bind_eq
      intro eh
      have hfound : Lockstep (Rebased file a b) Eq
          (if eh = h then do
            let x ← load p MapEntry.key
            let key ← touchdbPtrOf x
            strcmpEq key k.chars
          else return false)
          (if eh = h then do
            let x ← load q MapEntry.key
            let key ← touchdbPtrOf x
            strcmpEq key k.chars
          else return false) := by
        apply Lockstep.ite Iff.rfl
        · intro _ _
          apply (lockstep_load hm).bind_eq
          intro x
          apply (lockstep_touchdbPtrOf x).bind
          intro key key' hkey
          exact lockstep_strcmpEq hkey k.chars
        · exact fun _ _ => Lockstep.pure rfl
      apply hfound.bind_eq
      intro found
      apply Lockstep.ite Iff.rfl
      · exact fun _ _ => Lockstep.pure hpq
      · intro _ _
        apply (lockstep_nextEntry hpq).bind
        exact fun _ _ hnext => ih hnext

theorem lockstep_getEntry (k : CStr) :
    Lockstep (Rebased file a b) (Shifted a b) (getEntry k) (getEntry k) := by
  unfold getEntry
  apply (lockstep_bulkFor _).bind
  intro bulk bulk' hb
  apply (lockstep_load hb).bind_eq
  intro header
  apply (lockstep_touchdbPtrOf header).bind
  exact fun _ _ h => lockstep_getEntryLoop _ k walkRounds h

theorem lockstep_storeNewVal (v : CStr) (h : Moved a b p q) :
    Lockstep (Rebased file a b) Eq (storeNewVal p v) (storeNewVal q v) := by
  unfold storeNewVal
  apply (lockstep_touchdbMalloc _).bind
  rintro ⟨x, addr⟩ ⟨y, _⟩ ⟨hxy, rfl⟩
  apply (lockstep_storeBytes hxy).bind_eq
  intro _
  exact lockstep_store (h.add _).shifted

theorem lockstep_mapPutOverwrite (v : CStr) (h : Moved a b p q) :
    Lockstep (Rebased file a b) (Shifted a b) (mapPutOverwrite p v) (mapPutOverwrite q v) := by
  have hv := h.add MapEntry.val.off
  unfold mapPutOverwrite
  apply (lockstep_load hv).bind_eq
  intro type
  have htype : Lockstep (Rebased file a b) Eq
      (if type = .str then return ()
      else store (p + MapEntry.val.off) Val.type .str)
      (if type = .str then return ()
      else store (q + MapEntry.val.off) Val.type .str) := by
    apply Lockstep.ite Iff.rfl
    · exact fun _ _ => Lockstep.pure rfl
    · exact fun _ _ => lockstep_store hv.shifted
  apply htype.bind_eq
  intro _
  apply (lockstep_storeNewVal v h).bind_eq
  intro _
  apply Lockstep.ite Iff.rfl
  · intro _ _
    apply (lockstep_load hv).bind_eq
    intro value
    apply (lockstep_touchdbFree value).bind_eq
    intro _
    apply (lockstep_load hv).bind_eq
    intro value
    exact lockstep_touchdbPtrOf value
  · exact fun _ _ => Lockstep.pure (.null a b)

theorem lockstep_linkEntry {bulk bulk' : ℕ} (addr : TouchdbAddr) (hb : Moved a b bulk bulk')
    (h : Moved a b p q) :
    Lockstep (Rebased file a b) Eq (linkEntry bulk p addr) (linkEntry bulk' q addr) := by
  unfold linkEntry
  apply (lockstep_load hb).bind_eq
  intro size
  have hlink : Lockstep (Rebased file a b) Eq
      (if size = 0 then do
        store bulk MapBulk.tail addr
        store bulk MapBulk.header addr
        store p MapEntry.prev nullAddr
      else do
        let x ← load bulk MapBulk.tail
        let tail ← touchdbPtrOf x
        store tail MapEntry.next addr
        let x ← load bulk MapBulk.tail
        store p MapEntry.prev x
        store bulk MapBulk.tail addr)
      (if size = 0 then do
        store bulk' MapBulk.tail addr
        store bulk' MapBulk.header addr
        store q MapEntry.prev nullAddr
      else do
        let x ← load bulk' MapBulk.tail
        let tail ← touchdbPtrOf x
        store tail MapEntry.next addr
        let x ← load bulk' MapBulk.tail
        store q MapEntry.prev x
        store bulk' MapBulk.tail addr) := by
    apply Lockstep.ite Iff.rfl
    · intro _ _
      apply (lockstep_store hb.shifted).bind_eq
      intro _
      apply (lockstep_store hb.shifted).bind_eq
      intro _
      exact lockstep_store h.shifted
    · intro _ _
      apply (lockstep_load hb).bind_eq
      intro x
      apply (lockstep_touchdbPtrOf x).bind
      intro tail tail' htail
      apply (lockstep_store htail).bind_eq
      intro _
      apply (lockstep_load hb).bind_eq
      intro x
      apply (lockstep_store h.shifted).bind_eq
      intro _
      exact lockstep_store hb.shifted
  apply hlink.bind_eq
  intro _
  apply (lockstep_store h.shifted).bind_eq
  intro _
  apply (lockstep_load hb).bind_eq
  intro size
  apply (lockstep_store hb.shifted).bind_eq
  intro _
  apply lockstep_assignMap
  · exact fun _ => rfl
  · exact fun _ => rfl

theorem lockstep_newEntry (h : Int32) (k v : CStr) :
    Lockstep (Rebased file a b) (fun x y => Moved a b x.1 y.1 ∧ x.2 = y.2)
      (newEntry h k v) (newEntry h k v) := by
  unfold newEntry
  apply (lockstep_touchdbMalloc _).bind
  rintro ⟨entry, addr⟩ ⟨entry', _⟩ ⟨he, rfl⟩
  have hv := he.add MapEntry.val.off
  apply (lockstep_store he.shifted).bind_eq
  intro _
  apply (lockstep_touchdbMallocAt _ _ he).bind
  intro key key' hkey
  apply (lockstep_touchdbMallocAt _ _ hv).bind
  intro val val' hval
  apply (lockstep_storeBytes hkey).bind_eq
  intro _
  apply (lockstep_storeBytes hval).bind_eq
  intro _
  apply (lockstep_store hv.shifted).bind_eq
  intro _
  exact Lockstep.pure ⟨he, rfl⟩

theorem lockstep_findEntry {bulk bulk' : ℕ} (k : CStr) (hb : Moved a b bulk bulk') :
    Lockstep (Rebased file a b) (Shifted a b) (findEntry bulk k) (findEntry bulk' k) := by
  unfold findEntry
  apply (lockstep_load hb).bind_eq
  intro size
  apply Lockstep.ite Iff.rfl
  · exact fun _ _ => lockstep_getEntry k
  · exact fun _ _ => Lockstep.pure (.null a b)

theorem lockstep_touchdbMapPut (k v : CStr) :
    Lockstep (Rebased file a b) (Shifted a b) (touchdbMapPut k v) (touchdbMapPut k v) := by
  unfold touchdbMapPut
  apply (lockstep_bulkFor _).bind
  intro bulk bulk' hb
  apply (lockstep_findEntry k hb).bind
  intro entry entry' he
  apply Lockstep.ite (not_congr he.null_iff)
  · exact fun hp _ => lockstep_mapPutOverwrite v (he.moved hp)
  · intro _ _
    apply (lockstep_newEntry _ k v).bind
    rintro ⟨x, addr⟩ ⟨y, _⟩ ⟨hxy, rfl⟩
    apply (lockstep_linkEntry addr hb hxy).bind_eq
    intro _
    exact Lockstep.pure (.null a b)

end Map

section Chain
variable {file : OnePoolFile} {a b : MapBase} {p q : ℕ}

theorem lockstep_touchdbStrDestory (h : Moved a b p q) :
    Lockstep (Rebased file a b) Eq (touchdbStrDestory p) (touchdbStrDestory q) := by
  unfold touchdbStrDestory
  apply (lockstep_load h).bind_eq
  intro value
  apply (lockstep_touchdbPtrOf value).bind
  intro s s' hs
  apply lockstep_load_bind hs
  intro _ data
  apply (lockstep_touchdbFree data).bind_eq
  intro _
  apply (lockstep_load h).bind_eq
  intro value
  exact lockstep_touchdbFree value

theorem lockstep_touchdbValDestroy (h : Moved a b p q) :
    Lockstep (Rebased file a b) Eq (touchdbValDestroy p) (touchdbValDestroy q) := by
  unfold touchdbValDestroy
  apply (lockstep_load h).bind_eq
  intro type
  apply Lockstep.ite Iff.rfl
  · exact fun _ _ => lockstep_touchdbStrDestory h
  · exact fun _ _ => Lockstep.pure rfl

theorem lockstep_touchdbChainNodeDestroy (h : Moved a b p q) :
    Lockstep (Rebased file a b) Eq (touchdbChainNodeDestroy p) (touchdbChainNodeDestroy q) := by
  unfold touchdbChainNodeDestroy
  apply Lockstep.ite (not_congr h.shifted.null_iff)
  · intro _ _
    apply (lockstep_touchdbValDestroy (h.add _)).bind_eq
    intro _
    apply (lockstep_touchdbAddrOf h).bind_eq
    intro addr
    exact lockstep_touchdbFree addr
  · exact fun _ _ => Lockstep.pure rfl

theorem lockstep_followLink (f : Field TouchdbAddr) (h : Shifted a b p q) :
    Lockstep (Rebased file a b) (Shifted a b) (followLink p f) (followLink q f) := by
  unfold followLink
  apply Lockstep.ite h.null_iff
  · exact fun _ _ => Lockstep.pure (.null a b)
  · intro hp _
    apply (lockstep_load (h.moved hp)).bind_eq
    intro x
    apply Lockstep.ite Iff.rfl
    · exact fun _ _ => Lockstep.pure (.null a b)
    · exact fun _ _ => lockstep_touchdbPtrOf x

/-- A link that a new node takes from its neighbour. -/
theorem lockstep_linkAt {p' q' : ℕ} (h : Shifted a b p' q') :
    Lockstep (Rebased file a b) Eq (linkAt p') (linkAt q') := by
  apply Lockstep.ite h.null_iff
  · exact fun _ _ => Lockstep.pure rfl
  · exact fun hp _ => lockstep_load (h.moved hp)

theorem lockstep_touchdbChainNodeNew {next next' prev prev' val val' : ℕ}
    (hn : Shifted a b next next') (hp : Shifted a b prev prev') (hv : Moved a b val val') :
    Lockstep (Rebased file a b) (fun x y => Shifted a b x.1 y.1 ∧ x.2 = y.2)
      (touchdbChainNodeNew next prev val) (touchdbChainNodeNew next' prev' val') := by
  unfold touchdbChainNodeNew chainNodeNewBy
  apply (lockstep_touchdbMalloc _).bind
  rintro ⟨n, addr⟩ ⟨n', _⟩ ⟨h, rfl⟩
  apply Lockstep.ite h.shifted.null_iff
  · exact fun _ _ => Lockstep.pure ⟨.null a b, rfl⟩
  · intro _ _
    apply (lockstep_linkAt hn).bind_eq
    intro _
    apply (lockstep_store h.shifted).bind_eq
    intro _
    apply (lockstep_linkAt hp).bind_eq
    intro _
    apply (lockstep_store h.shifted).bind_eq
    intro _
    apply (lockstep_load hv).bind_eq
    intro v
    apply (lockstep_store h.shifted).bind_eq
    intro _
    exact Lockstep.pure ⟨h.shifted, rfl⟩

theorem lockstep_touchdbChainPushTail {val val' : ℕ} (h : Moved a b p q)
    (hv : Moved a b val val') :
    Lockstep (Rebased file a b) Eq (touchdbChainPushTail p val) (touchdbChainPushTail q val') := by
  unfold touchdbChainPushTail chainPushTailBy
  apply (lockstep_touchdbChainNodeNew (.null a b) (h.add _).shifted hv).bind
  rintro ⟨n, addr⟩ ⟨n', _⟩ ⟨-, rfl⟩
  apply (lockstep_load h).bind_eq
  intro size
  have hlink : Lockstep (Rebased file a b) Eq
      (if size = 0 then do
        store p Chain.tail addr
        store p Chain.header addr
      else do
        let tail ← chainTail p
        store tail ChainNode.next addr
        store p Chain.tail addr)
      (if size = 0 then do
        store q Chain.tail addr
        store q Chain.header addr
      else do
        let tail ← chainTail q
        store tail ChainNode.next addr
        store q Chain.tail addr) := by
    apply Lockstep.ite Iff.rfl
    · intro _ _
      apply (lockstep_store h.shifted).bind_eq
      intro _
      exact lockstep_store h.shifted
    · intro _ _
      apply (lockstep_followLink Chain.tail h.shifted).bind
      intro tail tail' htail
      apply (lockstep_store htail).bind_eq
      intro _
      exact lockstep_store h.shifted
  apply hlink.bind_eq
  intro _
  apply (lockstep_load h).bind_eq
  intro size
  exact lockstep_store h.shifted

theorem lockstep_pullNode (h : Moved a b p q) :
    Lockstep (Rebased file a b) (Shifted a b) (pullNode p) (pullNode q) := by
  unfold pullNode
  apply (lockstep_touchdbMalloc _).bind
  rintro ⟨val, addr⟩ ⟨val', _⟩ ⟨hval, rfl⟩
  apply (lockstep_load h).bind_eq
  intro v
  apply (lockstep_store hval.shifted).bind_eq
  intro _
  apply (lockstep_touchdbChainNodeDestroy h).bind_eq
  intro _
  exact Lockstep.pure hval.shifted

theorem lockstep_touchdbChainPullHead (h : Moved a b p q) :
    Lockstep (Rebased file a b) (Shifted a b) (touchdbChainPullHead p)
      (touchdbChainPullHead q) := by
  unfold touchdbChainPullHead
  apply (lockstep_followLink Chain.header h.shifted).bind
  intro head head' hh
  apply Lockstep.ite hh.null_iff
  · exact fun _ _ => Lockstep.pure (.null a b)
  · intro hp _
    have hm := hh.moved hp
    apply (lockstep_load hm).bind_eq
    intro next
    apply (lockstep_store h.shifted).bind_eq
    intro _
    apply (lockstep_load h).bind_eq
    intro header
    have htail : Lockstep (Rebased file a b) Eq
        (if header.offset = NIL then store (p + Chain.tail.off) Addr.offset NIL
        else return ())
        (if header.offset = NIL then store (q + Chain.tail.off) Addr.offset NIL
        else return ()) := by
      apply Lockstep.ite Iff.rfl
      · exact fun _ _ => lockstep_store (h.add _).shifted
      · exact fun _ _ => Lockstep.pure rfl
    apply htail.bind_eq
    intro _
    apply (lockstep_load h).bind_eq
    intro size
    apply (lockstep_store h.shifted).bind_eq
    intro _
    exact lockstep_pullNode hm

end Chain

/-! Runs. -/

/-- The calls. A chain and a value are named by their offset in the pool. -/
inductive RebaseOp where
  | malloc (size : ℕ)
  | free (addr : TouchdbAddr)
  | put (k v : CStr)
  | pushTail (chain val : ℕ)
  | pullHead (chain : ℕ)

/-- What a call returns: a pointer, and the address that `touchdb_malloc` stores. -/
abbrev Reply := ℕ × Option TouchdbAddr

/-- A call in the process that maps the pool at `start`. -/
def RebaseOp.run (start : ℕ) : RebaseOp → M Reply
  | .malloc size => do
    let (p, addr) ← touchdbMalloc size
    return (p, some addr)
  | .free addr => do
    touchdbFree addr
    return (NULL, none)
  | .put k v => do
    let p ← touchdbMapPut k v
    return (p, none)
  | .pushTail chain val => do
    touchdbChainPushTail (start + chain) (start + val)
    return (NULL, none)
  | .pullHead chain => do
    let p ← touchdbChainPullHead (start + chain)
    return (p, none)

/-- Two replies: the pointers differ by the difference of the starts. -/
def SameReply (a b : MapBase) (x y : Reply) : Prop := Shifted a b x.1 y.1 ∧ x.2 = y.2

theorem RebaseOp.lockstep (file : OnePoolFile) (a b : MapBase) (op : RebaseOp) :
    Lockstep (Rebased file a b) (SameReply a b) (op.run a.ptr) (op.run b.ptr) := by
  cases op with
  | malloc size =>
    simp only [RebaseOp.run]
    apply (lockstep_touchdbMalloc size).bind
    rintro ⟨p, addr⟩ ⟨q, _⟩ ⟨h, rfl⟩
    exact Lockstep.pure ⟨h.shifted, rfl⟩
  | free addr =>
    simp only [RebaseOp.run]
    apply (lockstep_touchdbFree addr).bind_eq
    intro _
    exact Lockstep.pure ⟨.null a b, rfl⟩
  | put k v =>
    simp only [RebaseOp.run]
    apply (lockstep_touchdbMapPut k v).bind
    intro p q h
    exact Lockstep.pure ⟨h, rfl⟩
  | pushTail chain val =>
    simp only [RebaseOp.run]
    apply (lockstep_touchdbChainPushTail (.start a b chain) (.start a b val)).bind_eq
    intro _
    exact Lockstep.pure ⟨.null a b, rfl⟩
  | pullHead chain =>
    simp only [RebaseOp.run]
    apply (lockstep_touchdbChainPullHead (.start a b chain)).bind
    intro p q h
    exact Lockstep.pure ⟨h, rfl⟩

/-- After each step both processes have the same files, and the pointers returned differ by the
difference of the starts; a step that stops, stops in both. -/
theorem runs_rebased (file : OnePoolFile) (a b : MapBase) (ops : List RebaseOp) :
    List.Forall₂ (Agree (SameFiles a b) (SameReply a b))
      (Run.results (RebaseOp.run a.ptr) ops (file.mapAt a))
      (Run.results (RebaseOp.run b.ptr) ops (file.mapAt b)) := by
  have h := Run.results_lockstep (RebaseOp.lockstep file a b) ops _ _ (file.rebased a b)
  apply List.Forall₂.imp _ h
  intro x y h
  exact h.mono (fun _ _ hv => hv) fun _ _ hr => hr.toSameFiles

end TouchDb
