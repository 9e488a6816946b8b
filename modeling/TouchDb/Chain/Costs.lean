import TouchDb.Chain.Client
import TouchDb.Heap.Costs

/-! The calls on strings and chains: those that only read, and the space that the others take. -/
namespace TouchDb
open Prog Layout

theorem unseen_followLink (p : ℕ) (f : Field TouchdbAddr) : Unseen (followLink p f) :=
  .ite (fun _ => .pure _) fun _ => (unseen_load p f).bind fun x =>
    .ite (fun _ => .pure _) fun _ => unseen_touchdbPtrOf x

theorem unseen_nodeIdxLoop (idx : Int32) (rounds n : ℕ) (i : Int32) :
    Unseen (nodeIdxLoop idx rounds n i) := by
  induction rounds generalizing n i with
  | zero => exact .stop (by decide)
  | succ rounds ih =>
    unfold nodeIdxLoop
    apply Unseen.ite
    · exact fun _ => (unseen_followLink n _).bind fun next => ih next (i + 1)
    · exact fun _ => .pure _

theorem unseen_touchdbChainNodeIdx (chain : ℕ) (idx : Int32) :
    Unseen (touchdbChainNodeIdx chain idx) := by
  apply (unseen_followLink chain _).bind
  intro header
  apply (unseen_nodeIdxLoop idx _ header 0).bind
  rintro ⟨n, i⟩
  exact .ite (fun _ => .pure _) fun _ => .pure _

theorem unseen_touchdbChainSize (chain : ℕ) : Unseen (touchdbChainSize chain) := unseen_load _ _

theorem unseen_linkAt (p : ℕ) : Unseen (linkAt p) := .ite (fun _ => .pure _) fun _ => unseen_load p _

theorem unseen_readVal (p : ℕ) : Unseen (readVal p) :=
  .ite (fun _ => .pure _) fun _ => (unseen_load p _).bind fun _ => .pure _

/-! Strings. -/

theorem wp_load_supplied {α : Type} [Layout α] {p : ℕ} {f : Field α} {s : Touchdb} {Q : α → Touchdb → Prop}
    (hQ : Q (s.field p f) s) : wp supplied (load p f) Q s := by
  unfold wp load
  split_ifs
  · exact ⟨fun _ _ => trivial, hQ⟩
  · exact ⟨fun _ _ => trivial, (by decide : Stop.fault ≠ .noBlock)⟩

/-- The length that is loaded is the one that was stored. -/
theorem asks_touchdbStrNew2 (val : ℕ) {str : CStr} (h : str.Fits) :
    Asks [sizeofStr, str.strlen + 1] (touchdbStrNew2 val str) := by
  unfold CStr.Fits at h
  apply (Asks.store _ _ _).seq
  intro _
  apply Asks.bind (l := [sizeofStr]) (asks_touchdbMallocAt _ _ (by decide) (by decide))
  intro p m s hs
  refine wp_bind (wp_write rfl (wp_bind (wp_load_supplied ?_)))
  rw [field_write_same, Words.toNat_ofNat (by omega)]
  exact ((asks_touchdbMallocAt _ _ (by omega) h).last fun data =>
    (Asks.storeBytes data _).seq fun _ => .pure _) m _ (hs.of_pool rfl)

theorem asks_touchdbStrDestory (str : ℕ) : Asks [] (touchdbStrDestory str) := by
  apply (Asks.unseen (unseen_load str _)).seq
  intro value
  apply (Asks.unseen (unseen_touchdbPtrOf value)).seq
  intro s
  apply (Asks.unseen (unseen_load s _)).seq
  intro data
  apply (asks_touchdbFree data).seq
  intro _
  exact (Asks.unseen (unseen_load str _)).seq fun value => asks_touchdbFree value

theorem asks_touchdbValDestroy (val : ℕ) : Asks [] (touchdbValDestroy val) :=
  (Asks.unseen (unseen_load val _)).seq fun _ =>
    .ite (fun _ => asks_touchdbStrDestory val) fun _ => .pure _

/-! Chains. -/

theorem asks_touchdbChainNodeNew (next prev val : ℕ) :
    Asks [touchdbChainNodeSize] (touchdbChainNodeNew next prev val) := by
  apply (asks_touchdbMalloc (by decide) (by decide)).last
  rintro ⟨n, addr⟩
  apply Asks.ite
  · exact fun _ => .pure _
  · intro _
    apply (Asks.unseen (unseen_linkAt next)).seq
    intro x
    apply (Asks.store n _ x).seq
    intro _
    apply (Asks.unseen (unseen_linkAt prev)).seq
    intro y
    apply (Asks.store n _ y).seq
    intro _
    apply (Asks.unseen (unseen_load val _)).seq
    intro v
    exact (Asks.store n _ v).seq fun _ => .pure _

theorem asks_touchdbChainNodeDestroy (n : ℕ) : Asks [] (touchdbChainNodeDestroy n) := by
  apply Asks.ite
  · intro _
    apply (asks_touchdbValDestroy _).seq
    intro _
    exact (Asks.unseen (unseen_touchdbAddrOf n)).seq fun addr => asks_touchdbFree addr
  · exact fun _ => .pure _

theorem asks_touchdbChainInit (chain : ℕ) : Asks [] (touchdbChainInit chain) := .storeBytes chain _

theorem asks_touchdbChainNew (val : ℕ) : Asks [sizeofChain] (touchdbChainNew val) := by
  apply (asks_touchdbMallocAt _ _ (by decide) (by decide)).last
  intro chain
  apply (Asks.store val _ _).seq
  intro _
  exact (asks_touchdbChainInit chain).seq fun _ => .pure _

theorem asks_touchdbChainPushTail (chain val : ℕ) :
    Asks [touchdbChainNodeSize] (touchdbChainPushTail chain val) := by
  apply Asks.last (asks_touchdbChainNodeNew NULL (chain + Chain.tail.off) val)
  rintro ⟨_, addr⟩
  apply (Asks.unseen (unseen_load chain _)).seq
  intro size
  apply Asks.seq
  · apply Asks.ite
    · exact fun _ => (Asks.store chain _ addr).seq fun _ => .store chain _ addr
    · intro _
      apply (Asks.unseen (unseen_followLink chain _)).seq
      intro tail
      exact (Asks.store tail _ addr).seq fun _ => .store chain _ addr
  · exact fun _ => (Asks.unseen (unseen_load chain _)).seq fun size => .store chain _ _

theorem asks_pullNode (n : ℕ) : Asks [sizeofVal] (pullNode n) := by
  apply (asks_touchdbMalloc (by decide) (by decide)).last
  rintro ⟨val, _⟩
  apply (Asks.unseen (unseen_load n _)).seq
  intro v
  apply (Asks.store val _ v).seq
  intro _
  exact (asks_touchdbChainNodeDestroy n).seq fun _ => .pure _

theorem asks_touchdbChainPullHead (chain : ℕ) : Asks [sizeofVal] (touchdbChainPullHead chain) := by
  apply (Asks.unseen (unseen_followLink chain _)).seq
  intro head
  apply Asks.ite
  · exact fun _ => (Asks.pure NULL).of_sublist (List.nil_sublist _)
  · intro _
    apply (Asks.unseen (unseen_load head _)).seq
    intro next
    apply (Asks.store chain _ next).seq
    intro _
    apply (Asks.unseen (unseen_load chain _)).seq
    intro header
    apply Asks.seq
    · exact .ite (fun _ => .store _ _ _) fun _ => .pure _
    · intro _
      apply (Asks.unseen (unseen_load chain _)).seq
      intro size
      exact (Asks.store chain _ _).seq fun _ => asks_pullNode head

theorem asks_touchdbChainPullTail (chain : ℕ) : Asks [sizeofVal] (touchdbChainPullTail chain) := by
  apply (Asks.unseen (unseen_followLink chain _)).seq
  intro tail
  apply Asks.ite
  · exact fun _ => (Asks.pure NULL).of_sublist (List.nil_sublist _)
  · intro _
    apply (Asks.unseen (unseen_load tail _)).seq
    intro prev
    apply (Asks.store chain _ prev).seq
    intro _
    apply (Asks.unseen (unseen_load chain _)).seq
    intro tail'
    apply Asks.seq
    · exact .ite (fun _ => .store _ _ _) fun _ => .pure _
    · intro _
      apply (Asks.unseen (unseen_load chain _)).seq
      intro size
      exact (Asks.store chain _ _).seq fun _ => asks_pullNode tail

/-! Clients of chains. -/

/-- The sizes that a call asks for at most. -/
def ChainOp.sizes : ChainOp → List ℕ
  | .newChain => [sizeofChain]
  | .newStr v => [sizeofVal, sizeofStr, v.1.strlen + 1]
  | .newVal _ | .pullHead _ | .pullTail _ => [sizeofVal]
  | .alloc n => [n.bytes]
  | .push _ _ => [touchdbChainNodeSize]
  | .drop _ | .nodeIdx _ _ | .size _ => []

theorem asks_newStr {α : Type} {k : ℕ → M α} (v : Text) (hk : ∀ p, Asks [] (k p)) :
    Asks [sizeofVal, sizeofStr, v.1.strlen + 1] (do
      let (p, _) ← touchdbMalloc sizeofVal
      let _ ← touchdbStrNew2 p v.1
      k p) := by
  apply Asks.bind (l := [sizeofVal]) (asks_touchdbMalloc (by decide) (by decide))
  rintro ⟨p, _⟩
  exact (asks_touchdbStrNew2 p v.2).last fun _ => hk p

theorem ChainOp.asks (op : ChainOp) (r : ChainClient) : Asks op.sizes (op.run r) := by
  cases op with
  | newChain =>
    apply (asks_touchdbMalloc (by decide) (by decide)).last
    rintro ⟨p, _⟩
    exact (asks_touchdbChainInit p).seq fun _ => .pure _
  | newStr v => exact asks_newStr (k := fun p => pure { r with vals := r.vals ++ [p] }) v fun _ => .pure _
  | newVal w =>
    apply (asks_touchdbMalloc (by decide) (by decide)).last
    rintro ⟨p, _⟩
    exact (Asks.store p _ _).seq fun _ => .pure _
  | alloc n => exact (asks_touchdbMalloc n.pos n.le).last fun _ => .pure _
  | drop h =>
    rcases hv : r.vals[h]? with _ | v
    · simp only [ChainOp.run, hv]
      exact .pure r
    · simp only [ChainOp.run, hv]
      exact (Asks.unseen (unseen_touchdbAddrOf v)).seq fun addr =>
        (asks_touchdbFree addr).seq fun _ => .pure _
  | push c h =>
    rcases hc : r.chains[c]? with _ | p
    · simp only [ChainOp.run, hc]
      exact (Asks.pure r).of_sublist (List.nil_sublist _)
    rcases hv : r.vals[h]? with _ | v
    · simp only [ChainOp.run, hc, hv]
      exact (Asks.pure r).of_sublist (List.nil_sublist _)
    · simp only [ChainOp.run, hc, hv]
      exact (Asks.unseen (unseen_load v _)).seq fun w =>
        (asks_touchdbChainPushTail p v).last fun _ => .pure _
  | pullHead c =>
    rcases hc : r.chains[c]? with _ | p
    · simp only [ChainOp.run, hc]
      exact (Asks.pure r).of_sublist (List.nil_sublist _)
    · simp only [ChainOp.run, hc]
      exact (asks_touchdbChainPullHead p).last fun v =>
        (Asks.unseen (unseen_readVal v)).seq fun w => .pure _
  | pullTail c =>
    rcases hc : r.chains[c]? with _ | p
    · simp only [ChainOp.run, hc]
      exact (Asks.pure r).of_sublist (List.nil_sublist _)
    · simp only [ChainOp.run, hc]
      exact (asks_touchdbChainPullTail p).last fun v =>
        (Asks.unseen (unseen_readVal v)).seq fun w => .pure _
  | nodeIdx c i =>
    rcases hc : r.chains[c]? with _ | p
    · simp only [ChainOp.run, hc]
      exact .pure r
    · simp only [ChainOp.run, hc]
      exact (Asks.unseen (unseen_touchdbChainNodeIdx p _)).seq fun v =>
        (Asks.unseen (unseen_readVal v)).seq fun w => .pure _
  | size c =>
    rcases hc : r.chains[c]? with _ | p
    · simp only [ChainOp.run, hc]
      exact .pure r
    · simp only [ChainOp.run, hc]
      exact (Asks.unseen (unseen_touchdbChainSize p)).seq fun n => .pure _

/-- The space that the blocks of a run take at most, after the first byte of the pool. -/
def chainsRoom (ops : List ChainOp) : ℕ := 1 + (ops.map fun op => roomFor op.sizes).sum

/-- A run does not fail for want of a block where the pool has room for all its calls. -/
theorem runChains_supplied (f : NewFiles) (ops : List ChainOp)
    (hroom : chainsRoom ops ≤ touchdbDefaultPoolSize) :
    Run.Post (fun e => e ≠ .noBlock) (runChains f ops) fun r => Ample 0 r.2 := by
  have hw := wp_touchdbPoolInit (G := anyEvent) (s := f.db) (j := 0)
    (by simp [PoolIdxOk, NewFiles.db, Touchdb.zero, touchdbPoolListSize]) f.pos fun _ => trivial
  obtain ⟨_, s, hs, hr, hb, -, -⟩ := next_ends hw fun _ h => h
  have hA : Ample ((ops.map fun op => roomFor op.sizes).sum + 0) s := Heap.ample ⟨hr, hb⟩ hroom
  unfold runChains
  rw [hs]
  have hstep (op : ChainOp) (m : ℕ) (r : ChainRun) (hr : Ample (roomFor op.sizes + m) r.2) :
      Run.Post (fun e => e ≠ .noBlock) (ChainRun.step op r) fun r => Ample m r.2 :=
    .of_wp_run (op.asks r.1 m r.2 hr) fun _ h => h
  exact Run.exec_costs (I := fun n (r : ChainRun) => Ample n r.2) hstep ops hA

end TouchDb
