import TouchDb.Store.IndexOk
import TouchDb.Store.Processes
import TouchDb.Store.PutRuns
import TouchDb.Store.PutStrRuns
import TouchDb.Store.Reads

/-! What processes that share a store find in it: the keys and the strings that any of them has put,
also after the process that put them has left. -/
namespace TouchDb
open Prog

/-- The call that a put is. -/
def MapOp.call : MapOp → Option ApiCall
  | put k v => some (.put k.1 v.1)
  | putStr k v => some (.putStr k.1 v.1)
  | putVal _ _ => none

/-- The calls store what `puts` store, and otherwise read. -/
def Stores (calls : List ApiCall) (puts : List MapOp) : Prop :=
  List.Forall₂ (fun c op => MapOp.call op = some c) (calls.filter fun c => !c.reads) puts

section Calls
variable {calls : List ApiCall} {puts : List MapOp} {c : ApiCall} {op : MapOp} {s t : Touchdb}

theorem MapOp.call_next (h : op.call = some c) (start : ℕ) (s : Touchdb) :
    (c.run start).next s = op.step s := by
  cases op with
  | put k v =>
    obtain rfl := Option.some.inj h
    exact (next_bind_pure _ _ s).trans (next_bind_pure (touchdbPut k.1 v.1) (fun _ => ()) s).symm
  | putStr k v =>
    obtain rfl := Option.some.inj h
    exact (next_bind_pure _ _ s).trans (next_bind_pure (touchdbPutStr k.1 v.1) (fun _ => ()) s).symm
  | putVal k w => cases h

theorem exec_calls (start : ℕ) (h : List.Forall₂ (fun c op => MapOp.call op = some c) calls puts)
    (s : Touchdb) :
    Run.exec (fun c => (ApiCall.run start c).next) calls s = Run.exec MapOp.step puts s := by
  induction h generalizing s with
  | nil => rfl
  | cons hc _ ih =>
    unfold Run.exec
    rw [MapOp.call_next hc]
    rcases MapOp.step _ s with e | t
    · rfl
    · exact ih t

/-- A run of such calls ends where the run of the puts ends. -/
theorem Stores.exec (h : Stores calls puts) (start : ℕ)
    (he : (Run.history (ApiCall.run start) calls s).2 = .ok t) :
    Run.exec MapOp.step puts s = .ok t := by
  rw [← exec_calls start h s, ← Run.history_end,
    Run.history_filter (fun _ hc _ _ _ hr => ApiCall.run_reads (by simpa using hc) hr) calls he]

end Calls

section Views
variable {file : OnePoolFile} {a b : MapBase} {s t : Touchdb} {p q : ℕ} {v : CStr}

/-- A string of a file, in two processes. -/
theorem Rebased.holds (h : Rebased file a b s t) (hpq : Shifted a b p q)
    (hq : b.ptr ≤ q ∧ q + (v.strlen + 1) ≤ b.ptr + touchdbDefaultPoolSize) (ht : t.holds q v) :
    s.holds p v := by
  have hb := b.page
  have hm := hpq.resolve_left fun hc => by
    have h1 : q = 0 := hc.2
    omega
  have h1 := hm.2.2
  unfold Touchdb.holds at *
  rw [← ht]
  unfold Mem.read
  apply List.map_congr_left
  intro i hi
  have h2 := List.mem_range.mp hi
  exact (h.byte_eq (by omega) (by omega)).symm

/-- What a call returns that looks for a string. -/
theorem Rebased.finds {c : M ℕ} (h : Rebased file a b s t)
    (hc : Lockstep (Rebased file a b) (Shifted a b) c c) (hu : Unseen c) (hr : c.run t = .ok (q, t))
    (hq : b.ptr ≤ q ∧ q + (v.strlen + 1) ≤ b.ptr + touchdbDefaultPoolSize) (ht : t.holds q v) :
    ∃ p, c.run s = .ok (p, s) ∧
      (a.ptr ≤ p ∧ p + (v.strlen + 1) ≤ a.ptr + touchdbDefaultPoolSize) ∧ s.holds p v := by
  have h1 := hc s t h
  rw [hr] at h1
  generalize hx : c.run s = x at h1
  cases h1 with
  | ok hV _ =>
    obtain rfl := hu.eq hx
    exact ⟨_, rfl, hV.bounds hq, h.holds hV hq ht⟩

end Views

/-- The `n` bytes at `q` are in what the process has mapped of the data file `file`. -/
def Process.Covers (p : Process) (file : CStr) (q n : ℕ) : Prop :=
  ∃ m, (file, m) ∈ p.maps ∧ m ≤ q ∧ q + n ≤ m + touchdbDefaultPoolSize

theorem Process.MapsAt.covers {p : Process} {P : CStr} {m q n : ℕ} (h : p.MapsAt P m)
    (hq : m ≤ q ∧ q + n ≤ m + touchdbDefaultPoolSize) : p.Covers (firstPath P) q n := by
  refine ⟨m, ?_, hq⟩
  rw [h.maps]
  exact List.mem_singleton_self _

section Stored
variable {B c : ℕ} {s : Touchdb} {u : PoolAlloc} {ix : Index} {puts : List MapOp} {kvs : Puts}
  {k v : Text}

/-- What `touchdb_iter` passes to the callback, and where it is. -/
theorem StoreInv.iterates (h : StoreInv B c puts s u ix) : ∃ calls ks,
    touchdbIter.run s = .ok (calls, s) ∧ ks.Nodup ∧ (∀ k, k ∈ ks ↔ ∃ op ∈ puts, op.key = k) ∧
      List.Forall₂ (fun (call : ℕ × ℕ) (k : CStr) => (B ≤ call.1 ∧
        call.1 + (k.strlen + 1) ≤ B + touchdbDefaultPoolSize) ∧ s.holds call.1 k) calls ks := by
  obtain ⟨hh, hm, hk, -⟩ := h
  have hrun : touchdbIter.run s = .ok (ix.byBucket.map (iterCall B s), s) :=
    run_eq (G := anyEvent) (wp_touchdbMapIter hh hm (fun _ _ _ => trivial) ⟨rfl, rfl⟩) fun _ h => h
  have hperm := ix.byBucket_perm.map MapNode.key
  refine ⟨_, ix.byBucket.map MapNode.key, hrun, hperm.nodup_iff.mpr ix.keys, fun k => ?_, ?_⟩
  · rw [hperm.mem_iff, hk k]
  · rw [List.forall₂_map_left_iff, List.forall₂_map_right_iff, List.forall₂_same]
    intro e he
    have hrep := hm.entry e (Index.mem_byBucket.mp he)
    have hb := hrep.keyBlk.bounds
    refine ⟨?_, hrep.holds⟩
    change B ≤ B + e.keyBlk ∧ B + e.keyBlk + (e.key.strlen + 1) ≤ B + touchdbDefaultPoolSize
    omega

/-- The string of a key that is put once. -/
theorem PutInv.get_once (h : PutInv B kvs s u ix) (hl : kvs.last k = some v) (ho : kvs.Once k) :
    ∃ q, (touchdbGet k.1).run s = .ok (q, s) ∧
      (B ≤ q ∧ q + (v.1.strlen + 1) ≤ B + touchdbDefaultPoolSize) ∧ s.holds q v.1 := by
  obtain ⟨e, he, hek⟩ := List.mem_map.mp ((h.keys k).mpr (History.mem_keys_of_last hl))
  obtain ⟨V, hV⟩ := h.vals e he
  obtain ⟨l, hg⟩ := h.rep.get_ptr h.heap he hV.val hV.le
  obtain ⟨hown, -, hh⟩ := hV.once k v hek.symm hl ho
  have hb := hown.bounds
  exact ⟨_, run_ok (hek ▸ hg), by omega, hh⟩

theorem StrInv.get_once (h : StrInv B kvs s u ix) (hl : kvs.last k = some v) (ho : kvs.Once k) :
    ∃ q, (touchdbGetStr k.1).run s = .ok (q, s) ∧
      (B ≤ q ∧ q + (v.1.strlen + 1) ≤ B + touchdbDefaultPoolSize) ∧ s.holds q v.1 := by
  obtain ⟨E, S, D, hp⟩ := StrInv.gets h hl ho
  obtain ⟨l, hg⟩ := hp.result
  have hown := h.heap.allocated_iff.mp hp.chars_used
  have hb := hown.bounds
  have hB := h.heap.base_eq
  exact ⟨_, run_ok hg, by omega, hp.holds⟩

end Stored

section Shared
variable {ι : Type} [DecidableEq ι] {P : CStr} {g : Int32} {w u : World ι} {i j : ι} {p : Process}
  {a : ℕ} {env : Env} {rest : Mem} {datPath : Option CStr} {ops : List (WorldOp ι)}
  {puts : List MapOp} {kvs : Puts} {k v : Text}

/-- What a process has of the store when a schedule of puts and readings is over. -/
theorem processes_view (hd : w.disk.info (infoPath P) = none) (hw : ∀ i, w.procs i = none)
    (he : env.OpensAt datPath P a) (ho : ∀ op ∈ ops, op.Opens P)
    (hs : Stores (callsMade (fun _ => false) (.start i env rest datPath g :: ops)) puts)
    (hu : (Run.history WorldOp.run (.start i env rest datPath g :: ops) w).2 = .ok u)
    (hp : u.procs j = some p) :
    ∃ f : NewFiles, f.ptr = a ∧ ∃ t file b, b.ptr = a ∧ runNew f puts = .ok t ∧
      ∃ c, p.MapsAt P c.ptr ∧ Rebased file c b (⟨u.disk, p⟩ : Session).view t := by
  have hpos : 0 < a := Nat.lt_of_lt_of_le (by decide) he.page
  obtain ⟨t₀, file, alive, ht, -, h⟩ := @serving_run ι P g w i a _ env rest datPath ops hd hw he ho
  rw [hu] at h
  generalize hx : (Run.history (ApiCall.run a) _ t₀).2 = x at h
  cases h with
  | @ok _ t h =>
    obtain ⟨a', ha', hm⟩ := h.procs j p hp
    refine ⟨⟨a, hpos, (newSession w.disk rest P g a).mem⟩, rfl, t, file, ⟨a, he.page, rest⟩, rfl, ?_,
      ⟨a', ha', p.rest⟩, hm, h.files.rebased h.self hm ha'⟩
    rw [newSession_view w.disk rest P g hpos] at ht
    unfold runNew runFrom
    rw [Run.next_of_run, ht]
    exact hs.exec a hx

/-- A schedule of puts that the pool has room for does not stop. -/
theorem processes_end (hd : w.disk.info (infoPath P) = none) (hw : ∀ i, w.procs i = none)
    (he : env.OpensAt datPath P a) (ho : ∀ op ∈ ops, op.Opens P)
    (hs : List.Forall₂ (fun c op => MapOp.call op = some c)
      (callsMade (fun _ => false) (.start i env rest datPath g :: ops)) puts)
    (hr : newRoom + opsRoom puts ≤ touchdbDefaultPoolSize) :
    ∃ u, (Run.history WorldOp.run (.start i env rest datPath g :: ops) w).2 = .ok u ∧
      ∀ j, (u.procs j).isSome = ops.foldl WorldOp.move (Function.update (fun _ => false) i true) j := by
  have hpos : 0 < a := Nat.lt_of_lt_of_le (by decide) he.page
  obtain ⟨t₀, file, u, ht, hstart, h⟩ : ∃ t file u, (touchdbNew a).run (newSession w.disk rest P g a).view =
      .ok ((), t) ∧ (WorldOp.start i env rest datPath g).run.run w = .ok (none, u) ∧
      Serving file w.disk P g ⟨a, he.page, rest⟩ (Function.update (fun _ => false) i true) u t :=
    serving_new hd hw he
  obtain ⟨t, ht', -⟩ := runNew_ends ⟨a, hpos, (newSession w.disk rest P g a).mem⟩ puts hr
  have hrun : (Run.history (ApiCall.run a)
      (callsMade (fun _ => false) (.start i env rest datPath g :: ops)) t₀).2 = .ok t := by
    rw [newSession_view w.disk rest P g hpos] at ht
    unfold runNew runFrom at ht'
    rw [Run.next_of_run, ht] at ht'
    rw [Run.history_end, exec_calls a hs]
    exact ht'
  obtain ⟨-, h2⟩ := (serving_mimics file w.disk P g ⟨a, he.page, rest⟩).history ho h
  change Run.SameEnd _ _ _ (Run.history (ApiCall.run a)
    (callsMade (fun _ => false) (.start i env rest datPath g :: ops)) t₀).2 at h2
  rw [hrun] at h2
  rw [Run.history_ok ops hstart]
  generalize (Run.history WorldOp.run ops u).2 = x at h2 ⊢
  cases h2 with
  | ok h => exact ⟨_, rfl, fun j => (h.alive j).symm⟩

end Shared

/-- One process makes the store, makes the call and leaves; another one maps the store elsewhere. -/
def relay (c : ApiCall) : List (WorldOp Bool) :=
  [.start false (.willing fun _ => 2 ^ 30) (fun _ => 0) (some slashStr) 16, .call false c, .quit false,
    .start true (.willing fun _ => 2 ^ 31) (fun _ => 0) (some slashStr) 16]

section Relay
variable {c : ApiCall}

theorem relay_opens (c : ApiCall) : ∀ op ∈ (relay c).tail, op.Opens slashStr := by
  intro op hop
  simp only [relay, List.tail_cons, List.mem_cons, List.not_mem_nil, or_false] at hop
  rcases hop with rfl | rfl | rfl
  · trivial
  · trivial
  · exact ⟨2 ^ 31, willing_opensAt (by decide) (by decide)⟩

theorem relay_starts : (Env.willing fun _ => 2 ^ 30).OpensAt (some slashStr) slashStr (2 ^ 30) :=
  willing_opensAt (by decide) (by decide)

theorem relay_calls (c : ApiCall) : callsMade (fun _ => false) (relay c) = [c] := rfl

theorem relay_stores (op : MapOp) (hc : op.call = some c) :
    Stores (callsMade (fun _ => false) (relay c)) [op] := by
  have h : c.reads = false := by
    cases op with
    | put k v =>
      obtain rfl := Option.some.inj hc
      rfl
    | putStr k v =>
      obtain rfl := Option.some.inj hc
      rfl
    | putVal k w => cases hc
  unfold Stores
  rw [relay_calls, List.filter_cons_of_pos (by simp [h])]
  exact .cons hc .nil

theorem relay_end (op : MapOp) (hc : op.call = some c) (hr : newRoom + opsRoom [op] ≤ touchdbDefaultPoolSize) :
    ∃ u p, (Run.history WorldOp.run (relay c) ⟨⟨fun _ => none, fun _ => none⟩, fun _ => none⟩).2 = .ok u ∧
      u.procs true = some p := by
  have hcalls : List.Forall₂ (fun c op => MapOp.call op = some c) (callsMade (fun _ => false) (relay c))
      [op] := by
    rw [relay_calls]
    exact .cons hc .nil
  obtain ⟨u, hu, halive⟩ := @processes_end Bool _ slashStr 16
    ⟨⟨fun _ => none, fun _ => none⟩, fun _ => none⟩ false (2 ^ 30) (.willing fun _ => 2 ^ 30) (fun _ => 0)
    (some slashStr) (relay c).tail [op] rfl (fun _ => rfl) relay_starts (relay_opens c) hcalls hr
  obtain ⟨p, hp⟩ := Option.isSome_iff_exists.mp (halive true)
  exact ⟨u, p, hu, hp⟩

end Relay

section Shared
variable {ι : Type} [DecidableEq ι] {P : CStr} {g : Int32} {w u : World ι} {i j : ι} {p : Process}
  {a : ℕ} {env : Env} {rest : Mem} {datPath : Option CStr} {ops : List (WorldOp ι)}
  {puts : List MapOp} {kvs : Puts} {k v : Text}

/-- After any schedule of processes that open a store, put, read and leave, each process that runs
finds by iteration exactly the keys that were put, by whichever process, and each of them once, in what
it has mapped itself. -/
theorem processes_keys (hd : w.disk.info (infoPath P) = none) (hw : ∀ i, w.procs i = none)
    (he : env.OpensAt datPath P a) (ho : ∀ op ∈ ops, op.Opens P)
    (hs : Stores (callsMade (fun _ => false) (.start i env rest datPath g :: ops)) puts)
    (hu : (Run.history WorldOp.run (.start i env rest datPath g :: ops) w).2 = .ok u)
    (hp : u.procs j = some p) :
    ∃ calls ks, touchdbIter.run (⟨u.disk, p⟩ : Session).view = .ok (calls, (⟨u.disk, p⟩ : Session).view) ∧
      ks.Nodup ∧ (∀ k, k ∈ ks ↔ ∃ op ∈ puts, op.key = k) ∧
      List.Forall₂ (fun (call : ℕ × ℕ) k => p.Covers (firstPath P) call.1 (k.strlen + 1) ∧
        (⟨u.disk, p⟩ : Session).view.holds call.1 k) calls ks := by
  obtain ⟨f, hf, t, file, b, hb, ht, c, hm, hr⟩ := processes_view hd hw he ho hs hu hp
  obtain ⟨_, ix, hinv⟩ := (runNew_inv f puts).ok ht
  obtain ⟨calls, ks, hrun, hnd, hks, hh⟩ := hinv.iterates
  have hl : Lockstep (Rebased file c b) (List.Forall₂ (ShiftedPair c b)) touchdbMapIter touchdbMapIter :=
    lockstep_touchdbMapIter
  have h1 := hl _ _ hr
  change Agree _ _ (touchdbIter.run _) (touchdbIter.run t) at h1
  rw [hrun] at h1
  generalize hx : touchdbIter.run (⟨u.disk, p⟩ : Session).view = x at h1
  cases h1 with
  | @ok calls' _ s' _ hV _ =>
    have hself : s' = (⟨u.disk, p⟩ : Session).view := unseen_touchdbMapIter.eq hx
    refine ⟨calls', ks, by rw [hself], hnd, hks, ?_⟩
    rw [List.forall₂_iff_get] at hh hV ⊢
    refine ⟨hV.1.trans hh.1, fun n h1 h2 => ?_⟩
    have hn := hV.1 ▸ h1
    obtain ⟨hbounds, hholds⟩ := hh.2 n hn h2
    rw [hf, ← hb] at hbounds
    have hshift := (hV.2 n h1 hn).1
    exact ⟨hm.covers (hshift.bounds hbounds), hr.holds hshift hbounds hholds⟩

/-- The second process finds the key of the first one. -/
theorem processes_keys_relay : ∃ (x : Session) (calls : List (ℕ × ℕ)) (ks : List CStr),
    touchdbIter.run x.view = .ok (calls, x.view) ∧ ks.Nodup ∧
      (∀ k, k ∈ ks ↔ ∃ op ∈ [MapOp.put (text 1 97) (text 1 120)], op.key = k) ∧
      List.Forall₂ (fun (call : ℕ × ℕ) k => x.proc.Covers (firstPath slashStr) call.1 (k.strlen + 1) ∧
        x.view.holds call.1 k) calls ks := by
  obtain ⟨u, p, hu, hp⟩ := relay_end (.put (text 1 97) (text 1 120)) rfl (by decide)
  have hs := relay_stores (.put (text 1 97) (text 1 120)) rfl
  obtain ⟨calls, ks, h⟩ := processes_keys rfl (fun _ => rfl) relay_starts (relay_opens _) hs hu hp
  exact ⟨_, calls, ks, h⟩

/-- What a process has put is what every process gets, wherever each of them maps the store, and also
when the one that put it has left: for a key that is put once. -/
theorem processes_get (hd : w.disk.info (infoPath P) = none) (hw : ∀ i, w.procs i = none)
    (he : env.OpensAt datPath P a) (ho : ∀ op ∈ ops, op.Opens P)
    (hs : Stores (callsMade (fun _ => false) (.start i env rest datPath g :: ops))
      (kvs.map fun x => .put x.1 x.2))
    (hu : (Run.history WorldOp.run (.start i env rest datPath g :: ops) w).2 = .ok u)
    (hp : u.procs j = some p) (hl : kvs.last k = some v) (hk : kvs.Once k) :
    ∃ q, (touchdbGet k.1).run (⟨u.disk, p⟩ : Session).view = .ok (q, (⟨u.disk, p⟩ : Session).view) ∧
      p.Covers (firstPath P) q (v.1.strlen + 1) ∧ (⟨u.disk, p⟩ : Session).view.holds q v.1 := by
  obtain ⟨f, hf, t, file, b, hb, ht, c, hm, hr⟩ := processes_view hd hw he ho hs hu hp
  obtain ⟨_, ix, hinv⟩ := (runPuts_inv f kvs).ok ht
  obtain ⟨q, hq, hbounds, hholds⟩ := PutInv.get_once hinv hl hk
  rw [hf, ← hb] at hbounds
  obtain ⟨q', hq', hbounds', hh⟩ :=
    hr.finds (lockstep_touchdbMapGet k.1) (unseen_touchdbMapGet k.1) hq hbounds hholds
  exact ⟨q', hq', hm.covers hbounds', hh⟩

/-- The second process gets what the first one has put. -/
theorem processes_get_relay : ∃ (x : Session) (q : ℕ),
    (touchdbGet (text 1 97).1).run x.view = .ok (q, x.view) ∧
      x.proc.Covers (firstPath slashStr) q 2 ∧ x.view.holds q (text 1 120).1 := by
  obtain ⟨u, p, hu, hp⟩ := relay_end (.put (text 1 97) (text 1 120)) rfl (by decide)
  have hs : Stores (callsMade (fun _ => false) (relay (.put (text 1 97).1 (text 1 120).1)))
      ([(text 1 97, text 1 120)].map fun x => .put x.1 x.2) :=
    relay_stores (.put (text 1 97) (text 1 120)) rfl
  obtain ⟨q, hq⟩ := processes_get (k := text 1 97) (v := text 1 120) rfl (fun _ => rfl) relay_starts
    (relay_opens _) hs hu hp (by decide) (by decide)
  exact ⟨_, q, hq⟩

/-- The same of strings that are put by `touchdb_put_str`. -/
theorem processes_getStr (hd : w.disk.info (infoPath P) = none) (hw : ∀ i, w.procs i = none)
    (he : env.OpensAt datPath P a) (ho : ∀ op ∈ ops, op.Opens P)
    (hs : Stores (callsMade (fun _ => false) (.start i env rest datPath g :: ops))
      (kvs.map fun x => .putStr x.1 x.2))
    (hu : (Run.history WorldOp.run (.start i env rest datPath g :: ops) w).2 = .ok u)
    (hp : u.procs j = some p) (hl : kvs.last k = some v) (hk : kvs.Once k) :
    ∃ q, (touchdbGetStr k.1).run (⟨u.disk, p⟩ : Session).view = .ok (q, (⟨u.disk, p⟩ : Session).view) ∧
      p.Covers (firstPath P) q (v.1.strlen + 1) ∧ (⟨u.disk, p⟩ : Session).view.holds q v.1 := by
  obtain ⟨f, hf, t, file, b, hb, ht, c, hm, hr⟩ := processes_view hd hw he ho hs hu hp
  obtain ⟨_, ix, hinv⟩ := (runPutStrs_inv f kvs).ok ht
  obtain ⟨q, hq, hbounds, hholds⟩ := StrInv.get_once hinv hl hk
  rw [hf, ← hb] at hbounds
  obtain ⟨q', hq', hbounds', hh⟩ :=
    hr.finds (lockstep_touchdbGetStr k.1) (unseen_touchdbGetStr k.1) hq hbounds hholds
  exact ⟨q', hq', hm.covers hbounds', hh⟩

theorem processes_getStr_relay : ∃ (x : Session) (q : ℕ),
    (touchdbGetStr (text 1 97).1).run x.view = .ok (q, x.view) ∧
      x.proc.Covers (firstPath slashStr) q 2 ∧ x.view.holds q (text 1 120).1 := by
  obtain ⟨u, p, hu, hp⟩ := relay_end (.putStr (text 1 97) (text 1 120)) rfl (by decide)
  have hs : Stores (callsMade (fun _ => false) (relay (.putStr (text 1 97).1 (text 1 120).1)))
      ([(text 1 97, text 1 120)].map fun x => .putStr x.1 x.2) :=
    relay_stores (.putStr (text 1 97) (text 1 120)) rfl
  obtain ⟨q, hq⟩ := processes_getStr (k := text 1 97) (v := text 1 120) rfl (fun _ => rfl) relay_starts
    (relay_opens _) hs hu hp (by decide) (by decide)
  exact ⟨_, q, hq⟩

end Shared

end TouchDb
