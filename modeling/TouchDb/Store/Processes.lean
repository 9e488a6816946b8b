import TouchDb.Core.Stutter
import TouchDb.Map.Preserved
import TouchDb.Store.Open
import TouchDb.Store.Relocate

/-! Processes that share the files of a store: they open it, call it and leave, in any order. -/
namespace TouchDb
open Prog

variable {ι : Type}

/-- The files, and the processes that run. -/
structure World (ι : Type) where
  disk : Disk
  procs : ι → Option Process

/-- What process `i` does, which is `p` before. -/
def inProcess {α : Type} [DecidableEq ι] (i : ι) (p : Process) (c : NewM α) :
    Prog NewStop Event (World ι) α := fun w =>
  match c ⟨w.disk, p⟩ with
  | .error e => .error e
  | .ok (a, x, l) => .ok (a, ⟨x.disk, Function.update w.procs i (some x.proc)⟩, l)

/-- A process starts and opens the store, makes a call, or leaves. -/
inductive WorldOp (ι : Type) where
  | start (i : ι) (env : Env) (rest : Mem) (datPath : Option CStr) (lockGranularity : Int32)
  | call (i : ι) (c : ApiCall)
  | quit (i : ι)

/-- What a step does to the files and the processes. A process that does not run makes no call. -/
def WorldOp.run [DecidableEq ι] : WorldOp ι → Prog NewStop Event (World ι) (Option Answer)
  | .start i env rest datPath g => inProcess i (.fresh rest) do
    touchdbOpen env datPath g .map
    return none
  | .call i c => fun w =>
    match w.procs i with
    | none => .ok (none, w, [])
    | some p => inProcess i p (do
      let a ← onStore (c.run (p.shmInfo 0).start)
      return some a) w
  | .quit i => do
    .update (fun w => { w with procs := Function.update w.procs i none }) fun _ => []
    return none

/-- Which processes run after a step. -/
def WorldOp.move [DecidableEq ι] (alive : ι → Bool) : WorldOp ι → ι → Bool
  | .start i .. => Function.update alive i true
  | .call .. => alive
  | .quit i => Function.update alive i false

/-- The call that a step makes. -/
def WorldOp.seen (alive : ι → Bool) : WorldOp ι → Option ApiCall
  | .call i c => if alive i then some c else none
  | _ => none

/-- The calls that a schedule makes, in order. -/
def callsMade [DecidableEq ι] (alive : ι → Bool) (ops : List (WorldOp ι)) : List ApiCall :=
  Run.trail WorldOp.move WorldOp.seen alive ops

/-- The system leads a process to the store at `P`, and maps its one data file at `p`. -/
structure Env.OpensAt (env : Env) (datPath : Option CStr) (P : CStr) (p : ℕ) : Prop where
  page : 4096 ≤ p
  path : makeSureDir env.toSys (dataPath datPath) = .ok P
  fits : (infoPath P).strlen + 1 ≤ pathSize
  mapsInfo : ∃ q, env.Maps (infoPath P) q
  dataFits : (firstPath P).strlen + 1 ≤ pathSize
  mapsData : env.Maps (firstPath P) p

/-- A process that starts opens the store at `P`. -/
def WorldOp.Opens (P : CStr) : WorldOp ι → Prop
  | .start _ env _ datPath _ => ∃ p, env.OpensAt datPath P p
  | _ => True

theorem Env.OpensAt.leads {env : Env} {datPath : Option CStr} {P : CStr} {p : ℕ} {info : InfoFile}
    (h : env.OpensAt datPath P p) (hf : info.shmFile 0 = firstFile) :
    env.Leads datPath P info 1 fun _ => p where
  path := h.path
  fits := h.fits
  mapsInfo := h.mapsInfo
  dataFits i hi := by
    obtain rfl : i = 0 := by omega
    unfold dataFile
    rw [hf]
    exact h.dataFits
  mapsData i hi := by
    obtain rfl : i = 0 := by omega
    unfold dataFile
    rw [hf]
    exact h.mapsData
  files i hi k hk hne := absurd (by omega) hne
  apart i hi k hk hne := absurd (by omega) hne

/-- The process has the info file of the store at `P` and its one data file, mapped at `a`. -/
structure Process.MapsAt (p : Process) (P : CStr) (a : ℕ) : Prop where
  db : p.db = infoPath P
  maps : p.maps = [(firstPath P, a)]
  shm : p.shmInfo = Function.update (fun _ => ⟨0, 0⟩) 0 ⟨a, a + touchdbDefaultPoolSize⟩

/-- The files are those of `t`, which maps the data file at `b`; no other file is changed. -/
structure FilesHold (d₀ : Disk) (P : CStr) (g : Int32) (b : ℕ) (d : Disk) (t : Touchdb) : Prop where
  info : d.info = Function.update d₀.info (infoPath P)
    (some { InfoFile.new P g with map := t.map, poolList := t.poolList })
  bytes : ∀ i < touchdbDefaultPoolSize, d.bytes (firstPath P) i = t.mem (b + i)
  others : ∀ f, f ≠ firstPath P → d.data f = d₀.data f

/-- The processes serve the store that one process has as `t`. -/
structure Serving (file : OnePoolFile) (d₀ : Disk) (P : CStr) (g : Int32) (b : MapBase)
    (alive : ι → Bool) (w : World ι) (t : Touchdb) : Prop where
  self : Rebased file b b t t
  files : FilesHold d₀ P g b.ptr w.disk t
  alive : ∀ i, alive i = (w.procs i).isSome
  procs : ∀ i p, w.procs i = some p → ∃ a, 4096 ≤ a ∧ p.MapsAt P a

section Runs
variable [DecidableEq ι] {i : ι} {p : Process} {w : World ι} {α : Type}

theorem run_onStore (c : M α) (x : Session) : (onStore c).run x = match c.run x.view with
    | .error e => .error (.stop e)
    | .ok (a, t) => .ok (a, x.save t) := by
  unfold Prog.run onStore
  rcases c x.view with e | ⟨a, t, l⟩ <;> rfl

theorem run_inProcess (c : NewM α) : (inProcess i p c).run w = match c.run ⟨w.disk, p⟩ with
    | .error e => .error e
    | .ok (a, x) => .ok (a, ⟨x.disk, Function.update w.procs i (some x.proc)⟩) := by
  unfold Prog.run inProcess
  rcases c ⟨w.disk, p⟩ with e | ⟨a, x, l⟩ <;> rfl

/-- A call of a process that runs. -/
theorem run_call (c : ApiCall) (hi : w.procs i = some p) : (WorldOp.call i c).run.run w =
    match (c.run (p.shmInfo 0).start).run (⟨w.disk, p⟩ : Session).view with
    | .error e => .error (.stop e)
    | .ok (a, s) => .ok (some a, ⟨((⟨w.disk, p⟩ : Session).save s).disk,
        Function.update w.procs i (some ((⟨w.disk, p⟩ : Session).save s).proc)⟩) := by
  have h : (WorldOp.call i c).run.run w = (inProcess i p (do
      let a ← onStore (c.run (p.shmInfo 0).start)
      return some a)).run w := by
    unfold Prog.run
    dsimp only [WorldOp.run]
    rw [hi]
  rw [h, run_inProcess, run_bind, run_onStore]
  rcases (c.run (p.shmInfo 0).start).run (⟨w.disk, p⟩ : Session).view with e | ⟨a, s⟩ <;> rfl

end Runs

section Serving
variable {file : OnePoolFile} {d₀ : Disk} {P : CStr} {g : Int32} {b : MapBase} {alive : ι → Bool}
  {w : World ι} {t t' : Touchdb} {i : ι} {p : Process} {a : ℕ} {d : Disk}

theorem Process.MapsAt.apart (h : p.MapsAt P a) : p.Apart := by
  unfold Process.Apart
  rw [h.maps]
  exact List.pairwise_singleton _ _

theorem Process.MapsAt.mem_maps (h : p.MapsAt P a) : (firstPath P, a) ∈ p.maps := by
  rw [h.maps]
  exact List.mem_singleton.mpr rfl

theorem FilesHold.session_info (hd : FilesHold d₀ P g b.ptr d t) (h : p.MapsAt P a) :
    (⟨d, p⟩ : Session).info = { InfoFile.new P g with map := t.map, poolList := t.poolList } := by
  show (d.info p.db).getD _ = _
  rw [h.db, hd.info, Function.update_self]
  rfl

/-- What a process has of the store, against what the one process has. -/
theorem FilesHold.rebased (hs : Rebased file b b t t) (hd : FilesHold d₀ P g b.ptr d t) (h : p.MapsAt P a)
    (ha : 4096 ≤ a) : Rebased file ⟨a, ha, p.rest⟩ b (⟨d, p⟩ : Session).view t := by
  have hinfo := hd.session_info h
  have hmap : (⟨d, p⟩ : Session).view.map = t.map := congrArg InfoFile.map hinfo
  have hpools : (⟨d, p⟩ : Session).view.poolList = t.poolList := congrArg InfoFile.poolList hinfo
  constructor
  case toSameFiles =>
    refine ⟨hmap.symm, hpools.symm, fun i hi => ?_⟩
    exact (hd.bytes i hi).symm.trans (Session.mem_mapped (x := ⟨d, p⟩) h.apart h.mem_maps hi).symm
  case shm_left => exact h.shm
  case shm_right => exact hs.shm_right
  case idx => exact fun j => hpools ▸ hs.idx j
  case size => exact fun j => hpools ▸ hs.size j
  case bulkList => exact hmap ▸ hs.bulkList
  case count => exact hmap ▸ hs.count

/-- The files after a call. -/
theorem FilesHold.save {s : Touchdb} {ha : 4096 ≤ a} (hd : FilesHold d₀ P g b.ptr d t) (h : p.MapsAt P a)
    (hr : Rebased file ⟨a, ha, p.rest⟩ b s t') :
    FilesHold d₀ P g b.ptr ((⟨d, p⟩ : Session).save s).disk t' where
  info := by
    have hinfo := hd.session_info h
    show Function.update d.info p.db (some { (⟨d, p⟩ : Session).info with map := s.map, poolList := s.poolList }) = _
    rw [hinfo, hd.info, h.db, Function.update_idem, hr.map, hr.poolList]
  bytes i hi := by
    rw [Session.save_bytes (x := ⟨d, p⟩) h.apart h.mem_maps hi]
    exact (hr.bytes i hi).symm
  others f hf := by
    rw [← hd.others f hf]
    apply Session.save_data_of_unmapped
    intro m hm
    rw [h.maps, List.mem_singleton] at hm
    subst hm
    exact hf.symm

theorem Process.MapsAt.save {x : Session} {s : Touchdb} (h : x.proc.MapsAt P a)
    (hs : s.shmInfo = Function.update (fun _ => ⟨0, 0⟩) 0 ⟨a, a + touchdbDefaultPoolSize⟩) :
    (x.save s).proc.MapsAt P a := ⟨h.db, h.maps, hs⟩

/-- The processes after one of them has made a step. -/
theorem Serving.update [DecidableEq ι] (h : Serving file d₀ P g b alive w t)
    (hs : Rebased file b b t' t') {x : Session} (hf : FilesHold d₀ P g b.ptr x.disk t')
    (ha : 4096 ≤ a) (hp : x.proc.MapsAt P a) :
    Serving file d₀ P g b (Function.update alive i true)
      ⟨x.disk, Function.update w.procs i (some x.proc)⟩ t' where
  self := hs
  files := hf
  alive j := by
    by_cases hj : j = i
    · subst hj
      simp
    · simpa [hj] using h.alive j
  procs j p hj := by
    by_cases hji : j = i
    · subst hji
      simp only [Function.update_self, Option.some.injEq] at hj
      exact ⟨a, ha, hj ▸ hp⟩
    · simp only [Function.update_of_ne hji] at hj
      exact h.procs j p hj

theorem Serving.call [DecidableEq ι] (h : Serving file d₀ P g b alive w t) (c : ApiCall)
    (hi : w.procs i = some p) : Run.SameStep NewStop.stop (Serving file d₀ P g b alive)
      ((WorldOp.call i c).run.run w) ((c.run b.ptr).run t) := by
  obtain ⟨a, ha, hp⟩ := h.procs i p hi
  have hstart : (p.shmInfo 0).start = a := by
    rw [hp.shm, Function.update_self]
  have h1 := ApiCall.lockstep file ⟨a, ha, p.rest⟩ b c _ _ (h.files.rebased h.self hp ha)
  have h2 := ApiCall.lockstep file b b c _ _ h.self
  rw [run_call c hi, hstart]
  change Agree _ _ ((c.run a).run _) _ at h1
  generalize (c.run a).run (⟨w.disk, p⟩ : Session).view = x at h1 ⊢
  generalize (c.run b.ptr).run t = y at h1 h2 ⊢
  cases h1 with
  | error e => exact .error e
  | @ok v _ s t' hV hR =>
    subst hV
    have hself : Rebased file b b t' t' := by
      cases h2 with
      | ok _ hR => exact hR
    have halive : alive = Function.update alive i true := by
      rw [eq_comm, Function.update_eq_self_iff, h.alive i, hi]
      rfl
    rw [halive]
    exact .ok v (h.update hself (h.files.save hp hR) ha (Process.MapsAt.save hp hR.shm_left))

/-- A process that starts loads the store. -/
theorem Serving.start [DecidableEq ι] (h : Serving file d₀ P g b alive w t) {env : Env} {rest : Mem}
    {datPath : Option CStr} {g' : Int32} (he : env.OpensAt datPath P a) :
    ∃ u, (WorldOp.start i env rest datPath g').run.run w = .ok (none, u) ∧
      Serving file d₀ P g b (Function.update alive i true) u t := by
  have hd : w.disk.info (infoPath P) =
      some { InfoFile.new P g with map := t.map, poolList := t.poolList } := by
    rw [h.files.info, Function.update_self]
  have hn : ({ InfoFile.new P g with map := t.map, poolList := t.poolList } : InfoFile).Names 1 := by
    constructor
    case lt => decide
    case magic => rfl
    case named =>
      intro k hk
      obtain rfl : k = 0 := by omega
      exact (by decide : firstFile.first ≠ 0)
    case last => rfl
    case idx =>
      intro k hk
      obtain rfl : k = 0 := by omega
      exact h.self.idx 0
  have hw : wp ends (touchdbOpen env datPath g' .map)
      (fun _ => LoadedTo w.disk rest P { InfoFile.new P g with map := t.map, poolList := t.poolList }
        (fun _ => a) 1) ⟨w.disk, .fresh rest⟩ := wp_touchdbOpen_load hd hn (he.leads rfl) fun _ hy => hy
  obtain ⟨_, x, l, hx, -, hl⟩ := wp_ends hw fun _ h => h
  have hrun : (WorldOp.start i env rest datPath g').run.run w =
      .ok (none, ⟨x.disk, Function.update w.procs i (some x.proc)⟩) := by
    dsimp only [WorldOp.run]
    rw [run_inProcess, run_bind, run_ok hx]
    rfl
  refine ⟨_, hrun, h.update h.self ⟨?_, ?_, ?_⟩ he.page ⟨hl.db, hl.maps, ?_⟩⟩
  · rw [hl.infos, h.files.info, Function.update_idem]
    rfl
  · exact fun k hk => (congrFun (hl.bytes (firstPath P)) k).trans (h.files.bytes k hk)
  · intro f hf
    refine (hl.others f fun k hk => ?_).trans (h.files.others f hf)
    obtain rfl : k = 0 := by omega
    exact hf
  · funext k
    rw [hl.shm k]
    by_cases hk : k = 0
    · subst hk
      rw [if_pos Nat.one_pos, Function.update_self]
    · rw [if_neg (by omega), Function.update_of_ne hk]

theorem Serving.quit [DecidableEq ι] (h : Serving file d₀ P g b alive w t) (i : ι) :
    Serving file d₀ P g b (Function.update alive i false)
      { w with procs := Function.update w.procs i none } t where
  self := h.self
  files := h.files
  alive j := by
    by_cases hj : j = i
    · subst hj
      simp
    · simpa [hj] using h.alive j
  procs j p hj := by
    by_cases hji : j = i
    · subst hji
      simp at hj
    · simp only [Function.update_of_ne hji] at hj
      exact h.procs j p hj

/-- The processes together do what one process does that makes all the calls. -/
theorem serving_mimics [DecidableEq ι] (file : OnePoolFile) (d₀ : Disk) (P : CStr) (g : Int32)
    (b : MapBase) : Run.Mimics NewStop.stop (WorldOp.Opens (ι := ι) P) WorldOp.move WorldOp.seen
      (Serving file d₀ P g b) WorldOp.run (ApiCall.run b.ptr) where
  idle alive op w t hop h hs := by
    cases op with
    | start i env rest datPath g' =>
      obtain ⟨a, he⟩ := hop
      exact h.start he
    | call i c =>
      have hi : alive i = false := by simpa [WorldOp.seen] using hs
      rw [h.alive i, Option.isSome_eq_false_iff, Option.isNone_iff_eq_none] at hi
      refine ⟨w, ?_, h⟩
      unfold Prog.run
      dsimp only [WorldOp.run]
      rw [hi]
    | quit i => exact ⟨_, rfl, h.quit i⟩
  same alive op c w t hop h hs := by
    cases op with
    | start i env rest datPath g' => cases hs
    | call i c' =>
      by_cases hi : alive i = true
      · have hc : c' = c := by simpa [WorldOp.seen, hi] using hs
        subst hc
        rw [h.alive i, Option.isSome_iff_exists] at hi
        obtain ⟨p, hp⟩ := hi
        exact h.call c' hp
      · simp [WorldOp.seen, hi] at hs
    | quit i => cases hs

theorem touchdbNew_samePools {s : Touchdb} (hs : s.poolList = InfoFile.zero.poolList)
    (h : (touchdbNew a).run s = .ok ((), t)) :
    SamePools (s.setShmInfo 0 ⟨a, a + touchdbDefaultPoolSize⟩) t := by
  obtain ⟨u, hu, ht⟩ := touchdbNew_parts hs h
  have hr : mapShm 0 a s = .ok ((), s.setShmInfo 0 ⟨a, a + touchdbDefaultPoolSize⟩, []) := by
    unfold mapShm
    rw [hs]
    rfl
  unfold touchdbPoolInit at hu
  rw [run_bind, run_ok hr] at hu
  apply (keepsPools_touchdbMapInit 1000 _).run _ ht
  have hset {g : TouchdbPool → TouchdbPool} (hg : ∀ pool, (g pool).idx = pool.idx) :
      Preserves ⟨fun _ => True, fun _ => True⟩ (SamePools (s.setShmInfo 0 ⟨a, a + touchdbDefaultPoolSize⟩))
        (assign fun s => s.setPool 0 g) := KeepsPools.setPool hg _
  refine Preserves.run (G := ⟨fun _ => True, fun _ => True⟩) ?_ ⟨rfl, fun _ => rfl⟩ hu
  rw [if_neg Bool.false_ne_true]
  apply Preserves.bind
  · exact hset fun _ => rfl
  intro _
  apply Preserves.bind
  · exact hset fun _ => rfl
  intro _
  apply Preserves.bind
  · exact hset fun _ => rfl
  · exact fun _ => hset fun _ => rfl

/-- The processes serve the store that the first of them has made. -/
theorem serving_new [DecidableEq ι] {env : Env} {rest : Mem} {datPath : Option CStr}
    (hd : w.disk.info (infoPath P) = none) (hw : ∀ i, w.procs i = none)
    (he : env.OpensAt datPath P a) :
    ∃ t file u, (touchdbNew a).run (newSession w.disk rest P g a).view = .ok ((), t) ∧
      (WorldOp.start i env rest datPath g).run.run w = .ok (none, u) ∧
      Serving file w.disk P g ⟨a, he.page, rest⟩ (Function.update (fun _ => false) i true) u t := by
  have hpos : 0 < a := Nat.lt_of_lt_of_le (by decide) he.page
  have hq : wp ends (touchdbOpen env datPath g .map) (fun _ y => ∃ t, (touchdbNew a).run
      (newSession w.disk rest P g a).view = .ok ((), t) ∧ y = (newSession w.disk rest P g a).save t)
      ⟨w.disk, .fresh rest⟩ := wp_touchdbOpen_create hd (he.leads rfl) fun t ht => ⟨t, ht, rfl⟩
  obtain ⟨_, x, l, hx, -, t, ht, rfl⟩ := wp_ends hq fun _ h => h
  have hrun : (WorldOp.start i env rest datPath g).run.run w =
      .ok (none, ⟨((newSession w.disk rest P g a).save t).disk,
        Function.update w.procs i (some ((newSession w.disk rest P g a).save t).proc)⟩) := by
    dsimp only [WorldOp.run]
    rw [run_inProcess, run_bind, run_ok hx]
    rfl
  have hview := newSession_view w.disk rest P g hpos
  obtain ⟨c, ix, hh, hm⟩ : ∃ c ix, Heap a t c ∧ MapRep a t c ix := by
    rw [hview] at ht
    have hroom : freshAlloc.cur + roomFor [2 ^ 10 * sizeofMapBulk] ≤ touchdbDefaultPoolSize := by
      decide
    exact wp_run (wp_touchdbNew (G := anyEvent)
      (f := ⟨a, hpos, (newSession w.disk rest P g a).mem⟩) (Q := fun _ u => ∃ c ix, Heap a u c ∧ MapRep a u c ix)
      (fun _ => trivial) (.of_room hroom) fun tbl c u _ hu hm => ⟨c, _, hu, hm⟩) ht
  have hsame : SamePools ((newSession w.disk rest P g a).view.setShmInfo 0
      ⟨a, a + touchdbDefaultPoolSize⟩) t := touchdbNew_samePools (by rw [hview]; rfl) ht
  have hidx (j : ℕ) : (t.poolList j).idx = 0 := (hsame.idx j).trans (by rw [hview]; rfl)
  have hmaps : (firstPath P, a) ∈ (newSession w.disk rest P g a).proc.maps := List.mem_singleton.mpr rfl
  refine ⟨t, .ofStore hh hm hidx, _, ht, hrun, ?_, ⟨?_, ?_, ?_⟩, ?_, ?_⟩
  · exact ⟨⟨rfl, rfl, fun _ _ => rfl⟩, hsame.shmInfo, hsame.shmInfo, hidx, fun _ => rfl, rfl, rfl⟩
  · show Function.update (Function.update w.disk.info (infoPath P) _) (infoPath P) _ = _
    rw [Function.update_idem, newSession_info]
  · exact fun k hk => Session.save_bytes (newSession_apart w.disk rest P g a) hmaps hk
  · intro f hf
    rw [Session.save_data_of_unmapped]
    · exact Function.update_of_ne hf _ _
    · intro m hm
      rw [List.mem_singleton.mp hm]
      exact hf.symm
  · intro j
    by_cases hj : j = i
    · subst hj
      simp
    · simp [hj, hw j]
  · intro j p hj
    by_cases hji : j = i
    · subst hji
      simp only [Function.update_self, Option.some.injEq] at hj
      exact ⟨a, he.page, hj ▸ ⟨rfl, rfl, hsame.shmInfo⟩⟩
    · simp [hji, hw j] at hj

/-- A schedule that begins with the process that makes the store. -/
theorem serving_run [DecidableEq ι] {env : Env} {rest : Mem} {datPath : Option CStr}
    {ops : List (WorldOp ι)} (hd : w.disk.info (infoPath P) = none) (hw : ∀ i, w.procs i = none)
    (he : env.OpensAt datPath P a) (ho : ∀ op ∈ ops, op.Opens P) :
    ∃ t file alive, (touchdbNew a).run (newSession w.disk rest P g a).view = .ok ((), t) ∧
      (Run.history WorldOp.run (.start i env rest datPath g :: ops) w).1.reduceOption =
        (Run.history (ApiCall.run a)
          (callsMade (fun _ => false) (.start i env rest datPath g :: ops)) t).1 ∧
      Run.SameEnd NewStop.stop (Serving file w.disk P g ⟨a, he.page, rest⟩ alive)
        (Run.history WorldOp.run (.start i env rest datPath g :: ops) w).2
        (Run.history (ApiCall.run a)
          (callsMade (fun _ => false) (.start i env rest datPath g :: ops)) t).2 := by
  obtain ⟨t, file, u, ht, hu, h⟩ : ∃ t file u, (touchdbNew a).run (newSession w.disk rest P g a).view =
      .ok ((), t) ∧ (WorldOp.start i env rest datPath g).run.run w = .ok (none, u) ∧
      Serving file w.disk P g ⟨a, he.page, rest⟩ (Function.update (fun _ => false) i true) u t :=
    serving_new hd hw he
  obtain ⟨h1, h2⟩ := (serving_mimics file w.disk P g ⟨a, he.page, rest⟩).history ho h
  refine ⟨t, file, ops.foldl WorldOp.move (Function.update (fun _ => false) i true), ht, ?_, ?_⟩
  · rw [Run.history_ok ops hu]
    exact h1
  · rw [Run.history_ok ops hu]
    exact h2

/-- Processes that open a store, make whole calls and leave, in any order, get the answers that one
process gets which makes all the calls, and leave the files that it leaves; a call that stops, stops
there too. The store is the one that the first of them makes, wherever each maps it. -/
theorem processes_serial [DecidableEq ι] {env : Env} {rest : Mem} {datPath : Option CStr}
    {ops : List (WorldOp ι)} (hd : w.disk.info (infoPath P) = none) (hw : ∀ i, w.procs i = none)
    (he : env.OpensAt datPath P a) (ho : ∀ op ∈ ops, op.Opens P) :
    ∃ t, (touchdbNew a).run (newSession w.disk rest P g a).view = .ok ((), t) ∧
      (Run.history WorldOp.run (.start i env rest datPath g :: ops) w).1.reduceOption =
        (Run.history (ApiCall.run a)
          (callsMade (fun _ => false) (.start i env rest datPath g :: ops)) t).1 ∧
      Run.SameEnd NewStop.stop (fun u t => FilesHold w.disk P g a u.disk t)
        (Run.history WorldOp.run (.start i env rest datPath g :: ops) w).2
        (Run.history (ApiCall.run a)
          (callsMade (fun _ => false) (.start i env rest datPath g :: ops)) t).2 := by
  obtain ⟨t, file, alive, ht, h1, h2⟩ := serving_run (i := i) (g := g) hd hw he ho
  exact ⟨t, ht, h1, h2.mono fun _ _ h => h.files⟩

end Serving

theorem willing_opensAt {p : ℕ} (h : 4096 ≤ p) (hp : p < mapFailed) :
    (Env.willing fun _ => p).OpensAt (some slashStr) slashStr p := by
  have hmaps (file : CStr) : (Env.willing fun _ => p).Maps file p :=
    Env.willing_maps (by simp only [NULL]; omega) hp.ne
  exact ⟨h, rfl, by decide, ⟨p, hmaps _⟩, by decide, hmaps _⟩

/-- One process makes a store, puts a string and leaves; another one maps the store elsewhere, and
asks for the string. -/
theorem processes_serial_two : ∃ t, (touchdbNew (2 ^ 30)).run (newSession ⟨fun _ => none, fun _ => none⟩
      (fun _ => 0) slashStr 16 (2 ^ 30)).view = .ok ((), t) ∧
    (Run.history WorldOp.run [.start false (.willing fun _ => 2 ^ 30) (fun _ => 0) (some slashStr) 16,
        .call false (.put (text 1 97).1 (text 1 120).1), .quit false,
        .start true (.willing fun _ => 2 ^ 31) (fun _ => 0) (some slashStr) 16,
        .call true (.get (text 1 97).1)] ⟨⟨fun _ => none, fun _ => none⟩, fun _ => none⟩).1.reduceOption =
      (Run.history (ApiCall.run (2 ^ 30)) [.put (text 1 97).1 (text 1 120).1, .get (text 1 97).1] t).1 := by
  have ho : ∀ op ∈ [WorldOp.call false (.put (text 1 97).1 (text 1 120).1), .quit false,
      .start true (.willing fun _ => 2 ^ 31) (fun _ => 0) (some slashStr) 16,
      .call true (.get (text 1 97).1)], op.Opens slashStr := by
    intro op hop
    simp only [List.mem_cons, List.not_mem_nil, or_false] at hop
    rcases hop with rfl | rfl | rfl | rfl
    · trivial
    · trivial
    · exact ⟨2 ^ 31, willing_opensAt (by decide) (by decide)⟩
    · trivial
  have he : (Env.willing fun _ => 2 ^ 30).OpensAt (some slashStr) slashStr (2 ^ 30) :=
    willing_opensAt (by decide) (by decide)
  obtain ⟨t, ht, h, -⟩ := @processes_serial Bool slashStr 16 ⟨⟨fun _ => none, fun _ => none⟩, fun _ => none⟩
    false (2 ^ 30) _ _ (fun _ => 0) (some slashStr) _ rfl (fun _ => rfl) he ho
  exact ⟨t, ht, h⟩

end TouchDb
