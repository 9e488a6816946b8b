import TouchDb.Heap.Translate
import TouchDb.Store.Files
import TouchDb.Store.Runs
import Mathlib.Data.List.Pairwise

/-! What `touchdb_new` makes of the files that it loads: for any number of pools, mapped anywhere, an
address names the byte that it named before. -/
namespace TouchDb
open Prog

/-- Nothing is asked of the events, and there is no way to stop. -/
def ends : Guard NewStop Event := ⟨fun _ => False, fun _ => True⟩

/-- The bytes of a data file. -/
def Disk.bytes (d : Disk) (file : CStr) : ℕ → UInt8 := (d.data file).getD fun _ => 0

/-- Two mappings of different files that do not overlap. -/
def Clear (m k : CStr × ℕ) : Prop :=
  m.1 ≠ k.1 ∧ (m.2 + touchdbDefaultPoolSize ≤ k.2 ∨ k.2 + touchdbDefaultPoolSize ≤ m.2)

instance : Std.Symm Clear := ⟨fun _ _ h => ⟨h.1.symm, h.2.symm⟩⟩

def Process.Apart (p : Process) : Prop := p.maps.Pairwise Clear

/-- A data file is mapped at `p`. -/
def Session.mapping (x : Session) (file : CStr) (p : ℕ) : Session where
  disk := createData file x.disk
  proc := { x.proc with maps := (file, p) :: x.proc.maps }

section Sessions
variable {α : Type} {x : Session} {t : Touchdb} {m : CStr × ℕ} {i : ℕ}

theorem Process.Apart.eq_or (h : x.proc.Apart) {k : CStr × ℕ} (hm : m ∈ x.proc.maps)
    (hk : k ∈ x.proc.maps) : m = k ∨ Clear m k := by
  by_cases hne : m = k
  · exact .inl hne
  · exact .inr (List.Pairwise.forall h hm hk hne)

/-- The mapping of an address. -/
theorem Process.Apart.find_addr (h : x.proc.Apart) (hm : m ∈ x.proc.maps)
    (hi : i < touchdbDefaultPoolSize) :
    (x.proc.maps.find? fun k => k.2 ≤ m.2 + i ∧ m.2 + i < k.2 + touchdbDefaultPoolSize) = some m := by
  rcases hf : x.proc.maps.find? fun k => k.2 ≤ m.2 + i ∧ m.2 + i < k.2 + touchdbDefaultPoolSize with _ | k
  · have h1 := List.find?_eq_none.mp hf m hm
    simp only [decide_eq_true_eq] at h1
    omega
  · have h1 : k.2 ≤ m.2 + i ∧ m.2 + i < k.2 + touchdbDefaultPoolSize := by
      simpa using List.find?_some hf
    rcases h.eq_or hm (List.mem_of_find?_eq_some hf) with rfl | ⟨-, h2⟩
    · exact hf
    · omega

/-- The mapping of a file. -/
theorem Process.Apart.find_file (h : x.proc.Apart) (hm : m ∈ x.proc.maps) :
    (x.proc.maps.find? fun k => k.1 = m.1) = some m := by
  rcases hf : x.proc.maps.find? fun k => k.1 = m.1 with _ | k
  · have h1 := List.find?_eq_none.mp hf m hm
    simp at h1
  · have h1 : k.1 = m.1 := by simpa using List.find?_some hf
    rcases h.eq_or hm (List.mem_of_find?_eq_some hf) with rfl | ⟨h2, -⟩
    · exact hf
    · exact absurd h1.symm h2

namespace Session

theorem mem_mapped (h : x.proc.Apart) (hm : m ∈ x.proc.maps) (hi : i < touchdbDefaultPoolSize) :
    x.mem (m.2 + i) = x.disk.bytes m.1 i := by
  unfold Session.mem
  rw [h.find_addr hm hi]
  dsimp only
  rw [Nat.add_sub_cancel_left]
  rfl

theorem mem_unmapped (h : ∀ m ∈ x.proc.maps, i < m.2 ∨ m.2 + touchdbDefaultPoolSize ≤ i) :
    x.mem i = x.proc.rest i := by
  unfold Session.mem
  rw [List.find?_eq_none.mpr fun m hm => by
    have h1 := h m hm
    simp only [decide_eq_true_eq]
    omega]

theorem save_bytes (h : x.proc.Apart) (hm : m ∈ x.proc.maps) (hi : i < touchdbDefaultPoolSize) :
    (x.save t).disk.bytes m.1 i = t.mem (m.2 + i) := by
  unfold Disk.bytes save
  dsimp only
  rw [h.find_file hm]
  simp [hi]

/-- Where the bytes of the process are as they were, so are those of the files. -/
theorem save_bytes_same (h : x.proc.Apart) (ht : t.mem = x.mem) (file : CStr) :
    (x.save t).disk.bytes file = x.disk.bytes file := by
  rcases hf : x.proc.maps.find? fun m => m.1 = file with _ | m
  · unfold Disk.bytes save
    dsimp only
    rw [hf]
  · have hm := List.mem_of_find?_eq_some hf
    obtain rfl : m.1 = file := by simpa using List.find?_some hf
    funext i
    by_cases hi : i < touchdbDefaultPoolSize
    · rw [save_bytes h hm hi, ht, mem_mapped h hm hi]
    · unfold Disk.bytes save
      dsimp only
      rw [hf]
      simp [hi]

theorem save_data_of_unmapped {file : CStr} (h : ∀ m ∈ x.proc.maps, m.1 ≠ file) :
    (x.save t).disk.data file = x.disk.data file := by
  unfold save
  dsimp only
  rw [List.find?_eq_none.mpr fun m hm => by simpa using h m hm]

theorem save_data_isSome (x : Session) (t : Touchdb) (file : CStr)
    (h : (x.disk.data file).isSome) : ((x.save t).disk.data file).isSome := by
  unfold save
  dsimp only
  split
  · rfl
  · exact h

@[simp] theorem save_info (x : Session) (t : Touchdb) :
    (x.save t).info = { x.info with map := t.map, poolList := t.poolList } := by
  show ((Function.update x.disk.info x.proc.db _) x.proc.db).getD InfoFile.zero = _
  rw [Function.update_self]
  rfl

/-- What a call has left is what the next one finds. -/
theorem view_save (h : x.proc.Apart) (t : Touchdb) : (x.save t).view = t := by
  have hmem : (x.save t).mem = t.mem := by
    funext i
    by_cases hi : ∃ m ∈ x.proc.maps, m.2 ≤ i ∧ i < m.2 + touchdbDefaultPoolSize
    · obtain ⟨m, hm, h1, h2⟩ := hi
      have hs : (x.save t).proc.Apart := h
      have hlt : i - m.2 < touchdbDefaultPoolSize := by omega
      have heq : m.2 + (i - m.2) = i := by omega
      have h3 := mem_mapped (x := x.save t) hs hm hlt
      rw [save_bytes h hm hlt, heq] at h3
      exact h3
    · apply mem_unmapped
      intro m hm
      by_contra hc
      exact hi ⟨m, hm, by omega, by omega⟩
  unfold view
  rw [hmem, save_info]
  rfl

theorem setInfo_info (x : Session) (f : InfoFile → InfoFile) : (x.setInfo f).info = f x.info := by
  show ((Function.update x.disk.info x.proc.db _) x.proc.db).getD InfoFile.zero = _
  rw [Function.update_self]
  rfl

end Session

theorem wp_onStore {c : M α} {Q : α → Session → Prop}
    (h : wp anyEvent c (fun a t => Q a (x.save t)) x.view) : wp ends (onStore c) Q x := by
  obtain ⟨a, t, l, hc, -, hq⟩ := wp_ends h fun _ h => h
  have hr : onStore c x = .ok (a, x.save t, l) := by
    unfold onStore
    rw [hc]
  exact (wp_ok hr).mpr ⟨fun _ _ => trivial, hq⟩

theorem wp_modifySession {f : Session → Session} {Q : Unit → Session → Prop} (h : Q () (f x)) :
    wp ends (modifySession f) Q x := wp_update (fun _ _ => trivial) h

theorem wp_onPath {c : Except PathStop α} {a : α} {Q : α → Session → Prop} (hc : c = .ok a)
    (h : Q a x) : wp ends (onPath c) Q x := by
  rw [hc]
  exact wp_pure h

theorem wp_getInfo {Q : InfoFile → Session → Prop} (h : Q x.info x) : wp ends getInfo Q x :=
  ⟨by simp, h⟩

/-- The system maps the file at `p`. -/
structure Env.Maps (env : Env) (file : CStr) (p : ℕ) : Prop where
  opens : env.opens file = true
  mmap : env.mmap file = some p
  ne_null : p ≠ NULL
  ne_failed : p ≠ mapFailed
  closes : env.closes file = true

theorem wp_getShm {env : Env} {file : CStr} {p : ℕ} {created : Disk → Disk}
    {mapped : ℕ → Process → Process} {Q : ℕ → Session → Prop} (h : env.Maps file p)
    (hQ : Q p ⟨created x.disk, mapped p x.proc⟩) : wp ends (getShm env file created mapped) Q x := by
  unfold getShm
  rw [if_pos h.opens, h.mmap]
  refine wp_bind (wp_modifySession (wp_bind (wp_bind (wp_modifySession (wp_pure ?_)))))
  rw [if_neg h.ne_null, if_pos h.closes]
  exact wp_pure hQ

theorem wp_getInfoShm {env : Env} {file : CStr} {p : ℕ} {Q : ℕ → Session → Prop}
    (h : env.Maps file p) (hQ : Q p ⟨createInfo file x.disk, { x.proc with db := file }⟩) :
    wp ends (getInfoShm env file) Q x := wp_getShm h hQ

theorem wp_getDataShm {env : Env} {file : CStr} {p : ℕ} {Q : ℕ → Session → Prop}
    (h : env.Maps file p) (hQ : Q p (x.mapping file p)) : wp ends (getDataShm env file) Q x :=
  wp_getShm h hQ

end Sessions

/-- The path of the info file of the store at `P`. -/
def infoPath (P : CStr) : CStr := P.append touchdbInfoFile

/-- The path of a data file. -/
def dataFile (P : CStr) (info : InfoFile) (i : ℕ) : CStr := .join [P, info.shmFile i]

/-- The info file names `n` pools. -/
structure InfoFile.Names (info : InfoFile) (n : ℕ) : Prop where
  lt : n < touchdbPoolListSize
  magic : info.magicNum.chars.take 7 = touchdbName.chars
  named : ∀ i < n, (info.shmFile i).first ≠ 0
  last : (info.shmFile n).first = 0
  idx : ∀ i < n, (info.poolList i).idx = Int32.ofNat i

/-- The system leads a process to the store at `P`, and maps its data files at `place`. -/
structure Env.Leads (env : Env) (datPath : Option CStr) (P : CStr) (info : InfoFile) (n : ℕ)
    (place : ℕ → ℕ) : Prop where
  path : makeSureDir env.toSys (dataPath datPath) = .ok P
  fits : (infoPath P).strlen + 1 ≤ pathSize
  mapsInfo : ∃ p, env.Maps (infoPath P) p
  dataFits : ∀ i < n, (dataFile P info i).strlen + 1 ≤ pathSize
  mapsData : ∀ i < n, env.Maps (dataFile P info i) (place i)
  files : ∀ i < n, ∀ k < n, i ≠ k → dataFile P info i ≠ dataFile P info k
  apart : ∀ i < n, ∀ k < n, i ≠ k → place i + touchdbDefaultPoolSize ≤ place k ∨
    place k + touchdbDefaultPoolSize ≤ place i

/-- A system that refuses nothing, and maps each file where `place` says. -/
def Env.willing (place : CStr → ℕ) : Env where
  cwd := some slashStr
  access _ := true
  mkdir _ := true
  opens _ := true
  mmap file := some (place file)
  closes _ := true

section Load
variable {env : Env} {datPath : Option CStr} {P : CStr} {info : InfoFile} {n i : ℕ}
  {place : ℕ → ℕ} {d : Disk} {rest : Mem} {x : Session} {t : Touchdb}

theorem Env.willing_maps {places : CStr → ℕ} {file : CStr} (h0 : places file ≠ NULL)
    (h1 : places file ≠ mapFailed) : (Env.willing places).Maps file (places file) :=
  ⟨rfl, rfl, h0, h1, rfl⟩

/-- The process has loaded the first `i` pools of the store at `P`. -/
structure LoadedTo (d : Disk) (rest : Mem) (P : CStr) (info : InfoFile) (place : ℕ → ℕ) (i : ℕ)
    (x : Session) : Prop where
  db : x.proc.db = infoPath P
  infos : x.disk.info = Function.update d.info (infoPath P) (some { info with dbPath := P })
  bytes : ∀ file, x.disk.bytes file = d.bytes file
  kept : ∀ file, (d.data file).isSome → (x.disk.data file).isSome
  made : ∀ k < i, (x.disk.data (dataFile P info k)).isSome
  others : ∀ file, (∀ k < i, file ≠ dataFile P info k) → x.disk.data file = d.data file
  maps : x.proc.maps = ((List.range i).map fun k => (dataFile P info k, place k)).reverse
  shm : ∀ k, x.proc.shmInfo k =
    if k < i then ⟨place k, place k + touchdbDefaultPoolSize⟩ else ⟨0, 0⟩
  rest : ∀ o, (∀ k < i, o < place k ∨ place k + touchdbDefaultPoolSize ≤ o) → x.proc.rest o = rest o

namespace LoadedTo

theorem info_eq (h : LoadedTo d rest P info place i x) : x.info = { info with dbPath := P } := by
  unfold Session.info
  rw [h.infos, h.db, Function.update_self]
  rfl

theorem mem_maps (h : LoadedTo d rest P info place i x) {m : CStr × ℕ} :
    m ∈ x.proc.maps ↔ ∃ k < i, m = (dataFile P info k, place k) := by
  rw [h.maps, List.mem_reverse, List.mem_map]
  constructor
  · rintro ⟨k, hk, rfl⟩
    exact ⟨k, List.mem_range.mp hk, rfl⟩
  · rintro ⟨k, hk, rfl⟩
    exact ⟨k, List.mem_range.mpr hk, rfl⟩

theorem apart (h : LoadedTo d rest P info place i x) (hi : i ≤ n)
    (he : env.Leads datPath P info n place) : x.proc.Apart := by
  unfold Process.Apart
  rw [h.maps, List.pairwise_reverse, List.pairwise_map]
  apply List.Pairwise.imp_of_mem _ List.nodup_range
  intro k j hk hj hne
  have hk' := List.mem_range.mp hk
  have hj' := List.mem_range.mp hj
  exact ⟨he.files j (by omega) k (by omega) hne.symm, he.apart j (by omega) k (by omega) hne.symm⟩

/-- A call that changes no file and no mapping. -/
theorem save (h : LoadedTo d rest P info place i x) (hi : i ≤ n)
    (he : env.Leads datPath P info n place) (hm : t.map = info.map)
    (hp : t.poolList = info.poolList) (hs : t.shmInfo = x.proc.shmInfo) (hb : t.mem = x.mem) :
    LoadedTo d rest P info place i (x.save t) where
  db := h.db
  infos := by
    show Function.update x.disk.info x.proc.db _ = _
    rw [h.infos, h.db, Function.update_idem, h.info_eq, hm, hp]
  bytes file := (Session.save_bytes_same (h.apart hi he) hb file).trans (h.bytes file)
  kept file hd := Session.save_data_isSome x t file (h.kept file hd)
  made k hk := Session.save_data_isSome x t _ (h.made k hk)
  others file hf := by
    rw [Session.save_data_of_unmapped, h.others file hf]
    intro m hm
    obtain ⟨k, hk, rfl⟩ := h.mem_maps.mp hm
    exact (hf k hk).symm
  maps := h.maps
  shm k := by
    show t.shmInfo k = _
    rw [hs, h.shm k]
  rest o ho := by
    show t.mem o = _
    rw [hb, Session.mem_unmapped, h.rest o ho]
    intro m hm
    obtain ⟨k, hk, rfl⟩ := h.mem_maps.mp hm
    exact ho k hk

/-- The next pool is mapped, and joins the table of mappings. -/
theorem mapped (h : LoadedTo d rest P info place i x) (hi : i < n)
    (he : env.Leads datPath P info n place) :
    LoadedTo d rest P info place (i + 1)
      { x.mapping (dataFile P info i) (place i) with
        proc := { (x.mapping (dataFile P info i) (place i)).proc with
          shmInfo := Function.update x.proc.shmInfo i
            ⟨place i, place i + touchdbDefaultPoolSize⟩ } } where
  db := h.db
  infos := h.infos
  bytes file := by
    rw [← h.bytes file]
    unfold Disk.bytes Session.mapping createData
    dsimp only
    by_cases hf : file = dataFile P info i
    · subst hf
      rw [Function.update_self]
      rfl
    · rw [Function.update_of_ne hf]
  kept file hd := by
    unfold Session.mapping createData
    dsimp only
    by_cases hf : file = dataFile P info i
    · subst hf
      rw [Function.update_self]
      rfl
    · rw [Function.update_of_ne hf]
      exact h.kept file hd
  made k hk := by
    unfold Session.mapping createData
    dsimp only
    by_cases hki : k = i
    · subst hki
      rw [Function.update_self]
      rfl
    · rw [Function.update_of_ne (he.files k (by omega) i hi hki)]
      exact h.made k (by omega)
  others file hf := by
    unfold Session.mapping createData
    dsimp only
    rw [Function.update_of_ne (hf i (by omega)), h.others file fun k hk => hf k (by omega)]
  maps := by
    unfold Session.mapping
    dsimp only
    rw [h.maps, List.range_succ, List.map_append, List.reverse_append]
    rfl
  shm k := by
    dsimp only
    by_cases hki : k = i
    · subst hki
      rw [Function.update_self, if_pos (by omega)]
    · rw [Function.update_of_ne hki, h.shm k]
      by_cases hlt : k < i
      · rw [if_pos hlt, if_pos (by omega)]
      · rw [if_neg hlt, if_neg (by omega)]
  rest o ho := h.rest o fun k hk => ho k (by omega)

theorem map (h : LoadedTo d rest P info place i x) (hi : i < n)
    (he : env.Leads datPath P info n place) (hm : t.map = info.map)
    (hp : t.poolList = info.poolList)
    (hs : t.shmInfo = Function.update x.proc.shmInfo i ⟨place i, place i + touchdbDefaultPoolSize⟩)
    (hb : t.mem = (x.mapping (dataFile P info i) (place i)).mem) :
    LoadedTo d rest P info place (i + 1) ((x.mapping (dataFile P info i) (place i)).save t) :=
  (h.mapped hi he).save hi he hm hp hs hb

end LoadedTo

theorem setPool_idx_self {s : Touchdb} {v : Int32} (h : (s.poolList i).idx = v) :
    (s.setPool i fun pool => { pool with idx := v }) = s := by
  subst h
  show { s with poolList := Function.update s.poolList i (s.poolList i) } = s
  rw [Function.update_eq_self]

theorem wp_touchdbPoolInit_loaded {s : Touchdb} {ptr : ℕ} (hidx : (s.poolList i).idx.toInt = i)
    (hi : i < touchdbPoolListSize) : wp anyEvent (touchdbPoolInit i ptr true)
      (fun _ t => t = s.setShmInfo i ⟨ptr, ptr + touchdbDefaultPoolSize⟩) s := by
  have hr : mapShm i ptr s = .ok ((), s.setShmInfo i ⟨ptr, ptr + touchdbDefaultPoolSize⟩, []) := by
    unfold mapShm
    rw [hidx]
    exact if_pos ⟨by omega, by omega⟩
  unfold touchdbPoolInit
  exact wp_bind ((wp_ok hr).mpr ⟨by simp, wp_pure rfl⟩)

/-- The loop maps every pool that the info file names. -/
theorem wp_loadPools {Q : Session → Prop} (hn : info.Names n) (he : env.Leads datPath P info n place)
    (h : LoadedTo d rest P info place i x) (hi : i ≤ n) (rounds : ℕ)
    (hr : i + rounds = touchdbPoolListSize)
    (hQ : ∀ y, LoadedTo d rest P info place n y → Q y) :
    wp ends (loadPools env rounds i) (fun _ => Q) x := by
  induction rounds generalizing i x with
  | zero =>
    have h1 := hn.lt
    omega
  | succ rounds ih =>
    have hlt := hn.lt
    have hN : touchdbPoolListSize < 2 ^ 31 := by decide
    unfold loadPools
    refine wp_bind (wp_getInfo ?_)
    rw [h.info_eq]
    by_cases hend : i = n
    · subst hend
      rw [if_neg (by simpa using hn.last)]
      exact wp_pure (hQ x h)
    · have hin : i < n := by omega
      rw [if_pos (hn.named i hin)]
      refine wp_bind (wp_onPath (if_pos (he.dataFits i hin)) ?_)
      change wp ends (getDataShm env (dataFile P info i) >>= _) _ _
      refine wp_bind (wp_getDataShm (he.mapsData i hin) ?_)
      have hview : (x.mapping (dataFile P info i) (place i)).info = { info with dbPath := P } :=
        h.info_eq
      have hmap := congrArg InfoFile.map hview
      have hpools := congrArg InfoFile.poolList hview
      have hidx : ((x.mapping (dataFile P info i) (place i)).info.poolList i).idx = Int32.ofNat i := by
        rw [hview]
        exact hn.idx i hin
      have hidx' : ((x.mapping (dataFile P info i) (place i)).info.poolList i).idx.toInt = i := by
        rw [hidx]
        exact Int32.toInt_ofNat_of_lt (by omega)
      refine wp_bind (wp_onStore (wp_mono (wp_touchdbPoolInit_loaded hidx' (by omega)) ?_))
      rintro _ t rfl
      have hnext := h.map hin he (t := (x.mapping (dataFile P info i) (place i)).view.setShmInfo i
        ⟨place i, place i + touchdbDefaultPoolSize⟩) hmap hpools rfl rfl
      have hap : (x.mapping (dataFile P info i) (place i)).proc.Apart := hnext.apart hin he
      refine wp_bind (wp_onStore ?_)
      rw [Session.view_save hap]
      refine wp_assign trivial ?_
      rw [setPool_idx_self (by exact hidx)]
      refine ih (hnext.save hin he hmap hpools rfl ?_) hin (by omega)
      exact (congrArg Touchdb.mem (Session.view_save hap _)).symm

/-- `touchdb_new` on files that are there. -/
theorem wp_touchdbOpen_load {g : Int32} {mode : TouchdbMode} {Q : Session → Prop}
    (hd : d.info (infoPath P) = some info) (hn : info.Names n)
    (he : env.Leads datPath P info n place) (hQ : ∀ y, LoadedTo d rest P info place n y → Q y) :
    wp ends (touchdbOpen env datPath g mode) (fun _ => Q) ⟨d, .fresh rest⟩ := by
  obtain ⟨p, hp⟩ := he.mapsInfo
  have hread : (fun x => .ok ((x.disk.info (infoPath P)).isSome, x, []) : NewM Bool) ⟨d, .fresh rest⟩ =
      .ok (true, ⟨d, .fresh rest⟩, []) := by
    simp [hd]
  unfold touchdbOpen
  refine wp_bind (wp_onPath he.path (wp_bind (wp_onPath (a := infoPath P) (if_pos he.fits) ?_)))
  refine wp_bind ((wp_ok hread).mpr ⟨by simp, wp_bind (wp_getInfoShm hp ?_)⟩)
  rw [if_neg (by simp [hp.ne_null, hp.ne_failed]), if_pos rfl]
  refine wp_bind (wp_modifySession ?_)
  unfold touchdbLoad
  refine wp_bind (wp_getInfo ?_)
  have hinfo : (Session.setInfo ⟨createInfo (infoPath P) d, { Process.fresh rest with db := infoPath P }⟩
      fun info => { info with dbPath := P }).info = { info with dbPath := P } := by
    rw [Session.setInfo_info]
    simp [Session.info, createInfo, hd]
  rw [hinfo, if_neg (by simpa using hn.magic)]
  refine wp_loadPools hn he (i := 0) ?_ (Nat.zero_le n) _ (Nat.zero_add _) hQ
  constructor
  case db => rfl
  case infos =>
    show Function.update (Function.update d.info (infoPath P) _) (infoPath P) _ = _
    rw [Function.update_idem]
    simp [Session.info, createInfo, hd]
  case bytes => exact fun _ => rfl
  case kept => exact fun _ h => h
  case made => exact fun _ h => absurd h (Nat.not_lt_zero _)
  case others => exact fun _ _ => rfl
  case maps => rfl
  case shm => exact fun _ => rfl
  case rest => exact fun _ _ => rfl

end Load

/-- The pools that an info file names are in use. -/
structure InfoFile.InUse (info : InfoFile) (n : ℕ) : Prop extends info.Names n where
  cur : ∀ i < n, (info.poolList i).curOffset ≠ NIL
  size : ∀ i < n, (info.poolList i).size = Int32.ofNat touchdbDefaultPoolSize

section Load
variable {env : Env} {datPath : Option CStr} {P : CStr} {info : InfoFile} {n i : ℕ}
  {place : ℕ → ℕ} {d : Disk} {rest : Mem} {x : Session}

namespace LoadedTo

theorem poolTable (h : LoadedTo d rest P info place n x) (hu : info.InUse n)
    (he : env.Leads datPath P info n place) : PoolTable x.view n := by
  have hview : x.view.poolList = info.poolList := by
    show x.info.poolList = _
    rw [h.info_eq]
  have hshm (k : ℕ) (hk : k < n) :
      x.view.shmInfo k = ⟨place k, place k + touchdbDefaultPoolSize⟩ := by
    show x.proc.shmInfo k = _
    rw [h.shm k, if_pos hk]
  constructor
  case le => exact hu.lt.le
  case idx => exact fun k hk => hview ▸ hu.idx k hk
  case cur => exact fun k hk => hview ▸ hu.cur k hk
  case size => exact fun k hk => hview ▸ hu.size k hk
  case end_eq =>
    intro k hk
    rw [hshm k hk]
  case apart =>
    intro k hk j hj hne
    rw [hshm k hk, hshm j hj]
    exact he.apart k hk j hj hne

/-- The bytes of a pool are those of its file. -/
theorem mem_eq (h : LoadedTo d rest P info place n x) (he : env.Leads datPath P info n place)
    (hi : i < n) {o : ℕ} (ho : o < touchdbDefaultPoolSize) :
    x.view.mem (place i + o) = d.bytes (dataFile P info i) o := by
  have hm : (dataFile P info i, place i) ∈ x.proc.maps := h.mem_maps.mpr ⟨i, hi, rfl⟩
  rw [← h.bytes]
  exact Session.mem_mapped (h.apart le_rfl he) hm ho

end LoadedTo

/-- What an address of a store comes to in a process: the pointer, and the byte that it points to. -/
structure Translates (y : Session) (i : ℕ) (offset : PtrOffset) (p : ℕ) (c : UInt8) : Prop where
  ptr : (touchdbPtrOf ⟨Int32.ofNat i, offset⟩).run y.view = .ok (p, y.view)
  addr : (touchdbAddrOf p).run y.view = .ok (⟨Int32.ofNat i, offset⟩, y.view)
  byte : y.view.mem p = c

/-- `touchdb_new` loads every pool that the info file names, wherever its file is mapped: no file
changes but for the path in the info file, and each address into a pool is the address of one
pointer, to the byte at its offset in the file of the pool. -/
theorem touchdbOpen_loads {g : Int32} {mode : TouchdbMode} (hd : d.info (infoPath P) = some info)
    (hn : info.InUse n) (he : env.Leads datPath P info n place) :
    ∃ y, (touchdbOpen env datPath g mode).run ⟨d, .fresh rest⟩ = .ok ((), y) ∧
      y.disk.info = Function.update d.info (infoPath P) (some { info with dbPath := P }) ∧
      (∀ file, y.disk.bytes file = d.bytes file) ∧
      ∀ i < n, ∀ offset : PtrOffset, 0 < offset.toNat → offset.toNat < touchdbDefaultPoolSize →
        Translates y i offset (place i + offset.toNat) (d.bytes (dataFile P info i) offset.toNat) := by
  have hw : wp ends (touchdbOpen env datPath g mode) (fun _ => LoadedTo d rest P info place n)
      ⟨d, .fresh rest⟩ := wp_touchdbOpen_load hd hn.toNames he fun _ h => h
  obtain ⟨_, y, l, hy, -, h⟩ := wp_ends hw fun _ h => h
  refine ⟨y, run_ok hy, h.infos, h.bytes, fun i hi offset h0 hlt => ?_⟩
  have ht := h.poolTable hn he
  have hstart : (y.view.shmInfo i).start = place i := by
    show (y.proc.shmInfo i).start = _
    rw [h.shm i, if_pos hi]
  have hptr := run_ok (ht.touchdbPtrOf_ok hi hlt.le)
  rw [hstart] at hptr
  refine ⟨hptr, ?_, h.mem_eq he hi hlt⟩
  have haddr := run_ok (ht.touchdbAddrOf_ok (p := place i + offset.toNat) hi
    (by rw [hstart]; omega))
  rw [hstart, Nat.add_sub_cancel_left, UInt32.ofNat_toNat] at haddr
  exact haddr

end Load

/-- The info file of a store with two pools that are in use. -/
def twoPools : InfoFile := { InfoFile.zero with
  magicNum := .join [touchdbName, touchdbVersion]
  poolList := fun i => ⟨fun _ => ⟨0, 0, 0, 0⟩, 0, 1, Int32.ofNat touchdbDefaultPoolSize, Int32.ofNat i⟩
  shmFile := fun i => match i with
    | 0 => .join [touchdbDataFilePrefix, firstSeq, touchdbDataFileSuffix]
    | 1 => .join [touchdbDataFilePrefix, ⟨[50], by decide⟩, touchdbDataFileSuffix]
    | _ => .join [] }

/-- The store has two pools, and the second one is mapped below the first. -/
theorem touchdbOpen_loads_two : ∃ y,
    (touchdbOpen (.willing fun file => if file = dataFile slashStr twoPools 0 then 2 ^ 31 else 2 ^ 30)
        (some slashStr) 16 .map).run
      ⟨⟨Function.update (fun _ => none) (infoPath slashStr) (some twoPools), fun _ => none⟩,
        .fresh fun _ => 0⟩ = .ok ((), y) ∧
      Translates y 1 8 (2 ^ 30 + 8) 0 := by
  have hne : dataFile slashStr twoPools 1 ≠ dataFile slashStr twoPools 0 := by decide
  have hcases {i : ℕ} (hi : i < 2) : i = 0 ∨ i = 1 := by omega
  have hu : twoPools.InUse 2 := by
    refine ⟨⟨by decide, rfl, fun i hi => ?_, rfl, fun i _ => rfl⟩,
      fun i _ => (by decide : (1 : PtrOffset) ≠ NIL), fun i _ => rfl⟩
    rcases hcases hi with rfl | rfl
    · decide
    · decide
  have he : (Env.willing fun file => if file = dataFile slashStr twoPools 0 then 2 ^ 31 else 2 ^ 30).Leads
      (some slashStr) slashStr twoPools 2 fun i => if i = 0 then 2 ^ 31 else 2 ^ 30 := by
    refine ⟨rfl, by decide, ⟨_, Env.willing_maps ?_ ?_⟩, fun i hi => ?_, fun i hi => ?_,
      fun i hi k hk hik => ?_, fun i hi k hk hik => ?_⟩
    · split_ifs <;> decide
    · split_ifs <;> decide
    · rcases hcases hi with rfl | rfl <;> decide
    · rcases hcases hi with rfl | rfl
      · exact ⟨rfl, by simp [Env.willing], by decide, by decide, rfl⟩
      · exact ⟨rfl, by simp [Env.willing, hne], by decide, by decide, rfl⟩
    · rcases hcases hi with rfl | rfl <;> rcases hcases hk with rfl | rfl
      · exact absurd rfl hik
      · exact hne.symm
      · exact hne
      · exact absurd rfl hik
    · rcases hcases hi with rfl | rfl <;> rcases hcases hk with rfl | rfl
      · exact absurd rfl hik
      · exact .inr (by decide)
      · exact .inl (by decide)
      · exact absurd rfl hik
  have hd : (⟨Function.update (fun _ => none) (infoPath slashStr) (some twoPools), fun _ => none⟩ :
      Disk).info (infoPath slashStr) = some twoPools := by simp
  obtain ⟨y, hy, -, -, h⟩ := touchdbOpen_loads (g := 16) hd hu he
  exact ⟨y, hy, h 1 (by decide) 8 (by decide) (by decide)⟩

/-! A new store. -/

/-- The name of the first data file. -/
def firstFile : CStr := .join [touchdbDataFilePrefix, firstSeq, touchdbDataFileSuffix]

/-- The info file of a new store in map mode, before its pool and its index are made. -/
def InfoFile.new (P : CStr) (g : Int32) : InfoFile := { InfoFile.zero with
  magicNum := .join [touchdbName, touchdbVersion]
  lockGranularity := g
  dbPath := P
  shmFile := Function.update InfoFile.zero.shmFile 0 firstFile }

/-- The path of the first data file. -/
def firstPath (P : CStr) : CStr := .join [P, firstFile]

/-- A process that makes a store at `P`, and has come to `info` so far. -/
def infoSession (d : Disk) (rest : Mem) (P : CStr) (info : InfoFile) : Session where
  disk := { d with info := Function.update d.info (infoPath P) (some info) }
  proc := { Process.fresh rest with db := infoPath P }

/-- The first data file is mapped at `p`. -/
def newSession (d : Disk) (rest : Mem) (P : CStr) (g : Int32) (p : ℕ) : Session :=
  (infoSession d rest P (.new P g)).mapping (firstPath P) p

section Create
variable {env : Env} {datPath : Option CStr} {P : CStr} {g : Int32} {place : ℕ → ℕ} {d : Disk}
  {rest : Mem} {x : Session} {t u : Touchdb}

theorem Session.save_save (x : Session) (t u : Touchdb) : (x.save t).save u = x.save u := by
  have hinfo : Function.update (Function.update x.disk.info x.proc.db
      (some { x.info with map := t.map, poolList := t.poolList })) x.proc.db
        (some { (x.save t).info with map := u.map, poolList := u.poolList }) =
      Function.update x.disk.info x.proc.db
        (some { x.info with map := u.map, poolList := u.poolList }) := by
    rw [Function.update_idem, Session.save_info]
  have hdata : ((x.save t).save u).disk.data = (x.save u).disk.data := by
    funext file
    unfold Session.save
    rcases hf : x.proc.maps.find? fun m => m.1 = file with _ | m
    · simp only [hf]
    · simp only [hf, Option.getD_some]
      congr 1
      funext i
      by_cases hi : i < touchdbDefaultPoolSize
      · rw [if_pos hi, if_pos hi]
      · rw [if_neg hi, if_neg hi, if_neg hi]
  exact Session.ext (Disk.ext hinfo hdata) rfl

/-- A process that has mapped nothing yet, and stores what is there. -/
theorem Session.save_view_self (hm : x.proc.maps = [])
    (hi : x.disk.info x.proc.db = some x.info) : x.save x.view = x := by
  have hmem : x.mem = x.proc.rest := by
    funext i
    apply mem_unmapped
    rw [hm]
    exact fun _ h => by cases h
  have hdata : (x.save x.view).disk.data = x.disk.data := by
    funext file
    apply save_data_of_unmapped
    rw [hm]
    exact fun _ h => by cases h
  have hinfo : (x.save x.view).disk.info = x.disk.info := by
    show Function.update x.disk.info x.proc.db (some x.info) = _
    rw [← hi, Function.update_eq_self]
  have hproc : (x.save x.view).proc = x.proc := by
    show { x.proc with shmInfo := x.proc.shmInfo, rest := x.mem } = x.proc
    rw [hmem]
  exact Session.ext (Disk.ext hinfo hdata) hproc

/-- The parts of `touchdb_new` that work on the first pool. -/
theorem touchdbNew_parts {s : Touchdb} {p : ℕ} (hs : s.poolList = InfoFile.zero.poolList)
    (h : (touchdbNew p).run s = .ok ((), t)) : ∃ u, (touchdbPoolInit 0 p false).run s = .ok ((), u) ∧
      (touchdbMapInit 1000).run u = .ok ((), t) := by
  have h1 : (assign fun s => { s with poolList := fun _ => ⟨fun _ => ⟨0, 0, 0, 0⟩, 0, 0, 0, 0⟩ }).run s =
      .ok ((), s) := by
    show Except.ok ((), { s with poolList := InfoFile.zero.poolList }) = _
    rw [← hs]
  have h2 : (assign fun s => s.setPool 0 fun pool => { pool with idx := 0 }).run s = .ok ((), s) := by
    show Except.ok ((), s.setPool 0 fun pool => { pool with idx := 0 }) = _
    rw [setPool_idx_self (by rw [hs]; rfl)]
  unfold touchdbNew at h
  rw [run_bind, h1] at h
  dsimp only at h
  rw [run_bind, h2] at h
  dsimp only at h
  rw [run_bind] at h
  rcases hu : (touchdbPoolInit 0 p false).run s with e | ⟨_, u⟩
  · rw [hu] at h
    cases h
  · rw [hu] at h
    exact ⟨u, rfl, h⟩

theorem infoSession_info (d : Disk) (rest : Mem) (P : CStr) (info : InfoFile) :
    (infoSession d rest P info).info = info := by
  show (Function.update d.info (infoPath P) (some info) (infoPath P)).getD .zero = _
  rw [Function.update_self]
  rfl

theorem infoSession_setInfo (d : Disk) (rest : Mem) (P : CStr) (info : InfoFile)
    (f : InfoFile → InfoFile) :
    (infoSession d rest P info).setInfo f = infoSession d rest P (f info) := by
  have h : ((infoSession d rest P info).setInfo f).disk.info =
      Function.update (Function.update d.info (infoPath P) (some info)) (infoPath P)
        (some (f (infoSession d rest P info).info)) := rfl
  rw [infoSession_info, Function.update_idem] at h
  exact Session.ext (Disk.ext h rfl) rfl

theorem newSession_info (d : Disk) (rest : Mem) (P : CStr) (g : Int32) (p : ℕ) :
    (newSession d rest P g p).info = .new P g := infoSession_info d rest P (.new P g)

/-- A new store, as the calls of its process find it. -/
theorem newSession_view (d : Disk) (rest : Mem) (P : CStr) (g : Int32) {p : ℕ} (hp : 0 < p) :
    (newSession d rest P g p).view = NewFiles.db ⟨p, hp, (newSession d rest P g p).mem⟩ := by
  unfold Session.view
  rw [newSession_info]
  rfl

theorem newSession_apart (d : Disk) (rest : Mem) (P : CStr) (g : Int32) (p : ℕ) :
    (newSession d rest P g p).proc.Apart := List.pairwise_singleton _ _

/-- A new store is made. -/
theorem exists_new (f : NewFiles) : ∃ t, (touchdbNew f.ptr).run f.db = .ok ((), t) := by
  have hroom : freshAlloc.cur + roomFor [2 ^ 10 * sizeofMapBulk] ≤ touchdbDefaultPoolSize := by decide
  obtain ⟨_, t, l, ht, -⟩ := wp_ends (wp_touchdbNew (G := anyEvent) (f := f) (Q := fun _ _ => True)
    (fun _ => trivial) (.of_room hroom) fun _ _ _ _ _ _ => trivial) fun _ h => h
  exact ⟨t, run_ok ht⟩

/-- `touchdb_new` where there is no info file. -/
theorem wp_touchdbOpen_create {Q : Session → Prop} (hd : d.info (infoPath P) = none)
    (he : env.Leads datPath P (.new P g) 1 place)
    (hQ : ∀ t, (touchdbNew (place 0)).run (newSession d rest P g (place 0)).view = .ok ((), t) →
      Q ((newSession d rest P g (place 0)).save t)) :
    wp ends (touchdbOpen env datPath g .map) (fun _ => Q) ⟨d, .fresh rest⟩ := by
  obtain ⟨p, hp⟩ := he.mapsInfo
  have hread : (fun x => .ok ((x.disk.info (infoPath P)).isSome, x, []) : NewM Bool) ⟨d, .fresh rest⟩ =
      .ok (false, ⟨d, .fresh rest⟩, []) := by
    simp [hd]
  have hdata := he.mapsData 0 Nat.one_pos
  have hpos : 0 < place 0 := Nat.pos_of_ne_zero hdata.ne_null
  have hstart : (⟨createInfo (infoPath P) d, { Process.fresh rest with db := infoPath P }⟩ : Session) =
      infoSession d rest P .zero := by
    simp [createInfo, hd, infoSession]
  unfold touchdbOpen
  refine wp_bind (wp_onPath he.path (wp_bind (wp_onPath (a := infoPath P) (if_pos he.fits) ?_)))
  refine wp_bind ((wp_ok hread).mpr ⟨by simp, wp_bind (wp_getInfoShm hp ?_)⟩)
  rw [if_neg (by simp [hp.ne_null, hp.ne_failed]), if_neg (by simp)]
  rw [hstart]
  unfold touchdbCreate
  refine wp_bind (wp_modifySession (wp_bind (wp_modifySession (wp_bind (wp_modifySession
    (wp_bind (wp_modifySession (wp_bind (wp_modifySession ?_)))))))))
  simp only [infoSession_setInfo]
  refine wp_bind (wp_onStore (wp_assign trivial ?_))
  rw [setPool_idx_self (by unfold Session.view; rw [infoSession_info]; rfl),
    Session.save_view_self rfl (by rw [infoSession_info]; exact Function.update_self _ _ _)]
  refine wp_bind (wp_modifySession (wp_bind (wp_getInfo ?_)))
  simp only [infoSession_setInfo, infoSession_info]
  refine wp_bind (wp_onPath (a := firstPath P) (if_pos (he.dataFits 0 Nat.one_pos)) ?_)
  refine wp_bind (wp_getDataShm hdata ?_)
  change wp ends _ _ (newSession d rest P g (place 0))
  obtain ⟨t, ht⟩ := exists_new ⟨place 0, hpos, (newSession d rest P g (place 0)).mem⟩
  rw [← newSession_view] at ht
  obtain ⟨u, hu, hu'⟩ := touchdbNew_parts (by unfold Session.view; rw [newSession_info]; rfl) ht
  refine wp_bind (wp_onStore (wp_of_run hu (fun _ => trivial) ?_))
  refine wp_onStore (wp_of_run (a := ()) (t := t) ?_ (fun _ => trivial) ?_)
  · rw [Session.view_save (newSession_apart d rest P g (place 0))]
    exact hu'
  · rw [Session.save_save]
    exact hQ t ht

end Create

end TouchDb
