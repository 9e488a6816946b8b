import TouchDb.Pool.Safety
import TouchDb.Store.IndexOk
import TouchDb.Store.PutRuns
import TouchDb.Store.PutStrRuns

/-! A store and the blocks that its application has allocated: neither disturbs the other. -/
namespace TouchDb
open Prog Layout

/-- A block that the application holds, and what it has written to its start. -/
structure AppBlock where
  addr : TouchdbAddr
  ptr : ℕ
  size : ℕ
  bytes : List UInt8

/-- What an application does. A place names a block that it holds. -/
inductive AppOp where
  | put (op : MapOp)
  | malloc (n : PoolSize)
  | write (place : ℕ) (bs : List UInt8)
  | free (place : ℕ)

/-- One step; one that names no block, or writes past the size asked for, is not made. -/
def AppOp.run (held : List AppBlock) : AppOp → M (List AppBlock)
  | .put op => do
    op.run
    return held
  | .malloc n => do
    let (p, addr) ← touchdbMalloc n.bytes
    return held ++ [⟨addr, p, n.bytes, []⟩]
  | .write place bs =>
    match held[place]? with
    | some b =>
      if bs.length ≤ b.size then do
        storeBytes b.ptr bs
        return held.set place { b with bytes := bs }
      else return held
    | none => return held
  | .free place =>
    match held[place]? with
    | some b => do
      touchdbFree b.addr
      return held.eraseIdx place
    | none => return held

abbrev AppRun := List AppBlock × Touchdb

def AppRun.step (op : AppOp) (r : AppRun) : Except Stop AppRun := (op.run r.1).run r.2

/-- A run on a new store. -/
def runApp (f : NewFiles) (ops : List AppOp) : Except Stop AppRun := do
  let s ← (touchdbNew f.ptr).next f.db
  Run.exec AppRun.step ops ([], s)

def AppOp.put? : AppOp → Option MapOp
  | .put op => some op
  | _ => none

/-- `op` is the only put on its key. -/
structure OnlyPut (puts : List MapOp) (op : MapOp) : Prop where
  mem : op ∈ puts
  once : (puts.map MapOp.key).count op.key = 1

def AppBlock.off (b : AppBlock) : ℕ := b.addr.offset.toNat

/-- The block is the application's own, and holds what was written to it. -/
structure AppBlock.Rep (B : ℕ) (s : Touchdb) (a : PoolAlloc) (ix : Index) (b : AppBlock) : Prop where
  addr : b.addr = addrOf b.off
  ptr : b.ptr = B + b.off
  own : Owns a b.off b.size
  apart : b.off ∉ ix.blocks
  le : b.bytes.length ≤ b.size
  bytes : s.mem.read b.ptr b.bytes.length = b.bytes

/-- The entry `e` holds what `op` stored, in blocks that nothing else uses. -/
structure OwnValue (B : ℕ) (s : Touchdb) (a : PoolAlloc) (ix : Index) (held : List AppBlock)
    (op : MapOp) (e : MapNode) (bs : List ℕ) : Prop where
  mem : e ∈ ix.entries
  key : e.key = op.key
  placed : op.Placed B s a e.blk bs
  own : ∀ o ∈ bs, o ∉ ix.blocks ∧ o ∉ held.map AppBlock.off

/-- The index holds the keys put so far, and the values of those put once; every block of the
application is its own. -/
structure AppInv (B : ℕ) (puts : List MapOp) (held : List AppBlock) (s : Touchdb) (a : PoolAlloc)
    (ix : Index) : Prop where
  heap : Heap B s a
  rep : MapRep B s a ix
  keys : ∀ k, k ∈ ix.entries.map MapNode.key ↔ ∃ op ∈ puts, op.key = k
  values : ∀ op, OnlyPut puts op → ∃ e bs, OwnValue B s a ix held op e bs
  blocks : ∀ b ∈ held, b.Rep B s a ix
  nodup : (held.map AppBlock.off).Nodup

section Values
variable {B E : ℕ} {s t : Touchdb} {a a' : PoolAlloc} {ix ix' : Index} {e : MapNode} {bs T : List ℕ}
  {puts : List MapOp} {op x : MapOp} {held held' : List AppBlock}

/-- The only put on its key is the last put of all, or no later one is on that key. -/
theorem OnlyPut.of_append (h : OnlyPut (puts ++ [x]) op) :
    op = x ∧ (∀ o ∈ puts, o.key ≠ x.key) ∨ op.key ≠ x.key ∧ OnlyPut puts op := by
  obtain ⟨hmem, hone⟩ := h
  rw [List.map_append, List.count_append] at hone
  by_cases hk : x.key = op.key
  · have hx : (([x].map MapOp.key).count op.key) = 1 := by simp [hk]
    have h0 : op.key ∉ puts.map MapOp.key := List.count_eq_zero.mp (by omega)
    have hnew : ∀ o ∈ puts, o.key ≠ x.key := fun o ho hc => h0 (List.mem_map.mpr ⟨o, ho, hc.trans hk⟩)
    rcases List.mem_append.mp hmem with hm | hm
    · exact absurd hk.symm (hnew op hm)
    · exact .inl ⟨List.mem_singleton.mp hm, hnew⟩
  · have hx : (([x].map MapOp.key).count op.key) = 0 := by simp [hk]
    refine .inr ⟨Ne.symm hk, ?_, by omega⟩
    rcases List.mem_append.mp hmem with hm | hm
    · exact hm
    · exact absurd (congrArg MapOp.key (List.mem_singleton.mp hm).symm) hk

theorem MapOp.Placed.owns (h : op.Placed B s a E bs) : ∀ o ∈ bs, ∃ n, Owns a o n := by
  intro o ho
  cases op with
  | put k v =>
    obtain ⟨V, rfl, -, hown, -⟩ := h
    exact ⟨_, List.mem_singleton.mp ho ▸ hown⟩
  | putStr k v =>
    obtain ⟨S, D, rfl, -, hr⟩ := h
    rcases List.mem_pair.mp ho with rfl | rfl
    · exact ⟨_, hr.str⟩
    · exact ⟨_, hr.chars⟩
  | putVal k w =>
    rw [h.1] at ho
    exact absurd ho List.not_mem_nil

/-- A stretch that leaves the blocks of the string and the entry's value alone. -/
theorem MapOp.Placed.frame (h : op.Placed B s a E bs) (hF : Frame B s a t a' T)
    (hval : t.field (B + E) MapEntry.val = s.field (B + E) MapEntry.val) (hT : ∀ o ∈ bs, o ∉ T) :
    op.Placed B t a' E bs := by
  cases op with
  | put k v =>
    obtain ⟨V, rfl, hv, hown, hh⟩ := h
    have hV : V ∉ T := hT V (List.mem_singleton_self V)
    exact ⟨V, rfl, hval.trans hv, hF.owns hV hown, hF.holds hV hown hh⟩
  | putStr k v =>
    obtain ⟨S, D, rfl, hv, hr⟩ := h
    exact ⟨S, D, rfl, hval.trans hv, hr.frame hF (hT S (by simp)) (hT D (by simp))⟩
  | putVal k w => exact ⟨h.1, hval.trans h.2⟩

/-- A put on another key. -/
theorem OwnValue.keep (h : OwnValue B s a ix held op e bs) (hk : Keeps B s a ix t a' ix' e)
    (he : e ∈ ix'.entries) : OwnValue B t a' ix' held op e bs := by
  obtain ⟨T, hF, hT⟩ := hk.frame
  have hkeep : ∀ o ∈ bs, o ∉ T ∧ o ∉ ix'.blocks := fun o ho => by
    obtain ⟨n, hown⟩ := h.placed.owns o ho
    exact hT o n hown (h.own o ho).1
  exact ⟨he, h.key, h.placed.frame hF hk.val fun o ho => (hkeep o ho).1,
    fun o ho => ⟨(hkeep o ho).2, (h.own o ho).2⟩⟩

/-- A step of the application. -/
theorem OwnValue.frame (h : OwnValue B s a ix held op e bs) (hm : MapRep B s a ix)
    (hF : Frame B s a t a' T) (hix : ∀ o ∈ ix.blocks, o ∉ T) (hT : ∀ o ∈ bs, o ∉ T)
    (hheld : ∀ o ∈ bs, o ∉ held'.map AppBlock.off) : OwnValue B t a' ix held' op e bs where
  mem := h.mem
  key := h.key
  placed := h.placed.frame hF (hF.val (hm.entry e h.mem).blk (hix _ (Index.blk_mem h.mem))) hT
  own o ho := ⟨(h.own o ho).1, hheld o ho⟩

end Values

section Steps
variable {B : ℕ} {s t : Touchdb} {a a' : PoolAlloc} {ix ix' : Index} {b : AppBlock} {T : List ℕ}
  {puts : List MapOp} {held : List AppBlock} {place : ℕ} {bs : List UInt8}

/-- A block that a stretch does not touch. -/
theorem AppBlock.Rep.frame (h : b.Rep B s a ix) (hF : Frame B s a t a' T) (hT : b.off ∉ T)
    (hb : b.off ∉ ix'.blocks) : b.Rep B t a' ix' where
  addr := h.addr
  ptr := h.ptr
  own := hF.owns hT h.own
  apart := hb
  le := h.le
  bytes := by
    have hle := h.le
    refine (Mem.read_congr fun i hi => ?_).trans h.bytes
    rw [h.ptr]
    exact hF.mem hT h.own (by omega)

theorem AppBlock.Rep.notMem_index (h : b.Rep B s a ix) : ∀ o ∈ ix.blocks, o ∉ [b.off] := by
  intro o ho hc
  rw [List.mem_singleton.mp hc] at ho
  exact h.apart ho

theorem AppBlock.Rep.ne_mapRecord (h : b.Rep B s a ix) : mapRecord ∉ [b.off] := by
  have hb := h.own.bounds
  intro hc
  have h0 : mapRecord = b.off := List.mem_singleton.mp hc
  unfold mapRecord at h0
  omega

/-- Two places name two blocks. -/
theorem AppInv.off_ne (h : AppInv B puts held s a ix) {i j : ℕ} (hi : i < held.length)
    (hj : j < held.length) (hij : i ≠ j) : held[i].off ≠ held[j].off := by
  intro hc
  have hi' : i < (held.map AppBlock.off).length := by simpa using hi
  have hj' : j < (held.map AppBlock.off).length := by simpa using hj
  have hm : (held.map AppBlock.off)[i] = (held.map AppBlock.off)[j] := by simpa using hc
  exact hij (h.nodup.getElem_inj_iff.mp hm)

/-- What is known after a step. -/
abbrev AppNext (B : ℕ) (puts : List MapOp) (held : List AppBlock) (s : Touchdb) : Prop :=
  ∃ a ix, AppInv B puts held s a ix

theorem AppInv.wp_put (h : AppInv B puts held s a ix) (op : MapOp) :
    wp served (AppOp.run held (.put op)) (AppNext B (puts ++ [op])) s := by
  refine wp_bind (MapOp.wp_run h.heap h.rep (fun _ => trivial) (.inl rfl)
    (fun hnone E K u a' ix' bs hi hpl hbs _ => wp_pure
      ⟨a', ix', hi.heap, hi.rep, fun k => ?_, fun o ho => ?_, fun b hb => ?_, h.nodup⟩)
    fun e w u a' hf ho _ => wp_pure
      ⟨a', ix, ho.heap, ho.rep, fun k => ?_, fun o ho' => ?_, fun b hb => ?_, h.nodup⟩)
  · rw [hi.entries, List.map_append, List.mem_append, h.keys k]
    simp only [List.map_cons, List.map_nil, List.mem_singleton, List.mem_append]
    constructor
    · rintro (⟨o, ho, rfl⟩ | rfl)
      · exact ⟨o, .inl ho, rfl⟩
      · exact ⟨op, .inr rfl, rfl⟩
    · rintro ⟨o, ho | rfl, rfl⟩
      · exact .inl ⟨o, ho, rfl⟩
      · exact .inr rfl
  · rcases ho.of_append with ⟨rfl, -⟩ | ⟨hne, ho⟩
    · refine ⟨⟨E, o.key, K⟩, bs, by rw [hi.entries]; simp, rfl, hpl, fun x hx => ⟨(hbs x hx).1, fun hc => ?_⟩⟩
      obtain ⟨b, hb, rfl⟩ := List.mem_map.mp hc
      exact (h.blocks b hb).own.ne_none (hbs _ hx).2
    · obtain ⟨e, bs', hv⟩ := h.values o ho
      exact ⟨e, bs', hv.keep (hi.keeps hv.mem) (by rw [hi.entries]; exact List.mem_append_left _ hv.mem)⟩
  · have hr := h.blocks b hb
    exact hr.frame hi.frame (hr.own.notMem_linked hr.apart)
      (hi.notMem_blocks hr.apart (hr.own.ne hi.blk_fresh) (hr.own.ne hi.keyBlk_fresh))
  · obtain ⟨he, hek⟩ := Index.find_eq_some.mp hf
    rw [h.keys k]
    simp only [List.mem_append, List.mem_singleton]
    constructor
    · rintro ⟨o, ho, rfl⟩
      exact ⟨o, .inl ho, rfl⟩
    · rintro ⟨o, ho | rfl, rfl⟩
      · exact ⟨o, ho, rfl⟩
      · exact (h.keys _).mp (hek ▸ List.mem_map_of_mem he)
  · obtain ⟨he, hek⟩ := Index.find_eq_some.mp hf
    rcases ho'.of_append with ⟨rfl, hnew⟩ | ⟨hne, ho'⟩
    · -- the key had a value before
      obtain ⟨x, hx, hxk⟩ := (h.keys _).mp (List.mem_map.mpr ⟨e, he, hek⟩)
      exact absurd hxk (hnew x hx)
    · obtain ⟨d, bs, hv⟩ := h.values o ho'
      refine ⟨d, bs, hv.keep (ho.keeps h.rep he hv.mem ?_) hv.mem⟩
      rintro rfl
      exact hne (hv.key.symm.trans hek)
  · have hr := h.blocks b hb
    have he := (Index.find_eq_some.mp hf).1
    refine hr.frame ho.frame (fun hc => hr.apart ?_) hr.apart
    rw [List.mem_singleton.mp hc]
    exact Index.blk_mem he

theorem AppInv.wp_malloc (h : AppInv B puts held s a ix) (n : PoolSize) :
    wp served (AppOp.run held (.malloc n)) (AppNext B puts) s := by
  refine wp_bind (wp_touchdbMalloc h.heap n.pos n.le (fun _ => rfl) (fun _ _ _ _ _ => trivial)
    fun o a' t hh ht hF => ?_)
  have hown := hh.owns n.pos
  have hoff : (addrOf o).offset.toNat = o := addrOf_offset hown.lt
  refine wp_pure ⟨a', ix, ht, h.rep.frame hF (by simp) (by simp), h.keys, fun op hop => ?_, ?_, ?_⟩
  · obtain ⟨e, bs, hv⟩ := h.values op hop
    refine ⟨e, bs, hv.frame h.rep hF (by simp) (by simp) fun x hx => ?_⟩
    obtain ⟨m, hxo⟩ := hv.placed.owns x hx
    have hne : x ≠ o := hxo.ne hh.fresh
    rw [List.map_append, List.mem_append, List.map_cons, List.map_nil, List.mem_singleton]
    rintro (hc | hc)
    · exact (hv.own x hx).2 hc
    · exact hne (hc.trans hoff)
  · intro b hb
    rcases List.mem_append.mp hb with hb | hb
    · exact (h.blocks b hb).frame hF (by simp) (h.blocks b hb).apart
    · rw [List.mem_singleton.mp hb]
      refine ⟨congrArg addrOf hoff.symm, congrArg (B + ·) hoff.symm, ?_, ?_, Nat.zero_le _, rfl⟩
      · change Owns a' (addrOf o).offset.toNat n.bytes
        rw [hoff]
        exact hown
      · change (addrOf o).offset.toNat ∉ ix.blocks
        rw [hoff]
        exact fun hc => (h.rep.owns hc).ne_none hh.fresh
  · rw [List.map_append, List.nodup_append']
    refine ⟨h.nodup, List.nodup_singleton _, ?_⟩
    rw [List.map_cons, List.map_nil, List.disjoint_singleton]
    intro hc
    obtain ⟨b, hb, hbo⟩ := List.mem_map.mp hc
    refine (h.blocks b hb).own.ne hh.fresh (hbo.trans hoff)

/-- The values are apart from a block that the application holds. -/
theorem OwnValue.ne_held {op : MapOp} {e : MapNode} {os : List ℕ} (h : OwnValue B s a ix held op e os)
    (hb : b ∈ held) : ∀ o ∈ os, o ∉ [b.off] := by
  intro o ho hc
  exact (h.own o ho).2 (List.mem_map.mpr ⟨b, hb, (List.mem_singleton.mp hc).symm⟩)

theorem map_off_set (hlt : place < held.length) (hb : b.off = held[place].off) :
    (held.set place b).map AppBlock.off = held.map AppBlock.off := by
  rw [List.map_set, hb, ← List.map_set, List.set_getElem_self]

theorem AppInv.wp_write (h : AppInv B puts held s a ix) (place : ℕ) (bs : List UInt8) :
    wp served (AppOp.run held (.write place bs)) (AppNext B puts) s := by
  dsimp only [AppOp.run]
  rcases hb : held[place]? with _ | b
  · exact wp_pure ⟨a, ix, h⟩
  · dsimp only
    obtain ⟨hlt, rfl⟩ := List.getElem?_eq_some_iff.mp hb
    have hr := h.blocks _ (List.getElem_mem hlt)
    refine wp_ite (fun hle => ?_) fun _ => wp_pure ⟨a, ix, h⟩
    rw [hr.ptr]
    have hoffs : (held.set place { held[place] with ptr := B + held[place].off, bytes := bs }).map
        AppBlock.off = held.map AppBlock.off := map_off_set hlt rfl
    refine wp_bind (wp_storeBytesAt h.heap hr.own hle trivial fun ht hF => wp_pure ?_)
    refine ⟨a, ix, ht, h.rep.frame hF ?_ ?_, h.keys, fun op hop => ?_, fun c hc => ?_, ?_⟩
    · exact hr.notMem_index
    · exact hr.ne_mapRecord
    · obtain ⟨e, os, hv⟩ := h.values op hop
      refine ⟨e, os, hv.frame h.rep hF hr.notMem_index (hv.ne_held (List.getElem_mem hlt)) fun o ho => ?_⟩
      rw [hoffs]
      exact (hv.own o ho).2
    · obtain ⟨i, hi, rfl⟩ := List.getElem_of_mem hc
      rw [List.length_set] at hi
      by_cases hip : i = place
      · subst hip
        rw [List.getElem_set_self]
        exact ⟨hr.addr, rfl, hr.own, hr.apart, hle, Mem.read_write_same ..⟩
      · rw [List.getElem_set_ne (Ne.symm hip)]
        have hri := h.blocks _ (List.getElem_mem hi)
        exact hri.frame hF (by simpa using h.off_ne hi hlt hip) hri.apart
    · rw [hoffs]
      exact h.nodup

theorem AppInv.wp_free (h : AppInv B puts held s a ix) (place : ℕ) :
    wp served (AppOp.run held (.free place)) (AppNext B puts) s := by
  dsimp only [AppOp.run]
  rcases hb : held[place]? with _ | b
  · exact wp_pure ⟨a, ix, h⟩
  · dsimp only
    obtain ⟨hlt, rfl⟩ := List.getElem?_eq_some_iff.mp hb
    have hr := h.blocks _ (List.getElem_mem hlt)
    have hsub : ((held.eraseIdx place).map AppBlock.off).Sublist (held.map AppBlock.off) :=
      (List.eraseIdx_sublist held place).map _
    rw [hr.addr]
    refine wp_bind (wp_touchdbFree h.heap hr.own (fun _ _ => trivial) fun a' t hf ht hF _ => wp_pure ?_)
    refine ⟨a', ix, ht, h.rep.frame hF hr.notMem_index hr.ne_mapRecord, h.keys, fun op hop => ?_,
      fun c hc => ?_, h.nodup.sublist hsub⟩
    · obtain ⟨e, os, hv⟩ := h.values op hop
      exact ⟨e, os, hv.frame h.rep hF hr.notMem_index (hv.ne_held (List.getElem_mem hlt)) fun o ho hc =>
        (hv.own o ho).2 (hsub.subset hc)⟩
    · obtain ⟨i, hi, hip, rfl⟩ := List.mem_eraseIdx_iff_getElem.mp hc
      have hri := h.blocks _ (List.getElem_mem hi)
      exact hri.frame hF (by simpa using h.off_ne hi hlt hip) hri.apart

/-- Each step keeps the index and the blocks, and stops only for want of a block. -/
theorem AppInv.wp_run (h : AppInv B puts held s a ix) (op : AppOp) :
    wp served (op.run held) (AppNext B (puts ++ op.put?.toList)) s := by
  cases op with
  | put op => exact h.wp_put op
  | malloc n => simpa [AppOp.put?] using h.wp_malloc n
  | write place bs => simpa [AppOp.put?] using h.wp_write place bs
  | free place => simpa [AppOp.put?] using h.wp_free place

end Steps

/-- No block of the application meets the `n` bytes at `p`. -/
def AppRun.Clear (r : AppRun) (p n : ℕ) : Prop := ∀ b ∈ r.1, Apart b.ptr b.size p n

/-- The call that reads the key returns what `op` stored there, apart from the blocks of the
application; so is the struct of a string. -/
def MapOp.Found (r : AppRun) : MapOp → Prop
  | .put k v => ∃ p l, touchdbGet k.1 r.2 = .ok (p, r.2, l) ∧ r.2.holds p v.1 ∧ r.Clear p (v.1.strlen + 1)
  | .putStr k v => (∃ p l, touchdbGetStr k.1 r.2 = .ok (p, r.2, l) ∧ r.2.holds p v.1 ∧
      r.Clear p (v.1.strlen + 1)) ∧
    ∃ p l S, touchdbMapGet2 k.1 r.2 = .ok (p, r.2, l) ∧ r.2.field p Val.all = ⟨.str, addrOf S⟩ ∧
      r.Clear (r.2.base 0 + S) sizeofStr
  | .putVal k w => ∃ p l, touchdbMapGet2 k.1 r.2 = .ok (p, r.2, l) ∧ r.2.field p Val.all = w.val ∧
      r.Clear p sizeofVal

/-- What an application relies on. -/
structure AppSafe (puts : List MapOp) (r : AppRun) (ix : Index) : Prop where
  index : IndexOk r.2 ix
  keys : ∀ k, k ∈ ix.entries.map MapNode.key ↔ ∃ op ∈ puts, op.key = k
  /-- a key that was put once has its value -/
  values : ∀ op, OnlyPut puts op → op.Found r
  /-- every block holds what was last written to it -/
  bytes : ∀ b ∈ r.1, r.2.mem.read b.ptr b.bytes.length = b.bytes
  used : ∀ b ∈ r.1, b.ptr = r.2.base 0 + b.off ∧ Allocated r.2 b.off b.size
  held_apart : r.1.Pairwise fun b c => Apart b.ptr b.size c.ptr c.size
  table_apart : ∀ b ∈ r.1, Apart b.ptr b.size (r.2.base 0 + ix.tbl) (sizeofMapBulk * ix.count)
  entry_apart : ∀ b ∈ r.1, ∀ e ∈ ix.entries, Apart b.ptr b.size (r.2.base 0 + e.blk) mapEntrySize ∧
    Apart b.ptr b.size (r.2.base 0 + e.keyBlk) (e.key.strlen + 1)

section Runs
variable {B : ℕ} {s : Touchdb} {a : PoolAlloc} {ix : Index} {puts : List MapOp} {held : List AppBlock}
  {b : AppBlock}

theorem AppBlock.Rep.apart_of (h : b.Rep B s a ix) {o n : ℕ} (ho : Owns a o n) (hne : b.off ≠ o) :
    Apart b.ptr b.size (B + o) n := by
  have h1 := h.own.disjoint ho hne
  rw [h.ptr]
  unfold Apart
  omega

theorem AppInv.clear (h : AppInv B puts held s a ix) {o n : ℕ} (ho : Owns a o n)
    (hne : o ∉ held.map AppBlock.off) : AppRun.Clear (held, s) (B + o) n := fun b hb =>
  (h.blocks b hb).apart_of ho fun hc => hne (List.mem_map.mpr ⟨b, hb, hc⟩)

theorem AppInv.found (h : AppInv B puts held s a ix) {op : MapOp} (hop : OnlyPut puts op) :
    op.Found (held, s) := by
  obtain ⟨e, bs, he, hk, hp, hown⟩ := h.values op hop
  have hrep := h.rep.entry e he
  have hfind : ix.find op.key = some e := Index.find_eq_some.mpr ⟨he, hk⟩
  cases op with
  | put k v =>
    obtain ⟨V, rfl, hv, hV, hh⟩ := hp
    have hle := hV.bounds.2
    obtain ⟨l, hg⟩ := h.rep.get_ptr h.heap he hv (by omega)
    rw [hk] at hg
    exact ⟨_, l, hg, hh, h.clear hV (hown V (by simp)).2⟩
  | putStr k v =>
    obtain ⟨S, D, rfl, hv, hr⟩ := hp
    obtain ⟨l, hg⟩ := hr.get_ptr h.heap h.rep hfind hv
    obtain ⟨m, hm⟩ := h.rep.get2_ptr h.heap hfind
    refine ⟨⟨_, l, hg, hr.holds, h.clear hr.chars (hown D (by simp)).2⟩, _, m, S, hm, hv, ?_⟩
    rw [h.heap.base_eq]
    exact h.clear hr.str (hown S (by simp)).2
  | putVal k w =>
    obtain ⟨l, hg⟩ := h.rep.get2_ptr h.heap hfind
    refine ⟨_, l, hg, hp.2, fun b hb => ?_⟩
    have hr := h.blocks b hb
    have h1 := hr.apart_of hrep.blk fun hc => hr.apart (hc ▸ Index.blk_mem he)
    -- the value is the last part of the entry
    have hsize : MapEntry.val.off + sizeofVal ≤ mapEntrySize := by decide
    unfold Apart at *
    omega

theorem AppInv.safe (h : AppInv B puts held s a ix) : AppSafe puts (held, s) ix := by
  have hB := h.heap.base_eq
  have hinv : StoreInv B a.cur puts s a ix := ⟨h.heap, h.rep, h.keys, Nat.le_add_right _ _⟩
  constructor
  case index => exact hinv.indexOk
  case keys => exact h.keys
  case values => exact fun op hop => h.found hop
  case bytes => exact fun b hb => (h.blocks b hb).bytes
  case used =>
    intro b hb
    have hr := h.blocks b hb
    exact ⟨by rw [hr.ptr, hB], h.heap.allocated_iff.mpr hr.own⟩
  case held_apart =>
    rw [List.pairwise_iff_getElem]
    intro i j hi hj hij
    have hri := h.blocks _ (List.getElem_mem hi)
    have hrj := h.blocks _ (List.getElem_mem hj)
    have h1 := hri.apart_of hrj.own (h.off_ne hi hj hij.ne)
    rwa [← hrj.ptr] at h1
  case table_apart =>
    intro b hb
    have hr := h.blocks b hb
    rw [hB]
    exact hr.apart_of h.rep.table fun hc => hr.apart (hc ▸ ix.tbl_mem)
  case entry_apart =>
    intro b hb e he
    have hr := h.blocks b hb
    have hrep := h.rep.entry e he
    rw [hB]
    exact ⟨hr.apart_of hrep.blk fun hc => hr.apart (hc ▸ Index.blk_mem he),
      hr.apart_of hrep.keyBlk fun hc => hr.apart (hc ▸ Index.keyBlk_mem he)⟩

theorem AppRun.step_put {op : MapOp} {t : Touchdb} (h : op.step s = .ok t) :
    AppRun.step (.put op) (held, s) = .ok (held, t) := by
  change (op.run >>= fun _ => (pure held : M (List AppBlock))).run s = _
  unfold MapOp.step Prog.next at h
  rw [run_bind]
  unfold Prog.run at *
  rcases hc : op.run s with e | ⟨u, t', l⟩
  · rw [hc] at h
    cases h
  · rw [hc] at h
    cases h
    rfl

/-- Where a key is put again, the application's next block of that class is the one that its entry
points to. -/
theorem runApp_overwritten (f : NewFiles) (k x y : Text) (n : PoolSize)
    (hn : sizeClass n.bytes = sizeClass (y.1.strlen + 1))
    (hroom : newRoom + roomFor (MapOp.put k x).sizes + roomFor [y.1.strlen + 1] ≤
      touchdbDefaultPoolSize) :
    ∃ r b l, runApp f [.put (.put k x), .put (.put k y), .malloc n] = .ok r ∧ b ∈ r.1 ∧
      touchdbGet k.1 r.2 = .ok (b.ptr, r.2, l) := by
  obtain ⟨s₀, s₁, a₁, ix, hs₀, hs₁, h₁, hq₁, hc₁⟩ := PutInv.first_ends f k x (by omega)
  obtain ⟨e, he, hek⟩ := List.mem_map.mp ((h₁.keys k).mpr (by simp [History.keys]))
  obtain ⟨s₂, V, a₂, hs₂, h₂, hV, hVle, hval, -, hq₂⟩ := h₁.overwrite_ends (v := y) hq₁
    (Index.find_eq_some.mpr ⟨he, hek⟩) (by omega)
  have hqn : a₂.queue (sizeClass n.bytes) = [V - blkHdrSize] := by
    rw [hq₂, hn, Function.update_self]
  -- the block that the second put has released is handed out
  have hw : wp anyEvent (AppOp.run [] (.malloc n)) (fun held t => held = [⟨addrOf V, f.ptr + V, n.bytes, []⟩] ∧
      ∃ l, touchdbGet k.1 t = .ok (f.ptr + V, t, l)) s₂ := by
    refine wp_bind (wp_touchdbMalloc h₂.heap n.pos n.le (fun hc => ?_) (fun _ _ _ _ _ => trivial)
      fun o a' t hh ht hF => wp_pure ?_)
    · rw [Segregated.malloc_of_cons hqn] at hc
      cases hc
    · have ho : o = V := (hh.eq_of_queue hqn).trans (Nat.sub_add_cancel hV.le)
      have hm := h₂.rep.frame hF (by simp) (by simp)
      have hv := (hF.val (h₂.rep.entry e he).blk (by simp)).trans hval
      exact ⟨by rw [ho]; rfl, hek ▸ hm.get_ptr ht he hv hVle⟩
  obtain ⟨held, t, l, hrun, -, rfl, l', hg⟩ := wp_ends hw fun _ h => h
  refine ⟨(_, t), ⟨addrOf V, f.ptr + V, n.bytes, []⟩, l', ?_, List.mem_singleton_self _, hg⟩
  unfold runApp
  rw [hs₀]
  change Run.exec AppRun.step _ ([], s₀) = _
  simp only [Run.exec, AppRun.step_put hs₁, AppRun.step_put hs₂]
  unfold AppRun.step
  rw [run_ok hrun]

end Runs

end TouchDb
