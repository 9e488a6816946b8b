import TouchDb.Str.Copy
import TouchDb.Pool.Runs

/-! When a copy of a string is complete or does nothing: the recorded length is never copied, and a
request that fails comes after the release. -/
namespace TouchDb
open Prog Layout

/-- A process with two values, each of which has a string of its own if both are strings. -/
structure CpyCall where
  ptr : ℕ
  db : Touchdb
  alloc : PoolAlloc
  heap : Heap ptr db alloc
  dest : ValArg alloc
  src : ValArg alloc
  strs : (dest.val ptr db).type = .str → (src.val ptr db).type = .str → CpyStrs ptr db alloc dest src

namespace CpyCall

/-- The call, with a `touchdb_malloc` that returns `NULL` where there is no block. -/
def cpy (c : CpyCall) : M Int32 := strCpyBy mallocOrNull (c.dest.ptr c.ptr) (c.src.ptr c.ptr)

/-- Strings at other places are as they were. -/
def Others (c : CpyCall) (t : Touchdb) (a' : PoolAlloc) (T : List ℕ) : Prop :=
  ∀ S D v, S ∉ T → D ∉ T → StrRep c.ptr c.db c.alloc S D v → StrRep c.ptr t a' S D v ∧
    t.field (c.ptr + S) Str.len = c.db.field (c.ptr + S) Str.len

/-- The copy is complete: `dest` has the characters and the length of `src`, its old characters are
released, once, and no other string changes. -/
structure Done (c : CpyCall) (x : CpyStrs c.ptr c.db c.alloc c.dest c.src) (t : Touchdb) : Prop where
  dest : c.dest.val c.ptr t = c.dest.val c.ptr c.db
  src : c.src.val c.ptr t = c.src.val c.ptr c.db
  copied : ∃ a₁ a' D, Freed c.alloc x.dest.chars a₁ ∧ Handed a₁ (x.src.text.1.strlen + 1) D a' ∧
    Heap c.ptr t a' ∧ StrRep c.ptr t a' x.dest.str D x.src.text.1 ∧
    c.Others t a' [x.dest.str, x.dest.chars]
  len : t.field (c.ptr + x.dest.str) Str.len = c.db.field (c.ptr + x.src.str) Str.len

/-- The values, the strings and the set of blocks in use are as they were. -/
structure Unchanged (c : CpyCall) (t : Touchdb) : Prop where
  dest : c.dest.val c.ptr t = c.dest.val c.ptr c.db
  src : c.src.val c.ptr t = c.src.val c.ptr c.db
  blocks : ∀ o n, Allocated t o n ↔ Allocated c.db o n
  strs : ∃ a', Heap c.ptr t a' ∧ c.Others t a' []

/-- The call is complete or does nothing, and tells which. -/
def CopyOk (c : CpyCall) : Prop :=
  ∃ r t, c.cpy.run c.db = .ok (r, t) ∧ (r = 0 ∨ r = -1) ∧
    (r = 0 → ∃ h h', c.Done (c.strs h h') t) ∧ (r = -1 → c.Unchanged t)

/-- Counting the characters of `dest` as free, the pool has a block for those of `src`. -/
def Room (c : CpyCall) (x : CpyStrs c.ptr c.db c.alloc c.dest c.src) : Prop :=
  HasBlock c.db 0 (x.src.text.1.strlen + 1) ∨
    c.db.field (c.ptr + x.dest.chars - blkHdrSize) FreeBlkHdr.idx =
      Int32.ofNat (sizeClass (x.src.text.1.strlen + 1))

end CpyCall

section
variable {B : ℕ} {s t : Touchdb} {a a' a₁ : PoolAlloc} {o n : ℕ}

/-- A request after a release fails if it failed before and wants a block of another class. -/
theorem Freed.malloc_eq_none (hf : Freed a o a₁) (h : Heap B s a) (h2 : n ≤ 2 ^ 20) :
    a₁.malloc (sizeClass n) = none ↔ a.malloc (sizeClass n) = none ∧
      s.field (B + o - blkHdrSize) FreeBlkHdr.idx ≠ Int32.ofNat (sizeClass n) := by
  obtain ⟨b, hb, rfl, rfl⟩ := hf
  have hcls := h.cls_lt b hb.1
  have hn := sizeClass_lt h2
  have hN : touchdbPoolFreeListCount < 2 ^ 31 := by decide
  have hidx : s.field (B + (b.off + blkHdrSize) - blkHdrSize) FreeBlkHdr.idx = Int32.ofNat b.cls := by
    rw [← Nat.add_assoc, Nat.add_sub_cancel, ← h.base_eq]
    exact h.hdr b hb.1
  have hinj : Int32.ofNat b.cls = Int32.ofNat (sizeClass n) ↔ b.cls = sizeClass n := by
    constructor
    · intro he
      have h1 := congrArg Int32.toInt he
      rw [Int32.toInt_ofNat_of_lt (by omega), Int32.toInt_ofNat_of_lt (by omega)] at h1
      omega
    · intro he
      rw [he]
  rw [hidx, Ne, hinj, Segregated.free_of_live hb, Segregated.malloc_eq_none, Segregated.malloc_eq_none]
  have hcur : (a.push b hb).cur = a.cur := rfl
  rw [hcur]
  by_cases hc : b.cls = sizeClass n
  · have hq : (a.push b hb).queue (sizeClass n) = a.queue (sizeClass n) ++ [b.off] := by
      rw [← hc]
      exact Function.update_self b.cls (a.queue b.cls ++ [b.off]) a.queue
    rw [hq]
    simp [hc]
  · have hq : (a.push b hb).queue (sizeClass n) = a.queue (sizeClass n) :=
      Function.update_of_ne (Ne.symm hc) ..
    rw [hq, and_iff_left hc]

end

section
variable {B : ℕ} {s t : Touchdb} {a a' a₁ : PoolAlloc} {d w : ValArg a} {D : ℕ}

theorem Copied.others {x : CpyStrs B s a d w} (h : Copied B s a x t a' D) {S E : ℕ} {v : CStr}
    (hS : S ∉ [x.dest.str, x.dest.chars]) (hE : E ∉ [x.dest.str, x.dest.chars])
    (hv : StrRep B s a S E v) :
    StrRep B t a' S E v ∧ t.field (B + S) Str.len = s.field (B + S) Str.len :=
  ⟨hv.frame h.frame hS hE, h.frame.field hS hv.str (by decide)⟩

theorem Frame.valOf {T : List ℕ} (h : Frame B s a t a' T) (hd : d.blk ∉ T) : d.val B t = d.val B s :=
  h.field hd d.owns (by simp [sizeofVal])

end

namespace CpyCall
variable {c : CpyCall} {G : Guard Stop Event} {t : Touchdb}

theorem done {x : CpyStrs c.ptr c.db c.alloc c.dest c.src} {a' : PoolAlloc} {D : ℕ}
    (h : Copied c.ptr c.db c.alloc x t a' D)
    (hlen : c.db.field (c.ptr + x.dest.str) Str.len = c.db.field (c.ptr + x.src.str) Str.len) :
    c.Done x t := by
  obtain ⟨a₁, hf, hD⟩ := h.moved
  refine ⟨h.frame.valOf x.destBlk, h.frame.valOf x.srcBlk, ?_, h.len.trans hlen⟩
  exact ⟨a₁, a', D, hf, hD, h.heap, h.rep, fun S E v hS hE hv => h.others hS hE hv⟩

theorem room_iff (c : CpyCall) (x : CpyStrs c.ptr c.db c.alloc c.dest c.src) {a₁ : PoolAlloc}
    (hf : Freed c.alloc x.dest.chars a₁) :
    c.Room x ↔ a₁.malloc (sizeClass (x.src.text.1.strlen + 1)) ≠ none := by
  rw [Ne, hf.malloc_eq_none c.heap x.src.text.2, c.heap.malloc_eq_none x.src.text.2]
  unfold Room
  tauto

/-- Strings are copied where there is room, and the call fails where there is none. -/
theorem wp_strs (c : CpyCall) (hG : ∀ e, G.emits e) (x : CpyStrs c.ptr c.db c.alloc c.dest c.src) :
    wp G c.cpy (fun r t =>
      (r = 0 ∧ c.Room x ∧ ∃ a' D, Copied c.ptr c.db c.alloc x t a' D) ∨
      (r = -1 ∧ ¬ c.Room x ∧ ∃ a₁, Freed c.alloc x.dest.chars a₁ ∧ Heap c.ptr t a₁)) c.db := by
  apply wp_strCpy c.heap x hG
  · intro t a' D h
    obtain ⟨a₁, hf, b, hb, -⟩ := h.moved
    exact .inl ⟨rfl, (c.room_iff x hf).mpr (by simp [hb]), a', D, h⟩
  · intro t a₁ hf h₁ hnone
    exact .inr ⟨rfl, fun hr => (c.room_iff x hf).mp hr hnone, a₁, hf, h₁⟩

/-- Values that are not two strings are left alone. -/
theorem run_other (c : CpyCall)
    (h : ¬ ((c.dest.val c.ptr c.db).type = .str ∧ (c.src.val c.ptr c.db).type = .str)) :
    c.cpy.run c.db = .ok (-1, c.db) := by
  have hB := c.heap.base_pos'
  have hd := ValAt.of_field c.dest.owns (rfl : _ = c.dest.val c.ptr c.db)
  have hw := ValAt.of_field c.src.owns (rfl : _ = c.src.val c.ptr c.db)
  apply run_eq (G := anyEvent) _ fun _ h => h
  unfold cpy strCpyBy ValArg.ptr
  apply wp_bind
  apply wp_load_shift (by omega)
  apply wp_loadCell c.heap c.dest.owns (by simp [sizeofVal])
  apply wp_bind
  apply wp_load_shift (by omega)
  apply wp_loadCell c.heap c.src.owns (by simp [sizeofVal])
  rw [hd.type, hw.type, if_neg]
  · exact wp_pure ⟨rfl, rfl⟩
  · rintro ⟨h1, h2⟩
    exact h ⟨h2, h1.symm.trans h2⟩

/-- A complete or harmless call on strings found room and equal lengths. -/
theorem CopyOk.room (hok : c.CopyOk) (hd : (c.dest.val c.ptr c.db).type = .str)
    (hs : (c.src.val c.ptr c.db).type = .str) :
    c.Room (c.strs hd hs) ∧ c.db.field (c.ptr + (c.strs hd hs).dest.str) Str.len =
      c.db.field (c.ptr + (c.strs hd hs).src.str) Str.len := by
  obtain ⟨r, t, hrun, -, hdone, hsame⟩ := hok
  rcases wp_run (c.wp_strs (G := anyEvent) (fun _ => trivial) (c.strs hd hs)) hrun with
    ⟨rfl, hroom, a', D, h⟩ | ⟨rfl, -, a₁, hf, ht⟩
  · obtain ⟨_, _, hdone⟩ := hdone rfl
    exact ⟨hroom, h.len.symm.trans hdone.len⟩
  · -- the characters of `dest` are no longer in use
    have hu := ((hsame rfl).blocks (c.strs hd hs).dest.chars 0).mpr
      (c.heap.allocated_iff.mpr ((c.strs hd hs).dest.rep.chars.mono (Nat.zero_le _)))
    rw [ht.allocated_zero, hf.used_iff] at hu
    exact absurd rfl hu.2

end CpyCall

/-- A copy is complete or does nothing exactly when the values are not two strings, or there is room
for the characters and the recorded lengths are equal. -/
theorem copyOk_iff (c : CpyCall) :
    c.CopyOk ↔ ∀ hd hs, c.Room (c.strs hd hs) ∧
      c.db.field (c.ptr + (c.strs hd hs).dest.str) Str.len =
        c.db.field (c.ptr + (c.strs hd hs).src.str) Str.len := by
  constructor
  · intro hok hd hs
    exact hok.room hd hs
  · intro h
    by_cases hstr : (c.dest.val c.ptr c.db).type = .str ∧ (c.src.val c.ptr c.db).type = .str
    · obtain ⟨hd, hs⟩ := hstr
      obtain ⟨hroom, hlen⟩ := h hd hs
      obtain ⟨r, t, l, hrun, -, hpost⟩ := wp_ends (c.wp_strs (G := anyEvent) (fun _ => trivial)
        (c.strs hd hs)) fun _ h => h
      rcases hpost with ⟨rfl, -, a', D, hcopied⟩ | ⟨-, hno, -⟩
      · refine ⟨0, t, run_ok hrun, .inl rfl, fun _ => ⟨hd, hs, CpyCall.done hcopied hlen⟩, ?_⟩
        intro h0
        exact absurd h0 (by decide)
      · exact absurd hroom hno
    · refine ⟨-1, c.db, c.run_other hstr, .inr rfl, ?_, fun _ => ?_⟩
      · intro h0
        exact absurd h0 (by decide)
      · exact ⟨rfl, rfl, fun _ _ => Iff.rfl, c.alloc, c.heap, fun _ _ _ _ _ hv => ⟨hv, rfl⟩⟩

/-! A client that builds two strings in a new pool. -/

def newStr (v : Text) : M ℕ := do
  let (p, _) ← touchdbMalloc sizeofVal
  let _ ← touchdbStrNew2 p v.1
  return p

def newStrs (f : NewFiles) (v v' : Text) : M (ℕ × ℕ) := do
  touchdbPoolInit 0 f.ptr false
  let dest ← newStr v
  let src ← newStr v'
  return (dest, src)

/-- A string value in blocks that were free: the value at `V`, its string at `S` and `D`. -/
structure Built (B : ℕ) (s : Touchdb) (a : PoolAlloc) (v : Text) (V S D : ℕ) (t : Touchdb)
    (a' : PoolAlloc) : Prop where
  heap : Heap B t a'
  frame : Frame B s a t a' []
  owns : Owns a' V sizeofVal
  val : t.field (B + V) Val.all = ⟨.str, addrOf S⟩
  rep : StrRep B t a' S D v.1
  len : t.field (B + S) Str.len = UInt32.ofNat (v.1.strlen + 1)
  fresh : ∀ o ∈ [V, S, D], a.payload o = none
  nodup : [V, S, D].Nodup

section
variable {B m : ℕ} {s : Touchdb} {a : PoolAlloc} {v v' : Text} {G : Guard Stop Event}

/-- The room that a string value takes at most. -/
def strRoom (v : Text) : ℕ := roomFor [sizeofVal, sizeofStr, v.1.strlen + 1]

theorem wp_newStr {Q : ℕ → Touchdb → Prop} (h : Heap B s a) (hG : ∀ e, G.emits e)
    (hr : a.cur + strRoom v + m ≤ touchdbDefaultPoolSize)
    (hQ : ∀ V S D t a', Built B s a v V S D t a' → a'.cur + m ≤ touchdbDefaultPoolSize → Q (B + V) t) :
    wp G (newStr v) Q s := by
  simp only [strRoom, roomFor, List.map_cons, List.map_nil, List.sum_cons, List.sum_nil] at hr
  unfold newStr
  apply wp_bind
  apply (Work.start (T := []) h).wp_malloc (.of_all hG) (.one _) (by decide)
    (by decide)
  · intro V a₁ t₁ hV hw₁ hF₁
    have hcur₁ := hV.cur_le
    have hVO : Owns a₁ V sizeofVal := hV.owns (by decide)
    apply wp_bind
    apply wp_touchdbStrNew2_len hw₁ (.of_all hG) (.of_room _) hV.mine hVO v.2
    · intro S D a₂ a₃ u hS hD hw₂ hF₂ hrep hval hlen
      have hcur₂ := hS.cur_le
      have hcur₃ := hD.cur_le
      have hVS : V ≠ S := hVO.ne hS.fresh
      have hVD : V ≠ D := (hS.keep hVO).ne hD.fresh
      apply wp_pure
      apply hQ V S D u a₃
      · refine ⟨hw₂.heap, ?_, hD.keep (hS.keep hVO), hval, hrep, hlen, ?_, ?_⟩
        · apply (hF₁.trans hF₂).drop
          intro o ho
          obtain rfl : o = V := by simpa using ho
          exact hV.mine
        · intro o ho
          simp only [List.mem_cons, List.not_mem_nil, or_false] at ho
          rcases ho with rfl | rfl | rfl
          · exact hV.fresh
          · exact hV.fresh_of hS.fresh
          · exact hV.fresh_of (hS.fresh_of hD.fresh)
        · simp [hVS, hVD, hrep.ne]
      · omega
    · simp only [roomFor, List.map_cons, List.map_nil, List.sum_cons, List.sum_nil]
      omega
  · omega

/-- Two values that have been built one after the other can be copied. -/
def Built.call {V S D V' S' D' : ℕ} {t u : Touchdb} {a₁ a₂ : PoolAlloc}
    (h : Built B s a v V S D t a₁) (h' : Built B t a₁ v' V' S' D' u a₂) : CpyCall where
  ptr := B
  db := u
  alloc := a₂
  heap := h'.heap
  dest := ⟨V, 0, h'.frame.owns (by simp) (by simpa using h.owns)⟩
  src := ⟨V', 0, by simpa using h'.owns⟩
  strs _ _ := by
    have hne {o o' : ℕ} (ho : Owns a₁ o 0) (ho' : o' ∈ [V', S', D']) : o ≠ o' := ho.ne (h'.fresh o' ho')
    have hS : Owns a₁ S 0 := h.rep.str.mono (Nat.zero_le _)
    have hD : Owns a₁ D 0 := h.rep.chars.mono (Nat.zero_le _)
    have hV' : V' ∈ [V', S', D'] := List.mem_cons_self
    have hn := h.nodup
    simp only [List.nodup_cons, List.mem_cons, List.not_mem_nil, or_false, not_or] at hn
    refine ⟨⟨S, D, v, ?_, h.rep.frame h'.frame (by simp) (by simp)⟩, ⟨S', D', v', h'.val, h'.rep⟩,
      fun _ => ?_, ?_, ?_⟩
    · exact (h'.frame.field (f := Val.all) (by simp) h.owns (by decide)).trans h.val
    · simp [h.rep.ne, h'.rep.ne, hne hS, hne hD]
    · simp [hn.1]
    · simp [(hne hS hV').symm, (hne hD hV').symm]

/-- What a client finds who builds two strings in a new pool. -/
theorem exists_strs {f : NewFiles} (v v' : Text) (hr : 1 + strRoom v + strRoom v' ≤ touchdbDefaultPoolSize) :
    ∃ (c : CpyCall) (hd : _) (hs : _),
      (newStrs f v v').run f.db = .ok ((c.dest.ptr c.ptr, c.src.ptr c.ptr), c.db) ∧
      c.db.field (c.ptr + (c.strs hd hs).dest.str) Str.len = UInt32.ofNat (v.1.strlen + 1) ∧
      c.db.field (c.ptr + (c.strs hd hs).src.str) Str.len = UInt32.ofNat (v'.1.strlen + 1) := by
  have hwp : wp anyEvent (newStrs f v v') (fun p u => ∃ (c : CpyCall) (hd : _) (hs : _),
      p = (c.dest.ptr c.ptr, c.src.ptr c.ptr) ∧ u = c.db ∧
      c.db.field (c.ptr + (c.strs hd hs).dest.str) Str.len = UInt32.ofNat (v.1.strlen + 1) ∧
      c.db.field (c.ptr + (c.strs hd hs).src.str) Str.len = UInt32.ofNat (v'.1.strlen + 1)) f.db := by
    have hinit := wp_touchdbPoolInit (G := anyEvent) (s := f.db) (j := 0)
      (by simp [PoolIdxOk, NewFiles.db, Touchdb.zero, touchdbPoolListSize]) f.pos fun _ => trivial
    have hcur : freshAlloc.cur = 1 := rfl
    unfold newStrs
    apply wp_seq hinit
    rintro _ t ⟨hp, hb, -, -⟩
    have ht : Heap f.ptr t freshAlloc := ⟨hp, hb⟩
    apply wp_bind
    apply wp_newStr (m := strRoom v') ht (fun _ => trivial) (by omega)
    intro V S D t₁ a₁ h₁ hroom
    apply wp_bind
    apply wp_newStr (m := 0) h₁.heap (fun _ => trivial) (by omega)
    intro V' S' D' t₂ a₂ h₂ _
    apply wp_pure
    refine ⟨h₁.call h₂, ?_, ?_, rfl, rfl, ?_, h₂.len⟩
    · exact congrArg TouchdbVal.type ((h₂.frame.field (by simp) h₁.owns (by decide)).trans h₁.val)
    · exact congrArg TouchdbVal.type h₂.val
    · exact (h₂.frame.field (by simp) h₁.rep.str (by decide)).trans h₁.len
  obtain ⟨_, _, l, hrun, -, c, hd, hs, rfl, rfl, hlen⟩ := wp_ends hwp fun _ h => h
  exact ⟨c, hd, hs, run_ok hrun, hlen⟩

end

/-- A string of one character is copied over one of three. -/
theorem copyOk_fails : ∃ c : CpyCall,
    (newStrs .page (text 3 97) (text 1 98)).run NewFiles.page.db =
      .ok ((c.dest.ptr c.ptr, c.src.ptr c.ptr), c.db) ∧ ¬ c.CopyOk := by
  obtain ⟨c, hd, hs, hrun, h1, h2⟩ := exists_strs (f := .page) (text 3 97) (text 1 98) (by decide)
  refine ⟨c, hrun, fun hok => ?_⟩
  have hlen := (hok.room hd hs).2
  rw [h1, h2] at hlen
  exact absurd hlen (by decide)

end TouchDb
