import TouchDb.Str.Rules
import TouchDb.Heap.Pools
import TouchDb.Heap.Allocated

/-! `touchdb_str_cpy`, with a `touchdb_malloc` that may return `NULL`: when it copies the string
completely or does nothing. -/
namespace TouchDb
open Prog Layout

/-- The string that a value refers to. -/
structure StrOf (B : ℕ) (s : Touchdb) (a : PoolAlloc) (w : ValArg a) where
  str : ℕ
  chars : ℕ
  text : Text
  val : w.val B s = ⟨.str, addrOf str⟩
  rep : StrRep B s a str chars text.1

/-- Two string values. They refer to one string, or the strings own blocks of their own; neither value
stands in the string that is overwritten. -/
structure CpyStrs (B : ℕ) (s : Touchdb) (a : PoolAlloc) (d w : ValArg a) where
  dest : StrOf B s a d
  src : StrOf B s a w
  apart : src.str ≠ dest.str → [dest.str, dest.chars, src.str, src.chars].Nodup
  destBlk : d.blk ∉ [dest.str, dest.chars]
  srcBlk : w.blk ∉ [dest.str, dest.chars]

/-- From `s` to `t` the payload of no block was written, in use or not, that at `q` apart. -/
def SamePayloads (B : ℕ) (s : Touchdb) (a : PoolAlloc) (q : ℕ) (t : Touchdb) : Prop :=
  ∀ b ∈ a.blocks, b.off + blkHdrSize ≠ q → ∀ i < blkCap b.cls,
    t.mem (B + (b.off + blkHdrSize) + i) = s.mem (B + (b.off + blkHdrSize) + i)

section
variable {B : ℕ} {s t u : Touchdb} {a a' : PoolAlloc} {o q n m k : ℕ} {v : CStr}
variable {G : Guard Stop Event}

/-- A request writes headers and the address, if it is served. -/
theorem wp_mallocOrNull {f : Field TouchdbAddr} {Q : ℕ → Touchdb → Prop} (h : Heap B s a)
    (hq : Owns a q m) (hf : f.off + 8 ≤ m) (h1 : 1 ≤ n) (h2 : n ≤ 2 ^ 20) (hG : ∀ e, G.emits e)
    (hN : a.malloc (sizeClass n) = none → Q NULL s)
    (hQ : ∀ o a' t, Handed a n o a' → Heap B t a' → Frame B s a t a' [q] →
      t.field (B + q) f = addrOf o → (∀ {α : Type} [Layout α] (g : Field α), g.off + size α ≤ m →
        (g.off + size α ≤ f.off ∨ f.off + 8 ≤ g.off) → t.field (B + q) g = s.field (B + q) g) →
      SamePayloads B s a q t → Q (B + o) t) :
    wp G (mallocOrNull (B + q) f n) Q s := by
  have hB := h.base_pos'
  have hqb := hq.bounds
  unfold mallocOrNull
  apply wp_seq (wp_touchdbPoolMalloc h.toPoolRep h1 h2 fun _ _ _ e _ => hG e)
  intro p u hp
  cases hm : a.malloc (sizeClass n) with
  | none =>
    simp only [MallocPost, hm] at hp
    obtain ⟨rfl, rfl⟩ := hp
    rw [if_pos rfl]
    exact wp_pure (hN hm)
  | some r =>
    obtain ⟨b, a'⟩ := r
    simp only [MallocPost, hm] at hp
    obtain ⟨rfl, hr, hd⟩ := hp
    obtain ⟨hh, hu, hF⟩ := h.handed hm hr hd
    have hbase := hu.base_eq
    have hq' := hh.keep hq
    rw [h.base_eq, Nat.add_assoc, if_neg (by simp only [NULL]; omega)]
    apply wp_bind
    rw [← hbase]
    apply wp_ptrOffsetOf hr.toPoolMapped
    rw [hbase]
    apply wp_bind
    apply wp_store_shift (by omega)
    apply wp_storeCell hu hq' (by simp; omega) (hG _)
    intro hu₁ hF₁
    apply wp_bind
    apply wp_store_shift (by omega)
    apply wp_storeCell hu₁ hq' (by simp; omega) (hG _)
    intro hu₂ hF₂
    apply wp_pure
    apply hQ _ a' _ hh hu₂
    · exact ((hF.trans hF₁).trans hF₂).drop (by simp [Mine])
    · rw [field_addr]
      refine congrArg₂ _ ?_ ?_
      · rw [field_write_disjoint (.inl (by simp; omega))]
        exact field_write_same u _ Addr.poolIdx _
      · exact field_write_same _ _ Addr.offset _
    · intro α _ g hg hgd
      rw [field_write_disjoint (by simp; omega), field_write_disjoint (by simp; omega)]
      exact hF.field (by simp) hq hg
    · intro d hda hdq i hi
      have hda' : d ∈ a'.blocks := (Segregated.malloc_blocks hm d).mpr (.inr hda)
      obtain ⟨c, hc, hle⟩ := hq'
      obtain ⟨e, he, rfl, rfl⟩ := (Segregated.payload_eq_some blkHdrSize_pos).mp hc
      have hed : d ≠ e := fun hde => hdq (by rw [hde])
      have happ := Segregated.disjoint hda' he.1 hed
      -- the payload meets neither the address nor any header
      have hmem := hd.payload_mem h.base_eq hda' hi
      rw [← hmem]
      refine (Mem.write_outside ?_).trans (Mem.write_outside ?_)
      · simp
        omega
      · simp
        omega

end

/-- How a request behaves: it is served, or without a block it stops or, where `N` holds, may return
`NULL`. -/
def Requests (G : Guard Stop Event) (N : Prop) (mallocAt : ℕ → Field TouchdbAddr → ℕ → M ℕ) : Prop :=
  ∀ {B : ℕ} {s : Touchdb} {a : PoolAlloc} {q n m : ℕ} {f : Field TouchdbAddr} {Q : ℕ → Touchdb → Prop},
    Heap B s a → Owns a q m → f.off + 8 ≤ m → 1 ≤ n → n ≤ 2 ^ 20 →
    (N → a.malloc (sizeClass n) = none → Q NULL s) →
    (∀ o a' t, Handed a n o a' → Heap B t a' → Frame B s a t a' [q] →
      t.field (B + q) f = addrOf o → (∀ {α : Type} [Layout α] (g : Field α), g.off + size α ≤ m →
        (g.off + size α ≤ f.off ∨ f.off + 8 ≤ g.off) → t.field (B + q) g = s.field (B + q) g) →
      SamePayloads B s a q t → Q (B + o) t) →
    wp G (mallocAt (B + q) f n) Q s

theorem requests_mallocOrNull {G : Guard Stop Event} (hG : ∀ e, G.emits e) :
    Requests G True mallocOrNull :=
  fun h hq hf h1 h2 hN hQ => wp_mallocOrNull h hq hf h1 h2 hG (hN trivial) hQ

/-- The search of `touchdb_malloc` ends in its first round if that serves the request. -/
theorem requests_mallocAt {G : Guard Stop Event} (hG : ∀ e, G.emits e) (hs : G.stops .noBlock) :
    Requests G False touchdbMallocAt := by
  intro B s a q n m f Q h hq hf h1 h2 _ hQ
  rcases hm : a.malloc (sizeClass n) with _ | ⟨b, a'⟩
  · refine wp_bind (wp_touchdbMalloc h h1 h2 (fun _ => hs) (fun _ _ _ e _ => hG e)
      fun o a' t hh => ?_)
    obtain ⟨b, hb, -⟩ := hh
    rw [hm] at hb
    cases hb
  · have hnull := wp_mallocOrNull (Q := fun p t => p ≠ NULL ∧ Q p t) h hq hf h1 h2 hG
      (fun hnone => by rw [hm] at hnone; cases hnone)
      fun o a' t hh ht hF hfield hkeep hsame => ⟨(hh.owns (n := n) h1).ptr_ne B,
        hQ o a' t hh ht hF hfield hkeep hsame⟩
    unfold mallocOrNull at hnull
    unfold touchdbMallocAt touchdbMalloc touchdbPoolListSize mallocSearch
    refine wp_bind (wp_bind (wp_bind (wp_mono (wp_bind_iff.mp hnull) fun p t hp => ?_)))
    by_cases hp0 : p = NULL
    · rw [if_pos hp0] at hp
      exact absurd rfl hp.2.1
    · rw [if_neg hp0] at hp
      rw [if_pos hp0]
      refine wp_pure (wp_bind (wp_mono (wp_bind_iff.mp hp) fun offset u hu => wp_pure ?_))
      exact wp_mono hu fun _ _ h => h.2

/-- What a copy leaves: `dest` has the characters of `src` in a block of their own, and its old
ones are released. -/
structure Copied (B : ℕ) (s : Touchdb) (a : PoolAlloc) {d w : ValArg a} (x : CpyStrs B s a d w)
    (t : Touchdb) (a' : PoolAlloc) (D : ℕ) : Prop where
  heap : Heap B t a'
  moved : ∃ a₁, Freed a x.dest.chars a₁ ∧ Handed a₁ (x.src.text.1.strlen + 1) D a'
  frame : Frame B s a t a' [x.dest.str, x.dest.chars]
  rep : StrRep B t a' x.dest.str D x.src.text.1
  len : t.field (B + x.dest.str) Str.len = s.field (B + x.dest.str) Str.len

section
variable {B : ℕ} {s t u : Touchdb} {a a' : PoolAlloc} {d w : ValArg a} {x : CpyStrs B s a d w}
variable {G : Guard Stop Event}

theorem CpyStrs.src_ne (x : CpyStrs B s a d w) : x.src.str ≠ x.dest.chars := by
  by_cases h : x.src.str = x.dest.str
  · rw [h]
    exact x.dest.rep.ne
  · have hn := x.apart h
    simp only [List.nodup_cons, List.mem_cons, not_or] at hn
    exact Ne.symm hn.2.1.1

theorem CpyStrs.chars_ne (x : CpyStrs B s a d w) : x.src.chars ≠ x.dest.str := by
  by_cases h : x.src.str = x.dest.str
  · rw [← h]
    exact x.src.rep.ne.symm
  · have hn := x.apart h
    simp only [List.nodup_cons, List.mem_cons, not_or] at hn
    exact Ne.symm hn.1.2.2.1

/-- The characters of `src` are still there after the release and the request, also where they are
those that were released. -/
theorem SamePayloads.holds {q o : ℕ} {v : CStr} (h : SamePayloads B s a q t)
    (hv : s.holds (B + o) v) {a₀ : PoolAlloc} (ho : Owns a₀ o (v.strlen + 1))
    (hb : ∀ b ∈ a₀.blocks, b ∈ a.blocks) (hne : o ≠ q) : t.holds (B + o) v := by
  obtain ⟨c, hc, hle⟩ := ho
  obtain ⟨b, hl, rfl, rfl⟩ := (Segregated.payload_eq_some blkHdrSize_pos).mp hc
  unfold Touchdb.holds at *
  rw [← hv]
  apply Mem.read_congr
  intro i hi
  exact h b (hb b hl.1) hne i (by omega)

theorem wp_strCpyBy {N : Prop} {mallocAt : ℕ → Field TouchdbAddr → ℕ → M ℕ} {Q : Int32 → Touchdb → Prop}
    (hM : Requests G N mallocAt) (h : Heap B s a) (x : CpyStrs B s a d w)
    (hG : ∀ e, G.emits e) (hcopy : ∀ t a' D, Copied B s a x t a' D → Q 0 t)
    (hfull : N → ∀ t a₁, Freed a x.dest.chars a₁ → Heap B t a₁ →
      a₁.malloc (sizeClass (x.src.text.1.strlen + 1)) = none → Q (-1) t) :
    wp G (strCpyBy mallocAt (d.ptr B) (w.ptr B)) Q s := by
  have hR : Reads G := fun _ _ _ => hG _
  have hB := h.base_pos'
  have hd := ValAt.of_field d.owns x.dest.val
  have hw := ValAt.of_field w.owns x.src.val
  have hS := x.dest.rep.str
  have hD := x.dest.rep.chars
  have hS' := x.src.rep.str
  have hD' := x.src.rep.chars
  have hDb := hD'.bounds
  unfold strCpyBy ValArg.ptr
  apply wp_bind
  apply wp_load_shift (by omega)
  apply wp_loadCell h d.owns (by simp [sizeofVal])
  apply wp_bind
  apply wp_load_shift (by omega)
  apply wp_loadCell h w.owns (by simp [sizeofVal])
  rw [hd.type, hw.type, if_pos ⟨rfl, rfl⟩]
  apply wp_bind
  apply wp_load_shift (by omega)
  apply wp_loadCell h d.owns (by simp [sizeofVal])
  rw [hd.value]
  apply wp_bind
  apply wp_ptrOfOwned h hR hS
  apply wp_bind
  apply wp_load_shift (by omega)
  apply wp_loadCell h w.owns (by simp [sizeofVal])
  rw [hw.value]
  apply wp_bind
  apply wp_ptrOfOwned h hR hS'
  apply wp_bind
  apply wp_loadCell h hS (by decide)
  rw [x.dest.rep.data]
  apply wp_bind
  apply wp_touchdbFree h hD fun e _ => hG e
  intro a₁ t₁ hf h₁ hF₁ hF₀
  have hS₁ := hf.keep hS x.dest.rep.ne
  have hv₁ := hF₀.holds (by simp) hD' x.src.rep.holds
  apply wp_bind
  apply wp_loadCell h₁ (hf.keep hS' x.src_ne) (by decide)
  rw [hF₁.field (by simpa using x.src_ne) hS' (by decide), x.src.rep.data]
  apply wp_bind
  apply wp_touchdbPtrOf h₁ (by omega) (hG _)
  apply wp_bind
  apply Heap.wp_readStr h₁ (by omega) hv₁
  apply wp_bind
  apply hM h₁ hS₁ (by decide) (by omega) x.src.text.2
  · intro hN hnone
    rw [if_pos rfl]
    exact wp_pure (hfull hN t₁ a₁ hf h₁ hnone)
  · intro D a' t₂ hD₂ h₂ hF₂ hdata hkeep hsame
    have hDO : Owns a' D (x.src.text.1.strlen + 1) := hD₂.owns (by omega)
    have hblocks : ∀ b ∈ a.blocks, b ∈ a₁.blocks := by
      obtain ⟨b, -, -, rfl⟩ := hf
      intro c hc
      rw [Segregated.free_blocks]
      exact hc
    have hv₂ := hsame.holds hv₁ hD' hblocks x.chars_ne
    have hSD : x.dest.str ≠ D := hS₁.ne hD₂.fresh
    rw [if_neg (hDO.ptr_ne B)]
    apply wp_bind
    apply Heap.wp_readStr h₂ (by omega) hv₂
    apply wp_bind
    apply wp_storeBytesAt h₂ hDO (by simp) (hG _)
    intro h₃ hF₃
    have hS₂ := hD₂.keep hS₁
    apply wp_pure
    apply hcopy _ a' D
    refine ⟨h₃, ⟨a₁, hf, hD₂⟩, ?_, ⟨hS₂, hDO, hSD, ?_, holds_write _ _ _⟩, ?_⟩
    · apply ((hF₁.trans hF₂).trans hF₃).drop
      intro o ho
      simp only [List.mem_append, List.mem_singleton] at ho
      rcases ho with (rfl | rfl) | rfl
      · exact .inl (by simp)
      · exact .inl (by simp)
      · by_cases hoD : o = x.dest.chars
        · exact .inl (by simp [hoD])
        · right
          refine ⟨hD₂.ne_mapRecord, ?_⟩
          exact hF₁.fresh_of (by simpa using hoD) hD₂.fresh
    · rw [hF₃.field (by simpa using hSD) hS₂ (by decide)]
      exact hdata
    · rw [hF₃.field (by simpa using hSD) hS₂ (by decide), hkeep Str.len (by decide) (.inl (by decide))]
      exact hF₁.field (by simpa using x.dest.rep.ne) hS (by decide)

theorem wp_strCpy {Q : Int32 → Touchdb → Prop} (h : Heap B s a) (x : CpyStrs B s a d w)
    (hG : ∀ e, G.emits e) (hcopy : ∀ t a' D, Copied B s a x t a' D → Q 0 t)
    (hfull : ∀ t a₁, Freed a x.dest.chars a₁ → Heap B t a₁ →
      a₁.malloc (sizeClass (x.src.text.1.strlen + 1)) = none → Q (-1) t) :
    wp G (strCpyBy mallocOrNull (d.ptr B) (w.ptr B)) Q s :=
  wp_strCpyBy (requests_mallocOrNull hG) h x hG hcopy fun _ => hfull

end

end TouchDb
