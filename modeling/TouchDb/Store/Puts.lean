import TouchDb.Store.Runs
import TouchDb.Core.History

/-! Runs of one kind of put on a new store, with what is known of the value of each entry. -/
namespace TouchDb
open Prog Layout

/-- What was put, oldest first. -/
abbrev Puts := History Text Text

/-- The value of `e` is as it was, and so are the blocks in use that are not in the index. -/
structure Keeps (B : ℕ) (s : Touchdb) (a : PoolAlloc) (ix : Index) (u : Touchdb) (a' : PoolAlloc)
    (ix' : Index) (e : MapNode) : Prop where
  val : u.field (B + e.blk) MapEntry.val = s.field (B + e.blk) MapEntry.val
  frame : ∃ T, Frame B s a u a' T ∧ ∀ o n, Owns a o n → o ∉ ix.blocks → o ∉ T ∧ o ∉ ix'.blocks

/-- The index of the keys put so far, and of each entry what `P` says. -/
structure PutsInv (P : Puts → Touchdb → PoolAlloc → Index → MapNode → Prop) (B : ℕ) (kvs : Puts)
    (s : Touchdb) (a : PoolAlloc) (ix : Index) : Prop where
  heap : Heap B s a
  rep : MapRep B s a ix
  keys : ∀ k : Text, k.1 ∈ ix.entries.map MapNode.key ↔ k ∈ kvs.keys
  vals : ∀ e ∈ ix.entries, P kvs s a ix e

section
variable {B : ℕ} {s u : Touchdb} {a a' : PoolAlloc} {ix ix' : Index} {e d : MapNode}
variable {kvs : Puts} {k v : Text} {E K : ℕ} {w : TouchdbVal} {f : NewFiles}
variable {P : Puts → Touchdb → PoolAlloc → Index → MapNode → Prop}

/-- What the value of an entry points to. -/
theorem valuePtr_eq {V : ℕ} (hval : s.field (B + e.blk) MapEntry.val = ⟨.str, addrOf V⟩)
    (hV : V < 2 ^ 32) : valuePtr B s e = B + V := by
  change B + (s.field (B + e.blk)
    (⟨MapEntry.val.off + Val.value.off⟩ : Field TouchdbAddr)).offset.toNat = _
  rw [(val_parts hval).2, addrOf_offset hV]

theorem Inserted.keeps {k : CStr} (hi : Inserted B s a ix k E K u a' ix')
    (he : e ∈ ix.entries) : Keeps B s a ix u a' ix' e := by
  refine ⟨hi.vals e he, ix.linked, hi.frame, fun o n ho hb => ⟨ho.notMem_linked hb, ?_⟩⟩
  exact hi.notMem_blocks hb (ho.ne hi.blk_fresh) (ho.ne hi.keyBlk_fresh)

/-- What was written once under another key was written once before. -/
theorem once_of_append {k' v' : Text} (hne : e.key ≠ k.1) (hk : k'.1 = e.key)
    (hl : (kvs ++ [(k, v)]).last k' = some v') (ho : (kvs ++ [(k, v)]).Once k') :
    kvs.last k' = some v' ∧ kvs.Once k' := by
  have hkk : k' ≠ k := by
    rintro rfl
    exact hne hk.symm
  rw [History.last_append_other hkk] at hl
  rw [History.once_append_other hkk] at ho
  exact ⟨hl, ho⟩

theorem Overwritten.keeps (ho : Overwritten B s a ix e.blk w [] u a') (hm : MapRep B s a ix)
    (he : e ∈ ix.entries) (hd : d ∈ ix.entries) (hne : d ≠ e) : Keeps B s a ix u a' ix d := by
  refine ⟨ho.frame.val (hm.entry d hd).blk ?_, [e.blk], ho.frame, fun o n _ hb => ⟨fun hc => hb ?_, hb⟩⟩
  · simpa using fun hc => hne (List.inj_on_of_nodup_map ix.blks_nodup hd he hc)
  · exact List.mem_singleton.mp hc ▸ Index.blk_mem he

/-- A put on a new key. -/
theorem PutsInv.insert (h : PutsInv P B kvs s a ix) (hi : Inserted B s a ix k.1 E K u a' ix')
    (hk : ix.find k.1 = none)
    (hold : ∀ e ∈ ix.entries, e.key ≠ k.1 → P kvs s a ix e → P (kvs ++ [(k, v)]) u a' ix' e)
    (hnew : P (kvs ++ [(k, v)]) u a' ix' ⟨E, k.1, K⟩) : PutsInv P B (kvs ++ [(k, v)]) u a' ix' where
  heap := hi.heap
  rep := hi.rep
  keys k' := by
    rw [hi.entries, List.map_append, List.mem_append, h.keys k', History.keys_append,
      List.mem_append]
    refine or_congr_right ?_
    simp only [List.map_cons, List.map_nil, List.mem_singleton]
    exact ⟨fun he => Subtype.ext he, fun he => he ▸ rfl⟩
  vals e he := by
    rw [hi.entries] at he
    rcases List.mem_append.mp he with he | he
    · refine hold e he (fun hc => ?_) (h.vals e he)
      exact Index.find_eq_none.mp hk (hc ▸ List.mem_map_of_mem he)
    · rw [List.mem_singleton.mp he]
      exact hnew

theorem PutsInv.mem_keys (h : PutsInv P B kvs s a ix) (hk : ix.find k.1 = some e) : k ∈ kvs.keys := by
  obtain ⟨he, hek⟩ := Index.find_eq_some.mp hk
  exact (h.keys k).mp (hek ▸ List.mem_map_of_mem he)

theorem PutsInv.find_some (h : PutsInv P B kvs s a ix) (hk : k ∈ kvs.keys) :
    ∃ e ∈ ix.entries, e.key = k.1 ∧ ix.find k.1 = some e := by
  obtain ⟨e, he, hek⟩ := List.mem_map.mp ((h.keys k).mpr hk)
  exact ⟨e, he, hek, Index.find_eq_some.mpr ⟨he, hek⟩⟩

/-- A put on a key that has a value already. -/
theorem PutsInv.overwrite (h : PutsInv P B kvs s a ix) (hk : ix.find k.1 = some e)
    (ho : Overwritten B s a ix e.blk w [] u a')
    (hold : ∀ d ∈ ix.entries, d ≠ e → d.key ≠ k.1 → P kvs s a ix d → P (kvs ++ [(k, v)]) u a' ix d)
    (hnew : P (kvs ++ [(k, v)]) u a' ix e) : PutsInv P B (kvs ++ [(k, v)]) u a' ix := by
  obtain ⟨he, hek⟩ := Index.find_eq_some.mp hk
  refine ⟨ho.heap, ho.rep, fun k' => ?_, fun d hd => ?_⟩
  · rw [h.keys k', History.keys_append, List.mem_append, List.mem_singleton]
    exact ⟨.inl, fun hc => hc.elim id fun hc => hc ▸ h.mem_keys hk⟩
  · by_cases hde : d = e
    · rw [hde]
      exact hnew
    · refine hold d hd hde (fun hc => hde ?_) (h.vals d hd)
      exact List.inj_on_of_nodup_map ix.keys hd he (hc.trans hek.symm)

/-- A run of puts `op` on a new store keeps what each of them keeps. -/
theorem runNew_of_step (op : Text → Text → MapOp) {I : Puts → Touchdb → Prop}
    (hnew : ∀ tbl a u, Handed freshAlloc (2 ^ 10 * sizeofMapBulk) tbl a → Heap f.ptr u a →
      MapRep f.ptr u a (Index.empty tbl 10 (by decide)) → I [] u)
    (hstep : ∀ kvs k v s, I kvs s →
      Run.Post (fun e => e = .noBlock) ((op k v).step s) (I (kvs ++ [(k, v)]))) (kvs : Puts) :
    Run.Post (fun e => e = .noBlock) (runNew f (kvs.map fun x => op x.1 x.2)) (I kvs) := by
  have h := Run.Post.of_wp (A := fun e => e = Stop.noBlock) (G := served) (P := fun _ => I [])
    (wp_touchdbNew (f := f) (fun _ => trivial) (.of_stops rfl _ _) hnew) (fun _ h => h)
    fun _ _ h => h
  unfold runNew runFrom
  rcases hs : (touchdbNew f.ptr).next f.db with e | s
  · rwa [hs] at h
  · rw [hs] at h
    change Run.Post _ (Run.exec MapOp.step (kvs.map _) s) _
    rw [Run.exec_map]
    exact Run.exec_invariant (I := I) (fun pre x t ht => hstep pre x.1 x.2 t ht) kvs [] s h

theorem runNew_putsInv (op : Text → Text → MapOp)
    (hstep : ∀ kvs k v s a ix, PutsInv P f.ptr kvs s a ix →
      Run.Post (fun e => e = .noBlock) ((op k v).step s) fun t =>
        ∃ a ix, PutsInv P f.ptr (kvs ++ [(k, v)]) t a ix) (kvs : Puts) :
    Run.Post (fun e => e = .noBlock) (runNew f (kvs.map fun x => op x.1 x.2)) fun s =>
      ∃ a ix, PutsInv P f.ptr kvs s a ix := by
  refine runNew_of_step op (I := fun kvs s => ∃ a ix, PutsInv P f.ptr kvs s a ix)
    (fun tbl a u _ hu hm => ?_) (fun kvs k v s ⟨a, ix, h⟩ => hstep kvs k v s a ix h) kvs
  exact ⟨a, _, hu, hm, by simp [Index.empty, History.keys], by simp [Index.empty]⟩

end

end TouchDb
