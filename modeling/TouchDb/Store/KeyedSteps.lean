import TouchDb.Store.KeyedRep
import TouchDb.Store.Popped

/-! What one call of a client does to the lists of a store. -/
namespace TouchDb
open Prog Layout

/-- The client knows the values, the index has the keys that were put, and the lists have answered as
queues do. -/
structure KeyedInv (B : ℕ) (p : KeyedPlan) (r : KeyedClient) (s : Touchdb) (a : PoolAlloc) (ix : Index)
    (ls : KeyedChains) (vs : List ValCell) (ss : List StrCell) : Prop where
  rep : KeyedRep B s a ix ls vs ss
  bits : ix.bits = 10
  keys : ∀ c, c ∈ ix.entries.map MapNode.key ↔ ∃ k ∈ p.keys, k.1 = c
  vals : r.vals = vs.map fun v => B + v.blk
  lists : p.lists = KeyedQueues.table ChainCells.kinds ls
  kinds : p.vals = vs.map ValCell.kind
  strs : Say B s a ss p.strs
  stored : Texts (fun e => s.field (B + e.blk) MapEntry.val) ix ss p.stored
  acts : KeyedQueues.Accepts r.acts (KeyedQueues.table ChainCells.vals ls)

section
variable {B : ℕ} {p p' : KeyedPlan} {r : KeyedClient} {s t u : Touchdb} {a a' : PoolAlloc} {T : List ℕ}
variable {ix ix' : Index} {ls ls' : KeyedChains} {vs vs' : List ValCell} {ss ss' : List StrCell}
variable {k : Text} {h : ℕ} {e : MapNode} {x : ChainCells}

/-- The values of the chain that a search for a position finds. -/
theorem wp_readNth {G : Guard Stop Event} {C : ℕ} {q : List ListNode} {Q : Option TouchdbVal → Touchdb → Prop}
    (hh : Heap B s a) (hC : ChainRep B s a C q) (i : ℤ)
    (hQ : Q (Deques.nth (q.map ListNode.val) i) s) : wp G (readVal (valPtr B (Deques.nth q i))) Q s := by
  rw [ClientInv.nth_nodes] at hQ
  rcases hn : Deques.nth q i with _ | n
  · rw [hn] at hQ
    exact wp_readVal_null hQ
  · rw [hn] at hQ
    have hmem : n ∈ q := by
      unfold Deques.nth at hn
      split_ifs at hn
      exact List.mem_of_getElem? hn
    have hO := hC.node n hmem
    have hB := hh.base_pos'
    unfold readVal
    rw [if_neg (by simp only [valPtr, NULL]; omega)]
    refine wp_bind (wp_load_shift (by omega) (wp_loadCell hh hO (by decide) (wp_pure ?_)))
    have hv : s.field (B + n.blk) (⟨ChainNode.val.off + Val.all.off⟩ : Field TouchdbVal) = n.val :=
      hC.val n hmem
    rwa [hv]

/-- The blocks of a value that may leave its list, and the strings that are left. -/
theorem Say.gives {w : TouchdbVal} {k : ValKind}
    {ts ts' : List (Option Text)} (hs : Say B s a ss ts) (hw : IsVal ss w k)
    (hr : KeyedPlan.release ts k = some ts') :
    ∃ l ss', ClientInv.Gives B s a ss w l ss' ∧ Say B s a ss' ts' := by
  cases k with
  | plain =>
    obtain rfl := Option.some.inj hr
    exact ⟨[], ss, ⟨.plain hw, .refl ss, fun _ hz _ => hz, .refl _⟩, hs⟩
  | str i =>
    obtain ⟨z, hz, rfl⟩ := hw
    obtain ⟨o, ho, hzo⟩ := hs.at_place hz
    cases o with
    | none => simp [KeyedPlan.release, ho] at hr
    | some v =>
      have hts : ts.set i none = ts' := by simpa [KeyedPlan.release, ho] using hr
      have hl : z.live = true := hzo.live
      obtain ⟨h1, h2, h3⟩ := FamilyRep.release hz hl
      exact ⟨[z.blk, z.chars], _, ⟨.str (hzo.rep v rfl), h1, h2, h3⟩, hts ▸ hs.release hz⟩

/-- The strings that are left when some are released. -/
theorem FamilyRep.notMem_rest {L : Prop} {cs : List ChainCells} {l : List ℕ} {o : ℕ}
    (hf : FamilyRep L B s a (x :: cs) vs ss)
    (hb : (ss.flatMap StrCell.blocks).Perm (l ++ ss'.flatMap StrCell.blocks))
    (ho : o ∈ ss'.flatMap StrCell.blocks) : o ∉ x.blocks ∧ o ∉ l := by
  have hperm : (familyBlocks (x :: cs) vs ss).Perm
      ((x.blocks ++ l) ++ (cs.flatMap ChainCells.blocks ++ vs.map ValCell.blk ++
        ss'.flatMap StrCell.blocks)) := by
    refine List.perm_iff_count.mpr fun o => ?_
    have h1 := List.perm_iff_count.mp hb o
    simp only [familyBlocks, List.flatMap_cons, List.count_append] at h1 ⊢
    omega
  have hap := (List.nodup_append.mp (hperm.nodup_iff.mp hf.apart)).2.2
  exact not_or.mp fun hc => hap o (List.mem_append.mpr hc) o (List.mem_append_right _ ho) rfl

namespace KeyedInv

/-- After the step the client knows its store again. -/
def Next (B : ℕ) (p : KeyedPlan) (r : KeyedClient) (s : Touchdb) : Prop :=
  ∃ a ix ls vs ss, KeyedInv B p r s a ix ls vs ss

theorem bucketOf_eq (hb : ix.bits = 10) (k : Text) : ix.bucketOf k.1 = newBucket k := by
  unfold Index.bucketOf newBucket Index.count
  rw [hb]
  rfl

/-- There is a key in the bucket of `k`, as the plan has it. -/
theorem ready_iff (hi : KeyedInv B p r s a ix ls vs ss) (k : Text) :
    p.ready k = true ↔ ix.bucket (ix.bucketOf k.1) ≠ [] := by
  unfold KeyedPlan.ready
  rw [List.any_eq_true]
  constructor
  · rintro ⟨j, hj, hjk⟩
    obtain ⟨e, he, hej⟩ := List.mem_map.mp ((hi.keys j.1).mpr ⟨j, hj, rfl⟩)
    refine List.ne_nil_of_mem (a := e) (Index.mem_bucket.mpr ⟨he, ?_⟩)
    rw [hej, bucketOf_eq hi.bits, bucketOf_eq hi.bits]
    exact of_decide_eq_true hjk
  · intro hne
    obtain ⟨e, he⟩ := List.exists_mem_of_ne_nil _ hne
    obtain ⟨he, hek⟩ := Index.mem_bucket.mp he
    obtain ⟨j, hj, hje⟩ := (hi.keys e.key).mp (List.mem_map_of_mem he)
    refine ⟨j, hj, decide_eq_true ?_⟩
    rwa [← hje, bucketOf_eq hi.bits, bucketOf_eq hi.bits] at hek

/-- The index has one more key at most. -/
theorem keys_put (hi : KeyedInv B p r s a ix ls vs ss)
    (h : ∀ c, c ∈ ix'.entries.map MapNode.key ↔ c ∈ ix.entries.map MapNode.key ∨ c = k.1) (c : CStr) :
    c ∈ ix'.entries.map MapNode.key ↔ ∃ j ∈ k :: p.keys, j.1 = c := by
  rw [h, hi.keys]
  simp only [List.mem_cons]
  constructor
  · rintro (⟨j, hj, rfl⟩ | rfl)
    · exact ⟨j, .inr hj, rfl⟩
    · exact ⟨k, .inl rfl, rfl⟩
  · rintro ⟨j, rfl | hj, rfl⟩
    · exact .inr rfl
    · exact .inl ⟨j, hj, rfl⟩

theorem mem_keys (hi : KeyedInv B p r s a ix ls vs ss) : k ∈ p.keys ↔ ix.find k.1 ≠ none := by
  rw [Ne, Index.find_eq_none, not_not, hi.keys]
  constructor
  · exact fun hk => ⟨k, hk, rfl⟩
  · rintro ⟨j, hj, hjk⟩
    exact Subtype.ext hjk ▸ hj

theorem owned (hi : KeyedInv B p r s a ix ls vs ss) : ∀ o ∈ familyBlocks ls.cells vs ss, Owns a o 0 :=
  fun _ => hi.rep.family.owns

theorem apart (hi : KeyedInv B p r s a ix ls vs ss) : ∀ o ∈ familyBlocks ls.cells vs ss, o ∉ ix.blocks :=
  fun o ho hc => hi.rep.apart o hc ho

/-- A put of a value that is no chain: its key has no list any more. -/
theorem cleared {n : MapNode} (hi : KeyedInv B p r s a ix ls vs ss)
    (hp : KeyPut B s a ix (familyBlocks ls.cells vs ss) k n u a' ix')
    (ht : (u.field (B + n.blk) MapEntry.val).type ≠ .chain) :
    KeyedInv B (p.clear k) { r with acts := r.acts ++ [.clear k] } u a' ix' (ls.kerase k) vs ss where
  rep := hp.rep_erase hi.rep ht
  bits := hp.bits.trans hi.bits
  keys := hi.keys_put hp.keys
  vals := hi.vals
  lists := by
    unfold KeyedPlan.clear
    rw [hi.lists]
    exact (KeyedQueues.table_erase hi.rep.named.distinct).symm
  kinds := hi.kinds
  strs := hp.say hi.strs
  stored := hi.stored.put hp.other hp.vals (.refl ss)
  acts := by
    rw [KeyedQueues.table_erase hi.rep.named.distinct]
    exact hi.acts.snoc (.clear _ k)

theorem wp_put (hi : KeyedInv B p r s a ix ls vs ss) (k v : Text) :
    wp served ((KeyedOp.put k v).run r) (Next B (p.clear k)) s := by
  have hall : ∀ e, served.emits e := fun _ => trivial
  have hserve (ns : List ℕ) : Serves served a ns := .of_stops rfl a ns
  have hh := hi.rep.family.heap
  have hm := hi.rep.index
  have hstr : TouchdbValType.str ≠ .chain := by decide
  unfold KeyedOp.run
  rcases hfind : ix.find k.1 with _ | e
  · refine wp_bind (wp_touchdbMapPut_insert hh hm (.of_all hall) (hserve _) k.2 v.2 hfind
      fun E K V a₁ a₂ a' u ix' _ _ _ h hv _ => wp_pure ?_)
    exact ⟨a', ix', _, vs, ss, hi.cleared (.of_inserted h hi.owned hi.apart) (by rwa [hv])⟩
  · have he := (Index.find_eq_some.mp hfind).1
    have hdone {V : ℕ} {a' : PoolAlloc} {u : Touchdb}
        (ho : Overwritten B s a ix e.blk ⟨.str, addrOf V⟩ [] u a') :
        Next B (p.clear k) { r with acts := r.acts ++ [.clear k] } u :=
      ⟨a', ix, _, vs, ss, hi.cleared (.of_overwritten hfind hm ho hi.apart) (by rwa [ho.val])⟩
    refine wp_bind (wp_touchdbMapPut_found hh hm (fun _ _ _ => trivial) hfind ?_)
    by_cases ht : (s.field (B + e.blk) MapEntry.val).type = .str
    · exact wp_mapPutOverwrite_str hh hm he (.of_all hall) (hserve _) v.2 ht
        fun V a₁ a' u _ _ ho _ => wp_pure (hdone ho)
    · exact wp_mapPutOverwrite_other hh hm he (.of_all hall) (hserve _) v.2 ht
        fun V a' u _ ho _ => wp_pure (hdone ho)

/-- A string under a new key stays in use. -/
theorem kept {n : MapNode} {S D : ℕ} {v : Text} (hi : KeyedInv B p r s a ix ls vs ss)
    (hp : KeyPut B s a ix (familyBlocks ls.cells vs ss) k n u a' ix')
    (hval : u.field (B + n.blk) MapEntry.val = ⟨.str, addrOf S⟩) (hr : StrRep B u a' S D v.1)
    (hlen : u.field (B + S) Str.len = UInt32.ofNat (v.1.strlen + 1))
    (hb : ∀ o ∈ [S, D], o ∉ ix'.blocks ∧ ¬ Used a o) :
    KeyedInv B (p.keep k v) { r with acts := r.acts ++ [.clear k] } u a' ix' (ls.kerase k) vs
      (ss ++ [⟨S, D, true⟩]) := by
  have hstr : TouchdbValType.str ≠ .chain := by decide
  have hc := hi.cleared hp (by rwa [hval])
  have hz : StrCell.blocks ⟨S, D, true⟩ = [S, D] := rfl
  have hsub : (KeyedChains.cells (ls.kerase k)).Sublist ls.cells := (List.kerase_sublist k ls).map _
  have hsays : StrCell.Says B u a' ⟨S, D, true⟩ (some v) :=
    ⟨rfl, by simpa using hr, by simpa using hlen⟩
  have hlast : (ss ++ [⟨S, D, true⟩])[p.strs.length]? = some (⟨S, D, true⟩ : StrCell) := by
    rw [← hi.strs.length_eq]
    simp
  refine ⟨⟨hc.rep.family.addStrCell (fun o ho hm => ?_) (fun _ => ⟨v.1, hr⟩) (by simp [hz, hr.ne]),
    hc.rep.index, fun o ho hm => ?_, hc.rep.named⟩, hc.bits, hc.keys, hc.vals, hc.lists, hc.kinds,
    hc.strs.append hsays, ?_, hc.acts⟩
  · exact hi.rep.family.fresh (hb o ho).2 ((familyBlocks_sublist hsub).subset hm)
  · have hm' : o ∈ familyBlocks (KeyedChains.cells (ls.kerase k)) (vs ++ []) (ss ++ [⟨S, D, true⟩]) := by
      simpa using hm
    rcases ListsInv.familyBlocks_append hm' with h | ⟨w, hw, -⟩ | ⟨z, hz', ho'⟩
    · exact hc.rep.apart o ho h
    · cases hw
    · obtain rfl := List.mem_singleton.mp hz'
      exact (hb o ho').1 ho
  · refine Texts.putStr (hi.stored.put hp.other hp.vals fun i z hz' => ⟨z, ?_, rfl⟩) hp.find hlast hval
    rw [List.getElem?_append_left (List.getElem?_eq_some_iff.mp hz').1, hz']

theorem wp_putStr (hi : KeyedInv B p r s a ix ls vs ss) (k v : Text) :
    wp served ((KeyedOp.putStr k v).run r) (Next B (if k ∈ p.keys then p.clear k else p.keep k v)) s := by
  have hall : ∀ e, served.emits e := fun _ => trivial
  have hserve (ns : List ℕ) : Serves served a ns := .of_stops rfl a ns
  have hh := hi.rep.family.heap
  have hm := hi.rep.index
  have hstr : TouchdbValType.str ≠ .chain := by decide
  unfold KeyedOp.run
  rcases hfind : ix.find k.1 with _ | e
  · rw [if_neg (by simp [hi.mem_keys, hfind])]
    refine wp_bind (wp_touchdbPutStr_created hh hm (.of_all hall) (hserve _) k.2 v.2 hfind
      fun E K S D u a' ix' h hv hr hS hD _ hn _ hlen => wp_pure ?_)
    have hfresh : ∀ o ∈ [S, D], o ∉ ix'.blocks ∧ ¬ Used a o := by
      intro o ho
      rcases List.mem_pair.mp ho with rfl | rfl
      · exact ⟨hS, hn.2 _ (by simp)⟩
      · exact ⟨hD, hn.2 _ (by simp)⟩
    exact ⟨a', ix', _, vs, _, hi.kept (.of_inserted h hi.owned hi.apart) hv hr hlen hfresh⟩
  · rw [if_pos (by simp [hi.mem_keys, hfind])]
    exact wp_bind (wp_touchdbPutStr_overwrite hh hm (.of_all hall) (hserve _) v.2 hfind
      fun S u a' h _ _ _ _ => wp_pure ⟨a', ix, _, vs, ss,
        hi.cleared (.of_overwritten hfind hm h hi.apart) (by rwa [h.val])⟩)

/-- A stretch that changes the values and the strings of the client. -/
theorem client {ts : List (Option Text)} (r' : KeyedClient) (hi : KeyedInv B p r s a ix ls vs ss)
    (hF : Frame B s a t a' T) (hT : ∀ o ∈ T, Mine a (familyBlocks ls.cells vs ss) o)
    (hf : FamilyRep False B t a' ls.cells vs' ss')
    (hnew : ∀ o ∈ familyBlocks ls.cells vs' ss', o ∈ familyBlocks ls.cells vs ss ∨ ¬ Used a o)
    (hs : Say B t a' ss' ts) (hg : Grown ss ss') (hvals : r'.vals = vs'.map fun v => B + v.blk)
    (hacts : r'.acts = r.acts) :
    KeyedInv B ⟨p.keys, p.lists, p.stored, vs'.map ValCell.kind, ts⟩ r' t a' ix ls vs' ss' where
  rep := hi.rep.step hF hT hf hnew fun _ h => h
  bits := hi.bits
  keys := hi.keys
  vals := hvals
  lists := hi.lists
  kinds := rfl
  strs := hs
  stored := hi.stored.congr (hi.rep.family.index_frame hi.rep.index hi.rep.apart hF hT).2 hg
  acts := hacts ▸ hi.acts

theorem wp_newStr_bind {α : Type} {c : ℕ → TouchdbAddr → M α} {Q : α → Touchdb → Prop}
    (hi : KeyedInv B p r s a ix ls vs ss) (v : Text)
    (hQ : ∀ V z t a', KeyedInv B
        { p with vals := p.vals ++ [.str p.strs.length], strs := p.strs ++ [some v] }
        { r with vals := r.vals ++ [B + V] } t a' ix ls (vs ++ [⟨V, .str ss.length⟩]) (ss ++ [z]) →
      wp served (c (B + V) (addrOf V)) Q t) :
    wp served (do
      let (p, x) ← touchdbMalloc sizeofVal
      let _ ← touchdbStrNew2 p v.1
      c p x) Q s := by
  apply hi.rep.family.wp_newStrVal v (fun _ => trivial) (.of_stops rfl _ _)
  intro V S D a' t hf hF hfresh _ hr hlen
  have hgrown : Grown ss (ss ++ [⟨S, D, true⟩]) := fun i y hy =>
    ⟨y, by rw [List.getElem?_append_left (List.getElem?_eq_some_iff.mp hy).1, hy], rfl⟩
  have hz : StrCell.Says B t a' ⟨S, D, true⟩ (some v) := ⟨rfl, by simpa using hr, by simpa using hlen⟩
  have hsay := (hi.strs.frame hF (by simp)).append hz
  have hnext := hi.client { r with vals := r.vals ++ [B + V] } hF (by simp) hf
    (fun o ho => ?_) hsay hgrown (by simp [hi.vals]) rfl
  · refine hQ V ⟨S, D, true⟩ t a' ?_
    simpa [hi.kinds, hi.strs.length_eq] using hnext
  · rcases ListsInv.familyBlocks_append ho with h | ⟨w, hw, rfl⟩ | ⟨z, hz, ho⟩
    · exact .inl h
    · obtain rfl := List.mem_singleton.mp hw
      exact .inr (hfresh _ (by simp))
    · obtain rfl := List.mem_singleton.mp hz
      have ho' : o = S ∨ o = D := by simpa [StrCell.blocks] using ho
      rcases ho' with rfl | rfl
      · exact .inr (hfresh _ (by simp))
      · exact .inr (hfresh _ (by simp))

theorem wp_newStr (hi : KeyedInv B p r s a ix ls vs ss) (v : Text) :
    wp served ((KeyedOp.newStr v).run r)
      (Next B { p with vals := p.vals ++ [.str p.strs.length], strs := p.strs ++ [some v] }) s := by
  unfold KeyedOp.run
  refine hi.wp_newStr_bind (c := fun q _ => pure { r with vals := r.vals ++ [q] }) v ?_
  intro V z t a' h
  exact wp_pure ⟨a', ix, ls, _, _, h⟩

theorem wp_newVal (hi : KeyedInv B p r s a ix ls vs ss) (w : NonStr) :
    wp served ((KeyedOp.newVal w).run r) (Next B { p with vals := p.vals ++ [.plain] }) s := by
  have hall : ∀ e, served.emits e := fun _ => trivial
  have hf := hi.rep.family
  unfold KeyedOp.run
  refine wp_bind ((Work.start hf.heap).wp_malloc (T := []) (.of_all hall) (.of_stops rfl _ [_])
    (by decide) (by decide) fun V a₁ t hV hw hF => ?_)
  have hVO : Owns a₁ V sizeofVal := hV.owns (by decide)
  refine wp_bind (hw.wp_store (.of_all hall) hV.mine hVO (by decide) fun hw' hF' => wp_pure ?_)
  have hvals := ((hf.frame hw'.heap hw'.frame (by simp)).addVal (v := ⟨V, .plain⟩)
    (hf.fresh hV.not_used) ⟨hVO, by rw [field_write_same]; exact w.2⟩).perm (.refl _)
      (List.perm_append_singleton _ _).symm
  have hnext := hi.client { r with vals := r.vals ++ [B + V] } hw'.frame (by simp) hvals
    (fun o ho => ?_) (hi.strs.frame hw'.frame (by simp)) (.refl ss) (by simp [hi.vals]) rfl
  · refine ⟨a₁, ix, ls, vs ++ [⟨V, .plain⟩], ss, ?_⟩
    simpa [hi.kinds] using hnext
  · rcases mem_familyBlocks.mp ho with h | ⟨v, hv, rfl⟩ | h
    · exact .inl (mem_familyBlocks.mpr (.inl h))
    · rcases List.mem_append.mp hv with hv | hv
      · exact .inl (mem_familyBlocks.mpr (.inr (.inl ⟨v, hv, rfl⟩)))
      · obtain rfl := List.mem_singleton.mp hv
        exact .inr hV.not_used
    · exact .inl (mem_familyBlocks.mpr (.inr (.inr h)))

theorem wp_alloc (hi : KeyedInv B p r s a ix ls vs ss) (n : PoolSize) :
    wp served ((KeyedOp.alloc n).run r) (Next B p) s := by
  unfold KeyedOp.run
  refine wp_bind ((Work.start hi.rep.family.heap).wp_malloc (T := []) (.of_all fun _ => trivial)
    (.of_stops rfl _ [_]) n.pos n.le fun N a₁ t hN hw hF => wp_pure ?_)
  have hnext := hi.client r hF (by simp) (hi.rep.family.frame hw.heap hF (by simp))
    (fun o ho => .inl ho) (hi.strs.frame hF (by simp)) (.refl ss) hi.vals rfl
  refine ⟨a₁, ix, ls, vs, ss, ?_⟩
  simpa [← hi.kinds] using hnext

/-- The struct of a value of the client is released. -/
theorem released {v : ValCell} (hi : KeyedInv B p r s a ix ls vs ss) (hv : vs[h]? = some v)
    (hf : FamilyRep False B t a' ls.cells (vs.eraseIdx h) ss) (hF : Frame B s a t a' [v.blk]) :
    KeyedInv B { p with vals := p.vals.eraseIdx h } { r with vals := r.vals.eraseIdx h } t a' ix ls
      (vs.eraseIdx h) ss := by
  have hvm : v ∈ vs := List.mem_of_getElem? hv
  have hsay := hi.strs.frame hF fun o ho hc => ?_
  · have hnext := hi.client { r with vals := r.vals.eraseIdx h } hF (fun o ho => ?_) hf
      (fun o ho => .inl ?_) hsay (.refl ss) (by simp [hi.vals, List.eraseIdx_map]) rfl
    · simpa [hi.kinds, List.eraseIdx_map] using hnext
    · obtain rfl := List.mem_singleton.mp ho
      exact .inl (mem_familyBlocks.mpr (.inr (.inl ⟨v, hvm, rfl⟩)))
    · simp only [mem_familyBlocks] at ho ⊢
      rcases ho with h | ⟨w, hw, rfl⟩ | h
      · exact .inl h
      · exact .inr (.inl ⟨w, List.mem_of_mem_eraseIdx hw, rfl⟩)
      · exact .inr (.inr h)
  · obtain rfl := List.mem_singleton.mp hc
    have hap := (List.nodup_append.mp hi.rep.family.apart).2.2
    exact hap v.blk (List.mem_append_right _ (List.mem_map_of_mem hvm)) v.blk ho rfl

theorem wp_drop (hi : KeyedInv B p r s a ix ls vs ss) (h : ℕ) :
    wp served ((KeyedOp.drop h).run r) (Next B { p with vals := p.vals.eraseIdx h }) s := by
  rcases hv : vs[h]? with _ | v
  · have hr : r.vals[h]? = none := by simp [hi.vals, hv]
    have hp : p.vals.eraseIdx h = p.vals := by
      rw [List.eraseIdx_of_length_le]
      rw [hi.kinds, List.length_map]
      exact List.getElem?_eq_none_iff.mp hv
    simp only [KeyedOp.run, hr, hp]
    exact wp_pure ⟨a, ix, ls, vs, ss, hi⟩
  · have hr : r.vals[h]? = some (B + v.blk) := by simp [hi.vals, hv]
    simp only [KeyedOp.run, hr]
    exact hi.rep.family.wp_drop hv (fun _ => trivial) fun a' t hf hF =>
      wp_pure ⟨a', ix, ls, _, ss, hi.released hv hf hF⟩

/-! The list calls, where the bucket has a key. -/

theorem perm (hi : KeyedInv B p r s a ix ls vs ss) (hp : ls.Perm ls') :
    KeyedInv B p r s a ix ls' vs ss where
  rep := hi.rep.perm hp
  bits := hi.bits
  keys := hi.keys
  vals := hi.vals
  lists := by rw [hi.lists, KeyedQueues.table_perm hi.rep.named.distinct hp]
  kinds := hi.kinds
  strs := hi.strs
  stored := hi.stored
  acts := by
    rw [← KeyedQueues.table_perm hi.rep.named.distinct hp]
    exact hi.acts

/-- The list that is under a key, at the front. -/
theorem front (hi : KeyedInv B p r s a ix ls vs ss) (hx : x ∈ ls.dlookup k) :
    ∃ ls', KeyedInv B p r s a ix (⟨k, x⟩ :: ls') vs ss := by
  obtain ⟨ls', hp, -⟩ := hi.rep.front hx
  exact ⟨ls', hi.perm hp⟩

theorem list_at (hi : KeyedInv B p r s a ix (⟨k, x⟩ :: ls) vs ss) :
    p.lists k = some x.kinds ∧ KeyedQueues.table ChainCells.vals (⟨k, x⟩ :: ls) k = some x.vals := by
  rw [hi.lists, KeyedQueues.table_cons, KeyedQueues.table_cons, Function.update_self,
    Function.update_self]
  exact ⟨rfl, rfl⟩

theorem list_none (hi : KeyedInv B p r s a ix ls vs ss) (hk : k ∉ ls.keys) :
    p.lists k = none ∧ KeyedQueues.table ChainCells.vals ls k = none := by
  rw [hi.lists]
  unfold KeyedQueues.table
  rw [List.dlookup_eq_none.mpr hk]
  exact ⟨rfl, rfl⟩

/-- A search for the list under a key, and what follows it. -/
theorem wp_getChain_bind {α : Type} {c : ℕ → M α} {Q : α → Touchdb → Prop}
    (hi : KeyedInv B p r s a ix ls vs ss) (hready : p.ready k = true)
    (hsome : ∀ ls' x, KeyedInv B p r s a ix (⟨k, x⟩ :: ls') vs ss → B + x.blk ≠ NULL →
      wp served (c (B + x.blk)) Q s)
    (hnone : k ∉ ls.keys → wp served (c NULL) Q s) : wp served (getChain k.1 >>= c) Q s := by
  refine wp_bind (hi.rep.wp_getChain (fun _ _ _ => trivial) ((hi.ready_iff k).mp hready) (fun x hx => ?_)
    hnone)
  obtain ⟨ls', hi'⟩ := hi.front hx
  exact hsome ls' x hi' ((hi'.rep.family.chains x List.mem_cons_self).chain.chain.ptr_ne B)

theorem wp_size (hi : KeyedInv B p r s a ix ls vs ss) (hready : p.ready k = true) :
    wp served ((KeyedOp.size k).run r) (Next B p) s := by
  unfold KeyedOp.run touchdbListSize
  refine wp_bind (hi.wp_getChain_bind hready (fun ls' x hi hne => ?_) fun hk => ?_)
  · have hX := (hi.rep.family.chains x List.mem_cons_self).chain
    rw [if_pos hne]
    refine wp_touchdbChainSize hi.rep.family.heap hX (wp_pure ⟨a, ix, _, vs, ss, { hi with acts := ?_ }⟩)
    have hacts := hi.acts.snoc (.length _ k)
    rw [hi.list_at.2] at hacts
    rw [Int32.toInt_ofNat_of_lt hX.length_lt_word]
    simpa [ChainCells.vals] using hacts
  · rw [if_neg (by simp)]
    refine wp_pure (wp_pure ⟨a, ix, ls, vs, ss, { hi with acts := ?_ }⟩)
    have hacts := hi.acts.snoc (.length _ k)
    rwa [(hi.list_none hk).2] at hacts

theorem wp_nodeIdx (hi : KeyedInv B p r s a ix ls vs ss) (hready : p.ready k = true) (i : ChainIdx) :
    wp served ((KeyedOp.nodeIdx k i).run r) (Next B p) s := by
  unfold KeyedOp.run touchdbListNodeIdx
  refine wp_bind (hi.wp_getChain_bind hready (fun ls' x hi hne => ?_) fun hk => ?_)
  · have hX := (hi.rep.family.chains x List.mem_cons_self).chain
    have hh := hi.rep.family.heap
    rw [if_pos hne]
    refine wp_touchdbChainNodeIdx hh (fun _ _ _ => trivial) hX i.lt (wp_bind (wp_readNth hh hX _
      (wp_pure ⟨a, ix, _, vs, ss, { hi with acts := ?_ }⟩)))
    have hacts := hi.acts.snoc (.nth _ k i.idx.toInt)
    rwa [hi.list_at.2] at hacts
  · rw [if_neg (by simp)]
    refine wp_pure (wp_bind (wp_readVal_null (wp_pure ⟨a, ix, ls, vs, ss, { hi with acts := ?_ }⟩)))
    have hacts := hi.acts.snoc (.nth _ k i.idx.toInt)
    rwa [(hi.list_none hk).2] at hacts

/-- A list at the front has other cells, and the client other values and strings. -/
theorem changed {y : ChainCells} {act : KeyedQueues.Act Text TouchdbVal} {keys : List Text}
    {stored : Text → Option ℕ} {vals : List ValKind} {ts : List (Option Text)} (vals' : List ℕ)
    (hi : KeyedInv B p r s a ix (⟨k, x⟩ :: ls) vs ss) (hF : Frame B s a t a' T)
    (hT : ∀ o ∈ T, Mine a (familyBlocks (KeyedChains.cells (⟨k, x⟩ :: ls)) vs ss) o)
    (hf : FamilyRep False B t a' (KeyedChains.cells (⟨k, y⟩ :: ls)) vs' ss') (hy : y.blk = x.blk)
    (hnew : ∀ o ∈ familyBlocks (KeyedChains.cells (⟨k, y⟩ :: ls)) vs' ss',
      o ∈ familyBlocks (KeyedChains.cells (⟨k, x⟩ :: ls)) vs ss ∨ ¬ Used a o)
    (hs : Say B t a' ss' ts) (hg : Grown ss ss')
    (hst : ∀ val, Texts val ix ss' p.stored → Texts val ix ss' stored)
    (hkeys : ∀ c, c ∈ ix.entries.map MapNode.key ↔ ∃ j ∈ keys, j.1 = c)
    (hvals : vals' = vs'.map fun v => B + v.blk) (hkinds : vals = vs'.map ValCell.kind)
    (hact : KeyedQueues.Step (KeyedQueues.table ChainCells.vals (⟨k, x⟩ :: ls)) act
      (Function.update (KeyedQueues.table ChainCells.vals (⟨k, x⟩ :: ls)) k (some y.vals))) :
    KeyedInv B ⟨keys, Function.update p.lists k (some y.kinds), stored, vals, ts⟩
      ⟨vals', r.acts ++ [act]⟩ t a' ix (⟨k, y⟩ :: ls) vs' ss' where
  rep := hi.rep.step hF hT hf hnew fun _ h => h.cells hy
  bits := hi.bits
  keys := hkeys
  vals := hvals
  lists := by
    rw [hi.lists]
    exact KeyedQueues.table_set
  kinds := hkinds
  strs := hs
  stored := hst _ (hi.stored.congr (hi.rep.family.index_frame hi.rep.index hi.rep.apart hF hT).2 hg)
  acts := by
    have hacts := hi.acts.snoc hact
    rwa [KeyedQueues.table_set] at hacts

theorem keys_list (hi : KeyedInv B p r s a ix (⟨k, x⟩ :: ls) vs ss) (c : CStr) :
    c ∈ ix.entries.map MapNode.key ↔ ∃ j ∈ k :: p.keys, j.1 = c := by
  obtain ⟨e, he, -⟩ := hi.rep.named.entry _ List.mem_cons_self
  obtain ⟨he, hek⟩ := Index.find_eq_some.mp he
  refine hi.keys_put (fun c => ⟨.inl, ?_⟩) c
  rintro (hc | rfl)
  · exact hc
  · exact hek ▸ List.mem_map_of_mem he

/-- After a push of `v`. The values and the strings of the client are as before. -/
def PushNext (B : ℕ) (p : KeyedPlan) (r : KeyedClient) (w : TouchdbVal) (k : Text) (v : ValKind)
    (vs : List ValCell) (ss : List StrCell) (t : Touchdb) : Prop :=
  ∃ a ix ls, KeyedInv B (p.push k v) { r with acts := r.acts ++ [.push k w] } t a ix ls vs ss

/-- A push to the list that is under a key. -/
theorem wp_pushTo {v : ValCell} (hi : KeyedInv B p r s a ix (⟨k, x⟩ :: ls) vs ss) (hv : v ∈ vs) :
    wp served (touchdbChainPushTail (B + x.blk) (B + v.blk)) (fun _ t =>
      PushNext B p r (s.field (B + v.blk) Val.all) k v.kind vs ss t) s := by
  refine hi.rep.family.wp_push (i := 0) (x := x) (by rfl) hv (fun _ => trivial) (.of_stops rfl _ _)
    fun N a' t hf hF hN _ => ?_
  obtain ⟨hkinds, hvals⟩ := hi.list_at
  have hact := KeyedQueues.Step.push (KeyedQueues.table ChainCells.vals (⟨k, x⟩ :: ls)) k
    (s.field (B + v.blk) Val.all)
  rw [hvals] at hact
  have hcells : ChainCells.vals ⟨x.blk, x.cells ++ [⟨⟨N, s.field (B + v.blk) Val.all⟩, v.kind⟩]⟩ =
      x.vals ++ [s.field (B + v.blk) Val.all] := by
    simp [ChainCells.vals, ChainCells.nodes]
  have hf' : FamilyRep False B t a' (KeyedChains.cells
      (⟨k, ⟨x.blk, x.cells ++ [⟨⟨N, s.field (B + v.blk) Val.all⟩, v.kind⟩]⟩⟩ :: ls)) vs ss := hf
  have hsay := hi.strs.frame hF fun o ho => (hi.rep.family.notMem_rest (l := []) (.refl _) ho).1
  have hnext := hi.changed r.vals hF
    (fun o ho => .inl (mem_familyBlocks.mpr (.inl ⟨x, List.mem_cons_self, ho⟩))) hf' rfl
    (fun o ho => ?_) hsay (.refl ss) (fun _ h => h.forget k) hi.keys_list hi.vals hi.kinds
    (by rw [hcells]; exact hact)
  · refine ⟨a', ix, ⟨k, ⟨x.blk, x.cells ++ [⟨⟨N, s.field (B + v.blk) Val.all⟩, v.kind⟩]⟩⟩ :: ls, ?_⟩
    unfold KeyedPlan.push
    rw [hkinds]
    simpa [ChainCells.kinds] using hnext
  · rcases mem_familyBlocks.mp ho with ⟨y, hy, ho⟩ | h
    · rcases List.mem_cons.mp hy with rfl | hy
      · have ho' : o ∈ x.blocks ∨ o = N := by
          simpa [ChainCells.blocks, ChainCells.nodes, or_assoc] using ho
        rcases ho' with ho' | rfl
        · exact .inl (mem_familyBlocks.mpr (.inl ⟨x, List.mem_cons_self, ho'⟩))
        · exact .inr hN
      · exact .inl (mem_familyBlocks.mpr (.inl ⟨y, List.mem_cons_of_mem _ hy, ho⟩))
    · exact .inl (mem_familyBlocks.mpr (.inr h))

/-- A push under a key that has no list: a new chain is put under it. -/
theorem wp_pushNew {v : ValCell} (hi : KeyedInv B p r s a ix ls vs ss) (hv : v ∈ vs) (hk : k ∉ ls.keys) :
    wp served (do
      let (val, addr) ← touchdbMalloc sizeofVal
      let chain ← touchdbChainNew val
      touchdbChainPushTail chain (B + v.blk)
      let _ ← touchdbMapPut2 k.1 val
      touchdbFree addr) (fun _ t => PushNext B p r (s.field (B + v.blk) Val.all) k v.kind vs ss t) s := by
  have hall : ∀ e, served.emits e := fun _ => trivial
  apply hi.rep.family.wp_newListVal (α := Unit) (k := fun p x => do
    let _ ← touchdbMapPut2 k.1 p
    touchdbFree x) hv hall rfl
  intro q C y a₁ t hy hyv hf hF hfresh hqO hqf hqw
  have hq := hfresh q (by simp)
  have hqu : a.payload q = none := not_not.mp hq.2
  have hfam (o : ℕ) (ho : o ∈ familyBlocks (KeyedChains.cells (⟨k, ⟨C, [y]⟩⟩ :: ls)) vs ss) : o ≠ q := by
    rintro rfl
    exact hqf ho
  have hnew (o : ℕ) (ho : o ∈ familyBlocks (KeyedChains.cells (⟨k, ⟨C, [y]⟩⟩ :: ls)) vs ss) :
      o ∈ familyBlocks ls.cells vs ss ∨ ¬ Used a o := by
    have ho' : (o = C ∨ o = y.node.blk) ∨ o ∈ familyBlocks ls.cells vs ss := by
      simpa [familyBlocks, KeyedChains.cells, ChainCells.blocks, ChainCells.nodes, or_assoc] using ho
    rcases ho' with (rfl | rfl) | ho'
    · exact .inr (hfresh _ (by simp)).2
    · exact .inr (hfresh _ (by simp)).2
    · exact .inl ho'
  have hout (o : ℕ) (ho : o ∈ familyBlocks (KeyedChains.cells (⟨k, ⟨C, [y]⟩⟩ :: ls)) vs ss) :
      o ∉ ix.blocks := by
    intro hc
    rcases hnew o ho with hm | hn
    · exact hi.rep.apart o hc hm
    · exact hn (hi.rep.index.owns hc).used
  have hCO := (hf.chains ⟨C, [y]⟩ List.mem_cons_self).chain.chain
  obtain ⟨hkinds, hvals⟩ := hi.list_none hk
  -- what is left to show once the chain is in the index
  have hdone {u : Touchdb} {a' : PoolAlloc} {ix' : Index} {n : MapNode} {T : List ℕ}
      (hp : KeyPut B s a ix (familyBlocks ls.cells vs ss) k n u a' ix') (hF' : Frame B t a₁ u a' T)
      (hT : ∀ o ∈ familyBlocks (KeyedChains.cells (⟨k, ⟨C, [y]⟩⟩ :: ls)) vs ss, o ∉ T ∧ o ∉ ix'.blocks)
      (hval : u.field (B + n.blk) MapEntry.val = ⟨.chain, addrOf C⟩) :
      PushNext B p r (s.field (B + v.blk) Val.all) k v.kind vs ss u := by
    refine ⟨a', ix', ⟨k, ⟨C, [y]⟩⟩ :: ls, ⟨hf.frame hp.heap hF' fun o ho => (hT o ho).1, hp.rep,
      fun o ho hc => (hT o hc).2 ho, hi.rep.named.putChain hp.other hp.vals hp.find hval hk⟩,
      hp.bits.trans hi.bits, hi.keys_put hp.keys, hi.vals, ?_, hi.kinds, hp.say hi.strs,
      hi.stored.put hp.other hp.vals (.refl ss), ?_⟩
    · unfold KeyedPlan.push
      rw [hkinds, hi.lists, KeyedQueues.table_cons]
      simp [ChainCells.kinds, hy]
    · have hacts := hi.acts.snoc (.push _ k (s.field (B + v.blk) Val.all))
      rw [hvals] at hacts
      rw [KeyedQueues.table_cons]
      simpa [ChainCells.vals, ChainCells.nodes, hyv] using hacts
  rcases hfind : ix.find k.1 with _ | e
  · refine wp_moveInsert hi.rep.index (.of_all hall) ⟨hf.heap, hF.drop (by simp)⟩ hF (.of_stops rfl _ _) k.2
      hqO hq.1 hqu hqw hCO.inPool hfind fun E K u a' ix' h hval hnew' hF' _ => ?_
    refine hdone (.of_inserted h hi.owned hi.apart) hF' (fun o ho => ⟨?_, ?_⟩) hval
    · exact List.not_mem_cons_of_ne_of_not_mem (hfam o ho) ((hf.owns ho).notMem_linked (hout o ho))
    · refine h.notMem_blocks (hout o ho) ?_ ?_
      · rintro rfl
        exact hnew' o (by simp) (hf.owns ho).used
      · rintro rfl
        exact hnew' o (by simp) (hf.owns ho).used
  · have he := (Index.find_eq_some.mp hfind).1
    refine wp_moveOverwrite hi.rep.index (.of_all hall) ⟨hf.heap, hF.drop (by simp)⟩ hF hqO hq.1 hqu hqw
      hCO.inPool (by simp) hfind fun u a' h hF' _ => ?_
    refine hdone (.of_overwritten hfind hi.rep.index h hi.apart) hF' (fun o ho => ⟨fun hm => ?_, hout o ho⟩)
      h.val
    rcases List.mem_pair.mp hm with rfl | rfl
    · exact hqf ho
    · exact hout _ ho (Index.blk_mem he)

/-- A value of the client is pushed under a key, in whose bucket there is one. -/
theorem wp_listPush {v : ValCell} (hi : KeyedInv B p r s a ix ls vs ss) (hv : v ∈ vs)
    (hready : p.ready k = true) : wp served (touchdbListPush k.1 (B + v.blk)) (fun _ t =>
      PushNext B p r (s.field (B + v.blk) Val.all) k v.kind vs ss t) s := by
  unfold touchdbListPush
  refine hi.wp_getChain_bind hready (fun ls' x hi hne => ?_) fun hk => ?_
  · rw [if_pos hne]
    exact hi.wp_pushTo hv
  · rw [if_neg (by simp)]
    exact hi.wp_pushNew hv hk

theorem wp_push (hi : KeyedInv B p r s a ix ls vs ss) (hop : p.step (.push k h) = some p') :
    wp served ((KeyedOp.push k h).run r) (Next B p') s := by
  rcases hv : vs[h]? with _ | v
  · have hr : r.vals[h]? = none := by simp [hi.vals, hv]
    have hp : p.vals[h]? = none := by simp [hi.kinds, hv]
    simp only [KeyedPlan.step, hp, Option.some.injEq] at hop
    simp only [KeyedOp.run, hr]
    exact wp_pure ⟨a, ix, ls, vs, ss, hop ▸ hi⟩
  · have hr : r.vals[h]? = some (B + v.blk) := by simp [hi.vals, hv]
    have hp : p.vals[h]? = some v.kind := by simp [hi.kinds, hv]
    have hvm := List.mem_of_getElem? hv
    simp only [KeyedPlan.step, hp] at hop
    split_ifs at hop with hready
    obtain rfl := Option.some.inj hop
    simp only [KeyedOp.run, hr]
    refine wp_bind (wp_loadCell hi.rep.family.heap (hi.rep.family.vals v hvm).owns (by decide)
      (wp_bind ?_))
    exact wp_mono (hi.wp_listPush hvm hready) fun _ t ⟨a', ix', ls', h⟩ => wp_pure ⟨a', ix', ls', vs, ss, h⟩

/-- What a pop leaves. The client has the value, unless the list was empty, and can still read its
string. -/
inductive PopNext (B : ℕ) (p : KeyedPlan) (r : KeyedClient) (k : Text) (p' : KeyedPlan) : ℕ → Touchdb → Prop
  | none {t : Touchdb} {a : PoolAlloc} {ix : Index} {ls : KeyedChains} {vs : List ValCell}
      {ss : List StrCell} (h : KeyedInv B p { r with acts := r.acts ++ [.pop k none] } t a ix ls vs ss)
      (hp : p' = p) (hq : (p.lists k).getD [] = []) : PopNext B p r k p' NULL t
  | some {t : Touchdb} {a : PoolAlloc} {ix : Index} {ls : KeyedChains} {vs : List ValCell}
      {ss : List StrCell} {v : ValKind} {q : List ValKind} {w : TouchdbVal} {R : ℕ}
      {ts : List (Option Text)}
      (h : KeyedInv B p' ⟨r.vals ++ [B + R], r.acts ++ [.pop k (some w)]⟩ t a ix ls vs ss)
      (hq : p.lists k = some (v :: q)) (hrel : KeyedPlan.release p.strs v = some ts)
      (hp : p' = { p with
        lists := Function.update p.lists k (some q), vals := p.vals ++ [v], strs := ts })
      (hR : Owns a R sizeofVal) (hval : t.field (B + R) Val.all = w)
      (hread : ∀ i x, v = .str i → p.strs[i]? = some (some x) → Legible B t w x.1) :
      PopNext B p r k p' (B + R) t

/-- A pop of the first value of a list. -/
theorem wp_popFrom {y : Cell} {ys : List Cell} {C : ℕ} {ts : List (Option Text)}
    (hi : KeyedInv B p r s a ix (⟨k, ⟨C, y :: ys⟩⟩ :: ls) vs ss)
    (hrel : KeyedPlan.release p.strs y.kind = some ts) :
    wp served (touchdbChainPullHead (B + C)) (PopNext B p r k { p with
      lists := Function.update p.lists k (some (ys.map Cell.kind)), vals := p.vals ++ [y.kind],
      strs := ts }) s := by
  obtain ⟨hkinds, hvals⟩ := hi.list_at
  have hf := hi.rep.family
  have hX := hf.chains _ List.mem_cons_self
  have hact := KeyedQueues.Step.pop (KeyedQueues.table ChainCells.vals (⟨k, ⟨C, y :: ys⟩⟩ :: ls)) k
  rw [hvals] at hact
  have hy := hX.kinds y List.mem_cons_self
  obtain ⟨l, ss', hg, hsay⟩ := hi.strs.gives hy hrel
  refine wp_touchdbChainPullHead_kept hf.heap hX.chain hg.val
    ⟨hg.notMem hf (ChainCells.node_mem List.mem_cons_self), hg.notMem hf List.mem_cons_self⟩
    (fun m hm => hg.notMem hf (ChainCells.node_mem (List.mem_cons_of_mem _ hm)))
    (.of_all fun _ => trivial) (.of_stops rfl _ _) (List.mem_singleton_self _)
    fun R u a' hp hr hkept => ?_
  have hfam := (hf.pull hp hr (fun h => h.elim) hg.grown hg.live hg.perm).perm (.refl _)
    (List.perm_append_singleton _ vs).symm
  have hnext := hi.changed (r.vals ++ [B + R]) hp.frame (fun o ho => ?_) hfam rfl
    (fun o ho => ?_) (hsay.frame hp.frame fun o ho hc => ?_) hg.grown (fun _ h => h) hi.keys
    (by simp [hi.vals]) rfl hact
  · have hnext' : KeyedInv B
        ⟨p.keys, Function.update p.lists k (some (ys.map Cell.kind)), p.stored, p.vals ++ [y.kind], ts⟩
        ⟨r.vals ++ [B + R], r.acts ++ [.pop k (some y.node.val)]⟩ u a' ix (⟨k, ⟨C, ys⟩⟩ :: ls)
        (vs ++ [⟨R, y.kind⟩]) ss' := by
      simpa [hi.kinds, ChainCells.kinds, ChainCells.vals, ChainCells.nodes] using hnext
    refine .some hnext' hkinds hrel rfl hp.result hp.val fun i x hv hx => ?_
    rw [hv] at hy
    obtain ⟨z, hz, hw⟩ := hy
    obtain ⟨o, ho, hzo⟩ := hi.strs.at_place hz
    obtain rfl : o = some x := Option.some.inj (ho.symm.trans hx)
    have hC : C ∉ z.blocks := fun hc => (List.nodup_append.mp hf.apart_chain).2.2 C List.mem_cons_self C
      (mem_familyBlocks.mpr (.inr (.inr ⟨z, List.mem_of_getElem? hz, hc⟩))) rfl
    have hb : z.blocks = [z.blk, z.chars] := if_pos hzo.live
    rw [hb, List.mem_pair, not_or] at hC
    exact hw ▸ (hzo.rep x rfl).legible hkept (by simpa using Ne.symm hC.1)
      (by simpa using Ne.symm hC.2)
  · have hmem : ∀ o ∈ l, o ∈ ss.flatMap StrCell.blocks := fun o ho =>
      hg.perm.mem_iff.mpr (List.mem_append_left _ ho)
    refine .inl (mem_familyBlocks.mpr ?_)
    rcases List.mem_cons.mp ho with rfl | ho
    · exact .inl ⟨_, List.mem_cons_self, List.mem_cons_self⟩
    rcases List.mem_cons.mp ho with rfl | ho
    · exact .inl ⟨_, List.mem_cons_self, ChainCells.node_mem List.mem_cons_self⟩
    · obtain ⟨z, hz, hoz⟩ := List.mem_flatMap.mp (hmem o ho)
      exact .inr (.inr ⟨z, hz, hoz⟩)
  · rcases mem_familyBlocks.mp ho with ⟨x, hx, ho⟩ | ⟨v, hv, rfl⟩ | ⟨z, hz, ho⟩
    · rcases List.mem_cons.mp hx with rfl | hx
      · refine .inl (mem_familyBlocks.mpr (.inl ⟨_, List.mem_cons_self, ?_⟩))
        rcases List.mem_cons.mp ho with rfl | ho
        · exact List.mem_cons_self
        · exact List.mem_cons_of_mem _ (List.mem_cons_of_mem _ ho)
      · exact .inl (mem_familyBlocks.mpr (.inl ⟨x, List.mem_cons_of_mem _ hx, ho⟩))
    · rcases List.mem_append.mp hv with hv | hv
      · exact .inl (mem_familyBlocks.mpr (.inr (.inl ⟨v, hv, rfl⟩)))
      · obtain rfl := List.mem_singleton.mp hv
        exact .inr hp.fresh
    · have hmem : o ∈ ss.flatMap StrCell.blocks := hg.perm.mem_iff.mpr
        (List.mem_append_right _ (List.mem_flatMap.mpr ⟨z, hz, ho⟩))
      obtain ⟨z, hz, hoz⟩ := List.mem_flatMap.mp hmem
      exact .inl (mem_familyBlocks.mpr (.inr (.inr ⟨z, hz, hoz⟩)))
  · obtain ⟨h1, h2⟩ := hf.notMem_rest hg.perm ho
    rcases List.mem_cons.mp hc with rfl | hc
    · exact h1 List.mem_cons_self
    rcases List.mem_cons.mp hc with rfl | hc
    · exact h1 (ChainCells.node_mem List.mem_cons_self)
    · exact h2 hc

/-- A pop under a key, in whose bucket there is one. -/
theorem wp_listPop (hi : KeyedInv B p r s a ix ls vs ss) (hop : p.step (.pop k) = some p') :
    wp served (touchdbListPop k.1) (PopNext B p r k p') s := by
  have hready : p.ready k = true := by
    by_contra hc
    simp [KeyedPlan.step, hc] at hop
  simp only [KeyedPlan.step, if_pos hready] at hop
  unfold touchdbListPop
  refine hi.wp_getChain_bind hready (fun ls' x hi hne => ?_) fun hk => ?_
  · rw [if_pos hne]
    obtain ⟨C, ys⟩ := x
    obtain ⟨hkinds, hvals⟩ := hi.list_at
    rw [hkinds] at hop
    cases ys with
    | nil =>
      obtain rfl : p = p' := Option.some.inj hop
      have hacts := hi.acts.snoc (.pop _ k)
      have hq : (KeyedQueues.table ChainCells.vals (⟨k, ⟨C, []⟩⟩ :: ls') k).map List.tail =
          KeyedQueues.table ChainCells.vals (⟨k, ⟨C, []⟩⟩ :: ls') k := by rw [hvals]; rfl
      rw [hq, Function.update_eq_self, hvals] at hacts
      exact wp_touchdbChainPullHead_nil hi.rep.family.heap (hi.rep.family.chains _ List.mem_cons_self).chain
        (.none { hi with acts := hacts } rfl (by rw [hkinds]; rfl))
    | cons y ys =>
      obtain ⟨ts, hrel, rfl⟩ := Option.map_eq_some_iff.mp hop
      exact hi.wp_popFrom hrel
  · obtain ⟨hkinds, hvals⟩ := hi.list_none hk
    rw [hkinds] at hop
    obtain rfl : p = p' := Option.some.inj hop
    rw [if_neg (by simp)]
    have hacts := hi.acts.snoc (.pop _ k)
    have hq : (KeyedQueues.table ChainCells.vals ls k).map List.tail =
        KeyedQueues.table ChainCells.vals ls k := by rw [hvals]; rfl
    rw [hq, Function.update_eq_self, hvals] at hacts
    exact wp_pure (.none { hi with acts := hacts } rfl (by rw [hkinds]; rfl))

theorem wp_pop (hi : KeyedInv B p r s a ix ls vs ss) (hop : p.step (.pop k) = some p') :
    wp served ((KeyedOp.pop k).run r) (Next B p') s := by
  unfold KeyedOp.run
  refine wp_bind (wp_mono (hi.wp_listPop hop) fun c t hc => ?_)
  cases hc with
  | none h hp hq =>
    refine wp_bind (wp_readVal_null (wp_pure ?_))
    rw [if_pos rfl]
    exact ⟨_, _, _, _, _, hp ▸ h⟩
  | some h hq hrel hp hR hval hread =>
    refine wp_bind (wp_readVal h.rep.family.heap hR (wp_pure ?_))
    rw [if_neg (hR.ptr_ne B), hval]
    exact ⟨_, _, _, _, _, h⟩

/-- Each call keeps the store, if it is one that the plan has. -/
theorem wp_run {op : KeyedOp} (hi : KeyedInv B p r s a ix ls vs ss) (hop : p.step op = some p') :
    wp served (op.run r) (Next B p') s := by
  cases op with
  | put k v => exact Option.some.inj hop ▸ hi.wp_put k v
  | putStr k v => exact Option.some.inj hop ▸ hi.wp_putStr k v
  | newStr v => exact Option.some.inj hop ▸ hi.wp_newStr v
  | newVal w => exact Option.some.inj hop ▸ hi.wp_newVal w
  | alloc n => exact Option.some.inj hop ▸ hi.wp_alloc n
  | drop h => exact Option.some.inj hop ▸ hi.wp_drop h
  | push k h => exact hi.wp_push hop
  | pop k => exact hi.wp_pop hop
  | nodeIdx k i =>
    simp only [KeyedPlan.step] at hop
    split_ifs at hop with hready
    exact Option.some.inj hop ▸ hi.wp_nodeIdx hready i
  | size k =>
    simp only [KeyedPlan.step] at hop
    split_ifs at hop with hready
    exact Option.some.inj hop ▸ hi.wp_size hready

end KeyedInv

end

end TouchDb
