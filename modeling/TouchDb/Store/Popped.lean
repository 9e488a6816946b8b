import TouchDb.Store.Waits
import TouchDb.Store.PutStrRuns
import Mathlib.Data.List.Induction

/-! Pulled values. A pull releases the string of the value that it returns, so that the value is
spoilt from the beginning; until then a store and its lists are as they should be. -/
namespace TouchDb
open Prog Layout

/-- The client knows the chains and the values of a family, which has no block in common with the
index. The chains under keys are in the family, all values are strings in use, nothing has been
pulled, and each list is as long as the client takes it to be. -/
structure ListsInv (B : ℕ) (r : ListClient) (s : Touchdb) (a : PoolAlloc) (ix : Index)
    (cs : List ChainCells) (vs : List ValCell) (ss : List StrCell) : Prop where
  family : FamilyRep True B s a cs vs ss
  index : MapRep B s a ix
  apart : ∀ o ∈ ix.blocks, o ∉ familyBlocks cs vs ss
  live : ∀ z ∈ ss, z.live
  valStrs : ∀ v ∈ vs, v.kind ≠ .plain
  cellStrs : ∀ x ∈ cs, ∀ y ∈ x.cells, y.kind ≠ .plain
  chains : ∀ p ∈ r.chains, ∃ C ∈ cs.map ChainCells.blk, p = B + C
  entries : ∀ e ∈ ix.entries, (s.field (B + e.blk) MapEntry.val).type = .chain →
    ∃ C ∈ cs.map ChainCells.blk, s.field (B + e.blk) MapEntry.val = ⟨.chain, addrOf C⟩
  vals : r.vals.map ListVal.ptr = vs.map fun v => B + v.blk
  popped : r.popped = []
  waits : Waits (placesOf B r.chains s ix) r.queues cs

section
variable {B : ℕ} {r : ListClient} {s t u : Touchdb} {a a' a₁ : PoolAlloc} {ix ix' : Index}
variable {cs cs' : List ChainCells} {vs vs' : List ValCell} {ss ss' : List StrCell}
variable {x : ChainCells} {e : MapNode} {k v : Text} {c h : ℕ} {T : List ℕ}

/-- A client has its store. -/
def ListsInv.Next (B : ℕ) (r : ListClient) (s : Touchdb) : Prop :=
  ∃ a ix cs vs ss, ListsInv B r s a ix cs vs ss

/-- Everything may happen: nothing is asked of the events, nor of the ways to stop. -/
def anything : Guard Stop Event := ⟨fun _ => True, fun _ => True⟩

namespace ListsInv

theorem chain_at (hi : ListsInv B r s a ix cs vs ss) {p : ℕ} (hc : r.chains[c]? = some p) :
    ∃ (i : ℕ) (x : ChainCells), cs[i]? = some x ∧ p = B + x.blk ∧
      x.blk ∈ placesOf B r.chains s ix (.chain c) := by
  obtain ⟨C, hC, rfl⟩ := hi.chains p (List.mem_of_getElem? hc)
  obtain ⟨x, hx, rfl⟩ := List.mem_map.mp hC
  obtain ⟨i, hi⟩ := List.mem_iff_getElem?.mp hx
  exact ⟨i, x, hi, rfl, by simp [placesOf, hc]⟩

theorem blk_fresh {C : ℕ} (hi : ListsInv B r s a ix cs vs ss) (hC : ¬ Used a C) :
    C ∉ cs.map ChainCells.blk := by
  intro hc
  obtain ⟨x, hx, rfl⟩ := List.mem_map.mp hc
  exact hC (hi.family.chains x hx).chain.chain.used

/-- A list is as long as the client takes it to be. -/
theorem length_eq {n : ListPlace} {i : ℕ} (hi : ListsInv B r s a ix cs vs ss) (hx : cs[i]? = some x)
    (hn : x.blk ∈ placesOf B r.chains s ix n) : x.cells.length = (r.queues n).length :=
  hi.waits.length_eq hi.family.chains_nodup (List.mem_of_getElem? hx) hn

theorem queue_ne_nil {n : ListPlace} {i : ℕ} (hi : ListsInv B r s a ix cs vs ss) (hx : cs[i]? = some x)
    (hn : x.blk ∈ placesOf B r.chains s ix n) (h : x.cells ≠ []) : r.queues n ≠ [] := by
  have hlen := hi.length_eq hx hn
  rintro hq
  rw [hq] at hlen
  exact h (List.eq_nil_of_length_eq_zero hlen)

theorem cells_ne_nil {n : ListPlace} {i : ℕ} (hi : ListsInv B r s a ix cs vs ss) (hx : cs[i]? = some x)
    (hn : x.blk ∈ placesOf B r.chains s ix n) (h : r.queues n ≠ []) : x.cells ≠ [] := by
  have hlen := hi.length_eq hx hn
  rintro hx
  rw [hx] at hlen
  exact h (List.eq_nil_of_length_eq_zero hlen.symm)

/-- A chain of the client into which something has been pushed. -/
theorem chain_of_queue (hi : ListsInv B r s a ix cs vs ss) (h : r.queues (.chain c) ≠ []) :
    ∃ (p i : ℕ) (x : ChainCells), r.chains[c]? = some p ∧ cs[i]? = some x ∧ p = B + x.blk ∧
      x.blk ∈ placesOf B r.chains s ix (.chain c) := by
  rcases hc : r.chains[c]? with _ | p
  · exact absurd (hi.waits.none _ (by simp [placesOf, hc])) h
  · obtain ⟨i, x, hx, hp, hn⟩ := hi.chain_at hc
    exact ⟨p, i, x, rfl, hx, hp, hn⟩

/-- The places of a client across a stretch that leaves the index alone. -/
theorem places_frame (hi : ListsInv B r s a ix cs vs ss) (hF : Frame B s a t a' T)
    (hT : ∀ o ∈ ix.blocks, o ∉ T) (chains : List ℕ) :
    placesOf B chains t ix = placesOf B chains s ix :=
  placesOf_congr fun e he => hF.val (hi.index.entry e he).blk (hT _ (Index.blk_mem he))

theorem val_at (hi : ListsInv B r s a ix cs vs ss) {w : ListVal} (hw : r.vals[h]? = some w) :
    ∃ v, vs[h]? = some v ∧ w.ptr = B + v.blk := by
  have h1 : (r.vals.map ListVal.ptr)[h]? = some w.ptr := by simp [hw]
  rw [hi.vals, List.getElem?_map] at h1
  obtain ⟨v, hv, hp⟩ := Option.map_eq_some_iff.mp h1
  exact ⟨v, hv, hp.symm⟩

/-- A stretch that changes the family, and leaves the index alone. -/
theorem step {r' : ListClient} (hi : ListsInv B r s a ix cs vs ss) (hF : Frame B s a t a' T)
    (hT : ∀ o ∈ T, Mine a (familyBlocks cs vs ss) o) (hf : FamilyRep True B t a' cs' vs' ss')
    (hnew : ∀ o ∈ familyBlocks cs' vs' ss', o ∈ familyBlocks cs vs ss ∨ ¬ Used a o)
    (hlive : ∀ z ∈ ss', z.live) (hvals : ∀ v ∈ vs', v.kind ≠ .plain)
    (hcells : ∀ x ∈ cs', ∀ y ∈ x.cells, y.kind ≠ .plain)
    (hsub : cs.map ChainCells.blk ⊆ cs'.map ChainCells.blk)
    (hchains : ∀ p ∈ r'.chains, ∃ C ∈ cs'.map ChainCells.blk, p = B + C)
    (hptr : r'.vals.map ListVal.ptr = vs'.map fun v => B + v.blk) (hp : r'.popped = [])
    (hwait : Waits (placesOf B r'.chains s ix) r'.queues cs') :
    ListsInv B r' t a' ix cs' vs' ss' := by
  have hTb : ∀ o ∈ ix.blocks, o ∉ T := by
    intro o ho hc
    rcases hT o hc with hm | ⟨-, hn⟩
    · exact hi.apart o ho hm
    · exact (hi.index.owns ho).ne_none hn
  have h0 : mapRecord ∉ T := by
    intro hc
    rcases hT _ hc with hm | ⟨hn, -⟩
    · have hb := (hi.family.owns hm).bounds
      simp only [mapRecord] at hb
      omega
    · exact hn rfl
  refine ⟨hf, hi.index.frame hF hTb h0, fun o ho hc => ?_, hlive, hvals, hcells, hchains,
    fun e he ht => ?_, hptr, hp, by rwa [hi.places_frame hF hTb]⟩
  · rcases hnew o hc with hm | hn
    · exact hi.apart o ho hm
    · exact hn (hi.index.owns ho).used
  · have hv := hF.val (hi.index.entry e he).blk (hTb _ (Index.blk_mem he))
    rw [hv] at ht ⊢
    obtain ⟨C, hC, heq⟩ := hi.entries e he ht
    exact ⟨C, hsub hC, heq⟩

/-- A stretch that changes the index, and leaves the family alone. -/
theorem put (hi : ListsInv B r s a ix cs vs ss) (q : ListPlace → List (Option Text)) (hu : Heap B u a')
    (hF : Frame B s a u a' T) (hT : ∀ o ∈ familyBlocks cs vs ss, o ∉ T) (hm : MapRep B u a' ix')
    (hb : ∀ o ∈ ix'.blocks, o ∈ ix.blocks ∨ ¬ Used a o)
    (he : ∀ e ∈ ix'.entries, (u.field (B + e.blk) MapEntry.val).type = .chain →
      ∃ C ∈ cs.map ChainCells.blk, u.field (B + e.blk) MapEntry.val = ⟨.chain, addrOf C⟩)
    (hwait : Waits (placesOf B r.chains u ix') q cs) :
    ListsInv B { r with queues := q } u a' ix' cs vs ss where
  family := hi.family.frame hu hF hT
  index := hm
  apart o ho hc := by
    rcases hb o ho with h | h
    · exact hi.apart o h hc
    · exact hi.family.fresh h hc
  live := hi.live
  valStrs := hi.valStrs
  cellStrs := hi.cellStrs
  chains := hi.chains
  entries := he
  vals := hi.vals
  popped := hi.popped
  waits := hwait

theorem insert {E K : ℕ} {w : TouchdbVal} (hi : ListsInv B r t a₁ ix cs vs ss)
    (q : ListPlace → List (Option Text)) (h : Inserted B s a ix k.1 E K u a' ix')
    (hF : Frame B t a₁ u a' T) (hT : ∀ o ∈ familyBlocks cs vs ss, o ∉ T)
    (hvals : ∀ d ∈ ix.entries, s.field (B + d.blk) MapEntry.val = t.field (B + d.blk) MapEntry.val)
    (hnew : ∀ o ∈ [E, K], ¬ Used a₁ o) (hw : u.field (B + E) MapEntry.val = w)
    (hc : w.type = .chain → ∃ C ∈ cs.map ChainCells.blk, w = ⟨.chain, addrOf C⟩)
    (hwait : Waits (Function.update (placesOf B r.chains t ix) (.key k) (chainBlk w)) q cs) :
    ListsInv B { r with queues := q } u a' ix' cs vs ss := by
  refine hi.put q h.heap hF hT h.rep (fun o ho => ?_) (fun e he ht => ?_) ?_
  · by_cases hE : o = E
    · exact .inr (hnew o (by simp [hE]))
    by_cases hK : o = K
    · exact .inr (hnew o (by simp [hK]))
    by_contra hn
    exact h.notMem_blocks (fun hm => hn (.inl hm)) hE hK ho
  · rw [h.entries] at he
    rcases List.mem_append.mp he with he | he
    · rw [h.vals e he, hvals e he] at ht ⊢
      exact hi.entries e he ht
    · obtain rfl := List.mem_singleton.mp he
      rw [hw] at ht ⊢
      exact hc ht
  · have hfind : ix'.find k.1 = some ⟨E, k.1, K⟩ := Index.find_append_self h.entries
    rw [placesOf_put (Index.find_append h.entries) hfind
      fun d hd _ => (h.vals d hd).trans (hvals d hd), hw]
    exact hwait

theorem overwrite {w : TouchdbVal} (hi : ListsInv B r t a₁ ix cs vs ss)
    (q : ListPlace → List (Option Text)) (hfind : ix.find k.1 = some e)
    (h : Overwritten B s a ix e.blk w [] u a')
    (hF : Frame B t a₁ u a' T) (hT : ∀ o ∈ familyBlocks cs vs ss, o ∉ T)
    (hTe : ∀ o ∈ ix.blocks, o ≠ e.blk → o ∉ T)
    (hc : w.type = .chain → ∃ C ∈ cs.map ChainCells.blk, w = ⟨.chain, addrOf C⟩)
    (hwait : Waits (Function.update (placesOf B r.chains t ix) (.key k) (chainBlk w)) q cs) :
    ListsInv B { r with queues := q } u a' ix cs vs ss := by
  obtain ⟨he, hkey⟩ := Index.find_eq_some.mp hfind
  have hother (d : MapNode) (hd : d ∈ ix.entries) (hb : d.blk ≠ e.blk) :
      u.field (B + d.blk) MapEntry.val = t.field (B + d.blk) MapEntry.val :=
    hF.val (hi.index.entry d hd).blk (hTe _ (Index.blk_mem hd) hb)
  refine hi.put q h.heap hF hT h.rep (fun o ho => .inl ho) (fun d hd ht => ?_) ?_
  · by_cases hb : d.blk = e.blk
    · rw [hb, h.val] at ht ⊢
      exact hc ht
    · rw [hother d hd hb] at ht ⊢
      exact hi.entries d hd ht
  · rw [placesOf_put (fun _ _ => rfl) hfind fun d hd hk => hother d hd fun hb => hk ?_, h.val]
    · exact hwait
    · rw [List.inj_on_of_nodup_map ix.blks_nodup hd he hb, hkey]

/-- What the store has under a key that it has: a chain of the family, or no chain. -/
theorem wp_getChain_found {G : Guard Stop Event} {Q : ℕ → Touchdb → Prop}
    (hi : ListsInv B r s a ix cs vs ss) (hG : ∀ e, G.emits e) (hfind : ix.find k.1 = some e)
    (hsome : ∀ (i : ℕ) (x : ChainCells), cs[i]? = some x →
      x.blk ∈ placesOf B r.chains s ix (.key k) → Q (B + x.blk) s)
    (hnone : placesOf B r.chains s ix (.key k) = none → Q NULL s) : wp G (getChain k.1) Q s := by
  have hh := hi.family.heap
  have hB := hh.base_pos'
  have he := (Index.find_eq_some.mp hfind).1
  have hrep := hi.index.entry e he
  have hplace : placesOf B r.chains s ix (.key k) = chainBlk (s.field (B + e.blk) MapEntry.val) := by
    simp [placesOf, hfind]
  unfold getChain
  refine wp_bind (wp_touchdbMapGet2_found hh hi.index (fun _ _ _ => hG _) hfind ?_)
  rw [if_pos (by simp only [NULL]; omega)]
  refine wp_bind (wp_load_shift (by omega) (wp_loadCell hh hrep.blk (by decide) ?_))
  rw [(val_parts rfl).1]
  by_cases ht : (s.field (B + e.blk) MapEntry.val).type = .chain
  · obtain ⟨C, hC, hv⟩ := hi.entries e he ht
    obtain ⟨x, hx, rfl⟩ := List.mem_map.mp hC
    obtain ⟨i, hix⟩ := List.mem_iff_getElem?.mp hx
    have hxO := (hi.family.chains x hx).chain.chain
    rw [if_pos ht]
    refine wp_bind (wp_load_shift (by omega) (wp_loadCell hh hrep.blk (by decide) ?_))
    rw [(val_parts hv).2]
    refine wp_bind (wp_ptrOfOwned hh (fun _ _ _ => hG _) hxO ?_)
    rw [if_pos (hxO.ptr_ne B)]
    exact wp_pure (hsome i x hix (hplace.trans (by rw [hv, chainBlk_chain hxO.lt])))
  · rw [if_neg ht]
    exact wp_pure (hnone (hplace.trans (if_neg ht)))

/-- What the store has under a key. In a bucket without entries the search faults. -/
theorem wp_getChain {G : Guard Stop Event} {Q : ℕ → Touchdb → Prop} (hi : ListsInv B r s a ix cs vs ss)
    (hG : ∀ e, G.emits e) (hf : G.stops .fault)
    (hsome : ∀ (i : ℕ) (x : ChainCells), cs[i]? = some x →
      x.blk ∈ placesOf B r.chains s ix (.key k) → Q (B + x.blk) s)
    (hnone : placesOf B r.chains s ix (.key k) = none → Q NULL s) : wp G (getChain k.1) Q s := by
  have hh := hi.family.heap
  rcases hfind : ix.find k.1 with _ | e
  · unfold getChain
    by_cases hne : ix.bucket (ix.bucketOf k.1) = []
    · unfold touchdbMapGet2
      exact wp_bind (wp_bind (wp_getEntry_empty hh hi.index (fun _ _ _ => hG _) (hG _) hf hne))
    · refine wp_bind (wp_touchdbMapGet2_absent hh hi.index (fun _ _ _ => hG _) hne hfind ?_)
      rw [if_neg (by simp)]
      exact wp_pure (hnone (by simp [placesOf, hfind]))
  · exact hi.wp_getChain_found hG hfind hsome hnone

variable {G : Guard Stop Event}

theorem familyBlocks_append {o : ℕ} (ho : o ∈ familyBlocks cs (vs ++ vs') (ss ++ ss')) :
    o ∈ familyBlocks cs vs ss ∨ (∃ v ∈ vs', o = v.blk) ∨ ∃ z ∈ ss', o ∈ z.blocks := by
  simp only [mem_familyBlocks, List.mem_append] at ho ⊢
  rcases ho with h | ⟨v, hv | hv, rfl⟩ | ⟨z, hz | hz, h⟩
  · exact .inl (.inl h)
  · exact .inl (.inr (.inl ⟨v, hv, rfl⟩))
  · exact .inr (.inl ⟨v, hv, rfl⟩)
  · exact .inl (.inr (.inr ⟨z, hz, h⟩))
  · exact .inr (.inr ⟨z, hz, h⟩)

theorem wp_newStr {Q : ListClient → Touchdb → Prop} (hi : ListsInv B r s a ix cs vs ss) (v : Text)
    (hG : ∀ e, G.emits e) (hr : Serves G a [sizeofVal, sizeofStr, v.1.strlen + 1])
    (hQ : ∀ V a' vs' ss' t, ListsInv B { r with vals := r.vals ++ [⟨B + V, some v⟩] } t a' ix cs vs' ss' →
      a'.cur ≤ a.cur + roomFor [sizeofVal, sizeofStr, v.1.strlen + 1] →
      Q { r with vals := r.vals ++ [⟨B + V, some v⟩] } t) :
    wp G ((ListOp.newStr v).run r) Q s := by
  unfold ListOp.run
  apply hi.family.wp_newStr (α := ListClient)
    (k := fun V => pure { r with vals := r.vals ++ [⟨V, some v⟩] }) v hG hr
  intro V S D a' t hf hF hfresh hcur
  refine wp_pure (hQ V a' _ _ t (hi.step hF (by simp) hf (fun o ho => ?_) ?_ ?_ hi.cellStrs
    (List.Subset.refl _) hi.chains (by simp [hi.vals]) hi.popped hi.waits) hcur)
  · rcases familyBlocks_append ho with h | ⟨w, hw, rfl⟩ | ⟨z, hz, ho⟩
    · exact .inl h
    · obtain rfl := List.mem_singleton.mp hw
      exact .inr (hfresh _ (by simp))
    · obtain rfl := List.mem_singleton.mp hz
      have ho' : o = S ∨ o = D := by simpa [StrCell.blocks] using ho
      rcases ho' with rfl | rfl
      · exact .inr (hfresh _ (by simp))
      · exact .inr (hfresh _ (by simp))
  · intro z hz
    rcases List.mem_append.mp hz with hz | hz
    · exact hi.live z hz
    · obtain rfl := List.mem_singleton.mp hz
      rfl
  · intro w hw
    rcases List.mem_append.mp hw with hw | hw
    · exact hi.valStrs w hw
    · obtain rfl := List.mem_singleton.mp hw
      simp

theorem wp_newChain {Q : ListClient → Touchdb → Prop} (hi : ListsInv B r s a ix cs vs ss)
    (hG : ∀ e, G.emits e) (hr : Serves G a [sizeofChain])
    (hQ : ∀ C a' t, ListsInv B { r with chains := r.chains ++ [B + C] } t a' ix (cs ++ [⟨C, []⟩]) vs ss →
      a'.cur ≤ a.cur + roomFor [sizeofChain] → Q { r with chains := r.chains ++ [B + C] } t) :
    wp G (ListOp.newChain.run r) Q s := by
  unfold ListOp.run
  apply hi.family.wp_newChain (α := ListClient)
    (k := fun C => pure { r with chains := r.chains ++ [C] }) hG hr
  intro C a' t hf hF hC hcur
  have hsub : cs.map ChainCells.blk ⊆ List.map ChainCells.blk (cs ++ [⟨C, []⟩]) := by simp
  refine wp_pure (hQ C a' t (hi.step hF (by simp) hf (fun o ho => ?_) hi.live hi.valStrs
    (fun x hx y hy => ?_) hsub (fun p hp => ?_) hi.vals hi.popped ?_) hcur)
  · have ho' : o ∈ familyBlocks cs vs ss ∨ o = C := by
      simp only [mem_familyBlocks, List.mem_append, List.mem_singleton] at ho ⊢
      rcases ho with ⟨x, hx | rfl, ho⟩ | h
      · exact .inl (.inl ⟨x, hx, ho⟩)
      · exact .inr (by simpa [ChainCells.blocks, ChainCells.nodes] using ho)
      · exact .inl (.inr h)
    rcases ho' with ho' | rfl
    · exact .inl ho'
    · exact .inr hC
  · rcases List.mem_append.mp hx with hx | hx
    · exact hi.cellStrs x hx y hy
    · obtain rfl := List.mem_singleton.mp hx
      cases hy
  · rcases List.mem_append.mp hp with hp | hp
    · obtain ⟨D, hD, rfl⟩ := hi.chains p hp
      exact ⟨D, hsub hD, rfl⟩
    · exact ⟨C, by simp, List.mem_singleton.mp hp⟩
  · have hempty : r.queues (.chain r.chains.length) = [] := hi.waits.none _ (by simp [placesOf])
    rw [placesOf_newChain]
    exact hi.waits.add (x := ⟨C, []⟩) (List.subset_append_left _ _) (by simp) (hi.blk_fresh hC)
      (fun _ _ => rfl) (by simp [hempty])

theorem wp_drop (hi : ListsInv B r s a ix cs vs ss) (hG : ∀ e, G.emits e) :
    wp G ((ListOp.drop h).run r) (Next B) s := by
  rcases hw : r.vals[h]? with _ | w
  · simp only [ListOp.run, hw]
    exact wp_pure ⟨a, ix, cs, vs, ss, hi⟩
  · obtain ⟨v, hv, hp⟩ := hi.val_at hw
    simp only [ListOp.run, hw, hp]
    apply hi.family.wp_drop (α := ListClient) (c := pure { r with vals := r.vals.eraseIdx h }) hv hG
    intro a' t hf hF
    refine wp_pure ⟨a', ix, cs, _, ss, hi.step hF (fun o ho => ?_) hf (fun o ho => .inl ?_) hi.live
      (fun w hw => ?_) hi.cellStrs (List.Subset.refl _) hi.chains ?_ hi.popped hi.waits⟩
    · obtain rfl : o = v.blk := by simpa using ho
      exact .inl (mem_familyBlocks.mpr (.inr (.inl ⟨v, List.mem_of_getElem? hv, rfl⟩)))
    · simp only [mem_familyBlocks] at ho ⊢
      rcases ho with h | ⟨w, hw, rfl⟩ | h
      · exact .inl h
      · exact .inr (.inl ⟨w, List.mem_of_mem_eraseIdx hw, rfl⟩)
      · exact .inr (.inr h)
    · exact hi.valStrs w (List.mem_of_mem_eraseIdx hw)
    · show (r.vals.eraseIdx h).map ListVal.ptr = (vs.eraseIdx h).map fun v => B + v.blk
      rw [← List.eraseIdx_map, ← List.eraseIdx_map, hi.vals]

/-- A push of a value to a chain of the family, at a place of the client. -/
theorem wp_pushTo {i : ℕ} {v : ValCell} {n : ListPlace} {Q : Unit → Touchdb → Prop}
    (hi : ListsInv B r s a ix cs vs ss) (hx : cs[i]? = some x)
    (hn : x.blk ∈ placesOf B r.chains s ix n) (hv : v ∈ vs) (hG : ∀ e, G.emits e)
    (hr : Serves G a [touchdbChainNodeSize])
    (hQ : ∀ y a' t, (∀ w, ListsInv B (r.pushed n w) t a' ix (cs.set i ⟨x.blk, x.cells ++ [y]⟩) vs ss) →
      a'.cur ≤ a.cur + roomFor [touchdbChainNodeSize] → Q () t) :
    wp G (touchdbChainPushTail (B + x.blk) (B + v.blk)) Q s := by
  refine hi.family.wp_push hx hv hG hr fun N a' t hf hF hN hcur =>
    hQ ⟨⟨N, s.field (B + v.blk) Val.all⟩, v.kind⟩ a' t (fun w => ?_) hcur
  have hxm := List.mem_of_getElem? hx
  have hblk := map_set_eq (f := ChainCells.blk) (y := ⟨x.blk, x.cells ++
    [⟨⟨N, s.field (B + v.blk) Val.all⟩, v.kind⟩]⟩) hx rfl
  refine hi.step hF (fun o ho => ?_) hf (fun o ho => ?_) hi.live hi.valStrs (fun y hy z hz => ?_)
    (by rw [hblk]; exact List.Subset.refl _) (fun p hp => ?_) hi.vals hi.popped
    (hi.waits.push hi.family.chains_nodup hx hn _ w)
  · exact .inl (mem_familyBlocks.mpr (.inl ⟨x, hxm, ho⟩))
  · rcases mem_familyBlocks.mp ho with ⟨y, hy, ho⟩ | h
    · rcases List.mem_or_eq_of_mem_set hy with hy | rfl
      · exact .inl (mem_familyBlocks.mpr (.inl ⟨y, hy, ho⟩))
      · have ho' : o ∈ x.blocks ∨ o = N := by
          simpa [ChainCells.blocks, ChainCells.nodes, or_assoc] using ho
        rcases ho' with ho' | rfl
        · exact .inl (mem_familyBlocks.mpr (.inl ⟨x, hxm, ho'⟩))
        · exact .inr hN
    · exact .inl (mem_familyBlocks.mpr (.inr h))
  · rcases List.mem_or_eq_of_mem_set hy with hy | rfl
    · exact hi.cellStrs y hy z hz
    · rcases List.mem_append.mp hz with hz | hz
      · exact hi.cellStrs x hxm z hz
      · obtain rfl := List.mem_singleton.mp hz
        exact hi.valStrs v hv
  · rw [hblk]
    exact hi.chains p hp

/-- A value of a chain is a string in use, away from the chain. -/
theorem string_at {i : ℕ} {y : Cell} (hi : ListsInv B r s a ix cs vs ss) (hx : cs[i]? = some x)
    (hy : y ∈ x.cells) : ∃ S D, y.node.val = ⟨.str, addrOf S⟩ ∧ Owns a S 0 ∧
      ValRep B s a y.node.val [S, D] ∧ ∀ o ∈ x.blocks, o ∉ [S, D] := by
  have hxm := List.mem_of_getElem? hx
  have hk := (hi.family.chains x hxm).kinds y hy
  rcases hyk : y.kind with _ | j
  · exact absurd hyk (hi.cellStrs x hxm y hy)
  · rw [hyk] at hk
    obtain ⟨z, hz, hval⟩ := hk
    have hzm := List.mem_of_getElem? hz
    have hl := hi.live z hzm
    obtain ⟨v, hv⟩ := hi.family.strs z hzm hl
    refine ⟨z.blk, z.chars, hval, hv.str.mono (Nat.zero_le _), by rw [hval]; exact .str hv,
      fun o ho hc => ?_⟩
    have hb : z.blocks = [z.blk, z.chars] := if_pos hl
    exact (List.nodup_append.mp (hi.family.front hx).apart_chain).2.2 o ho o
      (mem_familyBlocks.mpr (.inr (.inr ⟨z, hzm, hb ▸ hc⟩))) rfl

end ListsInv

/-- The value at `p` is a string whose struct is not in use. -/
def Spoilt (s : Touchdb) (p : ℕ) : Prop :=
  ∃ B a, ∃ S < 2 ^ 32, Heap B s a ∧ s.field p Val.all = ⟨.str, addrOf S⟩ ∧ ¬ Used a S

theorem Spoilt.not_owned {p S D : ℕ} {v : CStr} (h : Spoilt s p) : ¬ StrOwned s p v S D := by
  obtain ⟨B, a, S', hlt, hh, hval, hno⟩ := h
  intro ho
  have hown := hh.allocated_iff.mp ho.str_used
  have haddr : addrOf S' = addrOf S := congrArg TouchdbVal.value (hval.symm.trans ho.val)
  have hS : S' = S := by
    rw [← addrOf_offset hlt, ← addrOf_offset hown.lt, haddr]
  exact hno (hS ▸ hown.used)

namespace ListsInv

/-- What a pull of a node leaves is spoilt: the node's string has been released. -/
theorem spoilt {C R : ℕ} {y : Cell} {S D : ℕ} (hv : y.node.val = ⟨.str, addrOf S⟩) (hS : Owns a S 0)
    (hp : Pulled B s a C y.node [S, D] R u a') : Spoilt u (B + R) :=
  ⟨B, a', S, hS.lt, hp.heap, hp.val.trans hv, fun hu => ((hp.used S).mp hu).2 (by simp)⟩

theorem wp_pullHead {i : ℕ} {Q : ℕ → Touchdb → Prop} (hi : ListsInv B r s a ix cs vs ss)
    (hx : cs[i]? = some x) (hG : ∀ e, G.emits e) (hr : Serves G a [sizeofVal])
    (hnil : x.cells = [] → Q NULL s) (hcons : x.cells ≠ [] → ∀ p u, p ≠ NULL → Spoilt u p → Q p u) :
    wp G (touchdbChainPullHead (B + x.blk)) Q s := by
  obtain ⟨C, ys⟩ := x
  have hX := hi.family.chains _ (List.mem_of_getElem? hx)
  cases ys with
  | nil => exact wp_touchdbChainPullHead_nil hi.family.heap hX.chain (hnil rfl)
  | cons y ys =>
    obtain ⟨S, D, hval, hS, hrep, hout⟩ := hi.string_at hx List.mem_cons_self
    refine wp_touchdbChainPullHead hi.family.heap hX.chain hrep
      ⟨hout _ (ChainCells.node_mem List.mem_cons_self), hout _ List.mem_cons_self⟩
      (fun m hm => hout _ (ChainCells.node_mem (List.mem_cons_of_mem _ hm))) (.of_all hG) hr
      (List.mem_singleton_self _) fun R u a' hp _ => hcons (List.cons_ne_nil _ _) _ u
        (hp.result.ptr_ne B) (spoilt hval hS hp)

theorem wp_pullTail {i : ℕ} {Q : ℕ → Touchdb → Prop} (hi : ListsInv B r s a ix cs vs ss)
    (hx : cs[i]? = some x) (hG : ∀ e, G.emits e) (hr : Serves G a [sizeofVal])
    (hnil : x.cells = [] → Q NULL s) (hcons : x.cells ≠ [] → ∀ p u, p ≠ NULL → Spoilt u p → Q p u) :
    wp G (touchdbChainPullTail (B + x.blk)) Q s := by
  obtain ⟨C, ys⟩ := x
  have hX := hi.family.chains _ (List.mem_of_getElem? hx)
  rcases List.eq_nil_or_concat ys with rfl | ⟨ys, y, rfl⟩
  · exact wp_touchdbChainPullTail_nil hi.family.heap hX.chain (hnil rfl)
  · rw [List.concat_eq_append] at *
    obtain ⟨S, D, hval, hS, hrep, hout⟩ := hi.string_at hx (y := y) (by simp)
    have hnodes : ChainCells.nodes ⟨C, ys ++ [y]⟩ = ys.map Cell.node ++ [y.node] := by
      simp [ChainCells.nodes]
    have hC := hX.chain
    have hprev := hX.prev trivial
    rw [hnodes] at hC hprev
    have hlast : nodePrev B s y.node.blk = ((ys.map Cell.node).map ListNode.blk).getLast? := by
      rw [List.map_append, List.reverse_append] at hprev
      exact hprev.1.trans List.head?_reverse
    have hyx : y.node.blk ∈ ChainCells.blocks ⟨C, ys ++ [y]⟩ := by simp [ChainCells.blocks, hnodes]
    exact wp_touchdbChainPullTail hi.family.heap hC hlast hrep ⟨hout _ hyx, hout _ List.mem_cons_self⟩
      hG hr fun R u a' hp _ _ => hcons (by simp) _ u (hp.result.ptr_ne B) (spoilt hval hS hp)

/-- A put of a string touches the index, and no list. -/
theorem wp_putStr (hi : ListsInv B r s a ix cs vs ss) (k v : Text) :
    wp anything ((ListOp.putStr k v).run r) (Next B) s := by
  have hall : ∀ e, anything.emits e := fun _ => trivial
  have hserve (ns : List ℕ) : Serves anything a ns := .of_stops trivial a ns
  unfold ListOp.run
  rcases hfind : ix.find k.1 with _ | e
  · refine wp_bind (wp_touchdbPutStr_insert hi.family.heap hi.index (.of_all hall) (hserve _) k.2 v.2
      hfind fun E K S D u a' ix' h hv _ _ _ _ => wp_pure ⟨a', ix', cs, vs, ss, hi.insert _ h h.frame
        (fun o ho => ?_) (fun _ _ => rfl) (fun o ho hu => ?_) hv (fun hc => ?_) (hi.waits.clear _)⟩)
    · exact (hi.family.owns ho).notMem_linked fun hc => hi.apart o hc ho
    · rcases List.mem_pair.mp ho with rfl | rfl
      · exact hu h.blk_fresh
      · exact hu h.keyBlk_fresh
    · cases hc
  · have he := (Index.find_eq_some.mp hfind).1
    refine wp_bind (wp_touchdbPutStr_overwrite hi.family.heap hi.index (.of_all hall) (hserve _) v.2
      hfind fun S u a' h _ _ _ _ => wp_pure ⟨a', ix, cs, vs, ss, hi.overwrite _ hfind h h.frame
        (fun o ho hm => ?_) (fun o _ hne => by simpa using hne) (fun hc => ?_) (hi.waits.clear _)⟩)
    · obtain rfl : o = e.blk := by simpa using hm
      exact hi.apart _ (Index.blk_mem he) ho
    · cases hc

/-- A push under a key that has no list: a new chain is put under it. -/
theorem wp_pushNew {v : ValCell} {Q : Unit → Touchdb → Prop} (hi : ListsInv B r s a ix cs vs ss)
    (hno : placesOf B r.chains s ix (.key k) = none) (hv : v ∈ vs)
    (hQ : ∀ t, (∀ w, Next B (r.pushed (.key k) w) t) → Q () t) :
    wp anything (do
      let (val, addr) ← touchdbMalloc sizeofVal
      let chain ← touchdbChainNew val
      touchdbChainPushTail chain (B + v.blk)
      let _ ← touchdbMapPut2 k.1 val
      touchdbFree addr) Q s := by
  have hall : ∀ e, anything.emits e := fun _ => trivial
  apply hi.family.wp_newList (α := Unit) (k := fun p x => do
    let _ ← touchdbMapPut2 k.1 p
    touchdbFree x) hv hall trivial
  intro q C y a₁ t hy hf hF hfresh hqO hqf hqw
  have hq := hfresh q (by simp)
  have hnew (o : ℕ) (ho : o ∈ familyBlocks (⟨C, [y]⟩ :: cs) vs ss) :
      o ∈ familyBlocks cs vs ss ∨ ¬ Used a o := by
    have ho' : (o = C ∨ o = y.node.blk) ∨ o ∈ familyBlocks cs vs ss := by
      simpa [familyBlocks, ChainCells.blocks, ChainCells.nodes, or_assoc] using ho
    rcases ho' with (rfl | rfl) | ho'
    · exact .inr (hfresh _ (by simp)).2
    · exact .inr (hfresh _ (by simp)).2
    · exact .inl ho'
  have hsub : cs.map ChainCells.blk ⊆ List.map ChainCells.blk (⟨C, [y]⟩ :: cs) :=
    fun _ h => List.mem_cons_of_mem _ h
  have hi₁ : ListsInv B r t a₁ ix (⟨C, [y]⟩ :: cs) vs ss := by
    refine hi.step hF (by simp) hf hnew hi.live hi.valStrs (fun x hx z hz => ?_) hsub (fun p hp => ?_)
      hi.vals hi.popped (hi.waits.mono fun _ h => List.mem_cons_of_mem _ h)
    · rcases List.mem_cons.mp hx with rfl | hx
      · obtain rfl := List.mem_singleton.mp hz
        rw [hy]
        exact hi.valStrs v hv
      · exact hi.cellStrs x hx z hz
    · obtain ⟨D, hD, rfl⟩ := hi.chains p hp
      exact ⟨D, hsub hD, rfl⟩
  have hCO := (hf.chains _ List.mem_cons_self).chain.chain
  have hC : (⟨.chain, addrOf C⟩ : TouchdbVal).type = .chain → ∃ D ∈ List.map ChainCells.blk
      (⟨C, [y]⟩ :: cs), (⟨.chain, addrOf C⟩ : TouchdbVal) = ⟨.chain, addrOf D⟩ :=
    fun _ => ⟨C, List.mem_cons_self, rfl⟩
  have hCn := hi.blk_fresh (hfresh C (by simp)).2
  have hwait (w : Option Text) : Waits (Function.update (placesOf B r.chains t ix) (.key k)
      (chainBlk ⟨.chain, addrOf C⟩)) (r.pushed (.key k) w).queues (⟨C, [y]⟩ :: cs) := by
    rw [hi.places_frame hF (by simp), chainBlk_chain hCO.lt]
    refine hi.waits.add (x := ⟨C, [y]⟩) (List.subset_cons_self _ _) List.mem_cons_self hCn
      (fun m hm => Function.update_of_ne hm _ _) ?_
    simp [ListClient.pushed, hi.waits.none _ hno]
  have hqu : a.payload q = none := not_not.mp hq.2
  have hfam (o : ℕ) (ho : o ∈ familyBlocks (⟨C, [y]⟩ :: cs) vs ss) : o ≠ q := by
    rintro rfl
    exact hqf ho
  rcases hfind : ix.find k.1 with _ | e
  · refine wp_moveInsert hi.index (.of_all hall) ⟨hf.heap, hF.drop (by simp)⟩ hF
      (.of_stops trivial _ _) k.2 hqO hq.1 hqu hqw hCO.inPool hfind
      fun E K u a' ix' h hval hnew' hF' _ => hQ u fun w => ⟨a', ix', _, vs, ss,
        hi₁.insert _ h hF' (fun o ho => ?_) (fun d hd => ?_) hnew' hval hC (hwait w)⟩
    · refine List.not_mem_cons_of_ne_of_not_mem (hfam o ho) ?_
      exact (hf.owns ho).notMem_linked fun hc => hi₁.apart o hc ho
    · exact (hF.val (hi.index.entry d hd).blk (by simp)).symm
  · have he := (Index.find_eq_some.mp hfind).1
    refine wp_moveOverwrite hi.index (.of_all hall) ⟨hf.heap, hF.drop (by simp)⟩ hF hqO hq.1 hqu hqw
      hCO.inPool (by simp) hfind fun u a' h hF' _ => hQ u fun w => ⟨a', ix, _, vs, ss,
        hi₁.overwrite _ hfind h hF' (fun o ho hm => ?_) (fun o ho hne hm => ?_) hC (hwait w)⟩
    · rcases List.mem_pair.mp hm with rfl | rfl
      · exact hqf ho
      · exact hi₁.apart _ (Index.blk_mem he) ho
    · rcases List.mem_pair.mp hm with rfl | rfl
      · exact (hi.index.owns ho).ne_none hqu
      · exact hne rfl

theorem wp_listPush (hi : ListsInv B r s a ix cs vs ss) :
    wp anything ((ListOp.listPush k h).run r) (Next B) s := by
  rcases hw : r.vals[h]? with _ | w
  · simp only [ListOp.run, hw]
    exact wp_pure ⟨a, ix, cs, vs, ss, hi⟩
  · obtain ⟨v, hv, hp⟩ := hi.val_at hw
    have hvm := List.mem_of_getElem? hv
    simp only [ListOp.run, hw, hp]
    refine wp_bind ?_
    unfold touchdbListPush
    refine wp_bind (hi.wp_getChain (fun _ => trivial) trivial (fun i x hx hn => ?_) fun hno => ?_)
    · have hxO := (hi.family.chains x (List.mem_of_getElem? hx)).chain.chain
      rw [if_pos (hxO.ptr_ne B)]
      exact hi.wp_pushTo hx hn hvm (fun _ => trivial) (.of_stops trivial _ _) fun y a' t ht _ =>
        wp_pure ⟨a', ix, _, vs, ss, ht _⟩
    · rw [if_neg (by simp)]
      exact hi.wp_pushNew hno hvm fun t ht => wp_pure (ht _)

/-- A push to a chain of the client. -/
theorem wp_push {i : ℕ} {w : ListVal} {Q : ListClient → Touchdb → Prop}
    (hi : ListsInv B r s a ix cs vs ss) (hc : r.chains[c]? = some (B + x.blk)) (hx : cs[i]? = some x)
    (hw : r.vals[h]? = some w) (hG : ∀ e, G.emits e) (hr : Serves G a [touchdbChainNodeSize])
    (hQ : ∀ y a' t, ListsInv B (r.pushed (.chain c) w.str) t a' ix
      (cs.set i ⟨x.blk, x.cells ++ [y]⟩) vs ss → a'.cur ≤ a.cur + roomFor [touchdbChainNodeSize] →
      Q (r.pushed (.chain c) w.str) t) :
    wp G ((ListOp.push c h).run r) Q s := by
  obtain ⟨v, hv, hp⟩ := hi.val_at hw
  simp only [ListOp.run, hc, hw, hp]
  exact wp_bind (hi.wp_pushTo (n := .chain c) hx (by simp [placesOf, hc]) (List.mem_of_getElem? hv) hG
    hr fun y a' t ht hcur => wp_pure (hQ y a' t (ht _) hcur))

theorem pulled_null (n : ListPlace) (v : Option (Option Text)) (q : List (Option Text)) :
    r.pulled n NULL v q = r := if_pos rfl

/-- Calls that find no value to pull keep the store of the client. -/
theorem wp_run {op : ListOp} (hi : ListsInv B r s a ix cs vs ss) (hop : ¬ op.Finds r) :
    wp anything (op.run r) (Next B) s := by
  have hall : ∀ e, anything.emits e := fun _ => trivial
  have hself (n : ListPlace) (v : Option (Option Text)) (q : List (Option Text)) :
      Next B (r.pulled n NULL v q) s := by
    rw [pulled_null]
    exact ⟨a, ix, cs, vs, ss, hi⟩
  cases op with
  | putStr k v => exact hi.wp_putStr k v
  | newStr v =>
    exact hi.wp_newStr v hall (.of_stops trivial _ _) fun V a' vs' ss' t h _ => ⟨a', ix, cs, vs', ss', h⟩
  | newChain =>
    exact hi.wp_newChain hall (.of_stops trivial _ _) fun C a' t h _ => ⟨a', ix, _, vs, ss, h⟩
  | drop h => exact hi.wp_drop hall
  | listPush k h => exact hi.wp_listPush
  | listPop k =>
    unfold ListOp.run touchdbListPop
    refine wp_bind (wp_bind (hi.wp_getChain hall trivial (fun i x hx hn => ?_) fun _ => ?_))
    · rw [if_pos ((hi.family.chains x (List.mem_of_getElem? hx)).chain.chain.ptr_ne B)]
      exact hi.wp_pullHead hx hall (.of_stops trivial _ _) (fun _ => wp_pure (hself _ _ _))
        fun h => absurd (hi.queue_ne_nil hx hn h) hop
    · rw [if_neg (by simp)]
      exact wp_pure (wp_pure (hself _ _ _))
  | push c h =>
    rcases hc : r.chains[c]? with _ | p
    · simp only [ListOp.run, hc]
      exact wp_pure ⟨a, ix, cs, vs, ss, hi⟩
    rcases hw : r.vals[h]? with _ | w
    · simp only [ListOp.run, hc, hw]
      exact wp_pure ⟨a, ix, cs, vs, ss, hi⟩
    obtain ⟨i, x, hx, rfl, -⟩ := hi.chain_at hc
    exact hi.wp_push hc hx hw hall (.of_stops trivial _ _) fun y a' t ht _ => ⟨a', ix, _, vs, ss, ht⟩
  | pullHead c =>
    rcases hc : r.chains[c]? with _ | p
    · simp only [ListOp.run, hc]
      exact wp_pure ⟨a, ix, cs, vs, ss, hi⟩
    obtain ⟨i, x, hx, rfl, hn⟩ := hi.chain_at hc
    simp only [ListOp.run, hc]
    exact wp_bind (hi.wp_pullHead hx hall (.of_stops trivial _ _) (fun _ => wp_pure (hself _ _ _))
      fun h => absurd (hi.queue_ne_nil hx hn h) hop)
  | pullTail c =>
    rcases hc : r.chains[c]? with _ | p
    · simp only [ListOp.run, hc]
      exact wp_pure ⟨a, ix, cs, vs, ss, hi⟩
    obtain ⟨i, x, hx, rfl, hn⟩ := hi.chain_at hc
    simp only [ListOp.run, hc]
    exact wp_bind (hi.wp_pullTail hx hall (.of_stops trivial _ _) (fun _ => wp_pure (hself _ _ _))
      fun h => absurd (hi.queue_ne_nil hx hn h) hop)

/-- A value that has been pulled, and is spoilt. -/
theorem not_owned_pulled {n : ListPlace} {v : Option (Option Text)} {q : List (Option Text)} {p : ℕ}
    (hp : p ≠ NULL) (hs : Spoilt u p) : ¬ PoppedOwned (r.pulled n p v q, u) := by
  intro h
  have hm : (⟨p, v.join⟩ : ListVal) ∈ (r.pulled n p v q).popped := by
    unfold ListClient.pulled
    rw [if_neg hp]
    simp
  obtain ⟨w, S, D, -, ho⟩ := h _ hm
  exact hs.not_owned ho

/-- A pull that finds a value returns a spoilt one. -/
theorem wp_finds {op : ListOp} (hi : ListsInv B r s a ix cs vs ss) (hop : op.Finds r)
    (hG : ∀ e, G.emits e) (hr : Serves G a [sizeofVal]) :
    wp G (op.run r) (fun r' t => ¬ PoppedOwned (r', t)) s := by
  cases op with
  | listPop k =>
    have hplace : placesOf B r.chains s ix (.key k) ≠ none := fun hn => hop (hi.waits.none _ hn)
    obtain ⟨e, hfind⟩ : ∃ e, ix.find k.1 = some e := by
      rcases hfind : ix.find k.1 with _ | e
      · exact absurd (by simp [placesOf, hfind]) hplace
      · exact ⟨e, rfl⟩
    unfold ListOp.run touchdbListPop
    refine wp_bind (wp_bind (hi.wp_getChain_found hG hfind (fun i x hx hn => ?_) fun h => absurd h hplace))
    rw [if_pos ((hi.family.chains x (List.mem_of_getElem? hx)).chain.chain.ptr_ne B)]
    exact hi.wp_pullHead hx hG hr (fun h => absurd h (hi.cells_ne_nil hx hn hop)) fun _ p u hp hs =>
      wp_pure (not_owned_pulled hp hs)
  | pullHead c =>
    obtain ⟨p, i, x, hc, hx, rfl, hn⟩ := hi.chain_of_queue hop
    simp only [ListOp.run, hc]
    exact wp_bind (hi.wp_pullHead hx hG hr (fun h => absurd h (hi.cells_ne_nil hx hn hop))
      fun _ p u hp hs => wp_pure (not_owned_pulled hp hs))
  | pullTail c =>
    obtain ⟨p, i, x, hc, hx, rfl, hn⟩ := hi.chain_of_queue hop
    simp only [ListOp.run, hc]
    exact wp_bind (hi.wp_pullTail hx hG hr (fun h => absurd h (hi.cells_ne_nil hx hn hop))
      fun _ p u hp hs => wp_pure (not_owned_pulled hp hs))
  | _ => exact hop.elim

end ListsInv

end

section Runs
variable {f : NewFiles} {ops xs ys : List ListOp} {op : ListOp} {r r' : ListRun}

/-- A new store has no lists, and room for some. -/
theorem runLists_start (f : NewFiles) : ∃ s a ix, (touchdbNew f.ptr).next f.db = .ok s ∧
    ListsInv f.ptr .zero s a ix [] [] [] ∧ a.cur ≤ newRoom := by
  have hroom : freshAlloc.cur + roomFor [2 ^ 10 * sizeofMapBulk] ≤ touchdbDefaultPoolSize := by decide
  have hw : wp anyEvent (touchdbNew f.ptr) (fun _ s => ∃ a ix, ListsInv f.ptr .zero s a ix [] [] [] ∧
      a.cur ≤ newRoom) f.db := by
    refine wp_touchdbNew (fun _ => trivial) (.of_room hroom) fun tbl a u htbl hu hm => ?_
    refine ⟨a, _, ⟨⟨hu, by simp, by simp, by simp, by simp [familyBlocks]⟩, hm, by simp [familyBlocks],
      by simp, by simp, by simp, by simp [ListClient.zero], by simp [Index.empty], rfl, rfl, ?_⟩,
      htbl.cur_le⟩
    have hplace : placesOf f.ptr ListClient.zero.chains u (.empty tbl 10 (by decide)) = fun _ => none := by
      funext n
      cases n <;> rfl
    rw [hplace]
    exact .zero
  obtain ⟨-, s, hs, a, ix, h⟩ := next_ends hw fun _ h => h
  exact ⟨s, a, ix, hs, h⟩

theorem runLists_append {x : ListRun} (h : runLists f (xs ++ ys) = .ok x) :
    ∃ m, runLists f xs = .ok m ∧ Run.exec ListRun.step ys m = .ok x := by
  unfold runLists at *
  obtain ⟨s, -, -, hs, -⟩ := runLists_start f
  rw [hs] at h ⊢
  exact Run.exec_append_ok h

theorem runLists_snoc (hm : runLists f xs = .ok r) (h : runLists f (xs ++ [op]) = .ok r') :
    ListRun.step op r = .ok r' := by
  obtain ⟨m, hm', hstep⟩ := runLists_append h
  obtain rfl : m = r := Except.ok.inj (hm'.symm.trans hm)
  simp only [Run.exec] at hstep
  rcases hc : ListRun.step op m with e | x
  · rw [hc] at hstep
    cases hstep
  · rw [hc] at hstep
    exact hstep

/-- Until a pull finds a value, the client has its store. -/
theorem runLists_next (hno : ∀ pre op post r r', ops = pre ++ op :: post → runLists f pre = .ok r →
      ListsInv.Next f.ptr r.1 r.2 → runLists f (pre ++ [op]) = .ok r' →
      ¬ op.Finds r.1) (pre post : List ListOp) (r : ListRun) (heq : ops = pre ++ post)
    (hr : runLists f pre = .ok r) : ListsInv.Next f.ptr r.1 r.2 := by
  induction pre using List.reverseRecOn generalizing post r with
  | nil =>
    obtain ⟨s, a, ix, hs, hi, -⟩ := runLists_start f
    unfold runLists at hr
    rw [hs] at hr
    obtain rfl : (ListClient.zero, s) = r := Except.ok.inj hr
    exact ⟨a, ix, [], [], [], hi⟩
  | append_singleton pre op ih =>
    obtain ⟨m, hm, -⟩ := runLists_append hr
    have heq' : ops = pre ++ op :: post := by rw [heq, List.append_assoc]; rfl
    have hnext := ih ([op] ++ post) m (by rw [heq, List.append_assoc]) hm
    have hop := hno pre op post m r heq' hm hnext hr
    obtain ⟨a, ix, cs, vs, ss, hi⟩ := hnext
    have hpost : Run.Post (fun _ => True) (ListRun.step op m) fun x =>
        ListsInv.Next f.ptr x.1 x.2 :=
      .of_wp_run (hi.wp_run hop) fun _ _ => trivial
    exact hpost.ok (runLists_snoc hm hr)

/-- A call that does not stop, and what follows. -/
theorem exec_cons {Q : ListRun → Prop} {s : Touchdb} {r : ListClient}
    (h : wp anyEvent (op.run r) (fun r' t => Run.Post (fun _ => False)
      (Run.exec ListRun.step ops (r', t)) Q) s) :
    Run.Post (fun _ => False) (Run.exec ListRun.step (op :: ops) (r, s)) Q := by
  obtain ⟨r', t, l, hc, -, hq⟩ := wp_ends h fun _ h => h
  have hstep : ListRun.step op (r, s) = .ok (r', t) := run_ok hc
  simp only [Run.exec, hstep]
  exact hq

end Runs

/-- In every state of a run the values that were pulled are still the strings that were pushed,
by blocks in use, if and only if no pull of the run that returns is from a list in which values wait,
by the calls so far. -/
theorem popped_owned_iff (f : NewFiles) (ops : List ListOp) :
    (∀ pre post r, ops = pre ++ post → runLists f pre = .ok r → PoppedOwned r) ↔
      ∀ pre op post r r', ops = pre ++ op :: post → runLists f pre = .ok r →
        runLists f (pre ++ [op]) = .ok r' → ¬ op.Finds r.1 := by
  constructor
  · intro h pre op post r r' heq hr hr' hop
    have hsplit : ops = (pre ++ [op]) ++ post := by rw [heq, List.append_assoc]; rfl
    have hfirst : ∀ pre op post r r', ops = pre ++ op :: post → runLists f pre = .ok r →
        ListsInv.Next f.ptr r.1 r.2 → runLists f (pre ++ [op]) = .ok r' →
        ¬ op.Finds r.1 := by
      intro pre op post r r' heq hr hnext hr' hop
      obtain ⟨a, ix, cs, vs, ss, hi⟩ := hnext
      have hpost : Run.Post (fun _ => True) (ListRun.step op r) fun x => ¬ PoppedOwned x :=
        .of_wp_run (hi.wp_finds hop (G := anything) (fun _ => trivial) (.of_stops trivial _ _))
          fun _ _ => trivial
      exact hpost.ok (runLists_snoc hr hr') (h (pre ++ [op]) post r'
        (by rw [heq, List.append_assoc]; rfl) hr')
    exact hfirst pre op post r r' heq hr (runLists_next hfirst pre (op :: post) r heq hr) hr' hop
  · intro h pre post r heq hr x hx
    obtain ⟨a, ix, cs, vs, ss, hi⟩ := runLists_next (fun pre op post r r' heq hr _ hr' =>
      h pre op post r r' heq hr hr') pre post r heq hr
    rw [hi.popped] at hx
    cases hx

/-- A string is pushed to a chain, and pulled. -/
theorem popped_owned_fails : ∃ r, runLists .page [.newStr (text 3 97), .newChain, .push 0 0,
    .pullHead 0] = .ok r ∧ ¬ PoppedOwned r := by
  have hall : ∀ e, anyEvent.emits e := fun _ => trivial
  have hroom : newRoom + roomFor [sizeofVal, sizeofStr, 4] + roomFor [sizeofChain] +
      roomFor [touchdbChainNodeSize] + roomFor [sizeofVal] ≤ touchdbDefaultPoolSize := by decide
  obtain ⟨s, a, ix, hs, hi, hc⟩ := runLists_start .page
  have hpost : Run.Post (fun _ => False) (Run.exec ListRun.step [.newStr (text 3 97), .newChain,
      .push 0 0, .pullHead 0] (.zero, s)) fun r => ¬ PoppedOwned r := by
    have hr₁ : Serves anyEvent a [sizeofVal, sizeofStr, 4] := .of_room (by omega)
    refine exec_cons (hi.wp_newStr (text 3 97) hall hr₁ fun V a₁ vs ss t₁ hi₁ hc₁ => ?_)
    have hle : a₁.cur ≤ a.cur + roomFor [sizeofVal, sizeofStr, 4] := hc₁
    refine exec_cons (hi₁.wp_newChain hall (.of_room (by omega)) fun C a₂ t₂ hi₂ hc₂ => ?_)
    refine exec_cons (hi₂.wp_push (x := ⟨C, []⟩) (i := 0) (by rfl) (by rfl) (by rfl) hall
      (.of_room (by omega)) fun y a₃ t₃ hi₃ hc₃ => ?_)
    exact exec_cons (wp_mono (hi₃.wp_finds (by simp [ListOp.Finds, ListClient.pushed]) hall
      (.of_room (by omega))) fun _ _ h => h)
  rcases hx : Run.exec ListRun.step [.newStr (text 3 97), .newChain, .push 0 0, .pullHead 0]
    (.zero, s) with e | r
  · rw [hx] at hpost
    exact hpost.elim
  · refine ⟨r, ?_, hpost.ok hx⟩
    unfold runLists
    rw [hs]
    exact hx

end TouchDb
