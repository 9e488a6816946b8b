import TouchDb.Chain.Family

/-! What the calls on chains do to a family, whoever makes them. -/
namespace TouchDb
open Prog Layout

/-- Where an element is replaced by one that looks the same. -/
theorem map_set_eq {α β : Type} {f : α → β} {l : List α} {i : ℕ} {x y : α} (hx : l[i]? = some x)
    (hy : f y = f x) : (l.set i y).map f = l.map f := by
  obtain ⟨hlt, rfl⟩ := List.getElem?_eq_some_iff.mp hx
  rw [List.map_set, hy, ← List.getElem_map f (h := by simpa using hlt), List.set_getElem_self]

namespace FamilyRep
variable {L : Prop} {B : ℕ} {s : Touchdb} {a : PoolAlloc}
variable {cs : List ChainCells} {vs : List ValCell} {ss : List StrCell} {α : Type} {k : ℕ → M α}
variable {Q : α → Touchdb → Prop} {G : Guard Stop Event}

/-- A new chain joins the end of the chains. -/
theorem wp_newChain (h : FamilyRep L B s a cs vs ss) (hG : ∀ e, G.emits e)
    (hr : Serves G a [sizeofChain])
    (hQ : ∀ C a' t, FamilyRep L B t a' (cs ++ [⟨C, []⟩]) vs ss → Frame B s a t a' [] →
      ¬ Used a C → a'.cur ≤ a.cur + roomFor [sizeofChain] → wp G (k (B + C)) Q t) :
    wp G (do
      let (p, _) ← touchdbMalloc sizeofChain
      touchdbChainInit p
      k p) Q s := by
  refine wp_bind ((Work.start h.heap).wp_malloc (T := []) (.of_all hG) hr (by decide) (by decide)
    fun C a₁ t hC hw hF => ?_)
  refine wp_bind (wp_touchdbChainInit hw.heap (hC.owns (by decide)) hG fun u hu hF' hr' => ?_)
  have hcur := hC.cur_le
  refine hQ C a₁ u ?_ ((hF.trans hF').drop fun o ho => ?_) hC.not_used ?_
  · exact (h.addChain hu (hF.trans hF') hC.not_used hr').perm (List.perm_append_singleton _ _).symm
      (.refl _)
  · obtain rfl : o = C := by simpa using ho
    exact hC.mine
  · simpa [roomFor] using hcur

/-- A new string value, and what its struct says. -/
theorem wp_newStrVal {k : ℕ → TouchdbAddr → M α} (h : FamilyRep L B s a cs vs ss) (v : Text)
    (hG : ∀ e, G.emits e) (hr : Serves G a [sizeofVal, sizeofStr, v.1.strlen + 1])
    (hQ : ∀ V S D a' t, FamilyRep L B t a' cs (vs ++ [⟨V, .str ss.length⟩]) (ss ++ [⟨S, D, true⟩]) →
      Frame B s a t a' [] → (∀ o ∈ [V, S, D], ¬ Used a o) →
      a'.cur ≤ a.cur + roomFor [sizeofVal, sizeofStr, v.1.strlen + 1] → StrRep B t a' S D v.1 →
      t.field (B + S) Str.len = UInt32.ofNat (v.1.strlen + 1) → wp G (k (B + V) (addrOf V)) Q t) :
    wp G (do
      let (p, x) ← touchdbMalloc sizeofVal
      let _ ← touchdbStrNew2 p v.1
      k p x) Q s := by
  refine wp_bind ((Work.start h.heap).wp_malloc (T := []) (.of_all hG) hr (by decide) (by decide)
    fun V a₁ t hV hw hF => ?_)
  have hVO : Owns a₁ V sizeofVal := hV.owns (by decide)
  refine wp_bind (wp_touchdbStrNew2_len hw (.of_all hG) (hr.2 _ _ hV) hV.mine hVO v.2
    fun S D a₂ a₃ u hS hD hw' hF' hr' hval hlen => ?_)
  have hVS : V ≠ S := hVO.ne hS.fresh
  have hVD : V ≠ D := (hS.keep hVO).ne hD.fresh
  have hSn : ¬ Used a S := fun hu => hS.not_used (hV.used_iff.mpr (.inl hu))
  have hDn : ¬ Used a D := fun hu => hD.not_used (hS.used_iff.mpr (.inl (hV.used_iff.mpr (.inl hu))))
  have hst := h.addStr (z := ⟨S, D, true⟩) hw'.heap hw'.frame (fun o ho => ?_)
    (fun _ => ⟨_, hr'⟩) (by simp [StrCell.blocks, hr'.ne])
  · refine hQ V S D a₃ u ?_ hw'.frame ?_ ?_ hr' hlen
    · refine (hst.addVal (v := ⟨V, .str ss.length⟩) ?_ ⟨hD.keep (hS.keep hVO), ?_⟩).perm (.refl _)
        (List.perm_append_singleton _ _).symm
      · intro hm
        have hm' : V ∈ familyBlocks cs vs ss ++ [S, D] := by
          simpa [familyBlocks, StrCell.blocks, or_assoc] using hm
        rcases List.mem_append.mp hm' with hm' | hm'
        · exact h.fresh hV.not_used hm'
        · simp [hVS, hVD] at hm'
      · exact ⟨⟨S, D, true⟩, by simp, hval⟩
    · simpa using ⟨hV.not_used, hSn, hDn⟩
    · have h1 := hV.cur_le
      have h2 := hS.cur_le
      have h3 := hD.cur_le
      simp only [roomFor, List.map_cons, List.map_nil, List.sum_cons, List.sum_nil]
      omega
  · rcases List.mem_pair.mp ho with rfl | rfl
    · exact hSn
    · exact hDn

/-- A new string value. -/
theorem wp_newStr (h : FamilyRep L B s a cs vs ss) (v : Text) (hG : ∀ e, G.emits e)
    (hr : Serves G a [sizeofVal, sizeofStr, v.1.strlen + 1])
    (hQ : ∀ V S D a' t, FamilyRep L B t a' cs (vs ++ [⟨V, .str ss.length⟩]) (ss ++ [⟨S, D, true⟩]) →
      Frame B s a t a' [] → (∀ o ∈ [V, S, D], ¬ Used a o) →
      a'.cur ≤ a.cur + roomFor [sizeofVal, sizeofStr, v.1.strlen + 1] → wp G (k (B + V)) Q t) :
    wp G (do
      let (p, _) ← touchdbMalloc sizeofVal
      let _ ← touchdbStrNew2 p v.1
      k p) Q s :=
  h.wp_newStrVal (k := fun p _ => k p) v hG hr fun V S D a' t hf hF hn hc _ _ => hQ V S D a' t hf hF hn hc

/-- The struct of a value is released. -/
theorem wp_release {i : ℕ} {v : ValCell} {Q : Unit → Touchdb → Prop} (h : FamilyRep L B s a cs vs ss)
    (hv : vs[i]? = some v) (hG : ∀ e, G.emits e)
    (hQ : ∀ a' t, FamilyRep L B t a' cs (vs.eraseIdx i) ss → Frame B s a t a' [v.blk] → Q () t) :
    wp G (touchdbFree (addrOf v.blk)) Q s := by
  obtain ⟨hlt, rfl⟩ := List.getElem?_eq_some_iff.mp hv
  have hf := h.perm (.refl _) (List.getElem_cons_eraseIdx_perm hlt).symm
  exact wp_touchdbFree hf.heap (hf.vals _ List.mem_cons_self).owns (fun e _ => hG e)
    fun a' t _ ht hF _ => hQ a' t (hf.dropVal ht hF) hF

theorem wp_drop {i : ℕ} {v : ValCell} {c : M α} (h : FamilyRep L B s a cs vs ss)
    (hv : vs[i]? = some v) (hG : ∀ e, G.emits e)
    (hQ : ∀ a' t, FamilyRep L B t a' cs (vs.eraseIdx i) ss → Frame B s a t a' [v.blk] → wp G c Q t) :
    wp G (do
      let addr ← touchdbAddrOf (B + v.blk)
      touchdbFree addr
      c) Q s := by
  have hb := (h.vals v (List.mem_of_getElem? hv)).owns.bounds
  refine wp_bind (wp_touchdbAddrOf h.heap (by omega) (wp_bind ?_))
  exact h.wp_release hv hG hQ

/-- A chain is taken to the front of the family. -/
theorem front {i : ℕ} {x : ChainCells} (h : FamilyRep L B s a cs vs ss) (hx : cs[i]? = some x) :
    FamilyRep L B s a (x :: cs.eraseIdx i) vs ss := by
  obtain ⟨hlt, rfl⟩ := List.getElem?_eq_some_iff.mp hx
  exact h.perm (List.getElem_cons_eraseIdx_perm hlt).symm (.refl _)

/-- A value is pushed to a chain. -/
theorem wp_push {i : ℕ} {x : ChainCells} {v : ValCell} {Q : Unit → Touchdb → Prop}
    (h : FamilyRep L B s a cs vs ss) (hx : cs[i]? = some x) (hv : v ∈ vs) (hG : ∀ e, G.emits e)
    (hr : Serves G a [touchdbChainNodeSize])
    (hQ : ∀ N a' t, FamilyRep L B t a'
        (cs.set i ⟨x.blk, x.cells ++ [⟨⟨N, s.field (B + v.blk) Val.all⟩, v.kind⟩]⟩) vs ss →
      Frame B s a t a' x.blocks → ¬ Used a N → a'.cur ≤ a.cur + roomFor [touchdbChainNodeSize] →
      Q () t) :
    wp G (touchdbChainPushTail (B + x.blk) (B + v.blk)) Q s := by
  have hf := h.front hx
  have hX := hf.chains _ List.mem_cons_self
  have hV := hf.vals v hv
  refine wp_touchdbChainPushTail hf.heap hX.chain hV.owns (.of_all hG) hr List.mem_cons_self
    (List.mem_cons_of_mem _ (List.mem_singleton_self _)) fun N u a' hp => ?_
  have hcur := hp.handed.cur_le
  refine hQ N a' u ?_ hp.frame hp.handed.not_used (by simpa [roomFor] using hcur)
  exact (hf.push hV.kind hp).perm
    (List.set_perm_cons_eraseIdx (List.getElem?_eq_some_iff.mp hx).1 _).symm (.refl _)

/-- A value is pushed to a new chain, to which a new struct at `q` refers. -/
theorem wp_newListVal {k : ℕ → TouchdbAddr → M α} {v : ValCell} (h : FamilyRep L B s a cs vs ss)
    (hv : v ∈ vs) (hG : ∀ e, G.emits e) (hr : G.stops .noBlock)
    (hQ : ∀ q C y a' t, y.kind = v.kind → y.node.val = s.field (B + v.blk) Val.all →
      FamilyRep L B t a' (⟨C, [y]⟩ :: cs) vs ss →
      Frame B s a t a' [] → (∀ o ∈ [q, C, y.node.blk], o ≠ mapRecord ∧ ¬ Used a o) →
      Owns a' q sizeofVal → q ∉ familyBlocks (⟨C, [y]⟩ :: cs) vs ss →
      t.field (B + q) Val.all = ⟨.chain, addrOf C⟩ → wp G (k (B + q) (addrOf q)) Q t) :
    wp G (do
      let (val, addr) ← touchdbMalloc sizeofVal
      let chain ← touchdbChainNew val
      touchdbChainPushTail chain (B + v.blk)
      k val addr) Q s := by
  refine wp_bind ((Work.start h.heap).wp_malloc (T := []) (.of_all hG) (.of_stops hr _ [_]) (by decide)
    (by decide) fun q a₁ t₁ hq hw₁ hF₁ => ?_)
  have hqO : Owns a₁ q sizeofVal := hq.owns (by decide)
  refine wp_bind (wp_touchdbChainNew hw₁ hG (.of_stops hr _ _) hq.mine hqO
    fun C a₂ t₂ hC hw₂ hF₂ hrep hqw => ?_)
  have hqC : q ≠ C := hqO.ne hC.fresh
  have hCn : ¬ Used a C := fun hu => hC.not_used (hq.used_iff.mpr (.inl hu))
  have hf₂ : FamilyRep L B t₂ a₂ (⟨C, []⟩ :: cs) vs ss :=
    h.addChain hw₂.heap (hw₂.frame.drop (by simp)) hCn hrep
  have hqf : q ∉ familyBlocks (⟨C, []⟩ :: cs) vs ss := by
    have h1 := h.fresh hq.not_used
    intro hc
    rcases List.mem_cons.mp (show q ∈ C :: familyBlocks cs vs ss from hc) with hc | hc
    · exact hqC hc
    · exact h1 hc
  refine wp_bind (hf₂.wp_push (i := 0) (x := ⟨C, []⟩) (by rfl) hv hG (.of_stops hr _ _)
    fun N a₃ t₃ hf₃ hF₃ hN _ => ?_)
  have hF₀ : Frame B s a t₂ a₂ [] := hw₂.frame.drop (by simp)
  have hvv := hF₀.field (f := Val.all) (by simp) (h.vals v hv).owns (by decide)
  obtain ⟨y, hyN, hyk, hyv, hf⟩ : ∃ y : Cell, y.node.blk = N ∧ y.kind = v.kind ∧
      y.node.val = s.field (B + v.blk) Val.all ∧ FamilyRep L B t₃ a₃ (⟨C, [y]⟩ :: cs) vs ss :=
    ⟨_, by rfl, by rfl, hvv, hf₃⟩
  subst hyN
  have hqO₂ := hC.keep hqO
  have hqN : q ≠ y.node.blk := by
    intro hc
    exact hN (hc ▸ hqO₂.used)
  have hNn : ¬ Used a y.node.blk := fun hu => hN (hC.used_iff.mpr (.inl (hq.used_iff.mpr (.inl hu))))
  have hqT : q ∉ ChainCells.blocks ⟨C, []⟩ := by simpa [ChainCells.blocks, ChainCells.nodes] using hqC
  have hN0 := (hf.chains ⟨C, [y]⟩ List.mem_cons_self).chain.node y.node List.mem_cons_self
  refine hQ q C y a₃ t₃ hyk hyv hf (hw₂.frame.step hF₃ fun o ho => ?_) (fun o ho => ?_)
    (hF₃.owns hqT hqO₂) (fun hc => ?_) ?_
  · obtain rfl : o = C := by simpa [ChainCells.blocks, ChainCells.nodes] using ho
    exact .inr ⟨hC.ne_mapRecord, not_not.mp hCn⟩
  · simp only [List.mem_cons, List.not_mem_nil, or_false] at ho
    rcases ho with rfl | rfl | rfl
    · exact ⟨hq.ne_mapRecord, hq.not_used⟩
    · exact ⟨hC.ne_mapRecord, hCn⟩
    · have hb := hN0.bounds
      exact ⟨by simp only [mapRecord]; omega, hNn⟩
  · have hc' : q = C ∨ q = y.node.blk ∨ q ∈ familyBlocks cs vs ss := by
      simpa [familyBlocks, ChainCells.blocks, ChainCells.nodes, or_assoc] using hc
    rcases hc' with hc' | hc' | hc'
    · exact hqC hc'
    · exact hqN hc'
    · exact h.fresh hq.not_used hc'
  · rw [hF₃.field hqT hqO₂ (by decide)]
    exact hqw

theorem wp_newList {k : ℕ → TouchdbAddr → M α} {v : ValCell} (h : FamilyRep L B s a cs vs ss)
    (hv : v ∈ vs) (hG : ∀ e, G.emits e) (hr : G.stops .noBlock)
    (hQ : ∀ q C y a' t, y.kind = v.kind → FamilyRep L B t a' (⟨C, [y]⟩ :: cs) vs ss →
      Frame B s a t a' [] → (∀ o ∈ [q, C, y.node.blk], o ≠ mapRecord ∧ ¬ Used a o) →
      Owns a' q sizeofVal → q ∉ familyBlocks (⟨C, [y]⟩ :: cs) vs ss →
      t.field (B + q) Val.all = ⟨.chain, addrOf C⟩ → wp G (k (B + q) (addrOf q)) Q t) :
    wp G (do
      let (val, addr) ← touchdbMalloc sizeofVal
      let chain ← touchdbChainNew val
      touchdbChainPushTail chain (B + v.blk)
      k val addr) Q s :=
  h.wp_newListVal hv hG hr fun q C y a' t hy _ => hQ q C y a' t hy

end FamilyRep

end TouchDb
