import TouchDb.Rbtree.DelFixup
import TouchDb.Rbtree.Search
import TouchDb.Rbtree.State
import TouchDb.Rbtree.Unlink

/-! `touchdb_rbtree_del`: when it takes a key out of a red-black search tree and leaves one. -/
namespace TouchDb
open Prog Layout RbTree

/-- Whether `del_fixup` mends the gap: nothing is missing there, or the subtree can be made black, or the
node above the gap is known and the path from there is one that it mends. -/
def mendsGap {α : Type} (g : Gap α) : Bool :=
  decide (g.color = .red) || (decide (g.sub.color = .red) || !g.direct && mends g.path)

section Wp
variable {B : ℕ} {u : PoolAlloc} {L : List TreeCell} {s : RbStore} {G : Guard Stop RbEvent}
  {p : Path TreeCell} {l r v : RbTree TreeCell} {x : TreeCell} {c : RbColor}

/-- The node that goes is none of those that are left. -/
theorem gap_ne {z : TreeCell} (h : Distinct (fill p (node c l x r)))
    (hz : z ∈ (fill (gap p c l r).path (gap p c l r).sub).toList) : z.off ≠ x.off := by
  apply h.node z
  rw [toList_gap] at hz
  simp only [List.mem_append, pathCells] at hz ⊢
  tauto

/-- What is left of the tree, and what `del_fixup` is told of it. -/
theorem LinkRep.wp_unlinkNode {Q : ℕ × ℕ × TouchdbRbtreeNodeColor → RbStore → Prop}
    (h : LinkRep B u L (fill p (node c l x r)) s) (hG : Access G B L)
    (hQ : ∀ t par, Standing B u L (fill (gap p c l r).path (gap p c l r).sub) t →
      (par = if (gap p c l r).direct then B + x.off.toNat else ptrAt B (parentOff (gap p c l r).path)) →
      Q (par, ptrAt B (rootOff (gap p c l r).sub), colorOf (gap p c l r).color) t) :
    wp G (unlinkNode (B + x.off.toNat)) Q s := by
  have hl : NodeField.left.get ((linksOf B s).node x.off) = rootOff l :=
    congrArg RbNode.leftOffset h.node_eq
  have hr : NodeField.right.get ((linksOf B s).node x.off) = rootOff r :=
    congrArg RbNode.rightOffset h.node_eq
  have hl0 : rootOff l = NIL ↔ l = nil := h.focusLeft.distinct.rootOff_eq_nil
  have hr0 : rootOff r = NIL ↔ r = nil := h.focusRight.distinct.rootOff_eq_nil
  unfold unlinkNode
  apply wp_bind
  apply h.nodes.wp_get hG h.mem NodeField.left
  rw [hl]
  apply wp_bind
  rcases gap_cases p c l r with ⟨v, hv, hg⟩ | ⟨q, d, y, v, hln, hrn, hd, hg⟩
  · rw [hg] at hQ
    have hone : wp G (unlinkOne (B + x.off.toNat)) Q s := by
      apply h.wp_unlinkOne hG hv
      exact fun t ht => hQ t _ ht rfl
    rcases hv with ⟨rfl, rfl⟩ | ⟨hln, rfl, rfl⟩
    · rw [rootOff_nil, if_neg (by simp)]
      exact wp_pure hone
    · rw [if_pos (mt hl0.mp hln)]
      apply wp_bind
      apply h.nodes.wp_get hG h.mem NodeField.right
      rw [hr]
      exact wp_pure hone
  · rw [hg] at hQ
    rw [if_pos (mt hl0.mp hln)]
    apply wp_bind
    apply h.nodes.wp_get hG h.mem NodeField.right
    rw [hr]
    apply wp_pure
    rw [if_pos (by simpa using mt hr0.mp hrn)]
    apply h.wp_unlinkTwo hG hln hrn hd
    intro t ht
    apply hQ t _ ht
    cases q with
    | nil => exact ptrAt_of_ne (h.ne_nil h.mem)
    | cons f q => rfl

/-- A parent that is not NULL is read first, whatever it is, unless the loop is not entered. -/
theorem LinkRep.delFixup_reads {f : Crumb TreeCell} {par : ℕ}
    (h : LinkRep B u L (fill (f :: p) v) s) (hc : v.color = .black) (hpar : par ≠ NULL) :
    RbEvent.access par ∈ (delFixup par (ptrAt B (rootOff v))).trace s := by
  have hall : Access ⟨fun _ => False, fun _ => True⟩ B L := fun _ _ => trivial
  have hblack : wp (⟨fun _ => False, fun _ => True⟩ : Guard Stop RbEvent)
      (isBlack (ptrAt B (rootOff v))) (fun b t => b = true ∧ t = s) s := by
    apply h.wp_isBlack hall
    exact ⟨by simp [hc], rfl⟩
  have hgo : wp (⟨fun _ => False, fun _ => True⟩ : Guard Stop RbEvent) (do
      let root ← rootNode
      return decide (ptrAt B (rootOff v) ≠ root)) (fun b t => b = true ∧ t = s) s := by
    apply wp_bind
    apply h.wp_root
    apply wp_pure
    refine ⟨?_, rfl⟩
    obtain ⟨w, hw, hwr⟩ := rootOff_fill f p v
    apply decide_eq_true
    intro he
    rw [hwr] at he
    exact h.distinct.path_ne hw (ptrAt_inj he).symm
  obtain ⟨b₁, s₁, l₁, h₁, -, hb₁, hs₁⟩ := wp_ends hblack fun _ h => h
  obtain ⟨b₂, s₂, l₂, h₂, -, hb₂, hs₂⟩ := wp_ends hgo fun _ h => h
  rw [hb₁, hs₁] at h₁
  rw [hb₂, hs₂] at h₂
  have hpass : Passes (delFixup par (ptrAt B (rootOff v))) s fun l => RbEvent.access par ∈ l := by
    unfold delFixup
    apply Passes.left
    rw [show walkRounds = (walkRounds - 1) + 1 from rfl, delFixupLoop_succ]
    apply Passes.bind h₁
    rw [if_pos rfl]
    apply Passes.bind h₂
    rw [if_pos rfl]
    apply Passes.left
    unfold leftNode relative
    rw [if_neg hpar]
    apply Passes.left
    unfold getField
    apply Passes.left
    exact ⟨[.access par], [], rfl, by simp⟩
  obtain ⟨l, l', hl, hmem⟩ := hpass
  rw [hl]
  exact List.mem_append_left _ hmem

end Wp

namespace RbState
variable (s : RbState)

/-- Only nodes of the tree are accessed, and none after it was released. -/
def Careful (l : List RbEvent) : Prop :=
  (∀ p, .access p ∈ l → ∃ x ∈ s.tree.toList, p = s.ptr + x.off.toNat) ∧
    l.Pairwise fun e f => ∀ p, e = .release p → f ≠ .access p

/-- The key is taken out of the tree. -/
def DelOk (strcmp : Strcmp) (k : CStr) : Prop :=
  ∃ t l, touchdbRbtreeDel strcmp k s.store = .ok ((), t, l) ∧ s.Careful l ∧
    ∃ u T, TreeRep s.ptr u T.toList T t ∧ T.Valid ∧ Sorted TreeCell.key T ∧
      T.toList.map TreeCell.pair = (s.tree.toList.filter fun x => decide (x.key ≠ k)).map TreeCell.pair

/-- The node with the key, if any, is one that can be taken out. -/
def mended (k : CStr) : Bool :=
  match locate TreeCell.key k s.tree [] with
  | (_, .nil) => true
  | (p, .node c l _ r) => mendsGap (gap p c l r)

variable {s} {p : Path TreeCell} {c : RbColor} {l r : RbTree TreeCell} {x : TreeCell}
  {strcmp : Strcmp} {k : CStr}

theorem tree_eq (h : locate TreeCell.key k s.tree [] = (p, .node c l x r)) :
    s.tree = fill p (node c l x r) ∧ x.key = k := by
  obtain ⟨htree, hkey⟩ := locate_node_eq h
  exact ⟨htree.symm, hkey⟩

/-- What `touchdb_rbtree_del` does after it has released the node. -/
def delRest (B par : ℕ) (g : Gap TreeCell) : RbM Unit := do
  if g.color = .black then delFixup par (ptrAt B (rootOff g.sub)) else return ()

/-- Up to `del_fixup`. -/
theorem del_found (h : locate TreeCell.key k s.tree [] = (p, .node c l x r)) (strcmp : Strcmp) :
    ∃ t u l₁ par, LinkRep s.ptr u (fill (gap p c l r).path (gap p c l r).sub).toList
        (fill (gap p c l r).path (gap p c l r).sub) t ∧
      (par = if (gap p c l r).direct then s.ptr + x.off.toNat
        else ptrAt s.ptr (parentOff (gap p c l r).path)) ∧
      (∀ e ∈ l₁, ∃ y ∈ s.tree.toList, e = .access (s.ptr + y.off.toNat)) ∧
      touchdbRbtreeDel strcmp k s.store =
        match delRest s.ptr par (gap p c l r) t with
        | .error (e, l₂) => .error (e, l₁ ++ .release (s.ptr + x.off.toNat) :: l₂)
        | .ok (b, t', l₂) => .ok (b, t', l₁ ++ .release (s.ptr + x.off.toNat) :: l₂) := by
  obtain ⟨htree, -⟩ := tree_eq h
  have hG := access_among s.ptr s.tree.toList
  have hrep : LinkRep s.ptr s.alloc s.tree.toList (fill p (node c l x r)) s.store := by
    rw [← htree]
    exact s.rep.toLinkRep
  have hget : wp (among s.ptr s.tree.toList) (getNode strcmp k NULL) (fun a t =>
      a = (s.ptr + x.off.toNat, s.ptr + x.off.toNat) ∧ t = s.store) s.store := by
    apply s.rep.wp_getNode hG
    rw [h]
    exact ⟨rfl, rfl⟩
  have hunlink : wp (among s.ptr s.tree.toList) (unlinkNode (s.ptr + x.off.toNat)) (fun a t =>
      Standing s.ptr s.alloc s.tree.toList (fill (gap p c l r).path (gap p c l r).sub) t ∧
        (a.1 = if (gap p c l r).direct then s.ptr + x.off.toNat
          else ptrAt s.ptr (parentOff (gap p c l r).path)) ∧
        a.2 = (ptrAt s.ptr (rootOff (gap p c l r).sub), colorOf (gap p c l r).color)) s.store := by
    apply hrep.wp_unlinkNode hG
    intro t par ht hpar
    exact ⟨ht, hpar, rfl⟩
  obtain ⟨_, s₁, l₁, h₁, he₁, ha₁, hs₁⟩ := wp_ends hget fun _ h => h
  obtain ⟨⟨par, _⟩, s₂, l₂, h₂, he₂, hstand, hpar, ha₂⟩ := wp_ends hunlink fun _ h => h
  have hrelease : wp (⟨fun _ => False, fun _ => False⟩ : Guard Stop RbEvent)
      (onPool (touchdbPoolFree 0 (s.ptr + x.off.toNat))) (fun _ t => ∃ u,
        LinkRep s.ptr u (fill (gap p c l r).path (gap p c l r).sub).toList
          (fill (gap p c l r).path (gap p c l r).sub) t) s₂ := by
    apply wp_release hstand hrep.mem
    · intro z hz
      exact ⟨hrep.list ▸ (gap_sublist p c l x r).subset hz, gap_ne hrep.distinct hz⟩
    · exact hrep.distinct.of_sublist (gap_sublist p c l x r)
    · exact fun u t ht => ⟨u, ht⟩
  obtain ⟨_, t, l₃, h₃, he₃, u, ht⟩ := wp_ends hrelease fun _ h => h
  obtain rfl : l₃ = [] := List.eq_nil_iff_forall_not_mem.mpr he₃
  have hne : s.ptr + x.off.toNat ≠ NULL := (s.rep.owned x (hrep.mem)).ptr_ne s.ptr
  have hcolor (d : RbColor) : colorOf d = .black ↔ d = .black := colorOf_inj (d := .black)
  refine ⟨t, u, l₁ ++ l₂, par, ht, hpar, fun e he => ?_, ?_⟩
  · rcases List.mem_append.mp he with he | he
    · exact he₁ e he
    · exact he₂ e he
  · rw [ha₁, hs₁] at h₁
    dsimp only at ha₂
    rw [ha₂] at h₂
    unfold touchdbRbtreeDel
    rw [bind_eq, h₁]
    dsimp only
    rw [if_neg hne, bind_eq, h₂]
    dsimp only
    simp only [hcolor]
    rw [bind_eq, show emit (.release (s.ptr + x.off.toNat)) s₂ =
      .ok ((), s₂, [.release (s.ptr + x.off.toNat)]) from rfl]
    dsimp only
    rw [bind_silent h₃]
    rw [show (if (gap p c l r).color = .black then delFixup par (ptrAt s.ptr (rootOff (gap p c l r).sub))
      else return () : RbM Unit) = delRest s.ptr par (gap p c l r) from rfl]
    rcases delRest s.ptr par (gap p c l r) t with ⟨e, l₄⟩ | ⟨b, t', l₄⟩
    · simp
    · simp

theorem pairwise_of_accesses {B : ℕ} {L : List TreeCell} {l : List RbEvent}
    (hl : ∀ e ∈ l, ∃ y ∈ L, e = .access (B + y.off.toNat)) :
    l.Pairwise fun e f => ∀ q, e = .release q → f ≠ .access q := by
  apply List.Pairwise.imp_of_mem (R := fun _ _ => True)
  · rintro e f he - - q rfl
    obtain ⟨y, -, he⟩ := hl _ he
    cases he
  · exact List.pairwise_of_forall fun _ _ => trivial

theorem careful_of_accesses {l : List RbEvent}
    (hl : ∀ e ∈ l, ∃ y ∈ s.tree.toList, e = .access (s.ptr + y.off.toNat)) : s.Careful l := by
  refine ⟨fun q hq => ?_, pairwise_of_accesses hl⟩
  obtain ⟨y, hy, he⟩ := hl _ hq
  exact ⟨y, hy, RbEvent.access.inj he⟩

/-- The other nodes may still be accessed when one is released. -/
theorem careful_release {l₁ l₂ : List RbEvent}
    (hl₁ : ∀ e ∈ l₁, ∃ y ∈ s.tree.toList, e = .access (s.ptr + y.off.toNat))
    (hl₂ : ∀ e ∈ l₂, ∃ y ∈ s.tree.toList, y.off ≠ x.off ∧ e = .access (s.ptr + y.off.toNat)) :
    s.Careful (l₁ ++ .release (s.ptr + x.off.toNat) :: l₂) := by
  have hl₂' : ∀ e ∈ l₂, ∃ y ∈ s.tree.toList, e = .access (s.ptr + y.off.toNat) := by
    intro e he
    obtain ⟨y, hy, -, he⟩ := hl₂ e he
    exact ⟨y, hy, he⟩
  constructor
  · intro q hq
    rcases List.mem_append.mp hq with hq | hq
    · exact (careful_of_accesses hl₁).1 q hq
    · rcases List.mem_cons.mp hq with hq | hq
      · cases hq
      · exact (careful_of_accesses hl₂').1 q hq
  · apply List.pairwise_append.mpr
    refine ⟨pairwise_of_accesses hl₁, List.pairwise_cons.mpr ⟨?_, pairwise_of_accesses hl₂'⟩, ?_⟩
    · rintro f hf q hq rfl
      obtain ⟨y, -, hne, he⟩ := hl₂ _ hf
      have h1 : q = s.ptr + y.off.toNat := RbEvent.access.inj he
      have h2 : s.ptr + x.off.toNat = q := RbEvent.release.inj hq
      exact hne (UInt32.toNat_inj.mp (by omega))
    · rintro e he f - q rfl
      obtain ⟨y, -, he⟩ := hl₁ _ he
      cases he

/-- A key that is not there. -/
theorem delOk_absent (h : locate TreeCell.key k s.tree [] = (p, .nil)) : s.DelOk strcmp k := by
  have hget : wp (among s.ptr s.tree.toList) (touchdbRbtreeDel strcmp k) (fun _ t => t = s.store)
      s.store := by
    unfold touchdbRbtreeDel
    apply wp_bind
    apply s.rep.wp_getNode (access_among s.ptr s.tree.toList)
    rw [h]
    exact wp_pure rfl
  obtain ⟨_, t, l, hdel, hl, rfl⟩ := wp_ends hget fun _ h => h
  refine ⟨s.store, l, hdel, careful_of_accesses hl, s.alloc, s.tree, s.rep, s.valid, s.sorted, ?_⟩
  have hk : k ∉ s.tree.toList.map TreeCell.key := by
    obtain ⟨htree, haround⟩ := locate_nil_eq s.sorted h
    rw [← htree]
    exact notMem_of_around haround
  rw [List.filter_eq_self.mpr]
  intro y hy
  apply decide_eq_true
  rintro rfl
  exact hk (List.mem_map_of_mem hy)

/-- What a run that ends well has to show for its end. -/
theorem delOk_of_rest {par : ℕ} {t : RbStore} {u : PoolAlloc} {l₁ : List RbEvent}
    (h : locate TreeCell.key k s.tree [] = (p, .node c l x r))
    (hl₁ : ∀ e ∈ l₁, ∃ y ∈ s.tree.toList, e = .access (s.ptr + y.off.toNat))
    (hdel : ∀ t' l₂, delRest s.ptr par (gap p c l r) t = .ok ((), t', l₂) →
      touchdbRbtreeDel strcmp k s.store = .ok ((), t', l₁ ++ .release (s.ptr + x.off.toNat) :: l₂))
    (hrest : wp (among s.ptr (fill (gap p c l r).path (gap p c l r).sub).toList)
      (delRest s.ptr par (gap p c l r)) (fun _ t' =>
        ∃ T, LinkRep s.ptr u (fill (gap p c l r).path (gap p c l r).sub).toList T t' ∧ T.Valid) t) :
    s.DelOk strcmp k := by
  obtain ⟨htree, hkey⟩ := tree_eq h
  have hsub := gap_sublist p c l x r
  rw [← htree] at hsub
  have hd : Distinct (fill p (node c l x r)) := by
    rw [← htree]
    exact s.rep.distinct
  have hs : Sorted TreeCell.key (fill p (node c l x r)) := by
    rw [← htree]
    exact s.sorted
  obtain ⟨_, t', l₂, hrun, hl₂, T, hT, hval⟩ := wp_ends hrest fun _ h => h
  refine ⟨t', _, hdel t' l₂ hrun, careful_release hl₁ fun e he => ?_, u, T, ?_, hval, ?_, ?_⟩
  · obtain ⟨y, hy, he⟩ := hl₂ e he
    exact ⟨y, hsub.subset hy, gap_ne hd hy, he⟩
  · rw [hT.list]
    exact ⟨hT, fun y hy => s.rep.keyed y (hsub.subset hy)⟩
  · apply s.sorted.sublist
    rw [hT.list]
    exact hsub
  · rw [hT.list, toList_gap, htree, hs.filter_ne fun y => by rw [decide_eq_true_eq, hkey]]

/-- What is missing at the gap, where it was black. -/
theorem short_gap (h : locate TreeCell.key k s.tree [] = (p, .node c l x r))
    (hc : (gap p c l r).color = .black) : ∃ n, Short (gap p c l r).path (gap p c l r).sub n := by
  have hval := s.valid
  rw [(tree_eq h).1] at hval
  rcases gap_fits hval with ⟨hr, -⟩ | ⟨n, -, hf, hb⟩
  · rw [hc] at hr
    cases hr
  · exact ⟨n, hf, fun _ => hb, hb.blacken_red⟩

theorem delOk_found (h : locate TreeCell.key k s.tree [] = (p, .node c l x r))
    (hm : mendsGap (gap p c l r) = true) : s.DelOk strcmp k := by
  obtain ⟨t, u, l₁, par, ht, hpar, hl₁, hdel⟩ := del_found h strcmp
  simp only [mendsGap, Bool.or_eq_true, Bool.and_eq_true, Bool.not_eq_true', decide_eq_true_eq] at hm
  apply delOk_of_rest h hl₁ (t := t) (u := u)
  · intro t' l₂ hrest
    rw [hdel, hrest]
  · unfold delRest
    by_cases hc : (gap p c l r).color = .black
    · obtain ⟨n, hs⟩ := short_gap h hc
      rw [if_pos hc]
      apply ht.wp_delFixup (access_among _ _) hs
      · rcases hm with hm | hm | ⟨hm, -⟩
        · rw [hc] at hm
          cases hm
        · exact .inl hm
        · rw [hm] at hpar
          exact .inr hpar
      · exact fun _ T t' hT hval => ⟨T, hT, hval⟩
      · intro hn
        rw [hc] at hm
        apply absurd _ hn
        tauto
    · have hval := s.valid
      rw [(tree_eq h).1] at hval
      rw [if_neg hc]
      apply wp_pure
      rcases gap_fits hval with ⟨-, hv⟩ | ⟨n, hr, -⟩
      · exact ⟨_, ht, hv⟩
      · exact absurd hr hc

/-- The parent that `del_fixup` is told of is the node that was released. -/
theorem not_delOk_direct (h : locate TreeCell.key k s.tree [] = (p, .node c l x r))
    (hc : (gap p c l r).color = .black) (hv : (gap p c l r).sub.color = .black)
    (hd : (gap p c l r).direct = true) : ¬ s.DelOk strcmp k := by
  rintro ⟨t', ev, hrun, hcareful, -⟩
  obtain ⟨t, u, l₁, par, ht, hpar, -, hdel⟩ := del_found h strcmp
  rw [hd, if_pos rfl] at hpar
  unfold delRest at hdel
  rw [if_pos hc, hpar] at hdel
  obtain ⟨f, q, hpath⟩ : ∃ f q, (gap p c l r).path = f :: q := by
    rcases gap_cases p c l r with ⟨v, -, hg⟩ | ⟨q, d, y, v, -, -, -, hg⟩
    · rw [hg] at hd
      cases hd
    · rw [hg]
      exact List.exists_cons_of_ne_nil (by simp)
  have hx : x ∈ s.tree.toList := by
    rw [(tree_eq h).1]
    exact mem_fill.mpr (.inr (by simp [toList]))
  rw [hpath] at ht
  have hreads := ht.delFixup_reads hv ((s.rep.owned x hx).ptr_ne s.ptr)
  unfold trace at hreads
  rw [hrun] at hdel
  rcases hrest : delFixup (s.ptr + x.off.toNat) (ptrAt s.ptr (rootOff (gap p c l r).sub)) t with
    ⟨e, l₂⟩ | ⟨_, t₂, l₂⟩
  · rw [hrest] at hdel
    cases hdel
  · rw [hrest] at hdel hreads
    cases hdel
    have h1 := (List.pairwise_append.mp hcareful.2).2.1
    exact (List.pairwise_cons.mp h1).1 _ hreads _ rfl rfl

/-- The records have a cycle at the end. -/
theorem not_delOk_looping (h : locate TreeCell.key k s.tree [] = (p, .node c l x r))
    (hc : (gap p c l r).color = .black) (hd : (gap p c l r).direct = false)
    (hm : ¬ ((gap p c l r).sub.color = .red ∨ mends (gap p c l r).path = true)) :
    ¬ s.DelOk strcmp k := by
  rintro ⟨t', ev, hrun, -, u', T, hT, -⟩
  obtain ⟨t, u, l₁, par, ht, hpar, -, hdel⟩ := del_found h strcmp
  obtain ⟨n, hs⟩ := short_gap h hc
  rw [hd] at hpar
  unfold delRest at hdel
  rw [if_pos hc, hrun] at hdel
  have hwp : wp (among s.ptr (fill (gap p c l r).path (gap p c l r).sub).toList)
      (delFixup par (ptrAt s.ptr (rootOff (gap p c l r).sub)))
      (fun _ t => Cyclic (rbNode s.ptr t.db) t.tree.rootOffset) t := by
    apply ht.wp_delFixup (access_among _ _) hs (.inr hpar)
    · exact fun h1 => absurd h1 hm
    · exact fun _ t₂ h1 => h1
  obtain ⟨_, t₂, l₂, hrest, -, hcyc⟩ := wp_ends hwp fun _ h => h
  rw [hrest] at hdel
  cases hdel
  exact hcyc.not_holds hT.root hT.holds

/-- Which keys are taken out as they should be. -/
theorem delOk_iff (s : RbState) (strcmp : Strcmp) (k : CStr) :
    s.DelOk strcmp k ↔ s.mended k = true := by
  unfold mended
  rcases hloc : locate TreeCell.key k s.tree [] with ⟨p, _ | ⟨c, l, x, r⟩⟩
  · simp only [iff_true]
    exact delOk_absent hloc
  constructor
  · intro h
    by_contra hm
    simp only [mendsGap, Bool.or_eq_true, Bool.and_eq_true, Bool.not_eq_true', decide_eq_true_eq,
      not_or] at hm
    obtain ⟨h1, h2, h3⟩ := hm
    have hc : (gap p c l r).color = .black := by
      by_contra h4
      exact h1 (color_ne_black.mp h4)
    have hv : (gap p c l r).sub.color = .black := by
      by_contra h4
      exact h2 (color_ne_black.mp h4)
    cases hd : (gap p c l r).direct with
    | true => exact not_delOk_direct hloc hc hv hd h
    | false => exact not_delOk_looping hloc hc hd (by tauto) h
  · exact delOk_found hloc

/-- The root of three black nodes, whose successor is its right child; and a right leaf whose sibling
has a red child on the left. -/
theorem delOk_fails :
    (∃ s : RbState, s.tree.map TreeCell.pair =
        node .black (node .black nil (letter 97) nil) (letter 98) (node .black nil (letter 99) nil) ∧
      ¬ s.DelOk signCmp (letter 98).1) ∧
    ∃ s : RbState, s.tree.map TreeCell.pair =
        node .black (node .black (node .red nil (letter 97) nil) (letter 98) nil) (letter 99)
          (node .black nil (letter 100) nil) ∧
      ¬ s.DelOk signCmp (letter 100).1 := by
  constructor
  · obtain ⟨s, hs⟩ := exists_rbState (node .black (node .black nil (letter 97) nil) (letter 98)
      (node .black nil (letter 99) nil)) ⟨rfl, 2, .black (.black .nil .nil) (.black .nil .nil)⟩
      (by unfold Sorted; decide) (by decide) (by decide)
    refine ⟨s, hs, ?_⟩
    simp only [map_eq_node, map_eq_nil] at hs
    obtain ⟨l, x, r, ht, ⟨_, y, _, rfl, rfl, hy, rfl⟩, hx, _, z, _, rfl, rfl, hz, rfl⟩ := hs
    have hk : x.key = (letter 98).1 := congrArg Prod.fst hx
    have hloc : locate TreeCell.key (letter 98).1 s.tree [] =
        ([], node .black (node .black nil y nil) x (node .black nil z nil)) := by
      rw [ht, locate, hk, if_neg (lt_irrefl _), if_neg (lt_irrefl _)]
    exact not_delOk_direct hloc rfl rfl rfl
  · obtain ⟨s, hs⟩ := exists_rbState (node .black (node .black (node .red nil (letter 97) nil) (letter 98)
      nil) (letter 99) (node .black nil (letter 100) nil))
      ⟨rfl, 2, .black (.black (.red .nil .nil rfl rfl) .nil) (.black .nil .nil)⟩
      (by unfold Sorted; decide) (by decide) (by decide)
    refine ⟨s, hs, ?_⟩
    simp only [map_eq_node, map_eq_nil] at hs
    obtain ⟨l, x, r, ht, ⟨_, y, _, rfl, ⟨_, w, _, rfl, rfl, hw, rfl⟩, hy, rfl⟩, hx, _, z, _, rfl, rfl,
      hz, rfl⟩ := hs
    have hk : x.key = (letter 99).1 := congrArg Prod.fst hx
    have hkz : z.key = (letter 100).1 := congrArg Prod.fst hz
    have hlt : (letter 99).1 < (letter 100).1 := by decide
    have hloc : locate TreeCell.key (letter 100).1 s.tree [] =
        ([⟨.right, .black, x, node .black (node .red nil w nil) y nil⟩], node .black nil z nil) := by
      rw [ht, locate, hk, if_pos hlt, locate, hkz, if_neg (lt_irrefl _), if_neg (lt_irrefl _)]
    exact not_delOk_looping hloc rfl rfl (by simp [gap, mends, RbTree.color])

end RbState

end TouchDb
