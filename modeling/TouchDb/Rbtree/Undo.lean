import TouchDb.Rbtree.Mirror

/-! A rotation to the right does not undo one to the left, and leaves no tree. -/
namespace TouchDb
open Prog Layout RbTree

namespace LinkState
variable (s : LinkState)

/-- A rotation to the left at `n`, and then one to the right at the node that has come up, give every
link back. -/
def RotatesBack (n : s.Node) : Prop :=
  ∃ t l, (do
      leftRotate (s.ptr + n.1.toNat)
      rightRotate (s.ptr + (s.records.node n.1).rightOffset.toNat)) s.store = .ok ((), t, l) ∧
    t.tree.rootOffset = s.store.tree.rootOffset ∧
    ∀ o ∈ inorder s.tree,
      ((linksOf s.ptr t).node o).leftOffset = (s.records.node o).leftOffset ∧
        ((linksOf s.ptr t).node o).rightOffset = (s.records.node o).rightOffset ∧
        ((linksOf s.ptr t).node o).parentOffset = (s.records.node o).parentOffset

/-- A rotation to the right at `n` leaves a finite tree of the same nodes in the same order. -/
def TurnsRight (n : s.Node) : Prop :=
  ∃ t l, rightRotate (s.ptr + n.1.toNat) s.store = .ok ((), t, l) ∧
    ∃ T, (linksOf s.ptr t).root = topOff T ∧ Mirrored (linksOf s.ptr t).node NIL T ∧
      inorder T = inorder s.tree

end LinkState

theorem Cyclic.not_mirrored {k : Links} {T : BinaryTree PtrOffset} (h : Cyclic k.node k.root)
    (hroot : k.root = topOff T) : ¬ Mirrored k.node NIL T := by
  intro hM
  have hc : Cyclic (k.paint fun _ => .black).node k.root := h.congr fun _ _ _ => ⟨rfl, rfl⟩
  exact hc.not_holds (hroot.trans rootOff_dress.symm) hM.dress

namespace LinkState
variable {s : LinkState}

/-- The tree seen from a node with a left child. -/
theorem exists_left (n : s.Node) (h : (s.records.node n.1).leftOffset ≠ NIL) :
    ∃ p c d l y m x r, s.dressed = fill p (node c (node d l y m) x r) ∧ x.off = n.1 := by
  have hn : bare s.records n.1 ∈ s.dressed.toList := toList_dressed.symm ▸ mem_cells n.2
  obtain ⟨p, c, l, r, hd⟩ := exists_fill hn
  have hstands := s.stands
  rw [hd] at hstands
  have hleft : (s.records.node n.1).leftOffset = rootOff l :=
    congrArg RbNode.leftOffset (stands_fill.mp hstands).2.2.1
  cases l with
  | nil => exact absurd hleft h
  | node d l y m => exact ⟨p, c, d, l, y, m, _, r, hd, rfl⟩

/-- The node that went down stays the left child of the one that came up. -/
theorem rightRotate_leftRotate (n : s.Node) (h : (s.records.node n.1).rightOffset ≠ NIL) :
    (((s.records.leftRotate n.1).rightRotate (s.records.node n.1).rightOffset).node
        (s.records.node n.1).rightOffset).leftOffset = n.1 ∧
      (s.records.node (s.records.node n.1).rightOffset).leftOffset ≠ n.1 := by
  obtain ⟨p, c, l, x, d, m, y, r, hd, hx, hy, hm, -⟩ := exists_right n h
  have hstands := s.stands
  have hdist := s.distinct
  rw [hd] at hstands hdist
  have hturn := hstands.leftRotate hdist
  have hdist' : Distinct (fill p (node d (node c l x m) y r)) := by
    have hlist : (fill p (node d (node c l x m) y r)).toList =
        (fill p (node c l x (node d m y r))).toList := toList_fill_congr p (by simp [toList])
    exact hdist.of_sublist (hlist ▸ List.Sublist.refl _)
  obtain ⟨-, -, hyn, -⟩ := hturn.rightRotate_records hdist'
  have hleft : ((s.blacked.leftRotate x.off).node y.off).leftOffset = x.off :=
    congrArg RbNode.leftOffset (stands_fill.mp hturn).2.2.1
  constructor
  · rw [← hy, ← hx]
    have hl := congrArg RbNode.leftOffset hyn
    dsimp only at hl
    rw [hleft, blacked, ← paint_leftRotate, ← paint_rightRotate, paint_left] at hl
    exact hl
  · have hdm : Distinct (fill (⟨.left, d, y, r⟩ :: ⟨.right, c, x, l⟩ :: p) m) := hdist
    rw [← hm, ← hx]
    exact (hdm.path_ne (by simp [mem_pathCells_cons])).symm

theorem not_rotatesBack (n : s.Node) (h : (s.records.node n.1).rightOffset ≠ NIL) :
    ¬ s.RotatesBack n := by
  rintro ⟨t, l, hrun, -, hlinks⟩
  have hr := known_mem (closed n).right h
  have hwp : wp (among s.ptr s.cells) (do
      leftRotate (s.ptr + n.1.toNat)
      rightRotate (s.ptr + (s.records.node n.1).rightOffset.toNat)) (fun _ t =>
      Wired s.ptr s.alloc s.cells
        ((s.records.leftRotate n.1).rightRotate (s.records.node n.1).rightOffset) t) s.store := by
    apply wp_bind
    apply s.wired.wp_leftRotate (access_among _ _) (mem_cells n.2)
    intro t₁ ht₁
    apply ht₁.wp_rightRotate (access_among _ _) (mem_cells hr)
    exact fun t ht => ht
  have ht := (wp_elim hwp hrun).2
  obtain ⟨hnew, hold⟩ := rightRotate_leftRotate n h
  have hleft := (hlinks _ hr).1
  rw [node_eq_of_wired ht _ hr, hnew] at hleft
  exact hold hleft.symm

theorem not_turnsRight (n : s.Node) (h : (s.records.node n.1).leftOffset ≠ NIL) :
    ¬ s.TurnsRight n := by
  rintro ⟨t, l, hrun, T, hroot, hM, -⟩
  have hwp : wp (among s.ptr s.cells) (rightRotate (s.ptr + n.1.toNat))
      (fun _ t => Wired s.ptr s.alloc s.cells (s.records.rightRotate n.1) t) s.store := by
    apply s.wired.wp_rightRotate (access_among _ _) (mem_cells n.2)
    exact fun t ht => ht
  have ht := (wp_elim hwp hrun).2
  obtain ⟨p, c, d, l, y, m, x, r, hd, hx⟩ := exists_left n h
  have hstands := s.stands
  have hdist := s.distinct
  rw [hd] at hstands hdist
  have hcyc := hstands.rightRotate_cyclic hdist
  rw [hx, blacked, ← paint_rightRotate, paint_root] at hcyc
  have hcyc' : Cyclic (s.records.rightRotate n.1).node (s.records.rightRotate n.1).root :=
    hcyc.congr fun _ _ _ => ⟨paint_left.symm, paint_right.symm⟩
  exact (ht.cyclic hcyc').not_mirrored hroot hM

/-- Neither is ever true of a node that it is about. -/
theorem rotations_iff (s : LinkState) (n : s.Node) :
    (((s.records.node n.1).rightOffset ≠ NIL → s.RotatesBack n) ↔
        (s.records.node n.1).rightOffset = NIL) ∧
      (((s.records.node n.1).leftOffset ≠ NIL → s.TurnsRight n) ↔
        (s.records.node n.1).leftOffset = NIL) := by
  constructor
  · constructor
    · intro h
      by_contra h0
      exact not_rotatesBack n h0 (h h0)
    · exact fun h0 h => absurd h0 h
  · constructor
    · intro h
      by_contra h0
      exact not_turnsRight n h0 (h h0)
    · exact fun h0 h => absurd h0 h

/-- The root of three nodes. -/
theorem rotations_fail : ∃ (s : LinkState) (n : s.Node), inorder s.tree = [
      (s.records.node n.1).leftOffset, n.1, (s.records.node n.1).rightOffset] ∧
    (s.records.node n.1).rightOffset ≠ NIL ∧ ¬ s.RotatesBack n ∧
    (s.records.node n.1).leftOffset ≠ NIL ∧ ¬ s.TurnsRight n := by
  obtain ⟨s, hs⟩ := exists_rbState (node .black (node .black nil (letter 97) nil) (letter 98)
    (node .black nil (letter 99) nil)) ⟨rfl, 2, .black (.black .nil .nil) (.black .nil .nil)⟩
    (by unfold Sorted; decide) (by decide) (by decide)
  simp only [map_eq_node, map_eq_nil] at hs
  obtain ⟨_, x, _, hT, ⟨_, y, _, rfl, rfl, -, rfl⟩, -, _, z, _, rfl, rfl, -, rfl⟩ := hs
  have hin : inorder s.linkState.tree = [y.off, x.off, z.off] := by
    show inorder (shape s.tree) = _
    rw [inorder_shape, hT]
    rfl
  have hx : x.off ∈ inorder s.linkState.tree := by simp [hin]
  have hholds := s.rep.holds
  rw [hT] at hholds
  have hl : (s.linkState.records.node x.off).leftOffset = y.off :=
    congrArg RbNode.leftOffset hholds.2.1
  have hr : (s.linkState.records.node x.off).rightOffset = z.off :=
    congrArg RbNode.rightOffset hholds.2.1
  have hl0 : (s.linkState.records.node x.off).leftOffset ≠ NIL :=
    hl ▸ s.rep.ne_nil (x := y) (by simp [hT, toList])
  have hr0 : (s.linkState.records.node x.off).rightOffset ≠ NIL :=
    hr ▸ s.rep.ne_nil (x := z) (by simp [hT, toList])
  refine ⟨s.linkState, ⟨x.off, hx⟩, ?_, hr0, not_rotatesBack ⟨x.off, hx⟩ hr0, hl0,
    not_turnsRight ⟨x.off, hx⟩ hl0⟩
  exact hin.trans (by rw [hl, hr])

end LinkState

end TouchDb
