import TouchDb.Rbtree.Rep

/-! A tree in a pool seen from one of its nodes: what the functions read there, and the
changes of color. -/
namespace TouchDb
open Prog Layout RbTree

section Focus
variable {B : ℕ} {u : PoolAlloc} {L : List TreeCell} {s : RbStore} {G : Guard Stop RbEvent}
  {p : Path TreeCell} {t l r : RbTree TreeCell} {x : TreeCell} {c : RbColor}
  {f : Crumb TreeCell}

@[simp] theorem colorOf_red : colorOf .red = .red := rfl

@[simp] theorem colorOf_black : colorOf .black = .black := rfl

theorem colorOf_inj {c d : RbColor} : colorOf c = colorOf d ↔ c = d := by
  cases c <;> cases d <;> simp [colorOf]

/-- The nodes of a tree are apart. -/
structure Distinct (t : RbTree TreeCell) : Prop where
  nodup : (t.toList.map TreeCell.off).Nodup
  ne_nil : ∀ x ∈ t.toList, x.off ≠ NIL

/-- The node above a place is apart from the rest of the path. -/
def ParentApart : Path TreeCell → Prop
  | [] => True
  | f :: p => ∀ y, y ∈ f.sibling.toList ∨ y ∈ pathCells p → y.off ≠ f.label.off

@[simp] theorem rootOff_nil : rootOff (.nil : RbTree TreeCell) = NIL := rfl

theorem exists_root (h : rootOff t ≠ NIL) : ∃ z ∈ t.toList, z.off = rootOff t := by
  cases t with
  | nil => exact absurd rfl h
  | node c l x r => exact ⟨x, by simp [toList], rfl⟩

namespace Distinct
variable {y : TreeCell}

/-- A node is apart from its subtrees and from the path above it. -/
theorem node (h : Distinct (fill p (node c l x r))) :
    ∀ y, y ∈ l.toList ∨ y ∈ r.toList ∨ y ∈ pathCells p → y.off ≠ x.off := by
  have hn := h.nodup
  rw [toList_fill] at hn
  simp only [toList, List.map_append, List.map_cons, List.nodup_append, List.nodup_cons,
    List.mem_append, List.mem_cons, List.mem_map] at hn
  intro y hy he
  simp only [pathCells, List.mem_append] at hy
  grind

/-- The nodes of a path are not those of the subtree at its end. -/
theorem disjoint (h : Distinct (fill p t)) (hy : y ∈ pathCells p) (hx : x ∈ t.toList) :
    y.off ≠ x.off := by
  have hn := h.nodup
  rw [toList_fill] at hn
  simp only [List.map_append, List.nodup_append, List.mem_append, List.mem_map] at hn
  obtain ⟨⟨-, -, h1⟩, -, h2⟩ := hn
  rcases List.mem_append.mp hy with hy | hy
  · exact h1 _ ⟨y, hy, rfl⟩ _ ⟨x, hx, rfl⟩
  · exact (h2 _ (.inr ⟨x, hx, rfl⟩) _ ⟨y, hy, rfl⟩).symm

theorem path_ne (h : Distinct (fill p t)) (hy : y ∈ pathCells p) : y.off ≠ rootOff t := by
  cases t with
  | nil => exact h.ne_nil y (mem_fill.mpr (.inl hy))
  | node c l x r => exact h.disjoint hy (by simp [toList])

theorem tree_ne (h : Distinct (fill p t)) (hx : x ∈ t.toList) : x.off ≠ parentOff p := by
  cases p with
  | nil => exact h.ne_nil x (mem_fill.mpr (.inr hx))
  | cons f p => exact (h.disjoint label_mem_pathCells hx).symm

theorem rootOff_eq_nil (h : Distinct (fill p t)) : rootOff t = NIL ↔ t = .nil := by
  cases t with
  | nil => simp
  | node c l x r => simp [rootOff, h.ne_nil x (mem_fill.mpr (.inr (by simp [toList])))]

theorem sibling_ne (h : Distinct (fill (f :: p) t)) (hs : f.sibling ≠ .nil) :
    rootOff f.sibling ≠ rootOff t := by
  cases hv : f.sibling with
  | nil => exact absurd hv hs
  | node c l x r =>
    apply h.path_ne (mem_pathCells_cons.mpr (.inr (.inl _)))
    rw [hv]
    exact List.mem_append_right _ List.mem_cons_self

theorem root_ne (h : Distinct (fill p t)) (h0 : rootOff t ≠ NIL) : rootOff t ≠ parentOff p := by
  obtain ⟨z, hz, he⟩ := exists_root h0
  rw [← he]
  exact h.tree_ne hz

theorem parentApart (h : Distinct (fill p t)) : ParentApart p := by
  cases p with
  | nil => trivial
  | cons f p =>
    intro y hy
    rcases f with ⟨⟨⟩, c, x, v⟩
    · apply Distinct.node (p := p) (l := t) (r := v) h y
      exact .inr hy
    · apply Distinct.node (p := p) (l := v) (r := t) h y
      exact hy.imp_right .inr

theorem of_sublist (h : Distinct t) (hs : l.toList.Sublist t.toList) : Distinct l where
  nodup := h.nodup.sublist (hs.map _)
  ne_nil y hy := h.ne_nil y (hs.subset hy)

theorem subtree (h : Distinct (fill p t)) : (t.toList.map TreeCell.off).Nodup := by
  have hn := h.nodup
  rw [toList_fill, List.map_append, List.map_append] at hn
  exact (List.nodup_append.mp (List.nodup_append.mp hn).1).2.1

end Distinct

namespace LinkRep

theorem distinct (h : LinkRep B u L t s) : Distinct t where
  nodup := by
    rw [h.list]
    exact h.nodup
  ne_nil y hy := h.ne_nil (h.list ▸ hy)

theorem length_lt (h : LinkRep B u L (fill p t) s) : t.toList.length < walkRounds := by
  have h1 := h.toCells.length_lt
  rw [← h.list, toList_fill] at h1
  simp only [List.length_append] at h1
  omega

theorem path_length_lt (h : LinkRep B u L (fill p t) s) : p.length < walkRounds := by
  have h1 := h.toCells.length_lt
  rw [← h.list, toList_fill] at h1
  have h2 := length_le_pathCells p
  simp only [pathCells, List.length_append] at h1 h2
  omega

theorem holdsPath (h : LinkRep B u L (fill p t) s) :
    HoldsPath (linksOf B s).node (linksOf B s).root p (rootOff t) ∧
      Holds (linksOf B s).node (parentOff p) t := (holds_fill p t).mp ⟨h.root, h.holds⟩

theorem mem_of_tree (h : LinkRep B u L (fill p t) s) (hx : x ∈ t.toList) : x ∈ L := by
  rw [← h.list]
  exact mem_fill.mpr (.inr hx)

theorem mem_of_path (h : LinkRep B u L (fill p t) s) (hx : x ∈ pathCells p) : x ∈ L := by
  rw [← h.list]
  exact mem_fill.mpr (.inl hx)

theorem mem (h : LinkRep B u L (fill p (node c l x r)) s) : x ∈ L :=
  h.mem_of_tree (by simp [toList])

theorem node_eq (h : LinkRep B u L (fill p (node c l x r)) s) :
    (linksOf B s).node x.off = x.node (rootOff l) (rootOff r) (parentOff p) c := h.holdsPath.2.2.1

theorem rootOff_cases (h : LinkRep B u L (fill p t) s) :
    rootOff t = NIL ∨ ∃ y ∈ L, y.off = rootOff t := by
  cases t with
  | nil => exact .inl rfl
  | node c l x r => exact .inr ⟨x, h.mem, rfl⟩

theorem parentOff_cases (h : LinkRep B u L (fill p t) s) :
    parentOff p = NIL ∨ ∃ y ∈ L, y.off = parentOff p := by
  cases p with
  | nil => exact .inl rfl
  | cons f p => exact .inr ⟨f.label, h.mem_of_path label_mem_pathCells, rfl⟩

/-- The tree seen from the left child. -/
theorem focusLeft (h : LinkRep B u L (fill p (node c l x r)) s) :
    LinkRep B u L (fill (⟨.left, c, x, r⟩ :: p) l) s := h

theorem focusRight (h : LinkRep B u L (fill p (node c l x r)) s) :
    LinkRep B u L (fill (⟨.right, c, x, l⟩ :: p) r) s := h

/-- The tree seen from the sibling. -/
theorem focusSibling (h : LinkRep B u L (fill (f :: p) t) s) :
    LinkRep B u L (fill (f.turn t :: p) f.sibling) s := by
  rw [fill_turn]
  exact h

/-- The tree seen from the node above. -/
theorem focusUp (h : LinkRep B u L (fill (f :: p) t) s) : LinkRep B u L (fill p (f.fill t)) s := h

theorem wp_left {Q : ℕ → RbStore → Prop} (h : LinkRep B u L (fill p (node c l x r)) s)
    (hG : Access G B L) (hQ : Q (ptrAt B (rootOff l)) s) :
    wp G (leftNode (B + x.off.toNat)) Q s := by
  have hl : NodeField.left.get ((linksOf B s).node x.off) = rootOff l := by
    rw [h.node_eq]
    rfl
  apply h.nodes.wp_relative hG h.mem NodeField.left
  · rw [hl]
    exact h.focusLeft.rootOff_cases
  · rw [hl]
    exact hQ

theorem wp_right {Q : ℕ → RbStore → Prop} (h : LinkRep B u L (fill p (node c l x r)) s)
    (hG : Access G B L) (hQ : Q (ptrAt B (rootOff r)) s) :
    wp G (rightNode (B + x.off.toNat)) Q s := by
  have hr : NodeField.right.get ((linksOf B s).node x.off) = rootOff r := by
    rw [h.node_eq]
    rfl
  apply h.nodes.wp_relative hG h.mem NodeField.right
  · rw [hr]
    exact h.focusRight.rootOff_cases
  · rw [hr]
    exact hQ

theorem wp_parent {Q : ℕ → RbStore → Prop} (h : LinkRep B u L (fill p (node c l x r)) s)
    (hG : Access G B L) (hQ : Q (ptrAt B (parentOff p)) s) :
    wp G (parentNode (B + x.off.toNat)) Q s := by
  have hp : NodeField.parent.get ((linksOf B s).node x.off) = parentOff p := by
    rw [h.node_eq]
    rfl
  apply h.nodes.wp_relative hG h.mem NodeField.parent
  · rw [hp]
    exact h.parentOff_cases
  · rw [hp]
    exact hQ

theorem wp_color {Q : TouchdbRbtreeNodeColor → RbStore → Prop}
    (h : LinkRep B u L (fill p (node c l x r)) s) (hG : Access G B L) (hQ : Q (colorOf c) s) :
    wp G (getField (B + x.off.toNat) RbtreeNode.color) Q s := by
  apply h.nodes.wp_get hG h.mem NodeField.color
  rw [h.node_eq]
  exact hQ

theorem wp_root {Q : ℕ → RbStore → Prop} {T : RbTree TreeCell} (h : LinkRep B u L T s)
    (hQ : Q (ptrAt B (rootOff T)) s) : wp G rootNode Q s := by
  have hr : (linksOf B s).root = rootOff T := h.root
  apply h.nodes.wp_rootNode
  · rw [hr]
    exact rootOff_cases (p := []) h
  · rw [hr]
    exact hQ

theorem ptr_eq (h : LinkRep B u L (fill p (node c l x r)) s) :
    ptrAt B (rootOff (node c l x r)) = B + x.off.toNat := ptrAt_of_ne (h.ne_nil h.mem)

theorem ptr_parent (h : LinkRep B u L (fill (f :: p) t) s) :
    ptrAt B (parentOff (f :: p)) = B + f.label.off.toNat :=
  ptrAt_of_ne (h.ne_nil (h.mem_of_path label_mem_pathCells))

theorem wp_parent_label {Q : ℕ → RbStore → Prop} (h : LinkRep B u L (fill (f :: p) (node c l x r)) s)
    (hG : Access G B L) (hQ : Q (B + f.label.off.toNat) s) :
    wp G (parentNode (B + x.off.toNat)) Q s := by
  apply h.wp_parent hG
  rw [h.ptr_parent]
  exact hQ

theorem ptr_sibling_ne (h : LinkRep B u L (fill (f :: p) t) s) (hs : f.sibling ≠ .nil) :
    ptrAt B (rootOff t) ≠ ptrAt B (rootOff f.sibling) := fun he =>
  h.distinct.sibling_ne hs (ptrAt_inj he).symm

theorem wp_isRed {Q : Bool → RbStore → Prop} (h : LinkRep B u L (fill p t) s)
    (hG : Access G B L) (hQ : Q (decide (t.color = .red)) s) :
    wp G (isRed (ptrAt B (rootOff t))) Q s := by
  unfold isRed
  cases t with
  | nil =>
    rw [rootOff_nil, ptrAt_nil, if_neg (by simp)]
    exact wp_pure hQ
  | node c l x r =>
    rw [h.ptr_eq, if_pos ((h.owned x h.mem).ptr_ne B)]
    apply wp_bind
    apply h.wp_color hG
    apply wp_pure
    have hc : (colorOf c = .red) = (c = .red) := propext (colorOf_inj (d := .red))
    simp only [hc]
    exact hQ

/-- Only a node can be red. -/
theorem wp_ifRed {α : Type} {Q : α → RbStore → Prop} {yes no : RbM α} (h : LinkRep B u L (fill p t) s)
    (hG : Access G B L) (hyes : ∀ l x r, t = node .red l x r → wp G yes Q s)
    (hno : t.color = .black → wp G no Q s) :
    wp G (isRed (ptrAt B (rootOff t)) >>= fun red => if red then yes else no) Q s := by
  apply wp_bind
  apply h.wp_isRed hG
  by_cases hc : t.color = .black
  · rw [if_neg (by simp [hc])]
    exact hno hc
  · obtain ⟨l, x, r, rfl⟩ := exists_red hc
    rw [if_pos (by simp [color])]
    exact hyes l x r rfl

theorem wp_isBlack {Q : Bool → RbStore → Prop} (h : LinkRep B u L (fill p t) s)
    (hG : Access G B L) (hQ : Q (decide (t.color = .black)) s) :
    wp G (isBlack (ptrAt B (rootOff t))) Q s := by
  unfold isBlack
  cases t with
  | nil =>
    rw [rootOff_nil, ptrAt_nil, if_neg (by simp)]
    exact wp_pure hQ
  | node c l x r =>
    rw [h.ptr_eq, if_pos ((h.owned x h.mem).ptr_ne B)]
    apply wp_bind
    apply h.wp_color hG
    apply wp_pure
    have hc : (colorOf c = .black) = (c = .black) := propext (colorOf_inj (d := .black))
    simp only [hc]
    exact hQ

theorem wp_setColor {Q : Unit → RbStore → Prop} {d : RbColor}
    (h : LinkRep B u L (fill p (node c l x r)) s) (hG : Access G B L)
    (hQ : ∀ t, LinkRep B u L (fill p (node d l x r)) t → Q () t) :
    wp G (setField (B + x.off.toNat) RbtreeNode.color (colorOf d)) Q s := by
  apply h.nodes.wp_set hG h.mem NodeField.color
  intro t ht
  apply hQ
  obtain ⟨hpath, hx0, hx, hl, hr⟩ := h.holdsPath
  have hap := h.distinct.node
  have hne {y : TreeCell} (hy : y ∈ l.toList ∨ y ∈ r.toList ∨ y ∈ pathCells p) :
      ((linksOf B s).set x.off (NodeField.color.set (colorOf d))).node y.off = (linksOf B s).node y.off :=
    set_ne _ _ (hap y hy)
  have hnew : (linksOf B s).root = rootOff (fill p (node d l x r)) ∧
      Holds ((linksOf B s).set x.off (NodeField.color.set (colorOf d))).node NIL
        (fill p (node d l x r)) := by
    apply (holds_fill p (node d l x r)).mpr
    refine ⟨hpath.congr fun y hy => hne (.inr (.inr hy)), hx0, ?_, hl.congr fun y hy => hne (.inl hy),
      hr.congr fun y hy => hne (.inr (.inl hy))⟩
    rw [set_self]
    show NodeField.color.set (colorOf d) ((linksOf B s).node x.off) = _
    rw [hx]
    rfl
  apply ht.linkRep _ hnew.1 hnew.2
  rw [← h.list]
  exact toList_fill_congr p rfl

end LinkRep

end Focus

end TouchDb
