import TouchDb.Rbtree.Rotate

/-! What the rotations do to a tree. A rotation to the left turns it; a rotation to the right
leaves a cycle, because the upper node keeps its left child. -/
namespace TouchDb
open Prog Layout RbTree

section Records
variable {k : Links} {p : Path TreeCell} {n m z : PtrOffset}

theorem parentOff_ne (h : HoldsPath k.node k.root p z) (hn : n ≠ NIL)
    (hp : ∀ y ∈ pathCells p, y.off ≠ n) : parentOff p ≠ n := by
  cases p with
  | nil => exact hn.symm
  | cons f p => exact hp f.label label_mem_pathCells

theorem leftRotate_eq (hr : (k.node n).rightOffset = m) (hm : m ≠ NIL)
    (hz : (k.node m).leftOffset = z) : k.leftRotate n =
      (((k.set n (NodeField.right.set z)).reparent z n).set m (NodeField.left.set n)).hoist n m := by
  unfold Links.leftRotate
  simp only [hr, hz]
  exact if_pos hm

theorem rightRotate_eq (hl : (k.node n).leftOffset = m) (hm : m ≠ NIL)
    (hz : (k.node m).rightOffset = z) : k.rightRotate n =
      (((k.set m (NodeField.right.set z)).reparent z n).set m (NodeField.right.set n)).hoist n m := by
  unfold Links.rightRotate
  simp only [hl, hz]
  exact if_pos hm

theorem reparent_root (o v : PtrOffset) : (k.reparent o v).root = k.root := by
  unfold Links.reparent
  split_ifs <;> rfl

theorem reparent_of_ne (h : z ≠ NIL) : k.reparent z n = k.set z (NodeField.parent.set n) := if_pos h

theorem reparent_self (h : z ≠ NIL) : (k.reparent z n).node z =
    { k.node z with parentOffset := n } := by
  rw [reparent_of_ne h, set_self]
  rfl

/-- The records after a rotation to the left. -/
theorem HoldsPath.leftRotate (h : HoldsPath k.node k.root p n) (hn : n ≠ NIL)
    (hr : (k.node n).rightOffset = m) (hm : m ≠ NIL) (hz : (k.node m).leftOffset = z)
    (hpar : (k.node n).parentOffset = parentOff p) (hp : ParentApart p)
    (hap : ∀ y ∈ pathCells p, y.off ≠ n ∧ y.off ≠ m ∧ y.off ≠ z) (hnm : n ≠ m) (hzn : z ≠ n)
    (hzm : z ≠ m) :
    HoldsPath (k.leftRotate n).node (k.leftRotate n).root p m ∧
      (k.leftRotate n).node m = { k.node m with leftOffset := n, parentOffset := parentOff p } ∧
      (k.leftRotate n).node n = { k.node n with rightOffset := z, parentOffset := m } ∧
      (z ≠ NIL → (k.leftRotate n).node z = { k.node z with parentOffset := n }) ∧
      ∀ o, o ≠ n → o ≠ m → o ≠ z → o ≠ parentOff p → (k.leftRotate n).node o = k.node o := by
  rw [leftRotate_eq hr hm hz]
  set k₃ := ((k.set n (NodeField.right.set z)).reparent z n).set m (NodeField.left.set n) with hk₃
  have hother {o : PtrOffset} (h1 : o ≠ n) (h2 : o ≠ m) (h3 : o ≠ z) : k₃.node o = k.node o := by
    rw [hk₃, set_ne _ _ h2, reparent_ne h3, set_ne _ _ h1]
  have hroot : k₃.root = k.root := by
    rw [hk₃, set_root, reparent_root, set_root]
  have hm₃ : k₃.node m = { k.node m with leftOffset := n } := by
    rw [hk₃, set_self, reparent_ne hzm.symm, set_ne _ _ hnm.symm]
    rfl
  have hn₃ : k₃.node n = { k.node n with rightOffset := z } := by
    rw [hk₃, set_ne _ _ hnm, reparent_ne hzn.symm, set_self]
    rfl
  have hpath : HoldsPath k₃.node k₃.root p n := by
    rw [hroot]
    exact h.congr fun y hy => hother (hap y hy).1 (hap y hy).2.1 (hap y hy).2.2
  have hpn := parentOff_ne h hn fun y hy => (hap y hy).1
  have hpm := parentOff_ne h hm fun y hy => (hap y hy).2.1
  obtain ⟨h1, h2, h3, h4⟩ := hpath.hoist hn hp (fun y hy => (hap y hy).1)
    (fun y hy => (hap y hy).2.1) hnm (by rw [hn₃]; exact hpar) hpn hpm
  refine ⟨h1, ?_, ?_, fun hz0 => ?_, fun o h5 h6 h7 h8 => ?_⟩
  · rw [h2, hm₃]
  · rw [h3, hn₃]
  · have hpz := parentOff_ne h hz0 fun y hy => (hap y hy).2.2
    rw [h4 z hzn hzm hpz.symm, hk₃, set_ne _ _ hzm, reparent_self hz0, set_ne _ _ hzn]
  · rw [h4 o h5 h6 h8, hother h5 h6 h7]

/-- The records after a rotation to the right: the upper node still has its old left child, and
has become the right child of it. -/
theorem HoldsPath.rightRotate (h : HoldsPath k.node k.root p n) (hn : n ≠ NIL)
    (hl : (k.node n).leftOffset = m) (hm : m ≠ NIL) (hz : (k.node m).rightOffset = z)
    (hpar : (k.node n).parentOffset = parentOff p) (hp : ParentApart p)
    (hap : ∀ y ∈ pathCells p, y.off ≠ n ∧ y.off ≠ m ∧ y.off ≠ z) (hnm : n ≠ m) (hzn : z ≠ n)
    (hzm : z ≠ m) :
    HoldsPath (k.rightRotate n).node (k.rightRotate n).root p m ∧
      (k.rightRotate n).node m = { k.node m with rightOffset := n, parentOffset := parentOff p } ∧
      (k.rightRotate n).node n = { k.node n with parentOffset := m } ∧
      ∀ o, o ≠ n → o ≠ m → o ≠ z → o ≠ parentOff p → (k.rightRotate n).node o = k.node o := by
  rw [rightRotate_eq hl hm hz]
  set k₃ := ((k.set m (NodeField.right.set z)).reparent z n).set m (NodeField.right.set n) with hk₃
  have hother {o : PtrOffset} (h2 : o ≠ m) (h3 : o ≠ z) : k₃.node o = k.node o := by
    rw [hk₃, set_ne _ _ h2, reparent_ne h3, set_ne _ _ h2]
  have hroot : k₃.root = k.root := by
    rw [hk₃, set_root, reparent_root, set_root]
  have hm₃ : k₃.node m = { k.node m with rightOffset := n } := by
    rw [hk₃, set_self, reparent_ne hzm.symm, set_self]
    rfl
  have hn₃ : k₃.node n = k.node n := hother hnm hzn.symm
  have hpath : HoldsPath k₃.node k₃.root p n := by
    rw [hroot]
    exact h.congr fun y hy => hother (hap y hy).2.1 (hap y hy).2.2
  have hpn := parentOff_ne h hn fun y hy => (hap y hy).1
  have hpm := parentOff_ne h hm fun y hy => (hap y hy).2.1
  obtain ⟨h1, h2, h3, h4⟩ := hpath.hoist hn hp (fun y hy => (hap y hy).1)
    (fun y hy => (hap y hy).2.1) hnm (by rw [hn₃]; exact hpar) hpn hpm
  refine ⟨h1, ?_, ?_, fun o h5 h6 h7 h8 => ?_⟩
  · rw [h2, hm₃]
  · rw [h3, hn₃]
  · rw [h4 o h5 h6 h8, hother h6 h7]

/-- A finite tree has no node that is the left child of its own right child. -/
theorem Holds.not_cyclic {H : PtrOffset → RbNode} {par : PtrOffset} {t : RbTree TreeCell}
    (h : Holds H par t) (hn : rootOff t ≠ NIL) (hm : (H (rootOff t)).rightOffset ≠ NIL)
    (hc : (H (H (rootOff t)).rightOffset).leftOffset = rootOff t) : False := by
  match t, h with
  | .nil, _ => exact hn rfl
  | .node c l x r, ⟨h0, hx, hl, hr⟩ =>
    have hroot : (H x.off).rightOffset = rootOff r := by
      rw [hx]
      rfl
    have hn' : x.off ≠ NIL := hn
    change (H x.off).rightOffset ≠ NIL at hm
    change (H (H x.off).rightOffset).leftOffset = x.off at hc
    rw [hroot] at hm hc
    match r, hr with
    | .nil, _ => exact hm rfl
    | .node c' l' y r', ⟨_, hy, hl', _⟩ =>
      have hleft : rootOff l' = x.off := by
        rw [← hc]
        show _ = (H y.off).leftOffset
        rw [hy]
        rfl
      apply hl'.not_cyclic
      · rw [hleft]
        exact hn'
      · rw [hleft, hroot]
        exact hm
      · rw [hleft, hroot]
        exact hc
termination_by sizeOf t

/-- The links lead from the root to the offset. -/
inductive Reached (H : PtrOffset → RbNode) (root : PtrOffset) : PtrOffset → Prop
  | root : Reached H root root
  | left {o : PtrOffset} (h : Reached H root o) (ho : o ≠ NIL) : Reached H root (H o).leftOffset
  | right {o : PtrOffset} (h : Reached H root o) (ho : o ≠ NIL) : Reached H root (H o).rightOffset

/-- A node within reach is the left child of its own right child. -/
def Cyclic (H : PtrOffset → RbNode) (root : PtrOffset) : Prop :=
  ∃ o, Reached H root o ∧ o ≠ NIL ∧ (H o).rightOffset ≠ NIL ∧ (H (H o).rightOffset).leftOffset = o

section Reach
variable {H H' : PtrOffset → RbNode} {root o : PtrOffset} {T : RbTree TreeCell}

/-- What stands at an offset within reach, in any tree of these nodes. -/
theorem Reached.subtree (h : Reached H root o) (hroot : root = rootOff T) (hT : Holds H NIL T) :
    ∃ t par, Holds H par t ∧ rootOff t = o := by
  have hnode {t : RbTree TreeCell} {v : PtrOffset} (ht : rootOff t = v) (hv : v ≠ NIL) :
      ∃ c l x r, t = node c l x r := by
    cases t with
    | nil => exact absurd ht.symm hv
    | node c l x r => exact ⟨c, l, x, r, rfl⟩
  induction h with
  | root => exact ⟨T, NIL, hT, hroot.symm⟩
  | left _ ho ih =>
    obtain ⟨t, par, ht, rfl⟩ := ih
    obtain ⟨c, l, x, r, rfl⟩ := hnode rfl ho
    obtain ⟨-, hx, hl, -⟩ := ht
    exact ⟨l, _, hl, (congrArg RbNode.leftOffset hx).symm⟩
  | right _ ho ih =>
    obtain ⟨t, par, ht, rfl⟩ := ih
    obtain ⟨c, l, x, r, rfl⟩ := hnode rfl ho
    obtain ⟨-, hx, -, hr⟩ := ht
    exact ⟨r, _, hr, (congrArg RbNode.rightOffset hx).symm⟩

theorem Cyclic.not_holds (h : Cyclic H root) (hroot : root = rootOff T) : ¬ Holds H NIL T := by
  intro hT
  obtain ⟨o, ho, h1, h2, h3⟩ := h
  obtain ⟨t, par, ht, rfl⟩ := ho.subtree hroot hT
  exact ht.not_cyclic h1 h2 h3

theorem Cyclic.root_ne_nil (h : Cyclic H root) : root ≠ NIL := by
  rintro rfl
  obtain ⟨o, ho, h1, -⟩ := h
  induction ho with
  | root => exact h1 rfl
  | left _ h0 ih => exact ih h0
  | right _ h0 ih => exact ih h0

theorem HoldsPath.reached (h : HoldsPath H root p o) : Reached H root o := by
  induction p generalizing o with
  | nil =>
    obtain rfl : root = o := h
    exact .root
  | cons f p ih =>
    obtain ⟨h0, hf, -, hp⟩ := h
    rcases f with ⟨⟨⟩, c, x, v⟩
    · have hl : (H x.off).leftOffset = o := congrArg RbNode.leftOffset hf
      exact hl ▸ (ih hp).left h0
    · have hr : (H x.off).rightOffset = o := congrArg RbNode.rightOffset hf
      exact hr ▸ (ih hp).right h0

/-- Only the links to children count, and only those of nodes within reach. -/
theorem Reached.congr (h : Reached H root o) (hl : ∀ v, Reached H root v → v ≠ NIL →
    (H' v).leftOffset = (H v).leftOffset ∧ (H' v).rightOffset = (H v).rightOffset) :
    Reached H' root o := by
  induction h with
  | root => exact .root
  | left hv ho ih => exact (hl _ hv ho).1 ▸ ih.left ho
  | right hv ho ih => exact (hl _ hv ho).2 ▸ ih.right ho

theorem Cyclic.congr (h : Cyclic H root) (hl : ∀ v, Reached H root v → v ≠ NIL →
    (H' v).leftOffset = (H v).leftOffset ∧ (H' v).rightOffset = (H v).rightOffset) :
    Cyclic H' root := by
  obtain ⟨o, ho, h1, h2, h3⟩ := h
  have hr := (hl o ho h1).2
  refine ⟨o, ho.congr hl, h1, ?_, ?_⟩
  · rw [hr]
    exact h2
  · rw [hr, (hl _ (ho.right h1) h2).1]
    exact h3

/-- Colors do not matter. -/
theorem Cyclic.setColor (h : Cyclic k.node k.root) (o : PtrOffset) (c : TouchdbRbtreeNodeColor) :
    Cyclic (k.set o (NodeField.color.set c)).node (k.set o (NodeField.color.set c)).root := by
  apply Cyclic.congr h
  intro v _ _
  by_cases hv : v = o
  · rw [hv, set_self]
    exact ⟨rfl, rfl⟩
  · rw [set_ne _ _ hv]
    exact ⟨rfl, rfl⟩

end Reach

end Records

/-- The records make up the tree. -/
def Stands (k : Links) (T : RbTree TreeCell) : Prop := k.root = rootOff T ∧ Holds k.node NIL T

section Trees
variable {k : Links} {L : List TreeCell} {p : Path TreeCell} {t l m r : RbTree TreeCell}
  {x y : TreeCell} {c d : RbColor} {H : PtrOffset → RbNode} {par : PtrOffset}

theorem stands_fill : Stands k (fill p t) ↔
    HoldsPath k.node k.root p (rootOff t) ∧ Holds k.node (parentOff p) t := holds_fill p t

/-- The links of a tree lead to its nodes. -/
theorem Holds.closed (h : Holds H par t) (ht : ∀ z ∈ t.toList, z ∈ L) (hpar : Known L par) :
    ∀ z ∈ t.toList, (H z.off).Closed L := by
  induction t generalizing par with
  | nil => simp [toList]
  | node c l x r ihl ihr =>
    obtain ⟨h0, hx, hl, hr⟩ := h
    have hroot {v : RbTree TreeCell} (hv : ∀ z ∈ v.toList, z ∈ L) : Known L (rootOff v) := by
      cases v with
      | nil => exact .inl rfl
      | node c' l' y r' => exact .of_mem (hv y (by simp [toList]))
    have hlL : ∀ z ∈ l.toList, z ∈ L := fun z hz => ht z (by simp [toList, hz])
    have hrL : ∀ z ∈ r.toList, z ∈ L := fun z hz => ht z (by simp [toList, hz])
    have hxL : x ∈ L := ht x (by simp [toList])
    intro z hz
    simp only [toList, List.mem_append, List.mem_cons] at hz
    rcases hz with hz | rfl | hz
    · exact ihl hl hlL (.of_mem hxL) z hz
    · rw [hx]
      exact ⟨hroot hlL, hroot hrL, hpar⟩
    · exact ihr hr hrL (.of_mem hxL) z hz

/-- The records after a rotation to the left at a node of a tree. -/
theorem Stands.leftRotate_records (h : Stands k (fill p (node c l x (node d m y r))))
    (ha : Distinct (fill p (node c l x (node d m y r)))) :
    HoldsPath (k.leftRotate x.off).node (k.leftRotate x.off).root p y.off ∧
      (k.leftRotate x.off).node y.off =
        { k.node y.off with leftOffset := x.off, parentOffset := parentOff p } ∧
      (k.leftRotate x.off).node x.off =
        { k.node x.off with rightOffset := rootOff m, parentOffset := y.off } ∧
      (rootOff m ≠ NIL → (k.leftRotate x.off).node (rootOff m) =
        { k.node (rootOff m) with parentOffset := x.off }) ∧
      ∀ o, o ≠ x.off → o ≠ y.off → o ≠ rootOff m → o ≠ parentOff p →
        (k.leftRotate x.off).node o = k.node o := by
  have hy : Distinct (fill (⟨.right, c, x, l⟩ :: p) (node d m y r)) := ha
  have hm : Distinct (fill (⟨.left, d, y, r⟩ :: ⟨.right, c, x, l⟩ :: p) m) := ha
  obtain ⟨hpath, hx0, hxn, -, hy0, hyn, -, -⟩ := stands_fill.mp h
  exact hpath.leftRotate (n := x.off) (m := y.off) (z := rootOff m) hx0
    (congrArg RbNode.rightOffset hxn) hy0 (congrArg RbNode.leftOffset hyn)
    (congrArg RbNode.parentOffset hxn) ha.parentApart
    (fun z hz => ⟨ha.path_ne hz, hy.path_ne (by simp [mem_pathCells_cons, hz]),
      hm.path_ne (by simp [mem_pathCells_cons, hz])⟩)
    (hy.path_ne (by simp [mem_pathCells_cons])) (hm.path_ne (by simp [mem_pathCells_cons])).symm
    (hm.path_ne (by simp [mem_pathCells_cons])).symm

/-- The records after a rotation to the right at a node of a tree. -/
theorem Stands.rightRotate_records (h : Stands k (fill p (node c (node d l y m) x r)))
    (ha : Distinct (fill p (node c (node d l y m) x r))) :
    HoldsPath (k.rightRotate x.off).node (k.rightRotate x.off).root p y.off ∧
      (k.rightRotate x.off).node y.off =
        { k.node y.off with rightOffset := x.off, parentOffset := parentOff p } ∧
      (k.rightRotate x.off).node x.off = { k.node x.off with parentOffset := y.off } ∧
      ∀ o, o ≠ x.off → o ≠ y.off → o ≠ rootOff m → o ≠ parentOff p →
        (k.rightRotate x.off).node o = k.node o := by
  have hy : Distinct (fill (⟨.left, c, x, r⟩ :: p) (node d l y m)) := ha
  have hm : Distinct (fill (⟨.right, d, y, l⟩ :: ⟨.left, c, x, r⟩ :: p) m) := ha
  obtain ⟨hpath, hx0, hxn, ⟨hy0, hyn, -, -⟩, -⟩ := stands_fill.mp h
  exact hpath.rightRotate (n := x.off) (m := y.off) (z := rootOff m) hx0
    (congrArg RbNode.leftOffset hxn) hy0 (congrArg RbNode.rightOffset hyn)
    (congrArg RbNode.parentOffset hxn) ha.parentApart
    (fun z hz => ⟨ha.path_ne hz, hy.path_ne (by simp [mem_pathCells_cons, hz]),
      hm.path_ne (by simp [mem_pathCells_cons, hz])⟩)
    (hy.path_ne (by simp [mem_pathCells_cons])) (hm.path_ne (by simp [mem_pathCells_cons])).symm
    (hm.path_ne (by simp [mem_pathCells_cons])).symm

/-- The upper node has become the right child of its left child. -/
theorem Stands.rightRotate_cyclic (h : Stands k (fill p (node c (node d l y m) x r)))
    (ha : Distinct (fill p (node c (node d l y m) x r))) :
    Cyclic (k.rightRotate x.off).node (k.rightRotate x.off).root := by
  obtain ⟨hpath, hyn, hxn, -⟩ := h.rightRotate_records ha
  obtain ⟨-, hx0, hx, ⟨hy0, -, -, -⟩, -⟩ := stands_fill.mp h
  refine ⟨y.off, hpath.reached, hy0, ?_, ?_⟩
  · rw [hyn]
    exact hx0
  · rw [hyn]
    show ((k.rightRotate x.off).node x.off).leftOffset = y.off
    rw [hxn, hx]
    rfl

/-- A node and its right child change places. -/
theorem Stands.leftRotate (h : Stands k (fill p (node c l x (node d m y r))))
    (ha : Distinct (fill p (node c l x (node d m y r)))) :
    Stands (k.leftRotate x.off) (fill p (node d (node c l x m) y r)) := by
  have hy : Distinct (fill (⟨.right, c, x, l⟩ :: p) (node d m y r)) := ha
  have hm : Distinct (fill (⟨.left, d, y, r⟩ :: ⟨.right, c, x, l⟩ :: p) m) := ha
  obtain ⟨-, hx0, hxn, hl, hy0, hyn, hmh, hr⟩ := stands_fill.mp h
  obtain ⟨h1, h2, h3, h4, h5⟩ := h.leftRotate_records ha
  have hrest {z : TreeCell} (hz : z ∈ l.toList ∨ z ∈ r.toList ∨ z ∈ m.toList ∧ z.off ≠ rootOff m) :
      (k.leftRotate x.off).node z.off = k.node z.off := by
    rcases hz with hz | hz | ⟨hz, hne⟩
    · apply h5 _ (ha.node z (.inl hz)) (hy.path_ne (by simp [mem_pathCells_cons, hz]))
        (hm.path_ne (by simp [mem_pathCells_cons, hz])) (ha.tree_ne (by simp [toList, hz]))
    · apply h5 _ (ha.node z (.inr (.inl (by simp [toList, hz])))) (hy.node z (.inr (.inl hz)))
        (hm.path_ne (by simp [mem_pathCells_cons, hz])) (ha.tree_ne (by simp [toList, hz]))
    · apply h5 _ (ha.node z (.inr (.inl (by simp [toList, hz])))) (hy.node z (.inl hz)) hne
        (ha.tree_ne (by simp [toList, hz]))
  apply stands_fill.mpr
  refine ⟨h1, hy0, ?_, ⟨hx0, ?_, hl.congr fun z hz => hrest (.inl hz), ?_⟩,
    hr.congr fun z hz => hrest (.inr (.inl hz))⟩
  · rw [h2, hyn]
    rfl
  · rw [h3, hxn]
    rfl
  · exact hmh.reparent h4 (fun z hz hne => hrest (.inr (.inr ⟨hz, hne⟩))) hm.subtree

end Trees

/-- The records have a cycle, and `o` is that of a node, if any. -/
def Looping (B : ℕ) (u : PoolAlloc) (L : List TreeCell) (o : ℕ) (t : RbStore) : Prop :=
  ∃ k v, Wired B u L k t ∧ Cyclic k.node k.root ∧ Known L v ∧ o = ptrAt B v

section Wp
variable {B : ℕ} {u : PoolAlloc} {L : List TreeCell} {k : Links} {s : RbStore}
  {G : Guard Stop RbEvent} {p : Path TreeCell} {t l m r a b v : RbTree TreeCell} {x y : TreeCell}
  {c d e : RbColor} {n o : PtrOffset}

theorem Wired.reached (h : Wired B u L k s) (ho : Reached k.node k.root o) : Known L o := by
  induction ho with
  | root => exact h.root_known
  | left _ ho ih =>
    obtain ⟨z, hz, rfl⟩ := ih.mem ho
    exact (h.closed z hz).left
  | right _ ho ih =>
    obtain ⟨z, hz, rfl⟩ := ih.mem ho
    exact (h.closed z hz).right

/-- A cycle among the records is one in memory. -/
theorem Wired.cyclic (h : Wired B u L k s) (hc : Cyclic k.node k.root) :
    Cyclic (rbNode B s.db) s.tree.rootOffset := by
  rw [h.root_eq]
  apply hc.congr
  intro v hv h0
  obtain ⟨z, hz, rfl⟩ := (h.reached hv).mem h0
  rw [h.node z hz]
  exact ⟨rfl, rfl⟩

namespace LinkRep

theorem stands (h : LinkRep B u L t s) : Stands (linksOf B s) t := ⟨h.root, h.holds⟩

theorem wired (h : LinkRep B u L t s) : Wired B u L (linksOf B s) s where
  toNodes := h.nodes
  closed z hz := by
    rw [← h.list] at hz
    exact h.holds.closed (fun y hy => h.list ▸ hy) (.inl rfl) z hz
  root_known := by
    have h1 := rootOff_cases (p := []) h
    rw [← h.root] at h1
    exact h1

theorem wp_leftRotate {Q : Unit → RbStore → Prop}
    (h : LinkRep B u L (fill p (node c l x (node d m y r))) s) (hG : Access G B L)
    (hQ : ∀ t, LinkRep B u L (fill p (node d (node c l x m) y r)) t → Q () t) :
    wp G (leftRotate (B + x.off.toNat)) Q s := by
  apply h.wired.wp_leftRotate hG h.mem
  intro t ht
  apply hQ
  obtain ⟨hroot, hholds⟩ := h.stands.leftRotate h.distinct
  apply ht.linkRep _ hroot hholds
  rw [← h.list]
  apply toList_fill_congr
  simp [toList]

end LinkRep

section Colors
variable (k : Links) (o n : PtrOffset) (d : TouchdbRbtreeNodeColor)

/-- A color leaves the links as they are. -/
theorem setColor_links : ∃ e, (k.set o (NodeField.color.set d)).node n = { k.node n with color := e } := by
  by_cases h : n = o
  · rw [h, set_self]
    exact ⟨d, rfl⟩
  · rw [set_ne _ _ h]
    exact ⟨_, rfl⟩

@[simp] theorem setColor_left :
    ((k.set o (NodeField.color.set d)).node n).leftOffset = (k.node n).leftOffset := by
  obtain ⟨e, he⟩ := setColor_links k o n d
  rw [he]

@[simp] theorem setColor_right :
    ((k.set o (NodeField.color.set d)).node n).rightOffset = (k.node n).rightOffset := by
  obtain ⟨e, he⟩ := setColor_links k o n d
  rw [he]

@[simp] theorem setColor_parent :
    ((k.set o (NodeField.color.set d)).node n).parentOffset = (k.node n).parentOffset := by
  obtain ⟨e, he⟩ := setColor_links k o n d
  rw [he]

theorem setParent_links (v : PtrOffset) : ∃ e, (k.set o (NodeField.parent.set v)).node n =
    { k.node n with parentOffset := e } := by
  by_cases h : n = o
  · rw [h, set_self]
    exact ⟨v, rfl⟩
  · rw [set_ne _ _ h]
    exact ⟨_, rfl⟩

@[simp] theorem setParent_left (v : PtrOffset) :
    ((k.set o (NodeField.parent.set v)).node n).leftOffset = (k.node n).leftOffset := by
  obtain ⟨e, he⟩ := setParent_links k o n v
  rw [he]

@[simp] theorem setParent_right (v : PtrOffset) :
    ((k.set o (NodeField.parent.set v)).node n).rightOffset = (k.node n).rightOffset := by
  obtain ⟨e, he⟩ := setParent_links k o n v
  rw [he]

end Colors

theorem HoldsPath.set (h : HoldsPath k.node k.root p o) (hap : ∀ y ∈ pathCells p, y.off ≠ n)
    (g : RbNode → RbNode) : HoldsPath (k.set n g).node (k.set n g).root p o :=
  h.congr fun y hy => set_ne _ _ (hap y hy)

theorem Wired.wp_rootNode_looping {Q : ℕ → RbStore → Prop} (h : Wired B u L k s) (hc : Cyclic k.node k.root)
    (hQ : ∀ o t, Looping B u L o t → Q o t) : wp G rootNode Q s := by
  apply h.wp_rootNode h.root_known
  exact hQ _ _ ⟨k, k.root, h, hc, h.root_known, rfl⟩

theorem Wired.wp_isBlack {Q : Bool → RbStore → Prop} (h : Wired B u L k s) (hG : Access G B L)
    (hx : x ∈ L) (hQ : Q (decide ((k.node x.off).color = .black)) s) :
    wp G (isBlack (B + x.off.toNat)) Q s := by
  unfold isBlack
  rw [if_pos ((h.owned x hx).ptr_ne B)]
  apply wp_bind
  apply h.wp_get hG hx NodeField.color
  exact wp_pure hQ

/-- A rotation to the right of a node with a left child. -/
theorem LinkRep.wp_rightRotate {Q : Unit → RbStore → Prop}
    (h : LinkRep B u L (fill p (node c (node e a y b) x v)) s) (hG : Access G B L)
    (hQ : ∀ t k, Wired B u L k t → HoldsPath k.node k.root p y.off →
      k.node y.off = y.node (rootOff a) x.off (parentOff p) e →
      k.node x.off = x.node y.off (rootOff v) y.off c →
      (∀ z, z ∈ a.toList ∨ z ∈ v.toList → k.node z.off = (linksOf B s).node z.off) → Q () t) :
    wp G (rightRotate (B + x.off.toNat)) Q s := by
  have hd := h.distinct
  have hy : Distinct (fill (⟨.left, c, x, v⟩ :: p) (node e a y b)) := hd
  have hb : Distinct (fill (⟨.right, e, y, a⟩ :: ⟨.left, c, x, v⟩ :: p) b) := hd
  obtain ⟨-, -, hxn, ⟨-, hyn, -, -⟩, -⟩ := h.holdsPath
  obtain ⟨h1, h2, h3, h4⟩ := h.stands.rightRotate_records hd
  apply h.wired.wp_rightRotate hG h.mem
  intro t ht
  apply hQ t _ ht h1
  · rw [h2, hyn]
    rfl
  · rw [h3, hxn]
    rfl
  · intro z hz
    rcases hz with hz | hz
    · exact h4 _ (hd.node z (.inl (by simp [toList, hz]))) (hy.node z (.inl hz))
        (hb.path_ne (by simp [mem_pathCells_cons, hz])) (hd.tree_ne (by simp [toList, hz]))
    · exact h4 _ (hd.node z (.inr (.inl hz)))
        (hy.path_ne (by simp [mem_pathCells_cons, hz]))
        (hb.path_ne (by simp [mem_pathCells_cons, hz])) (hd.tree_ne (by simp [toList, hz]))

end Wp

end TouchDb
