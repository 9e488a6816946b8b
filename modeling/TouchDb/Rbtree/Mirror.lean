import Mathlib.Data.Tree.Basic
import TouchDb.Rbtree.State
import TouchDb.Rbtree.Touch
import TouchDb.Rbtree.Turn

/-! Trees by their links alone, whatever the colors and the keys are, and what the rotations make of
them. -/
namespace TouchDb
open Prog Layout RbTree

/-- The offset of the root. -/
def topOff : BinaryTree PtrOffset → PtrOffset
  | .nil => NIL
  | .node o _ _ => o

/-- The nodes from left to right. -/
def inorder : BinaryTree PtrOffset → List PtrOffset
  | .nil => []
  | .node o l r => inorder l ++ o :: inorder r

/-- The links of the nodes `H` are those of the tree, below the parent `par`: the links to parents mirror
those to children. -/
def Mirrored (H : PtrOffset → RbNode) : PtrOffset → BinaryTree PtrOffset → Prop
  | _, .nil => True
  | par, .node o l r => o ≠ NIL ∧ (H o).leftOffset = topOff l ∧ (H o).rightOffset = topOff r ∧
      (H o).parentOffset = par ∧ Mirrored H o l ∧ Mirrored H o r

/-- A store with a finite tree of blocks, linked both ways. -/
structure LinkState where
  ptr : ℕ
  store : RbStore
  alloc : PoolAlloc
  tree : BinaryTree PtrOffset
  heap : Heap ptr store.db alloc
  owned : ∀ o ∈ inorder tree, Owns alloc o.toNat sizeofRbtreeNode
  nodup : (inorder tree).Nodup
  root : store.tree.rootOffset = topOff tree
  links : Mirrored (rbNode ptr store.db) NIL tree

/-- A node of the tree. -/
abbrev LinkState.Node (s : LinkState) : Type := { o // o ∈ inorder s.tree }

/-! Colors do not matter to the links. -/
section Paint
variable {k : Links} {χ : PtrOffset → TouchdbRbtreeNodeColor} {n m o par : PtrOffset}

/-- The nodes in other colors. -/
def Links.paint (k : Links) (χ : PtrOffset → TouchdbRbtreeNodeColor) : Links :=
  { k with node := fun o => { k.node o with color := χ o } }

@[simp] theorem paint_root : (k.paint χ).root = k.root := rfl

@[simp] theorem paint_left : ((k.paint χ).node o).leftOffset = (k.node o).leftOffset := rfl

@[simp] theorem paint_right : ((k.paint χ).node o).rightOffset = (k.node o).rightOffset := rfl

@[simp] theorem paint_parent : ((k.paint χ).node o).parentOffset = (k.node o).parentOffset := rfl

theorem paint_set {g : RbNode → RbNode}
    (hg : ∀ n c, { g n with color := c } = g { n with color := c }) (o : PtrOffset) :
    (k.set o g).paint χ = (k.paint χ).set o g := by
  ext1
  · funext v
    by_cases hv : v = o
    · subst hv
      rw [set_self]
      show { (k.set v g).node v with color := χ v } = g { k.node v with color := χ v }
      rw [set_self, hg]
    · rw [set_ne _ _ hv]
      show { (k.set o g).node v with color := χ v } = { k.node v with color := χ v }
      rw [set_ne _ _ hv]
  · rfl

theorem paint_setLeft (o v : PtrOffset) : (k.set o (NodeField.left.set v)).paint χ =
    (k.paint χ).set o (NodeField.left.set v) := paint_set (fun _ _ => rfl) o

theorem paint_setRight (o v : PtrOffset) : (k.set o (NodeField.right.set v)).paint χ =
    (k.paint χ).set o (NodeField.right.set v) := paint_set (fun _ _ => rfl) o

theorem paint_setParent (o v : PtrOffset) : (k.set o (NodeField.parent.set v)).paint χ =
    (k.paint χ).set o (NodeField.parent.set v) := paint_set (fun _ _ => rfl) o

theorem paint_reparent : (k.reparent o par).paint χ = (k.paint χ).reparent o par := by
  unfold Links.reparent
  split_ifs
  · exact paint_setParent o par
  · rfl

theorem paint_replaceChild :
    (k.replaceChild par n m).paint χ = (k.paint χ).replaceChild par n m := by
  unfold Links.replaceChild
  rw [paint_right]
  split_ifs
  · exact paint_setRight par m
  · exact paint_setLeft par m
  · rfl

theorem paint_hoist : (k.hoist n m).paint χ = (k.paint χ).hoist n m := by
  have hn (v : PtrOffset) : (((k.paint χ).set m (NodeField.parent.set v)).node n).parentOffset =
      ((k.set m (NodeField.parent.set v)).node n).parentOffset := by
    rw [← paint_setParent, paint_parent]
  unfold Links.hoist
  simp only [hn, paint_parent, paint_setParent, paint_replaceChild]

theorem paint_leftRotate : (k.leftRotate n).paint χ = (k.paint χ).leftRotate n := by
  have hr (v : PtrOffset) := paint_right (k := k) (χ := χ) (o := v)
  have hl (v : PtrOffset) := paint_left (k := k) (χ := χ) (o := v)
  unfold Links.leftRotate
  simp only [hr, hl]
  split_ifs
  · rw [paint_hoist, paint_setLeft, paint_reparent, paint_setRight]
  · rfl

theorem paint_rightRotate : (k.rightRotate n).paint χ = (k.paint χ).rightRotate n := by
  have hr (v : PtrOffset) := paint_right (k := k) (χ := χ) (o := v)
  have hl (v : PtrOffset) := paint_left (k := k) (χ := χ) (o := v)
  unfold Links.rightRotate
  simp only [hr, hl]
  split_ifs
  · rw [paint_hoist, paint_setRight, paint_reparent, paint_setRight]
  · rfl

/-- In its own colors a node is what it was. -/
theorem paint_paint (k : Links) :
    (k.paint χ).paint (fun o => (k.node o).color) = k := rfl

/-- A rotation leaves a node alone if it leaves it alone in other colors. -/
theorem leftRotate_node_eq (h : ((k.paint χ).leftRotate n).node o = (k.paint χ).node o) :
    (k.leftRotate n).node o = k.node o := by
  have hk : k.leftRotate n = ((k.paint χ).leftRotate n).paint fun v => (k.node v).color := by
    rw [paint_leftRotate, paint_paint]
  rw [hk]
  show { ((k.paint χ).leftRotate n).node o with color := (k.node o).color } = _
  rw [h]
  rfl

end Paint

section Dress
variable {k : Links} {H H' : PtrOffset → RbNode} {par : PtrOffset} {t : BinaryTree PtrOffset}
  {T : RbTree TreeCell}

theorem nul_notMem_nil : (0 : UInt8) ∉ [] := List.not_mem_nil

/-- The cell of a node whose key does not matter. -/
def bare (k : Links) (o : PtrOffset) : TreeCell :=
  ⟨o, (k.node o).keyOffset, ⟨[], nul_notMem_nil⟩, (k.node o).val, false⟩

/-- A tree of offsets as a tree of black cells. -/
def dress (k : Links) : BinaryTree PtrOffset → RbTree TreeCell
  | .nil => .nil
  | .node o l r => .node .black (dress k l) (bare k o) (dress k r)

def shape : RbTree TreeCell → BinaryTree PtrOffset
  | .nil => .nil
  | .node _ l x r => .node x.off (shape l) (shape r)

theorem toList_dress : (dress k t).toList = (inorder t).map (bare k) := by
  induction t with
  | nil => rfl
  | node o l r ihl ihr => simp only [dress, toList, inorder, ihl, ihr, List.map_append, List.map_cons]

theorem rootOff_dress : rootOff (dress k t) = topOff t := by cases t <;> rfl

theorem inorder_shape : inorder (shape T) = T.toList.map TreeCell.off := by
  induction T with
  | nil => rfl
  | node c l x r ihl ihr => simp only [shape, toList, inorder, ihl, ihr, List.map_append, List.map_cons]

theorem topOff_shape : topOff (shape T) = rootOff T := by cases T <;> rfl

theorem Mirrored.dress (h : Mirrored k.node par t) :
    Holds (k.paint fun _ => .black).node par (dress k t) := by
  induction t generalizing par with
  | nil => trivial
  | node o l r ihl ihr =>
    obtain ⟨h0, hl, hr, hp, hml, hmr⟩ := h
    refine ⟨h0, ?_, ihl hml, ihr hmr⟩
    rw [rootOff_dress, rootOff_dress, ← hl, ← hr, ← hp]
    rfl

theorem Holds.mirrored (h : Holds H par T) : Mirrored H par (shape T) := by
  induction T generalizing par with
  | nil => trivial
  | node c l x r ihl ihr =>
    obtain ⟨h0, hx, hl, hr⟩ := h
    rw [shape, Mirrored, topOff_shape, topOff_shape, hx]
    exact ⟨h0, rfl, rfl, rfl, ihl hl, ihr hr⟩

theorem Mirrored.congr (h : Mirrored H par t) (hH : ∀ o ∈ inorder t,
    (H' o).leftOffset = (H o).leftOffset ∧ (H' o).rightOffset = (H o).rightOffset ∧
      (H' o).parentOffset = (H o).parentOffset) : Mirrored H' par t := by
  induction t generalizing par with
  | nil => trivial
  | node o l r ihl ihr =>
    obtain ⟨h0, hl, hr, hp, hml, hmr⟩ := h
    simp only [inorder, List.mem_append, List.mem_cons] at hH
    obtain ⟨h1, h2, h3⟩ := hH o (.inr (.inl rfl))
    refine ⟨h0, h1.trans hl, h2.trans hr, h3.trans hp, ?_, ?_⟩
    · exact ihl hml fun v hv => hH v (.inl hv)
    · exact ihr hmr fun v hv => hH v (.inr (.inr hv))

theorem Mirrored.of_paint {χ : PtrOffset → TouchdbRbtreeNodeColor}
    (h : Mirrored (k.paint χ).node par t) : Mirrored k.node par t :=
  h.congr fun _ _ => ⟨rfl, rfl, rfl⟩

end Dress

/-- A red-black tree is such a tree. -/
def RbState.linkState (s : RbState) : LinkState where
  ptr := s.ptr
  store := s.store
  alloc := s.alloc
  tree := shape s.tree
  heap := s.rep.heap
  owned o ho := by
    rw [inorder_shape] at ho
    obtain ⟨x, hx, rfl⟩ := List.mem_map.mp ho
    exact s.rep.owned x hx
  nodup := by
    rw [inorder_shape]
    exact s.rep.nodup
  root := s.rep.root.trans topOff_shape.symm
  links := s.rep.holds.mirrored

section Place
variable {k k' : Links} {H H' : PtrOffset → RbNode} {root root' o m n : PtrOffset} {p : Path TreeCell}

/-- `m` stands where `n` stood below `par`, or is the root if `n` was. -/
def TakesPlace (k k' : Links) (n m par : PtrOffset) : Prop :=
  (par = NIL → k'.root = m) ∧
    (par ≠ NIL → k'.root = k.root ∧ (k'.node par).parentOffset = (k.node par).parentOffset ∧
      ((k.node par).leftOffset = n ∧ (k'.node par).leftOffset = m ∧
          (k'.node par).rightOffset = (k.node par).rightOffset ∨
        (k.node par).rightOffset = n ∧ (k'.node par).rightOffset = m ∧
          (k'.node par).leftOffset = (k.node par).leftOffset))

theorem TakesPlace.of_paint {χ : PtrOffset → TouchdbRbtreeNodeColor} {par : PtrOffset}
    (h : TakesPlace (k.paint χ) (k'.paint χ) n m par) : TakesPlace k k' n m par := h

theorem HoldsPath.root_eq (h : HoldsPath H root p o) (h' : HoldsPath H' root' p o) : root' = root := by
  induction p generalizing o with
  | nil =>
    obtain rfl : root = o := h
    exact h'
  | cons f p ih => exact ih h.2.2.2 h'.2.2.2

theorem HoldsPath.takesPlace (h : HoldsPath k.node k.root p n) (h' : HoldsPath k'.node k'.root p m) :
    TakesPlace k k' n m (parentOff p) := by
  cases p with
  | nil => exact ⟨fun _ => h', fun h0 => absurd rfl h0⟩
  | cons f p =>
    obtain ⟨h0, hf, -, hp⟩ := h
    obtain ⟨-, hf', -, hp'⟩ := h'
    refine ⟨fun hn => absurd hn h0, fun _ => ⟨hp.root_eq hp', ?_, ?_⟩⟩
    · rw [parentOff, hf, hf']
      rcases f with ⟨⟨⟩, c, x, v⟩ <;> rfl
    · rw [parentOff, hf, hf']
      rcases f with ⟨⟨⟩, c, x, v⟩
      · exact .inl ⟨rfl, rfl, rfl⟩
      · exact .inr ⟨rfl, rfl, rfl⟩

end Place

namespace LinkState
variable (s : LinkState)

/-- The records of the nodes. -/
def records : Links := linksOf s.ptr s.store

def cells : List TreeCell := (inorder s.tree).map (bare s.records)

/-- The records with all nodes black, and their tree of cells. -/
def blacked : Links := s.records.paint fun _ => .black

def dressed : RbTree TreeCell := dress s.records s.tree

variable {s}

theorem toList_dressed : s.dressed.toList = s.cells := toList_dress

theorem map_off_cells : s.cells.map TreeCell.off = inorder s.tree := by
  unfold cells
  rw [List.map_map]
  exact List.map_id _

theorem stands : Stands s.blacked s.dressed := by
  constructor
  · exact s.root.trans rootOff_dress.symm
  · exact s.links.dress

theorem mem_cells {o : PtrOffset} (h : o ∈ inorder s.tree) : bare s.records o ∈ s.cells :=
  List.mem_map_of_mem h

theorem off_mem {x : TreeCell} (h : x ∈ s.cells) : x.off ∈ inorder s.tree := by
  rw [← map_off_cells]
  exact List.mem_map_of_mem h

theorem wired : Wired s.ptr s.alloc s.cells s.records s.store where
  heap := s.heap
  owned x hx := s.owned _ (off_mem hx)
  nodup := by
    rw [map_off_cells]
    exact s.nodup
  keys x hx hk := by
    obtain ⟨o, -, rfl⟩ := List.mem_map.mp hx
    cases hk
  node _ _ := rfl
  root_eq := rfl
  closed x hx := by
    have h := stands.2.closed (fun z hz => toList_dressed ▸ hz) (.inl rfl) x (toList_dressed.symm ▸ hx)
    exact ⟨h.left, h.right, h.parent⟩
  root_known := by
    have h : s.records.root = rootOff s.dressed := stands.1
    rw [h]
    cases hd : s.dressed with
    | nil => exact .inl rfl
    | node c l x r =>
      apply Known.of_mem
      rw [← toList_dressed, hd]
      simp [toList]

theorem distinct : Distinct s.dressed where
  nodup := by
    rw [toList_dressed, map_off_cells]
    exact s.nodup
  ne_nil x hx := wired.ne_nil (toList_dressed ▸ hx)

/-- The tree seen from a node with a right child. -/
theorem exists_right (n : s.Node) (h : (s.records.node n.1).rightOffset ≠ NIL) :
    ∃ p c l x d m y r, s.dressed = fill p (node c l x (node d m y r)) ∧ x.off = n.1 ∧
      y.off = (s.records.node n.1).rightOffset ∧
      rootOff m = (s.records.node (s.records.node n.1).rightOffset).leftOffset ∧
      parentOff p = (s.records.node n.1).parentOffset := by
  have hn : bare s.records n.1 ∈ s.dressed.toList := toList_dressed.symm ▸ mem_cells n.2
  obtain ⟨p, c, l, r, hd⟩ := exists_fill hn
  have hstands := s.stands
  rw [hd] at hstands
  obtain ⟨hpath, -, hx, -, hr⟩ := stands_fill.mp hstands
  have hright : (s.records.node n.1).rightOffset = rootOff r := congrArg RbNode.rightOffset hx
  have hparent : (s.records.node n.1).parentOffset = parentOff p := congrArg RbNode.parentOffset hx
  cases r with
  | nil => exact absurd hright h
  | node d m y r =>
    obtain ⟨-, hy, -, -⟩ := hr
    have hleft : (s.records.node y.off).leftOffset = rootOff m := congrArg RbNode.leftOffset hy
    refine ⟨p, c, l, _, d, m, y, r, hd, rfl, hright.symm, ?_, hparent.symm⟩
    rw [hright]
    exact hleft.symm

/-- The records after a rotation to the left. -/
theorem leftRotate_records (n : s.Node) (h : (s.records.node n.1).rightOffset ≠ NIL) :
    (∃ T, (s.records.leftRotate n.1).root = topOff T ∧
        Mirrored (s.records.leftRotate n.1).node NIL T ∧ inorder T = inorder s.tree) ∧
      TakesPlace s.records (s.records.leftRotate n.1) n.1 (s.records.node n.1).rightOffset
        (s.records.node n.1).parentOffset ∧
      ((s.records.leftRotate n.1).node (s.records.node n.1).rightOffset).leftOffset = n.1 ∧
      ∀ o, o ≠ n.1 → o ≠ (s.records.node n.1).rightOffset →
        o ≠ (s.records.node (s.records.node n.1).rightOffset).leftOffset →
        o ≠ (s.records.node n.1).parentOffset →
        (s.records.leftRotate n.1).node o = s.records.node o := by
  obtain ⟨p, c, l, x, d, m, y, r, hd, hx, hy, hm, hp⟩ := exists_right n h
  have hstands := s.stands
  have hdist := s.distinct
  rw [hd] at hstands hdist
  obtain ⟨h1, h2, -, -, h5⟩ := hstands.leftRotate_records hdist
  have hturn := hstands.leftRotate hdist
  have hblack : s.blacked.leftRotate x.off = (s.records.leftRotate n.1).paint fun _ => .black := by
    rw [paint_leftRotate, hx]
    rfl
  rw [hblack] at hturn h1 h2 h5
  rw [hx] at h2 h5
  rw [hm] at h5
  rw [← hy, ← hp]
  rw [← hy] at h5
  have hroot := hturn.1
  rw [paint_root] at hroot
  refine ⟨⟨shape (fill p (node d (node c l x m) y r)), hroot.trans topOff_shape.symm, ?_, ?_⟩, ?_, ?_,
    fun o h6 h7 h8 h9 => ?_⟩
  · exact hturn.2.mirrored.of_paint
  · rw [inorder_shape, ← map_off_cells, ← toList_dressed, hd]
    apply congrArg (List.map TreeCell.off)
    apply toList_fill_congr
    simp [toList]
  · have hpath := (stands_fill.mp hstands).1
    rw [rootOff, hx] at hpath
    exact (hpath.takesPlace h1).of_paint
  · have hleft := congrArg RbNode.leftOffset h2
    rw [paint_left] at hleft
    exact hleft
  · apply leftRotate_node_eq (χ := fun _ => .black)
    rw [← paint_leftRotate]
    exact h5 o h6 h7 h8 h9

/-- What a rotation to the left makes of the tree and of the rest of memory. -/
def LeftTurned (s : LinkState) (n : s.Node) (t : RbStore) : Prop :=
  let k := s.records
  let k' := linksOf s.ptr t
  let r := (k.node n.1).rightOffset
  let m := (k.node r).leftOffset
  let par := (k.node n.1).parentOffset
  (∃ T, k'.root = topOff T ∧ Mirrored k'.node NIL T ∧ inorder T = inorder s.tree) ∧
    TakesPlace k k' n.1 r par ∧ (k'.node r).leftOffset = n.1 ∧
    (∀ o ∈ inorder s.tree, o ≠ n.1 → o ≠ r → o ≠ m → o ≠ par → k'.node o = k.node o) ∧
    ∀ z, (∀ o ∈ inorder s.tree, z < s.ptr + o.toNat ∨ s.ptr + o.toNat + sizeofRbtreeNode ≤ z) →
      t.db.mem z = s.store.db.mem z

/-- What is true of the records of the nodes is true of memory. -/
theorem node_eq_of_wired {k' : Links} {t : RbStore} (h : Wired s.ptr s.alloc s.cells k' t) :
    ∀ o ∈ inorder s.tree, (linksOf s.ptr t).node o = k'.node o :=
  fun o ho => h.node (bare s.records o) (mem_cells ho)

theorem known_mem {o : PtrOffset} (h : Known s.cells o) (h0 : o ≠ NIL) : o ∈ inorder s.tree := by
  obtain ⟨y, hy, rfl⟩ := h.mem h0
  exact off_mem hy

theorem closed (n : s.Node) : (s.records.node n.1).Closed s.cells :=
  wired.closed (bare s.records n.1) (mem_cells n.2)

theorem leftRotate_turns (s : LinkState) (n : s.Node) (h : (s.records.node n.1).rightOffset ≠ NIL) :
    ∃ t l, leftRotate (s.ptr + n.1.toNat) s.store = .ok ((), t, l) ∧ s.LeftTurned n t := by
  have hwp : wp (among s.ptr s.cells) (leftRotate (s.ptr + n.1.toNat))
      (fun _ t => Wired s.ptr s.alloc s.cells (s.records.leftRotate n.1) t) s.store := by
    apply s.wired.wp_leftRotate (access_among _ _) (mem_cells n.2)
    exact fun t ht => ht
  obtain ⟨_, t, l, hrun, hl, ht⟩ := wp_ends hwp fun _ h => h
  have hnode := node_eq_of_wired ht
  have hroot : (linksOf s.ptr t).root = (s.records.leftRotate n.1).root := ht.root_eq
  have hr := known_mem (closed n).right h
  obtain ⟨⟨T, hT, hM, hin⟩, hplace, hleft, hne⟩ := leftRotate_records n h
  refine ⟨t, l, hrun, ⟨T, hroot.trans hT, ?_, hin⟩, ?_, ?_, fun o ho h1 h2 h3 h4 => ?_, fun z hz => ?_⟩
  · apply hM.congr
    intro o ho
    rw [hnode o (hin ▸ ho)]
    exact ⟨rfl, rfl, rfl⟩
  · refine ⟨fun h0 => hroot.trans (hplace.1 h0), fun h0 => ?_⟩
    rw [hnode _ (known_mem (closed n).parent h0), hroot]
    exact hplace.2 h0
  · rw [hnode _ hr]
    exact hleft
  · rw [hnode o ho]
    exact hne o h1 h2 h3 h4
  · apply touches_leftRotate _ _ _ _ _ hrun
    intro p hp
    obtain ⟨y, hy, he⟩ := hl _ hp
    rw [RbEvent.access.inj he]
    exact hz y.off (off_mem hy)

theorem leftRotate_turns_two : ∃ (s : LinkState) (n : s.Node),
    (s.records.node n.1).rightOffset ≠ NIL ∧
      ∃ t l, leftRotate (s.ptr + n.1.toNat) s.store = .ok ((), t, l) ∧ s.LeftTurned n t := by
  obtain ⟨s, hs⟩ := exists_rbState (node .black nil (letter 97) (node .red nil (letter 98) nil))
    ⟨rfl, 1, .black .nil (.red .nil .nil rfl rfl)⟩ (by unfold Sorted; decide) (by decide) (by decide)
  simp only [map_eq_node, map_eq_nil] at hs
  obtain ⟨_, x, _, hT, rfl, -, _, y, _, rfl, rfl, -, rfl⟩ := hs
  have hx : x.off ∈ inorder s.linkState.tree := by
    show x.off ∈ inorder (shape s.tree)
    rw [inorder_shape, hT]
    simp [toList]
  have hholds := s.rep.holds
  have hy : y.off ≠ NIL := s.rep.ne_nil (by simp [hT, toList])
  have hr : (s.linkState.records.node x.off).rightOffset ≠ NIL := by
    rw [hT] at hholds
    have h := congrArg RbNode.rightOffset hholds.2.1
    exact fun h0 => hy (h.symm.trans h0)
  exact ⟨s.linkState, ⟨x.off, hx⟩, hr, leftRotate_turns s.linkState ⟨x.off, hx⟩ hr⟩

end LinkState

end TouchDb
