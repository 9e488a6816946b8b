import TouchDb.Core.RedBlack
import TouchDb.Rbtree.Model
import TouchDb.Str.Rules

/-! Red-black trees in a pool: the records of the nodes as memory holds them, and the trees
that they make up. -/
namespace TouchDb
open Prog Layout

/-- A node as a record. -/
@[ext] structure RbNode where
  leftOffset : PtrOffset
  rightOffset : PtrOffset
  parentOffset : PtrOffset
  color : TouchdbRbtreeNodeColor
  keyOffset : PtrOffset
  val : TouchdbVal

/-- The node at an offset, read off memory. -/
def rbNode (B : ℕ) (s : Touchdb) (o : PtrOffset) : RbNode where
  leftOffset := s.field (B + o.toNat) RbtreeNode.leftOffset
  rightOffset := s.field (B + o.toNat) RbtreeNode.rightOffset
  parentOffset := s.field (B + o.toNat) RbtreeNode.parentOffset
  color := s.field (B + o.toNat) RbtreeNode.color
  keyOffset := s.field (B + o.toNat) RbtreeNode.keyOffset
  val := s.field (B + o.toNat) RbtreeNode.val

/-- The nodes of a tree and its root, as records. -/
@[ext] structure Links where
  node : PtrOffset → RbNode
  root : PtrOffset

def linksOf (B : ℕ) (s : RbStore) : Links := ⟨rbNode B s.db, s.tree.rootOffset⟩

/-- One node is changed. -/
def Links.set (h : Links) (o : PtrOffset) (g : RbNode → RbNode) : Links :=
  { h with node := Function.update h.node o (g (h.node o)) }

@[simp] theorem set_self (h : Links) (o : PtrOffset) (g : RbNode → RbNode) :
    (h.set o g).node o = g (h.node o) := Function.update_self _ _ _

theorem set_ne (h : Links) {o o' : PtrOffset} (g : RbNode → RbNode) (hne : o' ≠ o) :
    (h.set o g).node o' = h.node o' := Function.update_of_ne hne _ _

@[simp] theorem set_root (h : Links) (o : PtrOffset) (g : RbNode → RbNode) :
    (h.set o g).root = h.root := rfl

/-- What a tree says of a node besides its links and its color: where it is, where its key is,
the key and the value. The key of a node need not be stored. -/
structure TreeCell where
  off : PtrOffset
  keyOffset : PtrOffset
  key : CStr
  val : TouchdbVal
  keyed : Bool

/-- A color in memory. -/
def colorOf : RbColor → TouchdbRbtreeNodeColor
  | .red => .red
  | .black => .black

def rootOff : RbTree TreeCell → PtrOffset
  | .nil => NIL
  | .node _ _ x _ => x.off

/-- The offset of the node above a place. -/
def parentOff : RbTree.Path TreeCell → PtrOffset
  | [] => NIL
  | f :: _ => f.label.off

/-- The record of a node, by its links. -/
def TreeCell.node (x : TreeCell) (left right parent : PtrOffset) (c : RbColor) : RbNode :=
  ⟨left, right, parent, colorOf c, x.keyOffset, x.val⟩

/-- The nodes `H` make up the tree, below the parent `par`. -/
def Holds (H : PtrOffset → RbNode) : PtrOffset → RbTree TreeCell → Prop
  | _, .nil => True
  | par, .node c l x r => x.off ≠ NIL ∧ H x.off = x.node (rootOff l) (rootOff r) par c ∧
      Holds H x.off l ∧ Holds H x.off r

/-- The record of the node above a place whose subtree has its root at `hole`. -/
def crumbNode (f : RbTree.Crumb TreeCell) (par hole : PtrOffset) : RbNode :=
  match f.side with
  | .left => f.label.node hole (rootOff f.sibling) par f.color
  | .right => f.label.node (rootOff f.sibling) hole par f.color

/-- The nodes `H` make up the path, from the root on. -/
def HoldsPath (H : PtrOffset → RbNode) (root : PtrOffset) :
    RbTree.Path TreeCell → PtrOffset → Prop
  | [], hole => root = hole
  | f :: p, hole => f.label.off ≠ NIL ∧ H f.label.off = crumbNode f (parentOff p) hole ∧
      Holds H f.label.off f.sibling ∧ HoldsPath H root p f.label.off

section Holds
variable {H H' : PtrOffset → RbNode} {root par hole : PtrOffset} {t : RbTree TreeCell}
  {p : RbTree.Path TreeCell} {f : RbTree.Crumb TreeCell}

theorem Holds.congr (h : Holds H par t) (hH : ∀ x ∈ t.toList, H' x.off = H x.off) :
    Holds H' par t := by
  induction t generalizing par with
  | nil => trivial
  | node c l x r ihl ihr =>
    obtain ⟨h0, hx, hl, hr⟩ := h
    simp only [RbTree.toList, List.mem_append, List.mem_cons] at hH
    refine ⟨h0, ?_, ihl hl fun y hy => hH y (.inl hy), ihr hr fun y hy => hH y (.inr (.inr hy))⟩
    rw [hH x (.inr (.inl rfl)), hx]

/-- The links leave no choice for the tree. -/
theorem Holds.unique {t' : RbTree TreeCell} (h : Holds H par t) (h' : Holds H par t')
    (hr : rootOff t = rootOff t') : t.map TreeCell.off = t'.map TreeCell.off := by
  induction t generalizing par t' with
  | nil =>
    cases t' with
    | nil => rfl
    | node c l x r => exact absurd hr.symm h'.1
  | node c l x r ihl ihr =>
    cases t' with
    | nil => exact absurd hr h.1
    | node c' l' x' r' =>
      obtain ⟨-, hx, hl, hr'⟩ := h
      obtain ⟨-, hx', hl', hr''⟩ := h'
      have hoff : x.off = x'.off := hr
      rw [hoff, hx'] at hx
      have h1 : rootOff l = rootOff l' := (congrArg RbNode.leftOffset hx).symm
      have h2 : rootOff r = rootOff r' := (congrArg RbNode.rightOffset hx).symm
      have hc : c = c' := by
        have h3 : colorOf c' = colorOf c := congrArg RbNode.color hx
        cases c <;> cases c' <;> first | rfl | cases h3
      rw [hoff] at hl hr'
      rw [RbTree.map, RbTree.map, ihl hl hl' h1, ihr hr' hr'' h2, hoff, hc]

/-- The nodes of a path and of the siblings along it. -/
def pathCells (p : RbTree.Path TreeCell) : List TreeCell := p.before ++ p.after

theorem mem_pathCells_cons {x : TreeCell} : x ∈ pathCells (f :: p) ↔
    x = f.label ∨ x ∈ f.sibling.toList ∨ x ∈ pathCells p := by
  rcases f with ⟨⟨⟩, c, y, s⟩ <;>
    simp only [pathCells, RbTree.Path.before, RbTree.Path.after, List.mem_append, List.mem_cons,
      List.not_mem_nil, or_false, List.cons_append] <;> grind

theorem label_mem_pathCells : f.label ∈ pathCells (f :: p) := mem_pathCells_cons.mpr (.inl rfl)

theorem length_le_pathCells (p : RbTree.Path TreeCell) : p.length ≤ (pathCells p).length := by
  induction p with
  | nil => exact Nat.zero_le _
  | cons f p ih =>
    rcases f with ⟨⟨⟩, c, y, s⟩
    all_goals
      simp only [pathCells, RbTree.Path.before, RbTree.Path.after, List.length_append,
        List.length_cons, List.length_nil, List.cons_append] at ih ⊢
      omega

theorem mem_fill {x : TreeCell} :
    x ∈ (RbTree.fill p t).toList ↔ x ∈ pathCells p ∨ x ∈ t.toList := by
  rw [RbTree.toList_fill]
  simp only [pathCells, List.mem_append]
  grind

theorem label_mem_fill {t : RbTree TreeCell} : f.label ∈ (RbTree.fill (f :: p) t).toList :=
  mem_fill.mpr (.inl label_mem_pathCells)

theorem HoldsPath.congr (h : HoldsPath H root p hole)
    (hH : ∀ x ∈ pathCells p, H' x.off = H x.off) : HoldsPath H' root p hole := by
  induction p generalizing hole with
  | nil => exact h
  | cons f p ih =>
    obtain ⟨h0, hx, hs, hp⟩ := h
    simp only [mem_pathCells_cons] at hH
    refine ⟨h0, ?_, hs.congr fun y hy => hH y (.inr (.inl hy)), ih hp fun y hy =>
      hH y (.inr (.inr hy))⟩
    rw [hH _ (.inl rfl), hx]

theorem holds_crumb (f : RbTree.Crumb TreeCell) (t : RbTree TreeCell) :
    Holds H par (f.fill t) ↔ f.label.off ≠ NIL ∧ H f.label.off = crumbNode f par (rootOff t) ∧
      Holds H f.label.off f.sibling ∧ Holds H f.label.off t := by
  rcases f with ⟨⟨⟩, c, x, s⟩
  · simp only [RbTree.Crumb.fill, Holds, crumbNode]
    tauto
  · simp only [RbTree.Crumb.fill, Holds, crumbNode]

theorem rootOff_crumb (f : RbTree.Crumb TreeCell) (t : RbTree TreeCell) :
    rootOff (f.fill t) = f.label.off := by
  rcases f with ⟨⟨⟩, c, x, s⟩ <;> rfl

/-- A tree is a path and the subtree at its end. -/
theorem holds_fill (p : RbTree.Path TreeCell) (t : RbTree TreeCell) :
    (root = rootOff (RbTree.fill p t) ∧ Holds H NIL (RbTree.fill p t)) ↔
      HoldsPath H root p (rootOff t) ∧ Holds H (parentOff p) t := by
  induction p generalizing t with
  | nil => rfl
  | cons f p ih =>
    rw [RbTree.fill_cons, ih, holds_crumb, rootOff_crumb]
    simp only [HoldsPath, parentOff]
    tauto

end Holds

/-- A byte that no call of the pool writes, and no write to a node of the tree. -/
def Still (u : PoolAlloc) (L : List TreeCell) (x : ℕ) : Prop :=
  x = 0 ∨ ∃ o c, u.payload o = some c ∧ o ≤ x ∧ x < o + c ∧ ∀ y ∈ L, y.off.toNat ≠ o

/-- The string `k` is stored at an offset, apart from the nodes. -/
structure KeyAt (B : ℕ) (s : Touchdb) (u : PoolAlloc) (L : List TreeCell) (o : PtrOffset)
    (k : CStr) : Prop where
  le : o.toNat + (k.strlen + 1) ≤ touchdbDefaultPoolSize
  holds : s.holds (B + o.toNat) k
  still : ∀ i ≤ k.strlen, Still u L (o.toNat + i)

/-- The nodes of a tree are blocks of their own, and the keys of those that have one are stored. -/
structure Cells (B : ℕ) (s : Touchdb) (u : PoolAlloc) (L : List TreeCell) : Prop where
  heap : Heap B s u
  owned : ∀ x ∈ L, Owns u x.off.toNat sizeofRbtreeNode
  nodup : (L.map TreeCell.off).Nodup
  keys : ∀ x ∈ L, x.keyed = true → KeyAt B s u L x.keyOffset x.key

/-- The nodes have these links, and the tree record has this root. -/
structure Nodes (B : ℕ) (u : PoolAlloc) (L : List TreeCell) (h : Links) (s : RbStore) : Prop
    extends Cells B s.db u L where
  node : ∀ x ∈ L, rbNode B s.db x.off = h.node x.off
  root_eq : s.tree.rootOffset = h.root

/-- The links of the store are those of the tree `T`, whose nodes are those of `L`. -/
structure LinkRep (B : ℕ) (u : PoolAlloc) (L : List TreeCell) (T : RbTree TreeCell)
    (s : RbStore) : Prop extends Cells B s.db u L where
  list : T.toList = L
  root : s.tree.rootOffset = rootOff T
  holds : Holds (rbNode B s.db) NIL T

/-- The store holds the tree `T`, and all its keys. -/
structure TreeRep (B : ℕ) (u : PoolAlloc) (L : List TreeCell) (T : RbTree TreeCell)
    (s : RbStore) : Prop extends LinkRep B u L T s where
  keyed : ∀ x ∈ L, x.keyed = true

section Rep
variable {B : ℕ} {u : PoolAlloc} {L : List TreeCell} {k : Links}
  {s t : RbStore} {T : RbTree TreeCell} {x y : TreeCell}

theorem LinkRep.nodes (h : LinkRep B u L T s) : Nodes B u L (linksOf B s) s :=
  ⟨h.toCells, fun _ _ => rfl, rfl⟩

theorem Nodes.linkRep (h : Nodes B u L k s) (hl : T.toList = L) (hr : k.root = rootOff T)
    (hT : Holds k.node NIL T) : LinkRep B u L T s where
  toCells := h.toCells
  list := hl
  root := h.root_eq.trans hr
  holds := hT.congr fun y hy => h.node y (hl ▸ hy)

theorem Cells.off_inj (h : Cells B s.db u L) (hx : x ∈ L) (hy : y ∈ L) (he : x.off = y.off) :
    x = y := List.inj_on_of_nodup_map h.nodup hx hy he

theorem Cells.ne_nil (h : Cells B s.db u L) (hx : x ∈ L) : x.off ≠ NIL := by
  intro h0
  have h1 := (h.owned x hx).bounds
  rw [h0] at h1
  simp [NIL] at h1

theorem Cells.length_lt (h : Cells B s.db u L) : L.length < walkRounds := by
  have hn : (L.map fun x => x.off.toNat).Nodup := by
    have h1 := h.nodup.map (f := UInt32.toNat) fun _ _ => UInt32.toNat_inj.mp
    rwa [List.map_map] at h1
  have h2 := Owns.length_lt hn fun o ho => by
    obtain ⟨x, hx, rfl⟩ := List.mem_map.mp ho
    exact (h.owned x hx).mono (Nat.zero_le _)
  simpa using h2

/-- A byte that stays still is not written by a write to a node. -/
theorem Still.write {z k : ℕ} {bs : List UInt8} (h : Still u L z)
    (hx : x ∈ L) (ho : Owns u x.off.toNat sizeofRbtreeNode) (hk : k + bs.length ≤ sizeofRbtreeNode)
    (s : Touchdb) : (s.write (B + x.off.toNat + k) bs).mem (B + z) = s.mem (B + z) := by
  apply Mem.write_outside
  have hb := ho.bounds
  rcases h with rfl | ⟨o, c, hc, h1, h2, hne⟩
  · omega
  · have hd := ho.disjoint ⟨c, hc, le_rfl⟩ (hne x hx)
    omega

theorem Cells.write {k : ℕ} {bs : List UInt8} (h : Cells B s.db u L) (hx : x ∈ L)
    (hk : k + bs.length ≤ sizeofRbtreeNode) :
    Cells B (s.db.write (B + x.off.toNat + k) bs) u L where
  heap := (h.heap.write (h.owned x hx) hk).1
  owned := h.owned
  nodup := h.nodup
  keys y hy h0 := by
    have hkey := h.keys y hy h0
    refine ⟨hkey.le, ?_, hkey.still⟩
    show Mem.read _ _ _ = _
    rw [← hkey.holds]
    apply Mem.read_congr
    intro i hi
    rw [Nat.add_assoc B y.keyOffset.toNat i]
    exact (hkey.still i (by omega)).write hx (h.owned x hx) hk s.db

end Rep

/-- A field of a node, in memory and in the record. -/
structure NodeField (α : Type) [Layout α] where
  field : Field α
  get : RbNode → α
  set : α → RbNode → RbNode
  le : field.off + size α ≤ sizeofRbtreeNode
  get_eq : ∀ B s o, s.field (B + o.toNat) field = get (rbNode B s o)
  write_eq : ∀ B s o v, rbNode B (s.write (B + o.toNat + field.off) (enc v)) o = set v (rbNode B s o)

namespace NodeField

def left : NodeField PtrOffset where
  field := RbtreeNode.leftOffset
  get n := n.leftOffset
  set v n := { n with leftOffset := v }
  le := by decide
  get_eq _ _ _ := rfl
  write_eq B s o v := by
    apply RbNode.ext
    · exact field_write_same s _ RbtreeNode.leftOffset v
    all_goals exact field_write_apart (by simp)

def right : NodeField PtrOffset where
  field := RbtreeNode.rightOffset
  get n := n.rightOffset
  set v n := { n with rightOffset := v }
  le := by decide
  get_eq _ _ _ := rfl
  write_eq B s o v := by
    apply RbNode.ext
    case rightOffset => exact field_write_same s _ RbtreeNode.rightOffset v
    all_goals exact field_write_apart (by simp)

def parent : NodeField PtrOffset where
  field := RbtreeNode.parentOffset
  get n := n.parentOffset
  set v n := { n with parentOffset := v }
  le := by decide
  get_eq _ _ _ := rfl
  write_eq B s o v := by
    apply RbNode.ext
    case parentOffset => exact field_write_same s _ RbtreeNode.parentOffset v
    all_goals exact field_write_apart (by simp)

def color : NodeField TouchdbRbtreeNodeColor where
  field := RbtreeNode.color
  get n := n.color
  set v n := { n with color := v }
  le := by decide
  get_eq _ _ _ := rfl
  write_eq B s o v := by
    apply RbNode.ext
    case color => exact field_write_same s _ RbtreeNode.color v
    all_goals exact field_write_apart (by simp)

def val : NodeField TouchdbVal where
  field := RbtreeNode.val
  get n := n.val
  set v n := { n with val := v }
  le := by decide
  get_eq _ _ _ := rfl
  write_eq B s o v := by
    apply RbNode.ext
    case val => exact field_write_same s _ RbtreeNode.val v
    all_goals exact field_write_apart (by simp)

variable (n : RbNode) (o : PtrOffset) (c : TouchdbRbtreeNodeColor) (v : TouchdbVal)

@[simp] theorem left_get : left.get n = n.leftOffset := rfl

@[simp] theorem right_get : right.get n = n.rightOffset := rfl

@[simp] theorem parent_get : parent.get n = n.parentOffset := rfl

@[simp] theorem color_get : color.get n = n.color := rfl

@[simp] theorem left_set : left.set o n = { n with leftOffset := o } := rfl

@[simp] theorem right_set : right.set o n = { n with rightOffset := o } := rfl

@[simp] theorem parent_set : parent.set o n = { n with parentOffset := o } := rfl

@[simp] theorem color_set : color.set c n = { n with color := c } := rfl

@[simp] theorem val_set : val.set v n = { n with val := v } := rfl

end NodeField

/-- A pointer to a node, or `NULL`. -/
def ptrAt (B : ℕ) (o : PtrOffset) : ℕ := if o = NIL then NULL else B + o.toNat

/-- The nodes may be accessed. -/
def Access (G : Guard Stop RbEvent) (B : ℕ) (L : List TreeCell) : Prop :=
  ∀ x ∈ L, G.emits (.access (B + x.off.toNat))

/-- Events of the nodes of `L` only. -/
def among (B : ℕ) (L : List TreeCell) : Guard Stop RbEvent :=
  ⟨fun _ => False, fun e => ∃ y ∈ L, e = .access (B + y.off.toNat)⟩

theorem access_among (B : ℕ) (L : List TreeCell) : Access (among B L) B L := fun x hx => ⟨x, hx, rfl⟩

section Wp
variable {α : Type} {B : ℕ} {u : PoolAlloc} {L : List TreeCell} {k : Links}
  {s : RbStore} {x : TreeCell} {G : Guard Stop RbEvent}

theorem ptrAt_nil (B : ℕ) : ptrAt B NIL = NULL := if_pos rfl

theorem ptrAt_of_ne {o : PtrOffset} (h : o ≠ NIL) : ptrAt B o = B + o.toNat := if_neg h

theorem ptrAt_eq_null {o : PtrOffset} : ptrAt B o = NULL ↔ o = NIL := by
  unfold ptrAt
  split_ifs with h
  · simp [h]
  · have h0 : o.toNat ≠ 0 := fun h0 => h (UInt32.toNat_inj.mp h0)
    simp only [h, iff_false, NULL]
    omega

theorem ptrAt_inj {o o' : PtrOffset} (h : ptrAt B o = ptrAt B o') : o = o' := by
  by_cases h0 : o = NIL
  · rw [h0, ptrAt_nil] at h
    rw [h0, ptrAt_eq_null.mp h.symm]
  · by_cases h1 : o' = NIL
    · rw [h1, ptrAt_nil] at h
      exact absurd (ptrAt_eq_null.mp h) h0
    · rw [ptrAt_of_ne h0, ptrAt_of_ne h1] at h
      exact UInt32.toNat_inj.mp (by omega)

theorem wp_onPool {c : M α} {Q : α → RbStore → Prop}
    (h : wp ⟨G.stops, fun _ => True⟩ c (fun a db => Q a { s with db := db }) s.db) :
    wp G (onPool c) Q s := by
  unfold wp onPool at *
  rcases hc : c s.db with ⟨e, l⟩ | ⟨a, db, l⟩
  · simp only [hc] at h ⊢
    exact ⟨by simp, h.2⟩
  · simp only [hc] at h ⊢
    exact ⟨by simp, h.2⟩

theorem wp_emit {e : RbEvent} {Q : Unit → RbStore → Prop} (he : G.emits e) (hQ : Q () s) :
    wp G (emit e) Q s := wp_update (by simpa using he) hQ

theorem wp_getRoot {Q : PtrOffset → RbStore → Prop} (hQ : Q s.tree.rootOffset s) :
    wp G getRoot Q s := ⟨by simp, hQ⟩

/-- A field of a block that need not be a node of a tree. -/
theorem wp_getCell [Layout α] {o n : ℕ} {f : Field α} {Q : α → RbStore → Prop} (h : Heap B s.db u)
    (ho : Owns u o n) (hf : f.off + size α ≤ n) (he : G.emits (.access (B + o)))
    (hQ : Q (s.db.field (B + o) f) s) : wp G (getField (B + o) f) Q s := by
  unfold getField
  apply wp_bind
  apply wp_emit he
  apply wp_onPool
  exact wp_loadCell h ho hf hQ

theorem wp_setCell [Layout α] {o n : ℕ} {f : Field α} {v : α} {Q : Unit → RbStore → Prop}
    (h : Heap B s.db u) (ho : Owns u o n) (hf : f.off + size α ≤ n) (he : G.emits (.access (B + o)))
    (hQ : Heap B (s.db.write (B + o + f.off) (enc v)) u →
      Q () { s with db := s.db.write (B + o + f.off) (enc v) }) :
    wp G (setField (B + o) f v) Q s := by
  unfold setField
  apply wp_bind
  apply wp_emit he
  apply wp_onPool
  exact wp_storeCell h ho hf trivial fun ht _ => hQ ht

namespace Nodes

theorem wp_get [Layout α] {Q : α → RbStore → Prop} (h : Nodes B u L k s)
    (hG : Access G B L) (hx : x ∈ L) (F : NodeField α) (hQ : Q (F.get (k.node x.off)) s) :
    wp G (getField (B + x.off.toNat) F.field) Q s := by
  apply wp_getCell h.heap (h.owned x hx) F.le (hG x hx)
  rw [F.get_eq, h.node x hx]
  exact hQ

theorem wp_set [Layout α] {Q : Unit → RbStore → Prop} (h : Nodes B u L k s)
    (hG : Access G B L) (hx : x ∈ L) (F : NodeField α) (v : α)
    (hQ : ∀ t, Nodes B u L (k.set x.off (F.set v)) t → Q () t) :
    wp G (setField (B + x.off.toNat) F.field v) Q s := by
  apply wp_setCell h.heap (h.owned x hx) F.le (hG x hx)
  intro _
  apply hQ
  have hk : F.field.off + (enc v).length ≤ sizeofRbtreeNode := by
    rw [enc_length]
    exact F.le
  refine ⟨h.toCells.write hx hk, fun y hy => ?_, h.root_eq⟩
  by_cases he : y.off = x.off
  · rw [he, set_self]
    show rbNode B (s.db.write _ _) x.off = _
    rw [F.write_eq, h.node x hx]
  · rw [set_ne k _ he, ← h.node y hy]
    have hne : y.off.toNat ≠ x.off.toNat := fun h1 => he (UInt32.toNat_inj.mp h1)
    have hoy := h.owned y hy
    have hox := h.owned x hx
    apply RbNode.ext
    all_goals exact field_write_other hox hoy hne hk (by decide)

theorem wp_setRoot {Q : Unit → RbStore → Prop} (h : Nodes B u L k s) (o : PtrOffset)
    (hQ : ∀ t, Nodes B u L { k with root := o } t → Q () t) : wp G (setRoot o) Q s := by
  apply wp_update
  · simp
  · exact hQ _ ⟨h.toCells, h.node, rfl⟩

/-- The pointer for an offset that is `NIL` or that of a node. -/
theorem wp_ptr {Q : ℕ → RbStore → Prop} (h : Nodes B u L k s) (hx : x ∈ L)
    (hQ : Q (B + x.off.toNat) s) : wp G (onPool (ptrOf 0 x.off)) Q s := by
  have hb := (h.owned x hx).bounds
  apply wp_onPool
  apply wp_ptrOf h.heap.toPoolMapped (by omega)
  rw [h.heap.base_eq]
  exact hQ

theorem wp_offsetOf {Q : PtrOffset → RbStore → Prop} {o : PtrOffset} (h : Nodes B u L k s)
    (hQ : Q o s) : wp G (offsetOf (ptrAt B o)) Q s := by
  unfold offsetOf
  apply wp_onPool
  by_cases ho : o = NIL
  · rw [ho, ptrAt_nil]
    unfold ptrOffsetOf
    rw [if_pos rfl]
    rw [ho] at hQ
    exact wp_pure hQ
  · rw [ptrAt_of_ne ho, ← h.heap.base_eq]
    apply wp_ptrOffsetOf h.heap.toPoolMapped
    rw [UInt32.ofNat_toNat]
    exact hQ

/-- A link of a node leads to `NULL` or to a node. -/
theorem wp_relative {Q : ℕ → RbStore → Prop} (h : Nodes B u L k s) (hG : Access G B L)
    (hx : x ∈ L) (F : NodeField PtrOffset)
    (hl : F.get (k.node x.off) = NIL ∨ ∃ y ∈ L, y.off = F.get (k.node x.off))
    (hQ : Q (ptrAt B (F.get (k.node x.off))) s) :
    wp G (relative (B + x.off.toNat) F.field) Q s := by
  have hp := (h.owned x hx).ptr_ne B
  unfold relative
  rw [if_neg hp]
  apply wp_bind
  apply h.wp_get hG hx F
  rcases hl with h0 | ⟨y, hy, he⟩
  · rw [h0] at hQ ⊢
    rw [if_pos rfl]
    exact wp_pure hQ
  · have hne := h.ne_nil hy
    rw [← he] at hQ ⊢
    rw [if_neg hne]
    apply h.wp_ptr hy
    rwa [ptrAt_of_ne hne] at hQ

theorem wp_rootNode {Q : ℕ → RbStore → Prop} (h : Nodes B u L k s)
    (hl : k.root = NIL ∨ ∃ y ∈ L, y.off = k.root) (hQ : Q (ptrAt B k.root) s) :
    wp G rootNode Q s := by
  unfold rootNode rbtreeNode
  apply wp_bind
  apply wp_getRoot
  rw [h.root_eq]
  rcases hl with h0 | ⟨y, hy, he⟩
  · rw [h0] at hQ ⊢
    rw [if_pos rfl]
    exact wp_pure hQ
  · have hne := h.ne_nil hy
    rw [← he] at hQ ⊢
    rw [if_neg hne]
    apply h.wp_ptr hy
    rwa [ptrAt_of_ne hne] at hQ

end Nodes

end Wp

end TouchDb
