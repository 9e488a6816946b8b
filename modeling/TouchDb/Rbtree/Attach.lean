import TouchDb.Rbtree.Search
import TouchDb.Rbtree.State
import TouchDb.Rbtree.Touch
import TouchDb.Rbtree.Turn

/-! The step of `touchdb_rbtree_insert` that joins a new node to its parent. -/
namespace TouchDb
open Prog Layout RbTree

/-- The link to the child on one side. -/
def childField : Side → NodeField PtrOffset
  | .left => NodeField.left
  | .right => NodeField.right

/-- The side of the parent that the code takes. -/
def attachSide (r : ℤ) : Side := if r > 1 then .right else .left

/-- A block becomes a red leaf below a node. -/
def Links.attach (k : Links) (n par : PtrOffset) (side : Side) : Links :=
  ((((k.set n (NodeField.parent.set par)).set par ((childField side).set n)).set n
    (NodeField.right.set NIL)).set n (NodeField.left.set NIL)).set n (NodeField.color.set .red)

section Attach
variable {k : Links} {n par o : PtrOffset} {side : Side}

@[simp] theorem childField_get_set (side : Side) (o : PtrOffset) (v : RbNode) :
    (childField side).get ((childField side).set o v) = o := by cases side <;> rfl

theorem attach_self (hne : n ≠ par) : (k.attach n par side).node n =
    { k.node n with leftOffset := NIL, rightOffset := NIL, parentOffset := par, color := .red } := by
  unfold Links.attach
  rw [set_self, set_self, set_self, set_ne _ _ hne, set_self]
  rfl

theorem attach_parent (hne : par ≠ n) :
    (k.attach n par side).node par = (childField side).set n (k.node par) := by
  unfold Links.attach
  rw [set_ne _ _ hne, set_ne _ _ hne, set_ne _ _ hne, set_self, set_ne _ _ hne]

theorem attach_ne (h1 : o ≠ n) (h2 : o ≠ par) : (k.attach n par side).node o = k.node o := by
  unfold Links.attach
  rw [set_ne _ _ h1, set_ne _ _ h1, set_ne _ _ h1, set_ne _ _ h2, set_ne _ _ h1]

theorem crumbNode_childField (f : Crumb TreeCell) (par hole hole' : PtrOffset) :
    (childField f.side).set hole' (crumbNode f par hole) = crumbNode f par hole' := by
  rcases f with ⟨⟨⟩, c, x, v⟩ <;> rfl

theorem childField_crumbNode (f : Crumb TreeCell) (par hole : PtrOffset) :
    (childField f.side).get (crumbNode f par hole) = hole := by
  rcases f with ⟨⟨⟩, c, x, v⟩ <;> rfl

end Attach

/-- The new leaf stands in the tree. -/
theorem Stands.attach {k : Links} {f : Crumb TreeCell} {p : Path TreeCell} {y : TreeCell}
    (h : Stands k (fill (f :: p) nil)) (hd : Distinct (fill (f :: p) nil))
    (hy : ∀ z ∈ pathCells (f :: p), z.off ≠ y.off) (hy0 : y.off ≠ NIL)
    (hko : (k.node y.off).keyOffset = y.keyOffset) (hv : (k.node y.off).val = y.val) :
    Stands (k.attach y.off f.label.off f.side) (fill (f :: p) (node .red nil y nil)) := by
  obtain ⟨⟨h0, hf, hs, hp⟩, -⟩ := stands_fill.mp h
  simp only [mem_pathCells_cons] at hy
  have hfy : f.label.off ≠ y.off := hy _ (.inl rfl)
  rw [stands_fill]
  refine ⟨⟨h0, ?_, hs.congr fun z hz => ?_, hp.congr fun z hz => ?_⟩, hy0, ?_, trivial, trivial⟩
  · rw [attach_parent hfy, hf]
    exact crumbNode_childField f _ _ _
  · exact attach_ne (hy z (.inr (.inl hz))) (hd.parentApart z (.inl hz))
  · exact attach_ne (hy z (.inr (.inr hz))) (hd.parentApart z (.inr hz))
  · rw [attach_self hfy.symm]
    apply RbNode.ext
    case keyOffset => exact hko
    case val => exact hv
    all_goals rfl

section Still
variable {B z : ℕ} {s : RbStore} {d : Touchdb} {u : PoolAlloc} {L M : List TreeCell} {x y : TreeCell}
  {o : PtrOffset} {k : CStr}

theorem Still.of_offs (h : Still u L z) (hs : ∀ y ∈ M, ∃ x ∈ L, x.off = y.off) : Still u M z := by
  rcases h with h0 | ⟨o, c, hc, h1, h2, hne⟩
  · exact .inl h0
  · refine .inr ⟨o, c, hc, h1, h2, fun y hy => ?_⟩
    obtain ⟨x, hx, he⟩ := hs y hy
    rw [← he]
    exact hne x hx

theorem KeyAt.of_offs (h : KeyAt B d u L o k) (hs : ∀ y ∈ M, ∃ x ∈ L, x.off = y.off) :
    KeyAt B d u M o k where
  le := h.le
  holds := h.holds
  still i hi := (h.still i hi).of_offs hs

theorem Cells.tail (h : Cells B d u (x :: L)) : Cells B d u L where
  heap := h.heap
  owned y hy := h.owned y (List.mem_cons_of_mem x hy)
  nodup := (List.nodup_cons.mp h.nodup).2
  keys y hy h0 := (h.keys y (List.mem_cons_of_mem x hy) h0).of_offs fun w hw =>
    ⟨w, List.mem_cons_of_mem x hw, rfl⟩

theorem Cells.perm (h : Cells B d u L) (hp : L.Perm M) : Cells B d u M where
  heap := h.heap
  owned y hy := h.owned y (hp.mem_iff.mpr hy)
  nodup := (hp.map _).nodup_iff.mp h.nodup
  keys y hy h0 := (h.keys y (hp.mem_iff.mpr hy) h0).of_offs fun w hw => ⟨w, hp.mem_iff.mpr hw, rfl⟩

/-- Another key for the first node. -/
theorem Cells.rekey (h : Cells B d u (x :: L)) (ho : y.off = x.off)
    (hk : y.keyed = true → KeyAt B d u (x :: L) y.keyOffset y.key) : Cells B d u (y :: L) := by
  have hoffs : ∀ w ∈ y :: L, ∃ v ∈ x :: L, v.off = w.off := by
    intro w hw
    rcases List.mem_cons.mp hw with rfl | hw
    · exact ⟨x, List.mem_cons_self, ho.symm⟩
    · exact ⟨w, List.mem_cons_of_mem x hw, rfl⟩
  refine ⟨h.heap, fun w hw => ?_, ?_, fun w hw h0 => ?_⟩
  · rcases List.mem_cons.mp hw with rfl | hw
    · exact ho ▸ h.owned x List.mem_cons_self
    · exact h.owned w (List.mem_cons_of_mem x hw)
  · rw [List.map_cons, ho]
    exact h.nodup
  · rcases List.mem_cons.mp hw with rfl | hw
    · exact (hk h0).of_offs hoffs
    · exact (h.keys w (List.mem_cons_of_mem x hw) h0).of_offs hoffs

/-- What only touches nodes leaves the bytes that stay still. -/
theorem Touches.still {α : Type} {c : RbM α} {a : α} {t : RbStore} {l : List RbEvent} (hc : Touches c)
    (hrun : c s = .ok (a, t, l)) (hl : ∀ e ∈ l, (among B L).emits e) (h : Cells B s.db u L)
    (hz : Still u L z) : t.db.mem (B + z) = s.db.mem (B + z) := by
  apply hc s a t l hrun
  intro p hp
  obtain ⟨y, hy, he⟩ := hl _ hp
  obtain rfl : p = B + y.off.toNat := RbEvent.access.inj he
  have ho := h.owned y hy
  have hb := ho.bounds
  rcases hz with rfl | ⟨o, c, hc, h1, h2, hne⟩
  · omega
  · have hd := ho.disjoint ⟨c, hc, le_rfl⟩ (hne y hy)
    omega

end Still

section Wp
variable {B : ℕ} {u : PoolAlloc} {L : List TreeCell} {k : Links} {s : RbStore}
  {G : Guard Stop RbEvent} {x y : TreeCell} {strcmp : Strcmp} {c : CStr} {Q : Unit → RbStore → Prop}

/-- The first node of a tree gets its parent, and nothing else. -/
theorem Nodes.wp_attach_root (h : Nodes B u L k s) (hG : Access G B L) (hx : x ∈ L)
    (hQ : ∀ t, Nodes B u L ⟨(k.set x.off (NodeField.parent.set NIL)).node, x.off⟩ t → Q () t) :
    wp G (rbtreeAttach strcmp c (B + x.off.toNat) NULL) Q s := by
  unfold rbtreeAttach
  apply wp_bind
  rw [← ptrAt_of_ne (h.ne_nil hx)]
  apply h.wp_offsetOf
  rw [ptrAt_of_ne (h.ne_nil hx)]
  apply wp_bind
  rw [← ptrAt_nil B]
  apply h.wp_offsetOf
  apply wp_bind
  apply h.wp_set hG hx NodeField.parent
  intro t ht
  rw [ptrAt_nil, if_pos rfl]
  exact ht.wp_setRoot x.off hQ

/-- Below a node whose key is stored. -/
theorem Nodes.wp_attach (h : Nodes B u L k s) (hG : Access G B L) (hx : x ∈ L) (hy : y ∈ L)
    (hne : y.off ≠ x.off) (hkey : y.keyed = true) (ho : (k.node y.off).keyOffset = y.keyOffset)
    (hQ : ∀ t, Nodes B u L (k.attach x.off y.off (attachSide (strcmp.cmp c y.key))) t → Q () t) :
    wp G (rbtreeAttach strcmp c (B + x.off.toNat) (B + y.off.toNat)) Q s := by
  unfold rbtreeAttach
  apply wp_bind
  rw [← ptrAt_of_ne (h.ne_nil hx)]
  apply h.wp_offsetOf
  apply wp_bind
  rw [← ptrAt_of_ne (h.ne_nil hy)]
  apply h.wp_offsetOf
  rw [ptrAt_of_ne (h.ne_nil hx), ptrAt_of_ne (h.ne_nil hy)]
  apply wp_bind
  apply h.wp_set hG hx NodeField.parent
  intro t₁ h₁
  rw [if_neg ((h.owned y hy).ptr_ne B)]
  have hoff : t₁.db.field (B + y.off.toNat) RbtreeNode.keyOffset = y.keyOffset := by
    have h2 : (rbNode B t₁.db y.off).keyOffset = (k.node y.off).keyOffset := by
      rw [h₁.node y hy, set_ne _ _ hne]
    exact h2.trans ho
  apply wp_bind
  apply wp_getCell h₁.heap (h₁.owned y hy) (by decide) (hG y hy)
  rw [hoff]
  apply wp_bind
  have hk := h₁.keys y hy hkey
  apply wp_strcmpKey h₁.heap.toPoolMapped h₁.heap.base_eq hk.le hk.holds
  have hside : wp G (if strcmp.cmp c y.key > 1 then
      setField (B + y.off.toNat) RbtreeNode.rightOffset x.off
      else setField (B + y.off.toNat) RbtreeNode.leftOffset x.off) (fun _ t => Nodes B u L
        ((k.set x.off (NodeField.parent.set y.off)).set y.off
          ((childField (attachSide (strcmp.cmp c y.key))).set x.off)) t) t₁ := by
    unfold attachSide
    split_ifs
    · exact h₁.wp_set hG hy NodeField.right _ fun t ht => ht
    · exact h₁.wp_set hG hy NodeField.left _ fun t ht => ht
  apply wp_seq hside
  intro _ t₂ h₂
  apply wp_bind
  apply h₂.wp_set hG hx NodeField.right
  intro t₃ h₃
  apply wp_bind
  apply h₃.wp_set hG hx NodeField.left
  intro t₄ h₄
  apply h₄.wp_set hG hx NodeField.color
  exact hQ

end Wp

/-- A store with a search tree, and a block for one more node. Nothing is asked of what the block
holds. -/
structure RbSpare where
  ptr : ℕ
  store : RbStore
  alloc : PoolAlloc
  tree : RbTree TreeCell
  cell : TreeCell
  cells : Cells ptr store.db alloc (cell :: tree.toList)
  root : store.tree.rootOffset = rootOff tree
  holds : Holds (rbNode ptr store.db) NIL tree
  keyed : ∀ x ∈ tree.toList, x.keyed = true
  sorted : Sorted TreeCell.key tree

namespace RbSpare
variable (s : RbSpare)

/-- The block as it was handed out. -/
def block : RbNode := rbNode s.ptr s.store.db s.cell.off

/-- The block has taken the place of a `NIL`: a child of the parent, or the root. -/
def FillsSlot (parent : ℕ) (t : RbStore) : Prop :=
  if parent = NULL then s.store.tree.rootOffset = NIL ∧ t.tree.rootOffset = s.cell.off
  else ∃ side, s.store.db.field parent (childField side).field = NIL ∧
    t.db.field parent (childField side).field = s.cell.off

/-- The node that joins the parent found for `k` takes the place of a `NIL`, and there is a search tree
of stored keys with one node more: the block, with the key `k`. The search is run after the block was
handed out, which changes no node. -/
def AttachOk (strcmp : Strcmp) (k : CStr) : Prop :=
  ∃ parent l, getNode strcmp k NULL s.store = .ok ((NULL, parent), s.store, l) ∧
    ∃ t l', rbtreeAttach strcmp k (s.ptr + s.cell.off.toNat) parent s.store = .ok ((), t, l') ∧
      s.FillsSlot parent t ∧
      ∃ T, t.tree.rootOffset = rootOff T ∧ Hangs (rbNode s.ptr t.db) T ∧
        Cells s.ptr t.db s.alloc T.toList ∧ (∀ x ∈ T.toList, x.keyed = true) ∧ Sorted TreeCell.key T ∧
        ∃ a y b, s.tree.toList = a ++ b ∧ T.toList = a ++ y :: b ∧ y.off = s.cell.off ∧ y.key = k

/-- The block says where `k` is stored. It has no children if it becomes the root, and otherwise `strcmp`
does not say 1 of `k` and the key of its parent. -/
def Attachable (strcmp : Strcmp) (k : CStr) : Prop :=
  KeyAt s.ptr s.store.db s.alloc (s.cell :: s.tree.toList) s.block.keyOffset k ∧
    match (locate TreeCell.key k s.tree []).1 with
    | [] => s.block.leftOffset = NIL ∧ s.block.rightOffset = NIL
    | f :: _ => strcmp.cmp k f.label.key ≠ 1

variable {s} {strcmp : Strcmp} {k : CStr} {f : Crumb TreeCell} {p : Path TreeCell} {y : TreeCell}

theorem rep : TreeRep s.ptr s.alloc s.tree.toList s.tree s.store :=
  ⟨⟨s.cells.tail, rfl, s.root, s.holds⟩, s.keyed⟩

theorem parent_mem (hp : fill (f :: p) .nil = s.tree) : f.label ∈ s.tree.toList := by
  rw [← hp]
  exact label_mem_fill

theorem cell_ne {x : TreeCell} (hx : x ∈ s.tree.toList) : x.off ≠ s.cell.off := by
  have hn := s.cells.nodup
  rw [List.map_cons, List.nodup_cons] at hn
  intro he
  exact hn.1 (he ▸ List.mem_map_of_mem hx)

/-- Where an absent key belongs. -/
theorem locate_absent (hk : k ∉ s.tree.toList.map TreeCell.key) :
    ∃ p, locate TreeCell.key k s.tree [] = (p, .nil) ∧ fill p .nil = s.tree ∧ p.Around TreeCell.key k := by
  rcases hloc : locate TreeCell.key k s.tree [] with ⟨p, _ | ⟨c, l, x, r⟩⟩
  · obtain ⟨htree, haround⟩ := locate_nil_eq s.sorted hloc
    exact ⟨p, rfl, htree, haround⟩
  · obtain ⟨htree, hkey⟩ := locate_node_eq hloc
    have hx : x ∈ s.tree.toList := by
      rw [← htree]
      exact mem_fill.mpr (.inr (by simp [toList]))
    exact absurd (hkey ▸ List.mem_map_of_mem hx) hk

/-- The side where `strcmp` sends a key that belongs below a node. -/
theorem attachSide_of_around (h : Path.Around TreeCell.key k (f :: p)) :
    attachSide (strcmp.cmp k f.label.key) = f.side ↔ strcmp.cmp k f.label.key ≠ 1 := by
  unfold attachSide
  rcases f with ⟨⟨⟩, c, x, v⟩
  · have hlt : k < x.key := h.2 x (by simp [Path.after])
    have hneg := (strcmp.neg_iff k x.key).mpr hlt
    simp only
    constructor
    · intro _
      omega
    · intro _
      exact if_neg (by omega)
  · have hlt : x.key < k := h.1 x (by simp [Path.before])
    have hpos := (strcmp.pos_iff k x.key).mpr hlt
    simp only
    split_ifs with h1
    · exact iff_of_true rfl (by omega)
    · exact iff_of_false (by simp) (by omega)

/-- The search for an absent key. -/
theorem wp_getNode_absent (hloc : locate TreeCell.key k s.tree [] = (p, .nil)) :
    wp (among s.ptr s.tree.toList) (getNode strcmp k NULL)
      (fun a t => a = (NULL, ptrAt s.ptr (parentOff p)) ∧ t = s.store) s.store := by
  apply TreeRep.wp_getNode s.rep (access_among _ _)
  rw [hloc]
  exact ⟨rfl, rfl⟩

/-- The links that the step leaves at a place. -/
def attached (s : RbSpare) (strcmp : Strcmp) (k : CStr) : Path TreeCell → Links
  | [] => ⟨((linksOf s.ptr s.store).set s.cell.off (NodeField.parent.set NIL)).node, s.cell.off⟩
  | f :: _ => (linksOf s.ptr s.store).attach s.cell.off f.label.off
    (attachSide (strcmp.cmp k f.label.key))

theorem attached_root : (s.attached strcmp k []).node s.cell.off = { s.block with parentOffset := NIL } :=
  set_self (linksOf s.ptr s.store) s.cell.off (NodeField.parent.set NIL)

/-- The step, for the block with any key that it names. -/
theorem wp_attach (hy : Cells s.ptr s.store.db s.alloc (y :: s.tree.toList)) (ho : y.off = s.cell.off)
    (hp : fill p .nil = s.tree) :
    wp (among s.ptr (y :: s.tree.toList))
      (rbtreeAttach strcmp k (s.ptr + s.cell.off.toNat) (ptrAt s.ptr (parentOff p)))
      (fun _ t => Nodes s.ptr s.alloc (y :: s.tree.toList) (s.attached strcmp k p) t) s.store := by
  have hnodes : Nodes s.ptr s.alloc (y :: s.tree.toList) (linksOf s.ptr s.store) s.store :=
    ⟨hy, fun _ _ => rfl, rfl⟩
  cases p with
  | nil =>
    rw [parentOff, ptrAt_nil, attached, ← ho]
    exact hnodes.wp_attach_root (access_among _ _) List.mem_cons_self fun t ht => ht
  | cons f p =>
    have hf := parent_mem hp
    rw [parentOff, ptrAt_of_ne (s.rep.ne_nil hf), attached, ← ho]
    apply hnodes.wp_attach (access_among _ _) List.mem_cons_self (List.mem_cons_of_mem y hf)
      (ho ▸ cell_ne hf) (s.keyed _ hf) (s.holds.hangs.keyOffset _ hf)
    exact fun t ht => ht

/-- The block as a node with the key that it names. -/
def named (s : RbSpare) (k : CStr) : TreeCell := ⟨s.cell.off, s.block.keyOffset, k, s.block.val, true⟩

theorem named_keyed : ∀ x ∈ s.named k :: s.tree.toList, x.keyed = true := by
  intro x hx
  rcases List.mem_cons.mp hx with rfl | hx
  · rfl
  · exact s.keyed x hx

/-- The block becomes the root. -/
theorem attachOk_root (hloc : locate TreeCell.key k s.tree [] = ([], .nil)) (hp : fill [] .nil = s.tree)
    (hcells : Cells s.ptr s.store.db s.alloc (s.named k :: s.tree.toList))
    (hl : s.block.leftOffset = NIL) (hr : s.block.rightOffset = NIL) : s.AttachOk strcmp k := by
  have hnil : s.tree = .nil := hp.symm
  have hkeyed := @named_keyed s k
  obtain ⟨_, _, l, hget, -, rfl, rfl⟩ := wp_ends (wp_getNode_absent hloc) fun _ h => h
  obtain ⟨_, t, l', hrun, -, ht⟩ := wp_ends (@wp_attach s strcmp k [] (s.named k) hcells rfl hp)
    fun _ h => h
  have hnode : rbNode s.ptr t.db s.cell.off = { s.block with parentOffset := NIL } :=
    (ht.node _ List.mem_cons_self).trans attached_root
  have hroot : t.tree.rootOffset = s.cell.off := ht.root_eq
  have h₁ := ht.toCells
  rw [hnil] at h₁ hkeyed
  refine ⟨_, l, hget, t, l', hrun, ?_, .node .black .nil (s.named k) .nil, hroot, ?_, h₁, hkeyed,
    List.pairwise_singleton _ _, [], s.named k, [], by rw [hnil]; rfl, rfl, rfl, rfl⟩
  · rw [FillsSlot, parentOff, ptrAt_nil, if_pos rfl, s.root, hnil]
    exact ⟨rfl, hroot⟩
  · rw [Hangs, show (s.named k).off = s.cell.off from rfl, hnode]
    exact ⟨s.cells.ne_nil List.mem_cons_self, hl, hr, rfl, trivial, trivial⟩

/-- The block becomes a leaf on the side that the search took. -/
theorem attachOk_below (hloc : locate TreeCell.key k s.tree [] = (f :: p, .nil))
    (hp : fill (f :: p) .nil = s.tree) (haround : Path.Around TreeCell.key k (f :: p))
    (hcells : Cells s.ptr s.store.db s.alloc (s.named k :: s.tree.toList))
    (hcmp : strcmp.cmp k f.label.key ≠ 1) : s.AttachOk strcmp k := by
  have hkeyed := @named_keyed s k
  have hmem {z : TreeCell} (hz : z ∈ pathCells (f :: p)) : z ∈ s.tree.toList := by
    rw [← hp]
    exact mem_fill.mpr (.inl hz)
  have hf := parent_mem hp
  have hne : f.label.off ≠ s.cell.off := cell_ne hf
  obtain ⟨_, _, l, hget, -, rfl, rfl⟩ := wp_ends (wp_getNode_absent hloc) fun _ h => h
  obtain ⟨_, t, l', hrun, -, ht⟩ := wp_ends (@wp_attach s strcmp k (f :: p) (s.named k) hcells rfl hp)
    fun _ h => h
  rw [attached, (attachSide_of_around haround).mpr hcmp] at ht
  have hstands := LinkRep.stands s.rep.toLinkRep
  have hdist := LinkRep.distinct s.rep.toLinkRep
  rw [← hp] at hstands hdist
  have hf₀ := (stands_fill.mp hstands).1.2.1
  obtain ⟨hroot, hT⟩ := hstands.attach (y := s.named k) hdist (fun z hz => cell_ne (hmem hz))
    (hcells.ne_nil List.mem_cons_self) rfl rfl
  have htree : s.tree.toList = Path.before (f :: p) ++ Path.after (f :: p) := by
    rw [← hp, toList_fill]
    simp [toList]
  have hlist : (fill (f :: p) (node .red nil (s.named k) nil)).toList =
      Path.before (f :: p) ++ s.named k :: Path.after (f :: p) := by
    rw [toList_fill]
    simp [toList]
  have hperm : (s.named k :: s.tree.toList).Perm (fill (f :: p) (node .red nil (s.named k) nil)).toList := by
    rw [hlist, htree]
    exact List.perm_middle.symm
  refine ⟨_, l, hget, t, l', hrun, ?_, fill (f :: p) (node .red nil (s.named k) nil),
    ht.root_eq.trans hroot, ?_, ht.toCells.perm hperm, fun x hx => hkeyed x (hperm.mem_iff.mpr hx), ?_,
    _, s.named k, _, htree, hlist, rfl, rfl⟩
  · rw [FillsSlot, parentOff, ptrAt_of_ne (s.rep.ne_nil hf), if_neg ((s.cells.owned _
      (List.mem_cons_of_mem _ hf)).ptr_ne _)]
    refine ⟨f.side, ?_, ?_⟩
    · rw [NodeField.get_eq]
      exact (congrArg (childField f.side).get hf₀).trans (childField_crumbNode _ _ _)
    · rw [NodeField.get_eq, ht.node _ (List.mem_cons_of_mem _ hf), attach_parent hne]
      exact childField_get_set _ _ _
  · apply Holds.hangs (hT.congr _)
    exact fun x hx => ht.node x (hperm.mem_iff.mpr hx)
  · apply Sorted.attach (x := s.named k) _ haround
    rw [hp]
    exact s.sorted

theorem attachOk_of (hk : k ∉ s.tree.toList.map TreeCell.key) (h : s.Attachable strcmp k) :
    s.AttachOk strcmp k := by
  obtain ⟨p, hloc, hp, haround⟩ := locate_absent hk
  obtain ⟨hkey, hplace⟩ := h
  rw [hloc] at hplace
  have hcells : Cells s.ptr s.store.db s.alloc (s.named k :: s.tree.toList) :=
    s.cells.rekey rfl fun _ => hkey
  cases p with
  | nil => exact attachOk_root hloc hp hcells hplace.1 hplace.2
  | cons f p => exact attachOk_below hloc hp haround hcells hplace

theorem attached_block (hp : fill p .nil = s.tree) :
    ((s.attached strcmp k p).node s.cell.off).keyOffset = s.block.keyOffset := by
  cases p with
  | nil => rw [attached_root]
  | cons f p =>
    have hf := parent_mem hp
    rw [attached, attach_self (cell_ne hf).symm]
    rfl

/-- The step stores no key, and writes to no byte of one. -/
theorem keyAt_of_run {t : RbStore} {l : List RbEvent} {n parent : ℕ} {M : List TreeCell} {o : PtrOffset}
    (hrun : rbtreeAttach strcmp k n parent s.store = .ok ((), t, l))
    (hl : ∀ e ∈ l, (among s.ptr (s.cell :: s.tree.toList)).emits e)
    (hM : ∀ w ∈ s.cell :: s.tree.toList, ∃ x ∈ M, x.off = w.off)
    (h : KeyAt s.ptr t.db s.alloc M o k) :
    KeyAt s.ptr s.store.db s.alloc (s.cell :: s.tree.toList) o k := by
  have h₁ := h.of_offs hM
  refine ⟨h₁.le, ?_, h₁.still⟩
  show Mem.read _ _ _ = _
  rw [← h₁.holds]
  apply Mem.read_congr
  intro i hi
  rw [Nat.add_assoc s.ptr o.toNat i]
  exact ((touches_rbtreeAttach strcmp k n parent).still hrun hl s.cells (h₁.still i (by omega))).symm

/-- What hangs to the left of a node has a smaller key. -/
theorem key_lt_of_left {H : PtrOffset → RbNode} {T : RbTree TreeCell} {x y : TreeCell} (hT : Hangs H T)
    (hs : Sorted TreeCell.key T) (hn : (T.toList.map TreeCell.off).Nodup) (hx : x ∈ T.toList)
    (hy : y ∈ T.toList) (h0 : y.off ≠ NIL) (hl : (H x.off).leftOffset = y.off) : y.key < x.key := by
  obtain ⟨q, c, l, r, rfl⟩ := exists_fill hx
  have hroot : rootOff l = y.off := (hangs_fill hT).2.1.symm.trans hl
  obtain ⟨z, hz, he⟩ := exists_root (hroot.trans_ne h0)
  have hzT : z ∈ (fill q (node c l x r)).toList := mem_fill.mpr (.inr (by simp [toList, hz]))
  obtain rfl : z = y := List.inj_on_of_nodup_map hn hzT hy (he.trans hroot)
  exact hs.parts.1 z (List.mem_append_right _ hz)

theorem attachable_of (hk : k ∉ s.tree.toList.map TreeCell.key) (h : s.AttachOk strcmp k) :
    s.Attachable strcmp k := by
  obtain ⟨p, hloc, hp, haround⟩ := locate_absent hk
  obtain ⟨parent, l, hget, t, l', hrun, -, T, hroot, hT, hcells, hkeyed, hsorted, a, y, b, hab, hlist,
    hy, hyk⟩ := h
  obtain ⟨-, hpar, -⟩ := wp_elim (wp_getNode_absent hloc) hget
  obtain rfl : parent = ptrAt s.ptr (parentOff p) := congrArg Prod.snd hpar
  obtain ⟨hl, ht⟩ := wp_elim (wp_attach s.cells rfl hp) hrun
  have hyT : y ∈ T.toList := by simp [hlist]
  have hcell : rbNode s.ptr t.db s.cell.off = (s.attached strcmp k p).node s.cell.off :=
    ht.node _ List.mem_cons_self
  have hsub : ∀ w ∈ s.tree.toList, w ∈ T.toList := by
    intro w hw
    rw [hab] at hw
    rw [hlist]
    simp only [List.mem_append, List.mem_cons] at hw ⊢
    tauto
  have hoffs : ∀ w ∈ s.cell :: s.tree.toList, ∃ x ∈ T.toList, x.off = w.off := by
    intro w hw
    rcases List.mem_cons.mp hw with rfl | hw
    · exact ⟨y, hyT, hy⟩
    · exact ⟨w, hsub w hw, rfl⟩
  constructor
  · have hko : y.keyOffset = s.block.keyOffset := by
      rw [← hT.keyOffset y hyT, hy, hcell]
      exact attached_block hp
    rw [← hko]
    apply keyAt_of_run hrun hl hoffs
    rw [← hyk]
    exact hcells.keys y hyT (hkeyed y hyT)
  · rw [hloc]
    cases p with
    | nil =>
      have hnil : s.tree = .nil := hp.symm
      rw [hnil] at hab
      obtain ⟨rfl, rfl⟩ := List.append_eq_nil_iff.mp hab.symm
      rw [attached_root] at hcell
      cases T with
      | nil => exact absurd hyT List.not_mem_nil
      | node c l x r =>
        obtain ⟨rfl, rfl, rfl⟩ := toList_eq_singleton hlist
        obtain ⟨-, hleft, hright, -⟩ := hT
        rw [hy, hcell] at hleft hright
        exact ⟨hleft, hright⟩
    | cons f p =>
      show strcmp.cmp k f.label.key ≠ 1
      intro h1
      have hf := parent_mem hp
      have hleft : (rbNode s.ptr t.db f.label.off).leftOffset = y.off := by
        rw [ht.node _ (List.mem_cons_of_mem _ hf), attached, attach_parent (cell_ne hf), h1, hy]
        rfl
      have hlt := key_lt_of_left hT hsorted hcells.nodup (hsub _ hf) hyT (hcells.ne_nil (s := t) hyT) hleft
      have hgt := (strcmp.pos_iff k f.label.key).mp (by omega)
      rw [hyk] at hlt
      exact lt_asymm hlt hgt

/-- A new node is attached as it should be exactly where the block is attachable. -/
theorem attachOk_iff (s : RbSpare) (strcmp : Strcmp) (k : CStr)
    (hk : k ∉ s.tree.toList.map TreeCell.key) : s.AttachOk strcmp k ↔ s.Attachable strcmp k := by
  constructor
  · exact attachable_of hk
  · exact attachOk_of hk

end RbSpare

/-- Every search tree can be had next to a block that names a key. -/
theorem exists_rbSpare (t : RbTree (CStr × TouchdbVal)) (p : CStr × TouchdbVal) (hs : Sorted Prod.fst t)
    (hk : ∀ q ∈ [p] ++ t.toList, q.1.Fits)
    (hr : 1 + (([p] ++ t.toList).map Planted.cost).sum ≤ touchdbDefaultPoolSize) :
    ∃ s : RbSpare, s.tree.map TreeCell.pair = t ∧
      KeyAt s.ptr s.store.db s.alloc (s.cell :: s.tree.toList) s.block.keyOffset p.1 := by
  obtain ⟨u, s, k, T, M, rfl, hM, hnodes, hroot, hT, hkeyed, hoff⟩ := exists_treeBeside t [p] hk hr
  obtain ⟨y, rfl, rfl⟩ := List.map_eq_singleton_iff.mp hM
  have hs' : Sorted TreeCell.key T := by
    unfold Sorted at hs
    rwa [toList_map, List.map_map] at hs
  have hy : y ∈ [y] ++ T.toList := List.mem_cons_self
  refine ⟨⟨4096, s, u, T, y, hnodes.toCells, hnodes.root_eq.trans hroot, ?_,
    fun x hx => hkeyed x (List.mem_cons_of_mem y hx), hs'⟩, rfl, ?_⟩
  · exact hT.congr fun x hx => hnodes.node x (List.mem_cons_of_mem y hx)
  · have hko : (rbNode 4096 s.db y.off).keyOffset = y.keyOffset := by
      rw [hnodes.node y hy]
      exact hoff y List.mem_cons_self
    show KeyAt 4096 s.db u _ (rbNode 4096 s.db y.off).keyOffset _
    rw [hko]
    exact hnodes.keys y hy (hkeyed y hy)

namespace RbSpare

/-- A greater key than the two of a tree whose root has a left child, and a `strcmp` that says 1 of it. -/
theorem attachOk_fails : ∃ s : RbSpare, s.tree.map TreeCell.pair =
      node .black (node .red nil (letter 97) nil) (letter 98) nil ∧
    KeyAt s.ptr s.store.db s.alloc (s.cell :: s.tree.toList) s.block.keyOffset (letter 99).1 ∧
    (letter 99).1 ∉ s.tree.toList.map TreeCell.key ∧ ¬ s.AttachOk signCmp (letter 99).1 := by
  obtain ⟨s, hs, hkey⟩ := exists_rbSpare (node .black (node .red nil (letter 97) nil) (letter 98) nil)
    (letter 99) (by unfold Sorted; decide) (by decide) (by decide)
  have hmap := hs
  simp only [map_eq_node, map_eq_nil] at hs
  obtain ⟨l, x, r, hT, ⟨_, y, _, rfl, rfl, hy, rfl⟩, hx, rfl⟩ := hs
  have hxk : x.key = (letter 98).1 := congrArg Prod.fst hx
  have hyk : y.key = (letter 97).1 := congrArg Prod.fst hy
  have hk : (letter 99).1 ∉ s.tree.toList.map TreeCell.key := by
    rw [hT]
    simp only [toList, List.nil_append, List.singleton_append, List.map_cons, List.map_nil, hxk, hyk]
    decide
  refine ⟨s, hmap, hkey, hk, fun h => ?_⟩
  have hplace := (attachable_of hk h).2
  rw [hT] at hplace
  have hlt : x.key < (letter 99).1 := by
    rw [hxk]
    decide
  simp only [locate, if_pos hlt] at hplace
  apply hplace
  show signCmp.cmp (letter 99).1 x.key = 1
  exact if_pos hlt

/-- A smaller key than the only one of a tree, in a block that names it. -/
theorem attachOk_smaller : ∃ s : RbSpare, s.tree.map TreeCell.pair = node .black nil (letter 98) nil ∧
    s.AttachOk signCmp (letter 97).1 := by
  obtain ⟨s, hs, hkey⟩ := exists_rbSpare (node .black nil (letter 98) nil) (letter 97)
    (by unfold Sorted; decide) (by decide) (by decide)
  have hmap := hs
  simp only [map_eq_node, map_eq_nil] at hs
  obtain ⟨l, x, r, hT, rfl, hx, rfl⟩ := hs
  have hxk : x.key = (letter 98).1 := congrArg Prod.fst hx
  have hlt : (letter 97).1 < x.key := by
    rw [hxk]
    decide
  refine ⟨s, hmap, (attachOk_iff s signCmp (letter 97).1 ?_).mpr ⟨hkey, ?_⟩⟩
  · rw [hT]
    simp only [toList, List.nil_append, List.map_cons, List.map_nil, hxk]
    decide
  · rw [hT]
    simp only [locate, if_neg (lt_asymm hlt), if_pos hlt]
    show (if x.key < (letter 97).1 then (1 : ℤ) else if (letter 97).1 < x.key then -1 else 0) ≠ 1
    rw [if_neg (lt_asymm hlt), if_pos hlt]
    decide

end RbSpare

end TouchDb
