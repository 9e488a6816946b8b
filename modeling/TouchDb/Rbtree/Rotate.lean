import TouchDb.Rbtree.Focus

/-! The rotations, on the links of the nodes and on trees. -/
namespace TouchDb
open Prog Layout RbTree

/-- The offset is `NIL` or that of a node. -/
def Known (L : List TreeCell) (o : PtrOffset) : Prop := o = NIL ∨ ∃ y ∈ L, y.off = o

structure RbNode.Closed (L : List TreeCell) (n : RbNode) : Prop where
  left : Known L n.leftOffset
  right : Known L n.rightOffset
  parent : Known L n.parentOffset

/-- The links lead to nodes only. -/
structure Wired (B : ℕ) (u : PoolAlloc) (L : List TreeCell) (k : Links) (s : RbStore) : Prop
    extends Nodes B u L k s where
  closed : ∀ x ∈ L, (k.node x.off).Closed L
  root_known : Known L k.root

section Pure
variable (k : Links)

def Links.reparent (o par : PtrOffset) : Links :=
  if o ≠ NIL then k.set o (NodeField.parent.set par) else k

def Links.replaceChild (par nOffset offset : PtrOffset) : Links :=
  if par ≠ NIL then
    if (k.node par).rightOffset = nOffset then k.set par (NodeField.right.set offset)
    else k.set par (NodeField.left.set offset)
  else { k with root := offset }

/-- The new upper node `m` takes the place of `n`, and becomes its parent. -/
def Links.hoist (n m : PtrOffset) : Links :=
  let k := k.set m (NodeField.parent.set (k.node n).parentOffset)
  let k := k.replaceChild (k.node n).parentOffset n m
  k.set n (NodeField.parent.set m)

def Links.leftRotate (n : PtrOffset) : Links :=
  let r := (k.node n).rightOffset
  if r ≠ NIL then
    let x := (k.node r).leftOffset
    (((k.set n (NodeField.right.set x)).reparent x n).set r (NodeField.left.set n)).hoist n r
  else k

def Links.rightRotate (n : PtrOffset) : Links :=
  let l := (k.node n).leftOffset
  if l ≠ NIL then
    let x := (k.node l).rightOffset
    (((k.set l (NodeField.right.set x)).reparent x n).set l (NodeField.right.set n)).hoist n l
  else k

end Pure

section Wp
variable {B : ℕ} {u : PoolAlloc} {L : List TreeCell} {k : Links} {s : RbStore}
  {x y : TreeCell} {G : Guard Stop RbEvent} {o v : PtrOffset} {n : RbNode}

theorem Known.of_mem (hx : x ∈ L) : Known L x.off := .inr ⟨x, hx, rfl⟩

theorem Known.mem (h : Known L o) (ho : o ≠ NIL) : ∃ y ∈ L, y.off = o := h.resolve_left ho

namespace RbNode.Closed

theorem setLeft (h : n.Closed L) (hv : Known L v) : (NodeField.left.set v n).Closed L :=
  ⟨hv, h.right, h.parent⟩

theorem setRight (h : n.Closed L) (hv : Known L v) : (NodeField.right.set v n).Closed L :=
  ⟨h.left, hv, h.parent⟩

theorem setParent (h : n.Closed L) (hv : Known L v) : (NodeField.parent.set v n).Closed L :=
  ⟨h.left, h.right, hv⟩

theorem setColor (h : n.Closed L) (c : TouchdbRbtreeNodeColor) : (NodeField.color.set c n).Closed L :=
  ⟨h.left, h.right, h.parent⟩

end RbNode.Closed

namespace Wired

theorem wp_left {Q : ℕ → RbStore → Prop} (h : Wired B u L k s) (hG : Access G B L) (hx : x ∈ L)
    (hQ : Q (ptrAt B (k.node x.off).leftOffset) s) : wp G (leftNode (B + x.off.toNat)) Q s :=
  h.wp_relative hG hx NodeField.left (h.closed x hx).left hQ

theorem wp_right {Q : ℕ → RbStore → Prop} (h : Wired B u L k s) (hG : Access G B L) (hx : x ∈ L)
    (hQ : Q (ptrAt B (k.node x.off).rightOffset) s) : wp G (rightNode (B + x.off.toNat)) Q s :=
  h.wp_relative hG hx NodeField.right (h.closed x hx).right hQ

theorem wp_parent {Q : ℕ → RbStore → Prop} (h : Wired B u L k s) (hG : Access G B L) (hx : x ∈ L)
    (hQ : Q (ptrAt B (k.node x.off).parentOffset) s) :
    wp G (parentNode (B + x.off.toNat)) Q s :=
  h.wp_relative hG hx NodeField.parent (h.closed x hx).parent hQ

/-- A field is set so that the node stays closed. -/
theorem wp_set' {α : Type} [Layout α] {Q : Unit → RbStore → Prop} (h : Wired B u L k s)
    (hG : Access G B L) (hx : x ∈ L) (F : NodeField α) (v : α)
    (hF : (F.set v (k.node x.off)).Closed L)
    (hQ : ∀ t, Wired B u L (k.set x.off (F.set v)) t → Q () t) :
    wp G (setField (B + x.off.toNat) F.field v) Q s := by
  apply h.wp_set hG hx F
  intro t ht
  refine hQ t ⟨ht, fun y hy => ?_, h.root_known⟩
  by_cases he : y.off = x.off
  · rw [he, set_self]
    exact hF
  · rw [set_ne k _ he]
    exact h.closed y hy

theorem wp_setLeft {Q : Unit → RbStore → Prop} (h : Wired B u L k s) (hG : Access G B L)
    (hx : x ∈ L) (hv : Known L v)
    (hQ : ∀ t, Wired B u L (k.set x.off (NodeField.left.set v)) t → Q () t) :
    wp G (setField (B + x.off.toNat) RbtreeNode.leftOffset v) Q s :=
  h.wp_set' hG hx NodeField.left v ((h.closed x hx).setLeft hv) hQ

theorem wp_setRight {Q : Unit → RbStore → Prop} (h : Wired B u L k s) (hG : Access G B L)
    (hx : x ∈ L) (hv : Known L v)
    (hQ : ∀ t, Wired B u L (k.set x.off (NodeField.right.set v)) t → Q () t) :
    wp G (setField (B + x.off.toNat) RbtreeNode.rightOffset v) Q s :=
  h.wp_set' hG hx NodeField.right v ((h.closed x hx).setRight hv) hQ

theorem wp_setParent {Q : Unit → RbStore → Prop} (h : Wired B u L k s) (hG : Access G B L)
    (hx : x ∈ L) (hv : Known L v)
    (hQ : ∀ t, Wired B u L (k.set x.off (NodeField.parent.set v)) t → Q () t) :
    wp G (setField (B + x.off.toNat) RbtreeNode.parentOffset v) Q s :=
  h.wp_set' hG hx NodeField.parent v ((h.closed x hx).setParent hv) hQ

theorem wp_setColor {Q : Unit → RbStore → Prop} {c : TouchdbRbtreeNodeColor}
    (h : Wired B u L k s) (hG : Access G B L) (hx : x ∈ L)
    (hQ : ∀ t, Wired B u L (k.set x.off (NodeField.color.set c)) t → Q () t) :
    wp G (setField (B + x.off.toNat) RbtreeNode.color c) Q s :=
  h.wp_set' hG hx NodeField.color c ((h.closed x hx).setColor c) hQ

theorem wp_replaceChild {Q : Unit → RbStore → Prop} {nOffset : PtrOffset} (h : Wired B u L k s)
    (hG : Access G B L) (ho : Known L o) (hv : Known L v)
    (hQ : ∀ t, Wired B u L (k.replaceChild o nOffset v) t → Q () t) :
    wp G (replaceChild (ptrAt B o) nOffset v) Q s := by
  unfold replaceChild
  unfold Links.replaceChild at hQ
  by_cases h0 : o = NIL
  · rw [h0, ptrAt_nil, if_neg (by simp)]
    rw [if_neg (not_not.mpr h0)] at hQ
    apply h.wp_setRoot
    exact fun t ht => hQ t ⟨ht, h.closed, hv⟩
  · obtain ⟨y, hy, rfl⟩ := ho.mem h0
    rw [ptrAt_of_ne h0, if_pos ((h.owned y hy).ptr_ne B)]
    rw [if_pos h0] at hQ
    apply wp_bind
    apply h.wp_get hG hy NodeField.right
    apply wp_ite
    · intro hr
      rw [if_pos (show (k.node y.off).rightOffset = nOffset from hr)] at hQ
      exact h.wp_setRight hG hy hv hQ
    · intro hr
      rw [if_neg (show ¬ (k.node y.off).rightOffset = nOffset from hr)] at hQ
      exact h.wp_setLeft hG hy hv hQ

/-- The second half of a rotation. -/
theorem wp_hoist {Q : Unit → RbStore → Prop} (h : Wired B u L k s) (hG : Access G B L)
    (hx : x ∈ L) (hy : y ∈ L) (hQ : ∀ t, Wired B u L (k.hoist x.off y.off) t → Q () t) :
    wp G (do
      let p ← getField (B + x.off.toNat) RbtreeNode.parentOffset
      setField (B + y.off.toNat) RbtreeNode.parentOffset p
      let parent ← parentNode (B + x.off.toNat)
      replaceChild parent x.off y.off
      setField (B + x.off.toNat) RbtreeNode.parentOffset y.off) Q s := by
  apply wp_bind
  apply h.wp_get hG hx NodeField.parent
  apply wp_bind
  apply h.wp_setParent hG hy (h.closed x hx).parent
  intro s₁ h₁
  apply wp_bind
  apply h₁.wp_parent hG hx
  apply wp_bind
  apply h₁.wp_replaceChild hG (h₁.closed x hx).parent (.of_mem hy)
  intro s₂ h₂
  apply h₂.wp_setParent hG hx (.of_mem hy)
  exact hQ

/-- The child that changes sides learns its new parent. -/
theorem wp_reparent {Q : Unit → RbStore → Prop} {get : RbM ℕ} (h : Wired B u L k s)
    (hG : Access G B L) (ho : Known L o) (hx : x ∈ L)
    (hget : ∀ R : ℕ → RbStore → Prop, R (ptrAt B o) s → wp G get R s)
    (hQ : ∀ t, Wired B u L (k.reparent o x.off) t → Q () t) :
    wp G (if o ≠ NIL then do
        let l ← get
        setField l RbtreeNode.parentOffset x.off
      else return ()) Q s := by
  unfold Links.reparent at hQ
  by_cases h0 : o = NIL
  · rw [if_neg (not_not.mpr h0)] at hQ ⊢
    exact wp_pure (hQ s h)
  · rw [if_pos h0] at hQ ⊢
    obtain ⟨y, hy, rfl⟩ := ho.mem h0
    apply wp_bind
    apply hget
    rw [ptrAt_of_ne h0]
    exact h.wp_setParent hG hy (.of_mem hx) hQ

theorem wp_offset {Q : PtrOffset → RbStore → Prop} (h : Wired B u L k s) (hx : x ∈ L)
    (hQ : Q x.off s) : wp G (offsetOf (B + x.off.toNat)) Q s := by
  rw [← ptrAt_of_ne (h.ne_nil hx)]
  exact h.wp_offsetOf hQ

theorem wp_leftRotate {Q : Unit → RbStore → Prop} (h : Wired B u L k s) (hG : Access G B L)
    (hx : x ∈ L) (hQ : ∀ t, Wired B u L (k.leftRotate x.off) t → Q () t) :
    wp G (leftRotate (B + x.off.toNat)) Q s := by
  unfold leftRotate
  unfold Links.leftRotate at hQ
  apply wp_bind
  apply h.wp_right hG hx
  by_cases h0 : (k.node x.off).rightOffset = NIL
  · simp only [h0, ne_eq, not_true_eq_false, if_false] at hQ
    rw [h0, ptrAt_nil, if_neg (by simp)]
    exact wp_pure (hQ s h)
  · obtain ⟨y, hy, he⟩ := (h.closed x hx).right.mem h0
    rw [← he] at hQ h0 ⊢
    simp only [ne_eq, h0, not_false_eq_true, if_true] at hQ
    rw [ptrAt_of_ne h0, if_pos ((h.owned y hy).ptr_ne B)]
    apply wp_bind
    apply h.wp_offset hx
    apply wp_bind
    apply h.wp_offset hy
    apply wp_bind
    apply h.wp_get hG hy NodeField.left
    apply wp_bind
    apply h.wp_setRight hG hx (h.closed y hy).left
    intro s₁ h₁
    have hl : ((k.set x.off (NodeField.right.set (k.node y.off).leftOffset)).node y.off).leftOffset =
        (k.node y.off).leftOffset := by
      by_cases hxy : y.off = x.off
      · rw [hxy, set_self]
        rfl
      · rw [set_ne k _ hxy]
    apply wp_bind
    apply h₁.wp_reparent hG (h.closed y hy).left hx
    · intro R hR
      apply h₁.wp_left hG hy
      rw [hl]
      exact hR
    intro s₂ h₂
    apply wp_bind
    apply h₂.wp_setLeft hG hy (.of_mem hx)
    intro s₃ h₃
    exact h₃.wp_hoist hG hx hy hQ

theorem wp_rightRotate {Q : Unit → RbStore → Prop} (h : Wired B u L k s) (hG : Access G B L)
    (hx : x ∈ L) (hQ : ∀ t, Wired B u L (k.rightRotate x.off) t → Q () t) :
    wp G (rightRotate (B + x.off.toNat)) Q s := by
  unfold rightRotate
  unfold Links.rightRotate at hQ
  apply wp_bind
  apply h.wp_left hG hx
  by_cases h0 : (k.node x.off).leftOffset = NIL
  · simp only [h0, ne_eq, not_true_eq_false, if_false] at hQ
    rw [h0, ptrAt_nil, if_neg (by simp)]
    exact wp_pure (hQ s h)
  · obtain ⟨y, hy, he⟩ := (h.closed x hx).left.mem h0
    rw [← he] at hQ h0 ⊢
    simp only [ne_eq, h0, not_false_eq_true, if_true] at hQ
    rw [ptrAt_of_ne h0, if_pos ((h.owned y hy).ptr_ne B)]
    apply wp_bind
    apply h.wp_offset hx
    apply wp_bind
    apply h.wp_offset hy
    apply wp_bind
    apply h.wp_get hG hy NodeField.right
    apply wp_bind
    apply h.wp_setRight hG hy (h.closed y hy).right
    intro s₁ h₁
    apply wp_bind
    apply h₁.wp_reparent hG (h.closed y hy).right hx
    · intro R hR
      apply h₁.wp_right hG hy
      rw [set_self]
      exact hR
    intro s₂ h₂
    apply wp_bind
    apply h₂.wp_setRight hG hy (.of_mem hx)
    intro s₃ h₃
    apply wp_bind
    apply h₃.wp_get hG hx NodeField.parent
    apply wp_bind
    apply h₃.wp_setParent hG hy (h₃.closed x hx).parent
    intro s₄ h₄
    apply wp_bind
    apply h₄.wp_parent hG hx
    apply wp_bind
    apply h₄.wp_parent hG hx
    apply wp_bind
    apply h₄.wp_replaceChild hG (h₄.closed x hx).parent (.of_mem hy)
    intro s₅ h₅
    apply h₅.wp_setParent hG hx (.of_mem hy)
    exact hQ

end Wired

end Wp

section Trees
variable {k : Links} {p : Path TreeCell} {n m o hole par : PtrOffset}

theorem replaceChild_ne (hne : o ≠ par) : (k.replaceChild par n m).node o = k.node o := by
  unfold Links.replaceChild
  split_ifs
  · exact set_ne k _ hne
  · exact set_ne k _ hne
  · rfl

/-- The node above a place takes a new child. -/
theorem HoldsPath.replaceChild (h : HoldsPath k.node k.root p hole) (hn : hole ≠ NIL)
    (hp : ParentApart p) (hhole : ∀ y ∈ pathCells p, y.off ≠ hole) (m : PtrOffset) :
    HoldsPath (k.replaceChild (parentOff p) hole m).node
      (k.replaceChild (parentOff p) hole m).root p m := by
  cases p with
  | nil =>
    unfold Links.replaceChild
    rw [if_neg (by simp [parentOff])]
    rfl
  | cons f p =>
    obtain ⟨h0, hf, hs, hrest⟩ := h
    have hroot : (k.replaceChild f.label.off hole m).root = k.root := by
      unfold Links.replaceChild
      rw [if_pos h0]
      split_ifs <;> rfl
    have hother {y : TreeCell} (hy : y ∈ f.sibling.toList ∨ y ∈ pathCells p) :
        (k.replaceChild f.label.off hole m).node y.off = k.node y.off :=
      replaceChild_ne (hp y hy)
    refine ⟨h0, ?_, hs.congr fun y hy => hother (.inl hy), ?_⟩
    · unfold parentOff Links.replaceChild
      rw [if_pos h0]
      rcases f with ⟨⟨⟩, c, x, t⟩
      · -- the place is on the left, so the right child is the sibling
        have hr : (k.node x.off).rightOffset ≠ hole := by
          rw [hf]
          show rootOff t ≠ hole
          cases t with
          | nil => exact hn.symm
          | node c' l y r =>
            exact hhole y (mem_pathCells_cons.mpr (.inr (.inl (by simp [toList]))))
        rw [if_neg hr, set_self, hf]
        rfl
      · have hr : (k.node x.off).rightOffset = hole := by
          rw [hf]
          rfl
        rw [if_pos hr, set_self, hf]
        rfl
    · show HoldsPath _ (k.replaceChild f.label.off hole m).root p f.label.off
      rw [hroot]
      exact hrest.congr fun y hy => hother (.inr hy)

/-- After a hoist, `m` stands where `n` stood. -/
theorem HoldsPath.hoist (h : HoldsPath k.node k.root p n) (hn : n ≠ NIL) (hp : ParentApart p)
    (hnp : ∀ y ∈ pathCells p, y.off ≠ n) (hmp : ∀ y ∈ pathCells p, y.off ≠ m) (hnm : n ≠ m)
    (hpar : (k.node n).parentOffset = parentOff p) (hpn : parentOff p ≠ n)
    (hpm : parentOff p ≠ m) :
    HoldsPath (k.hoist n m).node (k.hoist n m).root p m ∧
      (k.hoist n m).node m = { k.node m with parentOffset := parentOff p } ∧
      (k.hoist n m).node n = { k.node n with parentOffset := m } ∧
      ∀ o, o ≠ n → o ≠ m → o ≠ parentOff p → (k.hoist n m).node o = k.node o := by
  have h1 : ((k.set m (NodeField.parent.set (parentOff p))).node n).parentOffset = parentOff p := by
    rw [set_ne k _ hnm, hpar]
  have hk : k.hoist n m = ((k.set m (NodeField.parent.set (parentOff p))).replaceChild (parentOff p)
      n m).set n (NodeField.parent.set m) := by
    unfold Links.hoist
    rw [hpar]
    simp only [h1]
  have hpath : HoldsPath (k.set m (NodeField.parent.set (parentOff p))).node
      (k.set m (NodeField.parent.set (parentOff p))).root p n :=
    h.congr fun y hy => set_ne k _ (hmp y hy)
  rw [hk]
  refine ⟨?_, ?_, ?_, fun o hon hom hop => ?_⟩
  · apply (hpath.replaceChild hn hp hnp m).congr
    exact fun y hy => set_ne _ _ (hnp y hy)
  · rw [set_ne _ _ hnm.symm, replaceChild_ne hpm.symm, set_self]
    rfl
  · rw [set_self, replaceChild_ne hpn.symm, set_ne _ _ hnm]
    rfl
  · rw [set_ne _ _ hon, replaceChild_ne hop, set_ne _ _ hom]

theorem reparent_ne (hne : o ≠ m) : (k.reparent m n).node o = k.node o := by
  unfold Links.reparent
  split_ifs
  · exact set_ne k _ hne
  · rfl

/-- A subtree below a new parent. -/
theorem Holds.reparent {t : RbTree TreeCell} {j : Links} (h : Holds k.node par t)
    (hroot : rootOff t ≠ NIL → j.node (rootOff t) = { k.node (rootOff t) with parentOffset := n })
    (ht : ∀ y ∈ t.toList, y.off ≠ rootOff t → j.node y.off = k.node y.off)
    (hd : (t.toList.map TreeCell.off).Nodup) : Holds j.node n t := by
  cases t with
  | nil => trivial
  | node c l x r =>
    obtain ⟨h0, hx, hl, hr⟩ := h
    simp only [toList, List.map_append, List.map_cons, List.nodup_append, List.nodup_cons,
      List.mem_map, List.mem_cons] at hd
    have hlx : ∀ y ∈ l.toList, y.off ≠ x.off := fun y hy =>
      hd.2.2 _ ⟨y, hy, rfl⟩ _ (.inl rfl)
    have hrx : ∀ y ∈ r.toList, y.off ≠ x.off := fun y hy he => hd.2.1.1 ⟨y, hy, he⟩
    refine ⟨h0, ?_, hl.congr fun y hy => ht y (by simp [toList, hy]) (hlx y hy),
      hr.congr fun y hy => ht y (by simp [toList, hy]) (hrx y hy)⟩
    rw [show x.off = rootOff (node c l x r) from rfl, hroot h0]
    show { k.node x.off with parentOffset := n } = _
    rw [hx]
    rfl

end Trees

end TouchDb
