import TouchDb.Rbtree.Turn

/-! The first half of `touchdb_rbtree_del`: a node is taken out of its tree, and where it has two
children, its successor takes its place. -/
namespace TouchDb
open Prog Layout RbTree

section Pure
variable (k : Links)

/-- The parent of `n` gets another child in its place; it looks on its left first. -/
def Links.relink (par n m : PtrOffset) : Links :=
  if par ≠ NIL then
    if (k.node par).leftOffset = n then k.set par (NodeField.left.set m)
    else k.set par (NodeField.right.set m)
  else { k with root := m }

/-- `child` takes the place of `n` below `par`. -/
def Links.promote (n par child : PtrOffset) : Links :=
  (k.reparent child par).relink par n child

/-- `n` gets the links and the color of `old`. -/
def Links.inherit (old n : PtrOffset) : Links :=
  let k := k.set n (NodeField.parent.set (k.node old).parentOffset)
  let k := k.set n (NodeField.left.set (k.node old).leftOffset)
  let k := k.set n (NodeField.right.set (k.node old).rightOffset)
  k.set n (NodeField.color.set (k.node old).color)

/-- `n` gets the links and the color of `old`, and its place below its parent. -/
def Links.adopt (old n : PtrOffset) : Links :=
  let k := k.inherit old n
  k.relink (k.node old).parentOffset old n

/-- `n` takes the place of `old`. -/
def Links.replace (old n : PtrOffset) : Links :=
  let k := k.adopt old n
  let k := k.reparent (k.node old).leftOffset n
  k.reparent (k.node old).rightOffset n

end Pure

section Records
variable {k : Links} {p : Path TreeCell} {t l r : RbTree TreeCell} {x y : TreeCell} {c : RbColor}
  {n m o par hole : PtrOffset}

theorem relink_ne (hne : o ≠ par) : (k.relink par n m).node o = k.node o := by
  unfold Links.relink
  split_ifs
  · exact set_ne k _ hne
  · exact set_ne k _ hne
  · rfl

/-- Below the parent, it does not matter which side is looked at first. -/
theorem HoldsPath.relink_eq (h : HoldsPath k.node k.root p hole) (hn : hole ≠ NIL)
    (hhole : ∀ y ∈ pathCells p, y.off ≠ hole) (m : PtrOffset) :
    k.relink (parentOff p) hole m = k.replaceChild (parentOff p) hole m := by
  cases p with
  | nil => rfl
  | cons f p =>
    obtain ⟨h0, hf, -, -⟩ := h
    have hs : rootOff f.sibling ≠ hole := by
      cases ht : f.sibling with
      | nil => exact hn.symm
      | node c' l y r =>
        exact hhole y (mem_pathCells_cons.mpr (.inr (.inl (by simp [ht, toList]))))
    have hpar : parentOff (f :: p) ≠ NIL := h0
    unfold Links.relink Links.replaceChild
    rw [if_pos hpar, if_pos hpar]
    rcases f with ⟨⟨⟩, c, x, v⟩
    · have h1 : (k.node x.off).leftOffset = hole := congrArg RbNode.leftOffset hf
      have h2 : (k.node x.off).rightOffset = rootOff v := congrArg RbNode.rightOffset hf
      exact (if_pos h1).trans (if_neg (h2.trans_ne hs)).symm
    · have h1 : (k.node x.off).leftOffset = rootOff v := congrArg RbNode.leftOffset hf
      have h2 : (k.node x.off).rightOffset = hole := congrArg RbNode.rightOffset hf
      exact (if_neg (h1.trans_ne hs)).trans (if_pos h2).symm

theorem HoldsPath.relink (h : HoldsPath k.node k.root p hole) (hn : hole ≠ NIL)
    (hp : ParentApart p) (hhole : ∀ y ∈ pathCells p, y.off ≠ hole) (m : PtrOffset) :
    HoldsPath (k.relink (parentOff p) hole m).node (k.relink (parentOff p) hole m).root p m := by
  rw [h.relink_eq hn hhole]
  exact h.replaceChild hn hp hhole m

/-- A subtree of a node takes its place. -/
theorem HoldsPath.promote (h : HoldsPath k.node k.root p n) (hn : n ≠ NIL) (ht : Holds k.node n t)
    (ha : Distinct (fill p t)) (hap : ∀ y ∈ pathCells p, y.off ≠ n) :
    Stands (k.promote n (parentOff p) (rootOff t)) (fill p t) ∧
      ∀ o, o ≠ parentOff p → o ≠ rootOff t →
        (k.promote n (parentOff p) (rootOff t)).node o = k.node o := by
  have hpath : HoldsPath (k.reparent (rootOff t) (parentOff p)).node
      (k.reparent (rootOff t) (parentOff p)).root p n := by
    rw [reparent_root]
    exact h.congr fun y hy => reparent_ne (ha.path_ne hy)
  refine ⟨stands_fill.mpr ⟨hpath.relink hn ha.parentApart hap _, ?_⟩, fun o h1 h2 => ?_⟩
  · apply ht.reparent _ _ ha.subtree
    · intro h0
      unfold Links.promote
      rw [relink_ne (ha.root_ne h0), reparent_self h0]
    · intro y hy hne
      unfold Links.promote
      rw [relink_ne (ha.tree_ne hy), reparent_ne hne]
  · unfold Links.promote
    rw [relink_ne h1, reparent_ne h2]

theorem inherit_ne (hne : o ≠ m) : (k.inherit n m).node o = k.node o := by
  unfold Links.inherit
  simp only [set_ne _ _ hne]

theorem inherit_self (hne : n ≠ m) : (k.inherit n m).node m =
    { k.node n with keyOffset := (k.node m).keyOffset, val := (k.node m).val } := by
  unfold Links.inherit
  simp only [set_self, set_ne _ _ hne]
  rfl

/-- `y` stands below the parent of `x`, which keeps its own links. -/
theorem HoldsPath.adopt (h : HoldsPath k.node k.root p n)
    (hpar : (k.node n).parentOffset = parentOff p) (hn : n ≠ NIL) (hm : m ≠ NIL) (hnm : n ≠ m)
    (hp : ParentApart p) (hap : ∀ y ∈ pathCells p, y.off ≠ n ∧ y.off ≠ m) :
    HoldsPath (k.adopt n m).node (k.adopt n m).root p m ∧
      (k.adopt n m).node m =
        { k.node n with keyOffset := (k.node m).keyOffset, val := (k.node m).val } ∧
      ∀ o, o ≠ parentOff p → o ≠ m → (k.adopt n m).node o = k.node o := by
  have hpar' : ((k.inherit n m).node n).parentOffset = parentOff p := by
    rw [inherit_ne hnm]
    exact hpar
  have heq : k.adopt n m = (k.inherit n m).relink (parentOff p) n m := by
    unfold Links.adopt
    simp only [hpar']
  have hpath : HoldsPath (k.inherit n m).node (k.inherit n m).root p n :=
    h.congr fun y hy => inherit_ne (hap y hy).2
  have hmp := parentOff_ne h hm fun y hy => (hap y hy).2
  rw [heq]
  refine ⟨hpath.relink hn hp (fun y hy => (hap y hy).1) m, ?_, fun o h1 h2 => ?_⟩
  · rw [relink_ne hmp.symm, inherit_self hnm]
  · rw [relink_ne h1, inherit_ne h2]

/-- `y` takes the place of `x`, with its color. -/
theorem Stands.replace (h : Stands k (fill p (node c l x r)))
    (ha : Distinct (fill p (node c l x r))) (hy0 : y.off ≠ NIL)
    (hy : ∀ z ∈ (fill p (node c l x r)).toList, z.off ≠ y.off)
    (hkey : (k.node y.off).keyOffset = y.keyOffset) (hval : (k.node y.off).val = y.val) :
    ((k.adopt x.off y.off).node x.off).leftOffset = rootOff l ∧
      Stands (k.replace x.off y.off) (fill p (node c l y r)) := by
  have hr : Distinct (fill (⟨.right, c, x, l⟩ :: p) r) := ha
  have hl : Distinct (fill (⟨.left, c, x, r⟩ :: p) l) := ha
  obtain ⟨hpath, hx0, hxn, hlh, hrh⟩ := stands_fill.mp h
  have hxy : x.off ≠ y.off := hy x (mem_fill.mpr (.inr (by simp [toList])))
  have hyl {v : RbTree TreeCell} (hv : ∀ z ∈ v.toList, z ∈ (node c l x r).toList) :
      y.off ≠ rootOff v := by
    by_cases h0 : rootOff v = NIL
    · rw [h0]
      exact hy0
    · obtain ⟨z, hz, he⟩ := exists_root h0
      rw [← he]
      exact (hy z (mem_fill.mpr (.inr (hv z hz)))).symm
  have hyrl := hyl (v := l) fun z hz => by simp [toList, hz]
  have hyrr := hyl (v := r) fun z hz => by simp [toList, hz]
  have hxl : x.off ≠ rootOff l := hl.path_ne (by simp [mem_pathCells_cons])
  have hxp : x.off ≠ parentOff p := ha.tree_ne (by simp [toList])
  obtain ⟨h1, h2, h3⟩ := hpath.adopt (n := x.off) (m := y.off) (congrArg RbNode.parentOffset hxn) hx0
    hy0 hxy ha.parentApart
    fun z hz => ⟨ha.path_ne hz, hy z (mem_fill.mpr (.inl hz))⟩
  have hx₂ : (k.adopt x.off y.off).node x.off = x.node (rootOff l) (rootOff r) (parentOff p) c := by
    rw [h3 _ hxp hxy, hxn]
  have heq : k.replace x.off y.off =
      ((k.adopt x.off y.off).reparent (rootOff l) y.off).reparent (rootOff r) y.off := by
    unfold Links.replace
    simp only [hx₂, TreeCell.node, reparent_ne hxl]
  refine ⟨congrArg RbNode.leftOffset hx₂, ?_⟩
  rw [heq]
  have hother {o : PtrOffset} (h1 : o ≠ rootOff l) (h2 : o ≠ rootOff r) :
      (((k.adopt x.off y.off).reparent (rootOff l) y.off).reparent (rootOff r) y.off).node o =
        (k.adopt x.off y.off).node o := by
    rw [reparent_ne h2, reparent_ne h1]
  have hlr {z : TreeCell} (hz : z ∈ l.toList) : z.off ≠ rootOff r :=
    hr.path_ne (by simp [mem_pathCells_cons, hz])
  have hrl {z : TreeCell} (hz : z ∈ r.toList) : z.off ≠ rootOff l :=
    hl.path_ne (by simp [mem_pathCells_cons, hz])
  have hkeep {z : TreeCell} (hz : z ∈ (node c l x r).toList) :
      (k.adopt x.off y.off).node z.off = k.node z.off :=
    h3 _ (ha.tree_ne hz) (hy z (mem_fill.mpr (.inr hz)))
  have hroots (h0 : rootOff l ≠ NIL) : rootOff l ≠ rootOff r := by
    obtain ⟨z, hz, he⟩ := exists_root h0
    rw [← he]
    exact hlr hz
  apply stands_fill.mpr
  refine ⟨?_, hy0, ?_, ?_, ?_⟩
  · rw [reparent_root, reparent_root]
    exact h1.congr fun z hz => hother (hl.path_ne (by simp [mem_pathCells_cons, hz]))
      (hr.path_ne (by simp [mem_pathCells_cons, hz]))
  · rw [hother hyrl hyrr, h2, hxn, hkey, hval]
    rfl
  · apply hlh.reparent _ _ hl.subtree
    · intro h0
      obtain ⟨z, hz, he⟩ := exists_root h0
      rw [reparent_ne (hroots h0), reparent_self h0, ← he, hkeep (by simp [toList, hz])]
    · intro z hz hne
      rw [hother hne (hlr hz), hkeep (by simp [toList, hz])]
  · apply hrh.reparent _ _ hr.subtree
    · intro h0
      obtain ⟨z, hz, he⟩ := exists_root h0
      rw [reparent_self h0, ← he, reparent_ne (hrl hz), hkeep (by simp [toList, hz])]
    · intro z hz hne
      rw [hother (hrl hz) hne, hkeep (by simp [toList, hz])]

end Records

section Wp
variable {B : ℕ} {u : PoolAlloc} {L : List TreeCell} {k : Links} {s : RbStore}
  {x y : TreeCell} {G : Guard Stop RbEvent} {o v par child : PtrOffset}

namespace Wired

/-- A pointer is that of a node, or not. -/
theorem ptr_eq_iff (h : Wired B u L k s) (hx : x ∈ L) : ptrAt B o = B + x.off.toNat ↔ o = x.off := by
  rw [← ptrAt_of_ne (h.ne_nil hx)]
  exact ⟨ptrAt_inj, fun he => by rw [he]⟩

theorem wp_relink {Q : Unit → RbStore → Prop} (h : Wired B u L k s) (hG : Access G B L)
    (hy : y ∈ L) (hx : x ∈ L) (hv : Known L v)
    (hQ : ∀ t, Wired B u L (k.relink y.off x.off v) t → Q () t) :
    wp G (if ptrAt B (k.node y.off).leftOffset = B + x.off.toNat then
        setField (B + y.off.toNat) RbtreeNode.leftOffset v
      else setField (B + y.off.toNat) RbtreeNode.rightOffset v) Q s := by
  unfold Links.relink at hQ
  rw [if_pos (h.ne_nil hy)] at hQ
  apply wp_ite
  · intro hl
    rw [if_pos ((h.ptr_eq_iff hx).mp hl)] at hQ
    exact h.wp_setLeft hG hy hv hQ
  · intro hl
    rw [if_neg (mt (h.ptr_eq_iff hx).mpr hl)] at hQ
    exact h.wp_setRight hG hy hv hQ

theorem wp_promote {Q : Unit → RbStore → Prop} (h : Wired B u L k s) (hG : Access G B L)
    (hx : x ∈ L) (hpar : Known L par) (hchild : Known L child)
    (hQ : ∀ t, Wired B u L (k.promote x.off par child) t → Q () t) :
    wp G (promote (B + x.off.toNat) (ptrAt B par) (ptrAt B child)) Q s := by
  unfold promote
  apply wp_bind
  -- the child learns its new parent
  have hfirst : wp G (if ptrAt B child ≠ NULL then do
        let offset ← offsetOf (ptrAt B par)
        setField (ptrAt B child) RbtreeNode.parentOffset offset
      else return ()) (fun _ t => Wired B u L (k.reparent child par) t) s := by
    unfold Links.reparent
    by_cases h0 : child = NIL
    · rw [h0, ptrAt_nil, if_neg (by simp), if_neg (by simp)]
      exact wp_pure h
    · obtain ⟨z, hz, rfl⟩ := hchild.mem h0
      rw [ptrAt_of_ne h0, if_pos ((h.owned z hz).ptr_ne B), if_pos h0]
      apply wp_bind
      apply h.wp_offsetOf
      exact h.wp_setParent hG hz hpar fun _ ht => ht
  apply wp_mono hfirst
  intro _ t ht
  unfold Links.promote at hQ
  by_cases h0 : par = NIL
  · unfold Links.relink at hQ
    rw [if_neg (not_not.mpr h0)] at hQ
    rw [h0, ptrAt_nil, if_neg (by simp)]
    apply wp_bind
    apply ht.wp_offsetOf
    apply ht.wp_setRoot
    exact fun t' ht' => hQ t' ⟨ht', ht.closed, hchild⟩
  · obtain ⟨z, hz, rfl⟩ := hpar.mem h0
    rw [ptrAt_of_ne h0, if_pos ((h.owned z hz).ptr_ne B)]
    apply wp_bind
    apply ht.wp_left hG hz
    apply wp_bind
    apply ht.wp_offsetOf
    exact ht.wp_relink hG hz hx hchild hQ

theorem wp_inherit {β : Type} {Q : β → RbStore → Prop} {c : RbM β} (h : Wired B u L k s)
    (hG : Access G B L) (hx : x ∈ L) (hy : y ∈ L)
    (hQ : ∀ t, Wired B u L (k.inherit x.off y.off) t → wp G c Q t) :
    wp G (do
      let o ← getField (B + x.off.toNat) RbtreeNode.parentOffset
      setField (B + y.off.toNat) RbtreeNode.parentOffset o
      let o ← getField (B + x.off.toNat) RbtreeNode.leftOffset
      setField (B + y.off.toNat) RbtreeNode.leftOffset o
      let o ← getField (B + x.off.toNat) RbtreeNode.rightOffset
      setField (B + y.off.toNat) RbtreeNode.rightOffset o
      let d ← getField (B + x.off.toNat) RbtreeNode.color
      setField (B + y.off.toNat) RbtreeNode.color d
      c) Q s := by
  apply wp_bind
  apply h.wp_get hG hx NodeField.parent
  apply wp_bind
  apply h.wp_setParent hG hy (h.closed x hx).parent
  intro s₁ h₁
  apply wp_bind
  apply h₁.wp_get hG hx NodeField.left
  apply wp_bind
  apply h₁.wp_setLeft hG hy (h₁.closed x hx).left
  intro s₂ h₂
  apply wp_bind
  apply h₂.wp_get hG hx NodeField.right
  apply wp_bind
  apply h₂.wp_setRight hG hy (h₂.closed x hx).right
  intro s₃ h₃
  apply wp_bind
  apply h₃.wp_get hG hx NodeField.color
  apply wp_bind
  apply h₃.wp_setColor hG hy
  exact fun t ht => hQ t ht

theorem wp_adopt {β : Type} {Q : β → RbStore → Prop} {c : RbM β}
    (h : Wired B u L (k.inherit x.off y.off) s) (hG : Access G B L) (hx : x ∈ L) (hy : y ∈ L)
    (hQ : ∀ t, Wired B u L (k.adopt x.off y.off) t → wp G c Q t) :
    wp G (do
      let o ← getField (B + x.off.toNat) RbtreeNode.parentOffset
      (if o ≠ NIL then do
        let p ← parentNode (B + x.off.toNat)
        let l ← leftNode p
        let p ← parentNode (B + x.off.toNat)
        if l = B + x.off.toNat then setField p RbtreeNode.leftOffset y.off
        else setField p RbtreeNode.rightOffset y.off
      else setRoot y.off)
      c) Q s := by
  apply wp_bind
  apply h.wp_get hG hx NodeField.parent
  apply wp_bind
  obtain ⟨q, hq⟩ : ∃ q, ((k.inherit x.off y.off).node x.off).parentOffset = q := ⟨_, rfl⟩
  have hpar := (h.closed x hx).parent
  have hval : NodeField.parent.get ((k.inherit x.off y.off).node x.off) = q := hq
  rw [hq] at hpar
  simp only [Links.adopt, hq] at hQ
  rw [hval]
  by_cases h0 : q = NIL
  · rw [if_neg (not_not.mpr h0)]
    simp only [Links.relink, h0, ne_eq, not_true_eq_false, if_false] at hQ
    apply h.wp_setRoot
    exact fun t ht => hQ t ⟨ht, h.closed, .of_mem hy⟩
  · rw [if_pos h0]
    obtain ⟨z, hz, rfl⟩ := hpar.mem h0
    apply wp_bind
    apply h.wp_parent hG hx
    rw [hq, ptrAt_of_ne h0]
    apply wp_bind
    apply h.wp_left hG hz
    apply wp_bind
    apply h.wp_parent hG hx
    rw [hq, ptrAt_of_ne h0]
    exact h.wp_relink hG hz hx (.of_mem hy) hQ

/-- The children of `old` learn their new parent. -/
theorem wp_replace {β : Type} {Q : β → RbStore → Prop} {c : RbM β} (h : Wired B u L (k.adopt x.off y.off) s)
    (hG : Access G B L) (hx : x ∈ L) (hy : y ∈ L)
    (hl : ((k.adopt x.off y.off).node x.off).leftOffset ≠ NIL)
    (hQ : ∀ t, Wired B u L (k.replace x.off y.off) t → wp G c Q t) :
    wp G (do
      let l ← leftNode (B + x.off.toNat)
      setField l RbtreeNode.parentOffset y.off
      let o ← getField (B + x.off.toNat) RbtreeNode.rightOffset
      (if o ≠ NIL then do
        let r ← rightNode (B + x.off.toNat)
        setField r RbtreeNode.parentOffset y.off
      else return ())
      c) Q s := by
  obtain ⟨z, hz, he⟩ := (h.closed x hx).left.mem hl
  apply wp_bind
  apply h.wp_left hG hx
  rw [← he, ptrAt_of_ne (h.ne_nil hz)]
  apply wp_bind
  apply h.wp_setParent hG hz (.of_mem hy)
  intro t ht
  simp only [Links.replace, ← he, reparent_of_ne (h.ne_nil hz)] at hQ
  apply wp_bind
  apply ht.wp_get hG hx NodeField.right
  apply wp_bind
  apply ht.wp_reparent hG (ht.closed x hx).right hy
  · intro R hR
    exact ht.wp_right hG hx hR
  exact hQ

end Wired

end Wp

section Trees
variable {B : ℕ} {u : PoolAlloc} {L : List TreeCell} {s : RbStore} {G : Guard Stop RbEvent}
  {p q : Path TreeCell} {l r v : RbTree TreeCell} {x y : TreeCell} {c d : RbColor}

/-- The records of `L` make up the tree `T`, which need not have all of them. -/
def Standing (B : ℕ) (u : PoolAlloc) (L : List TreeCell) (T : RbTree TreeCell) (t : RbStore) : Prop :=
  ∃ k, Wired B u L k t ∧ Stands k T

namespace LinkRep

theorem wp_leftmost {rounds : ℕ} {Q : ℕ → RbStore → Prop}
    (h : LinkRep B u L (fill p (node c l x r)) s) (hG : Access G B L)
    (hr : l.toList.length < rounds)
    (hQ : Q (ptrAt B (rootOff (descend (node c l x r) p).2)) s) :
    wp G (leftmost rounds (B + x.off.toNat)) Q s := by
  induction l generalizing p c x r rounds with
  | nil =>
    obtain ⟨n, rfl⟩ : ∃ n, rounds = n + 1 := ⟨rounds - 1, by omega⟩
    unfold leftmost
    apply wp_bind
    apply h.wp_left hG
    rw [rootOff_nil, ptrAt_nil, if_neg (by simp), ← h.ptr_eq]
    exact wp_pure hQ
  | node c' l' y m ihl ihm =>
    obtain ⟨n, rfl⟩ : ∃ n, rounds = n + 1 := ⟨rounds - 1, by omega⟩
    simp only [toList, List.length_append, List.length_cons] at hr
    have hl := h.focusLeft
    unfold leftmost
    apply wp_bind
    apply h.wp_left hG
    rw [hl.ptr_eq, if_pos ((h.owned y hl.mem).ptr_ne B)]
    exact ihl hl (by omega) hQ

/-- The node of a place goes, and a subtree of it stays there. -/
theorem wp_promote {Q : Unit → RbStore → Prop} (h : LinkRep B u L (fill p (node c l x r)) s)
    (hG : Access G B L) (hv : v = l ∨ v = r)
    (hQ : ∀ t k, Wired B u L k t → Stands k (fill p v) →
      k.node x.off = (linksOf B s).node x.off → Q () t) :
    wp G (promote (B + x.off.toNat) (ptrAt B (parentOff p)) (ptrAt B (rootOff v))) Q s := by
  obtain ⟨hpath, hx0, hxn, hl, hr⟩ := h.holdsPath
  have hvh : Holds (linksOf B s).node x.off v := by
    rcases hv with rfl | rfl
    · exact hl
    · exact hr
  have hvk : Known L (rootOff v) := by
    rcases hv with rfl | rfl
    · exact h.focusLeft.rootOff_cases
    · exact h.focusRight.rootOff_cases
  have hsub : v.toList.Sublist (node c l x r).toList := by
    rcases hv with rfl | rfl
    · exact List.sublist_append_left _ _
    · exact (List.sublist_cons_self _ _).trans (List.sublist_append_right _ _)
  have hd : Distinct (fill p v) := by
    apply h.distinct.of_sublist
    rw [toList_fill, toList_fill]
    exact (hsub.append_left _).append_right _
  have hxv : x.off ≠ rootOff v := by
    intro he
    obtain ⟨z, hz, hze⟩ := exists_root (he ▸ hx0)
    apply h.distinct.node z
    · rcases hv with rfl | rfl
      · exact .inl hz
      · exact .inr (.inl hz)
    · exact hze.trans he.symm
  obtain ⟨h1, h2⟩ := hpath.promote (n := x.off) hx0 hvh hd fun z hz => h.distinct.path_ne hz
  apply h.wired.wp_promote hG h.mem h.parentOff_cases hvk
  intro t ht
  exact hQ t _ ht h1 (h2 _ (h.distinct.tree_ne (by simp [toList])) hxv)

/-- A node without a left or a right child is taken out. -/
theorem wp_unlinkOne {Q : ℕ × ℕ × TouchdbRbtreeNodeColor → RbStore → Prop}
    (h : LinkRep B u L (fill p (node c l x r)) s) (hG : Access G B L)
    (hv : l = nil ∧ v = r ∨ l ≠ nil ∧ r = nil ∧ v = l)
    (hQ : ∀ t, Standing B u L (fill p v) t →
      Q (ptrAt B (parentOff p), ptrAt B (rootOff v), colorOf c) t) :
    wp G (unlinkOne (B + x.off.toNat)) Q s := by
  have hl : NodeField.left.get ((linksOf B s).node x.off) = rootOff l :=
    congrArg RbNode.leftOffset h.node_eq
  have hr : NodeField.right.get ((linksOf B s).node x.off) = rootOff r :=
    congrArg RbNode.rightOffset h.node_eq
  have hv' : v = l ∨ v = r := by
    rcases hv with ⟨-, hv⟩ | ⟨-, -, hv⟩
    · exact .inr hv
    · exact .inl hv
  have hrest : wp G (do
      let parent ← parentNode (B + x.off.toNat)
      let color ← getField (B + x.off.toNat) RbtreeNode.color
      promote (B + x.off.toNat) parent (ptrAt B (rootOff v))
      return (parent, ptrAt B (rootOff v), color)) Q s := by
    apply wp_bind
    apply h.wp_parent hG
    apply wp_bind
    apply h.wp_color hG
    apply wp_bind
    apply h.wp_promote hG hv'
    intro t k hk hs _
    apply wp_pure
    exact hQ t ⟨k, hk, hs⟩
  unfold unlinkOne
  apply wp_bind
  apply h.nodes.wp_get hG h.mem NodeField.left
  rw [hl]
  apply wp_bind
  rcases hv with ⟨rfl, rfl⟩ | ⟨hl0, rfl, rfl⟩
  · rw [rootOff_nil, if_pos rfl]
    apply h.wp_right hG
    exact hrest
  · have hv0 : rootOff v ≠ NIL := mt (h.focusLeft.distinct.rootOff_eq_nil).mp hl0
    rw [if_neg hv0]
    apply wp_bind
    apply h.nodes.wp_get hG h.mem NodeField.right
    rw [hr, rootOff_nil, if_pos rfl]
    apply h.wp_left hG
    exact hrest

/-- The next node takes the place of a node with two children. -/
theorem wp_unlinkTwo {Q : ℕ × ℕ × TouchdbRbtreeNodeColor → RbStore → Prop}
    (h : LinkRep B u L (fill p (node c l x r)) s) (hG : Access G B L) (hl : l ≠ nil) (hr : r ≠ nil)
    (hq : descend r [] = (q, node d nil y v))
    (hQ : ∀ t, Standing B u L (fill (q ++ ⟨.right, c, y, l⟩ :: p) v) t →
      Q (ptrAt B (parentOff (q ++ ⟨.right, c, x, l⟩ :: p)), ptrAt B (rootOff v), colorOf d) t) :
    wp G (unlinkTwo (B + x.off.toNat)) Q s := by
  have hdesc : descend r (⟨.right, c, x, l⟩ :: p) = (q ++ ⟨.right, c, x, l⟩ :: p, node d nil y v) := by
    have h1 := descend_append r [] (⟨.right, c, x, l⟩ :: p)
    rwa [hq] at h1
  have h' : LinkRep B u L (fill (q ++ ⟨.right, c, x, l⟩ :: p) (node d nil y v)) s := by
    have h1 := fill_descend r (⟨.right, c, x, l⟩ :: p)
    rw [hdesc] at h1
    rw [h1]
    exact h
  have hxL := h.mem
  have hyL := h'.mem
  have hy0 : y.off ≠ NIL := h'.ne_nil hyL
  unfold unlinkTwo
  apply wp_bind
  apply h.wp_right hG
  apply wp_bind
  obtain ⟨d', l', y', r', rfl⟩ : ∃ d' l' y' r', r = node d' l' y' r' := by
    cases r with
    | nil => exact absurd rfl hr
    | node d' l' y' r' => exact ⟨d', l', y', r', rfl⟩
  rw [h.focusRight.ptr_eq]
  apply h.focusRight.wp_leftmost hG
  · exact h.focusRight.focusLeft.length_lt
  rw [hdesc, h'.ptr_eq]
  apply wp_bind
  apply h'.wp_right hG
  apply wp_bind
  apply h'.wp_parent hG
  apply wp_bind
  apply h'.wp_color hG
  apply wp_bind
  apply h'.wp_promote hG (.inr rfl)
  intro t₁ k hk hs hyk
  have hset : fill (q ++ ⟨.right, c, x, l⟩ :: p) v = fill p (node c l x (fill q v)) := by
    rw [fill_append]
    rfl
  have hsub : (fill (q ++ ⟨.right, c, x, l⟩ :: p) v).toList.Sublist
      (fill (q ++ ⟨.right, c, x, l⟩ :: p) (node d nil y v)).toList := by
    rw [toList_fill, toList_fill]
    exact ((List.sublist_cons_self _ _).append_left _).append_right _
  have hapart : ∀ z ∈ (fill (q ++ ⟨.right, c, x, l⟩ :: p) v).toList, z.off ≠ y.off := by
    intro z hz
    apply h'.distinct.node z
    rcases mem_fill.mp hz with hz | hz
    · exact .inr (.inr hz)
    · exact .inr (.inl hz)
  have hd := h'.distinct.of_sublist hsub
  rw [hset] at hs hapart hd
  have hkey : (k.node y.off).keyOffset = y.keyOffset := by
    rw [hyk, h'.node_eq]
    rfl
  have hval : (k.node y.off).val = y.val := by
    rw [hyk, h'.node_eq]
    rfl
  obtain ⟨hleft, hstands⟩ := hs.replace hd hy0 hapart hkey hval
  apply hk.wp_inherit hG hxL hyL
  intro t₂ h₂
  apply wp_bind
  apply h₂.wp_offset hyL
  apply h₂.wp_adopt hG hxL hyL
  intro t₃ h₃
  apply h₃.wp_replace hG hxL hyL
  · rw [hleft]
    exact mt (h.focusLeft.distinct.rootOff_eq_nil).mp hl
  intro t ht
  apply wp_pure
  apply hQ t
  refine ⟨_, ht, ?_⟩
  rw [fill_append]
  exact hstands

end LinkRep

/-- Calls of the pool write headers only. -/
theorem Still.hdr {z : ℕ} {M : List TreeCell} {a : PoolAlloc} {e t : Touchdb} (h : Still a M z)
    (hh : Heap B e a) (hd : HdrOnly e t 0 a.blocks) : t.mem (B + z) = e.mem (B + z) := by
  have hb := hh.base_eq
  apply hd.mem_eq
  intro b hbm
  have hbd := Segregated.blk_bounds hbm
  rcases h with rfl | ⟨o, n, ho, h1, h2, -⟩
  · omega
  · have h3 := Segregated.payload_hdr (a := a) blkHdrSize_pos ho hbm
    omega

/-- A byte that stays still does so among fewer nodes, when the others are released. -/
theorem Still.freed {z : ℕ} {M N : List TreeCell} {a a' : PoolAlloc} (h : Still a M z) (hx : x ∈ M)
    (hf : Freed a x.off.toNat a') (hN : ∀ y ∈ N, y ∈ M) : Still a' N z := by
  rcases h with rfl | ⟨o, n, ho, h1, h2, hne⟩
  · exact .inl rfl
  · refine .inr ⟨o, n, ?_, h1, h2, fun y hy => hne y (hN y hy)⟩
    rw [hf.payload, Function.update_of_ne (hne x hx).symm]
    exact ho

/-- The node that is not in the tree goes back to the pool. -/
theorem wp_release {T : RbTree TreeCell} {Q : Unit → RbStore → Prop} (h : Standing B u L T s)
    (hx : x ∈ L) (hT : ∀ z ∈ T.toList, z ∈ L ∧ z.off ≠ x.off) (hd : Distinct T)
    (hQ : ∀ u' t, LinkRep B u' T.toList T t → Q () t) :
    wp G (onPool (touchdbPoolFree 0 (B + x.off.toNat))) Q s := by
  obtain ⟨k, hk, hroot, hholds⟩ := h
  have hheap := hk.heap
  have hbase := hheap.base_eq
  obtain ⟨n, hn, -⟩ := hk.owned x hx
  obtain ⟨b, hb, hbo, -⟩ := (Segregated.payload_eq_some blkHdrSize_pos).mp hn
  apply wp_onPool
  rw [← hbo, ← hbase, ← Nat.add_assoc]
  apply wp_mono (wp_touchdbPoolFree hheap.toPoolRep hb fun _ _ => trivial)
  intro _ t ⟨hr, hdr⟩
  obtain ⟨hf, hh, hF, -⟩ := hheap.freed hb hr hdr
  rw [hbo] at hf hF
  have hne {z : TreeCell} (hz : z ∈ T.toList) : z.off.toNat ≠ x.off.toNat := fun h1 =>
    (hT z hz).2 (UInt32.toNat_inj.mp h1)
  have hnode {z : TreeCell} (hz : z ∈ T.toList) : rbNode B t z.off = k.node z.off := by
    rw [← hk.node z (hT z hz).1]
    have ho := hk.owned z (hT z hz).1
    have hzT : z.off.toNat ∉ [x.off.toNat] := by simpa using hne hz
    apply RbNode.ext
    all_goals exact hF.field hzT ho (by decide)
  apply hQ (u.free b)
  refine ⟨⟨hh, fun z hz => hf.keep (hk.owned z (hT z hz).1) (hne hz), hd.nodup, fun z hz h0 => ?_⟩, rfl,
    hk.root_eq.trans hroot, hholds.congr fun z hz => hnode hz⟩
  have hkey := hk.keys z (hT z hz).1 h0
  refine ⟨hkey.le, ?_, fun i hi => (hkey.still i hi).freed hx hf fun y hy => (hT y hy).1⟩
  show Mem.read _ _ _ = _
  rw [← hkey.holds]
  apply Mem.read_congr
  intro i hi
  rw [Nat.add_assoc B z.keyOffset.toNat i]
  exact (hkey.still i (by omega)).hdr hheap hdr

end Trees

end TouchDb
