import TouchDb.Rbtree.Turn

/-! `del_fixup`: what it mends, and the cycle that it leaves otherwise. -/
namespace TouchDb
open Prog Layout RbTree

/-- The sibling on the right is black, with the children `a` and `b`: a rotation to the left is enough,
or the sibling becomes red and the place moves up. -/
def mendsBlack {α : Type} (a b : RbTree α) (up : Bool) : Bool :=
  decide (b.color = .red) || decide (a.color = .black) && decide (b.color = .black) && up

/-- Whether `del_fixup` mends a tree that is one black node short at the end of the path, without a
rotation to the right. -/
def mends {α : Type} : Path α → Bool
  | [] => true
  | ⟨.left, _, _, .node .red (.node _ a _ b) _ _⟩ :: _ => mendsBlack a b true
  | ⟨.left, c, _, .node .black a _ b⟩ :: p => mendsBlack a b (decide (c = .red) || mends p)
  | ⟨.right, c, _, .node .black a _ b⟩ :: p =>
    decide (a.color = .black) && decide (b.color = .black) && (decide (c = .red) || mends p)
  | _ => false

/-! The body of the loop in parts. -/
section Parts

/-- From the place where the sibling on the right is black. -/
def delLeftBlack (rounds parent other : ℕ) : RbM ℕ := do
  let near ← leftNode other
  let nearBlack ← isBlack near
  let both ← (if nearBlack then do
    let far ← rightNode other
    isBlack far
  else return false)
  if both then
    setField other RbtreeNode.color .red
    let up ← parentNode parent
    delFixupLoop rounds up parent
  else
    let far ← rightNode other
    let farBlack ← isBlack far
    let other ← (if farBlack then do
      let oLeft ← leftNode other
      (if oLeft ≠ NULL then setField oLeft RbtreeNode.color .black else return ())
      setField other RbtreeNode.color .black
      rightRotate other
      rightNode parent
    else return other)
    let c ← getField parent RbtreeNode.color
    setField other RbtreeNode.color c
    setField parent RbtreeNode.color .black
    let x ← getField other RbtreeNode.rightOffset
    (if x ≠ NIL then do
      let r ← rightNode other
      setField r RbtreeNode.color .black
    else return ())
    leftRotate parent
    rootNode

/-- From the place where the sibling on the left has been made black. -/
def delRightBlack (rounds parent other : ℕ) : RbM ℕ := do
  let far ← leftNode other
  let farBlack ← isBlack far
  let both ← (if farBlack then do
    let near ← rightNode other
    isBlack near
  else return false)
  if both then
    setField other RbtreeNode.color .red
    let up ← parentNode parent
    delFixupLoop rounds up parent
  else
    let far ← leftNode other
    let farBlack ← isBlack far
    let other ← (if farBlack then do
      let oRight ← rightNode other
      (if oRight ≠ NULL then setField oRight RbtreeNode.color .black else return ())
      setField other RbtreeNode.color .black
      leftRotate other
      leftNode parent
    else return other)
    let c ← getField parent RbtreeNode.color
    setField other RbtreeNode.color c
    setField parent RbtreeNode.color .black
    let x ← getField other RbtreeNode.leftOffset
    (if x ≠ NIL then do
      let l ← leftNode other
      setField l RbtreeNode.color .black
    else return ())
    rightRotate parent
    rootNode

theorem delFixupLoop_succ (rounds parent n : ℕ) : delFixupLoop (rounds + 1) parent n = (do
    let black ← isBlack n
    let go ← (if black then do
      let root ← rootNode
      return decide (n ≠ root)
    else return false)
    if go then
      let l ← leftNode parent
      if l = n then
        let other ← rightNode parent
        let c ← getField other RbtreeNode.color
        let other ← (if c = .red then do
          setField other RbtreeNode.color .black
          setField parent RbtreeNode.color .red
          leftRotate parent
          rightNode parent
        else return other)
        delLeftBlack rounds parent other
      else
        let other ← leftNode parent
        let c ← getField other RbtreeNode.color
        let other ← (if c = .red then do
          setField other RbtreeNode.color .black
          setField parent RbtreeNode.color .red
          rightRotate parent
          leftNode parent
        else return other)
        delRightBlack rounds parent other
    else return n) := rfl

end Parts

/-- Only the color of the node at `o` is left to be mended. -/
def Finishing (B : ℕ) (u : PoolAlloc) (L : List TreeCell) (o : ℕ) (t : RbStore) : Prop :=
  ∃ p v, LinkRep B u L (fill p v) t ∧ o = ptrAt B (rootOff v) ∧ (fill p v.blacken).Valid

section Wp
variable {B : ℕ} {u : PoolAlloc} {L : List TreeCell} {k : Links} {s : RbStore}
  {G : Guard Stop RbEvent} {p : Path TreeCell} {v a b r : RbTree TreeCell} {x y z : TreeCell}
  {c e : RbColor} {n m w o : PtrOffset} {Q : ℕ → RbStore → Prop} {rounds : ℕ}

/-- A node that is the left child of its own right child, and is rotated to the left. -/
theorem leftRotate_cycle (hnm : n ≠ m) (hn : n ≠ NIL) (hm : m ≠ NIL)
    (hr : (k.node n).rightOffset = m) (hl : (k.node m).leftOffset = n) :
    k.leftRotate n = (k.set n (NodeField.parent.set m)).set m (NodeField.parent.set n) := by
  rw [leftRotate_eq hr hm hl, reparent_of_ne hn]
  obtain ⟨k₃, hk₃⟩ : ∃ k₃, k₃ = ((k.set n (NodeField.right.set n)).set n
    (NodeField.parent.set n)).set m (NodeField.left.set n) := ⟨_, rfl⟩
  have hn₃ : k₃.node n = { k.node n with rightOffset := n, parentOffset := n } := by
    rw [hk₃, set_ne _ _ hnm, set_self, set_self]
    rfl
  have hm₃ : k₃.node m = k.node m := by
    rw [hk₃, set_self, set_ne _ _ hnm.symm, set_ne _ _ hnm.symm, NodeField.left_set, ← hl]
  have hoist : k₃.hoist n m = ((k₃.set m (NodeField.parent.set n)).set n (NodeField.right.set m)).set n
      (NodeField.parent.set m) := by
    unfold Links.hoist Links.replaceChild
    simp only [hn₃, set_ne _ _ hnm, ne_eq, hn, not_false_eq_true, if_true]
  rw [← hk₃, hoist]
  ext1
  · funext o
    by_cases h1 : o = n
    · rw [h1, set_self, set_self, set_ne _ _ hnm, set_ne _ _ hnm, set_self, hn₃]
      apply RbNode.ext
      case rightOffset => exact hr.symm
      all_goals rfl
    · by_cases h2 : o = m
      · rw [h2, set_ne _ _ hnm.symm, set_ne _ _ hnm.symm, set_self, hm₃, set_self, set_ne _ _ hnm.symm]
      · rw [set_ne _ _ h1, set_ne _ _ h1, set_ne _ _ h2, hk₃, set_ne _ _ h2, set_ne _ _ h1,
          set_ne _ _ h1, set_ne _ _ h2, set_ne _ _ h1]
  · rw [hk₃]
    rfl

/-- The other node of the cycle, rotated to the right. -/
theorem rightRotate_cycle (hnm : n ≠ m) (hn : n ≠ NIL) (hm : m ≠ NIL)
    (hl : (k.node n).leftOffset = m) (hr : (k.node m).rightOffset = n)
    (hp : (k.node n).parentOffset = m) (hne : (k.node n).rightOffset ≠ n) :
    k.rightRotate n = k.set m (NodeField.parent.set n) := by
  rw [rightRotate_eq hl hm hr, reparent_of_ne hn]
  obtain ⟨k₃, hk₃⟩ : ∃ k₃, k₃ = ((k.set m (NodeField.right.set n)).set n
    (NodeField.parent.set n)).set m (NodeField.right.set n) := ⟨_, rfl⟩
  have hn₃ : k₃.node n = { k.node n with parentOffset := n } := by
    rw [hk₃, set_ne _ _ hnm, set_self, set_ne _ _ hnm]
    rfl
  have hm₃ : k₃.node m = k.node m := by
    rw [hk₃, set_self, set_ne _ _ hnm.symm, set_self, NodeField.right_set, NodeField.right_set, ← hr]
  have hoist : k₃.hoist n m = ((k₃.set m (NodeField.parent.set n)).set n (NodeField.left.set m)).set n
      (NodeField.parent.set m) := by
    unfold Links.hoist Links.replaceChild
    simp only [hn₃, set_ne _ _ hnm, ne_eq, hn, not_false_eq_true, if_true, hne, if_false]
  rw [← hk₃, hoist]
  ext1
  · funext o
    by_cases h1 : o = n
    · rw [h1, set_self, set_self, set_ne _ _ hnm, set_ne _ _ hnm, hn₃]
      apply RbNode.ext
      case leftOffset => exact hl.symm
      case parentOffset => exact hp.symm
      all_goals rfl
    · by_cases h2 : o = m
      · rw [h2, set_ne _ _ hnm.symm, set_ne _ _ hnm.symm, set_self, hm₃, set_self]
      · rw [set_ne _ _ h1, set_ne _ _ h1, set_ne _ _ h2, hk₃, set_ne _ _ h2, set_ne _ _ h1,
          set_ne _ _ h2, set_ne _ _ h2]
  · rw [hk₃]
    rfl

/-- A rotation to the right at the end leaves a cycle. -/
theorem LinkRep.wp_rightRotate_looping (h : LinkRep B u L (fill p (node c (node e a y b) x v)) s)
    (hG : Access G B L) (hQ : ∀ o t, Looping B u L o t → Q o t) :
    wp G (do
      rightRotate (B + x.off.toNat)
      rootNode) Q s := by
  apply wp_bind
  apply h.wired.wp_rightRotate hG h.mem
  intro t ht
  exact ht.wp_rootNode_looping (h.stands.rightRotate_cyclic h.distinct) hQ

/-- The far child is red: a rotation to the left gives its color to the short side. -/
theorem LinkRep.wp_borrow
    (h : LinkRep B u L (fill p (node c v x (node .black a y (node .red b z r)))) s) (hG : Access G B L)
    (hQ : ∀ t, LinkRep B u L (fill p (node c (node .black v x a) y (node .black b z r))) t →
      Q (ptrAt B (rootOff (fill p (node c (node .black v x a) y (node .black b z r))))) t) :
    wp G (do
      let c ← getField (B + x.off.toNat) RbtreeNode.color
      setField (B + y.off.toNat) RbtreeNode.color c
      setField (B + x.off.toNat) RbtreeNode.color .black
      let o ← getField (B + y.off.toNat) RbtreeNode.rightOffset
      (if o ≠ NIL then do
        let r ← rightNode (B + y.off.toNat)
        setField r RbtreeNode.color .black
      else return ())
      leftRotate (B + x.off.toNat)
      rootNode) Q s := by
  apply wp_bind
  apply h.wp_color hG
  apply wp_bind
  apply h.focusRight.wp_setColor hG
  intro s₁ h₁
  apply wp_bind
  apply LinkRep.wp_setColor (p := p) (d := .black) h₁ hG
  intro s₂ h₂
  have hy := h₂.focusRight
  have hz := hy.focusRight
  have hr : NodeField.right.get ((linksOf B s₂).node y.off) = z.off :=
    congrArg RbNode.rightOffset hy.node_eq
  apply wp_bind
  apply hy.nodes.wp_get hG hy.mem NodeField.right
  rw [hr, if_pos (hz.ne_nil hz.mem)]
  apply wp_bind
  apply wp_bind
  apply hy.wp_right hG
  rw [hz.ptr_eq]
  apply hz.wp_setColor (d := .black) hG
  intro s₃ h₃
  apply wp_bind
  apply LinkRep.wp_leftRotate (p := p) h₃ hG
  intro t ht
  exact ht.wp_root (hQ t ht)

/-- The near child has come up by a rotation to the right: a rotation to the left does not undo
the cycle. -/
theorem Wired.wp_borrow_looping {d : RbColor} (h : Wired B u L k s) (hG : Access G B L)
    (hx : x ∈ L) (hz : z ∈ L) (hy : y ∈ L)
    (hd : Distinct (fill p (node c v x (node d (node e a z b) y r))))
    (hpath : HoldsPath k.node k.root (⟨.right, c, x, v⟩ :: p) z.off)
    (hzn : k.node z.off = z.node (rootOff a) y.off x.off e)
    (hyl : (k.node y.off).leftOffset = z.off) (hQ : ∀ o t, Looping B u L o t → Q o t) :
    wp G (do
      let c ← getField (B + x.off.toNat) RbtreeNode.color
      setField (B + z.off.toNat) RbtreeNode.color c
      setField (B + x.off.toNat) RbtreeNode.color .black
      let o ← getField (B + z.off.toNat) RbtreeNode.rightOffset
      (if o ≠ NIL then do
        let r ← rightNode (B + z.off.toNat)
        setField r RbtreeNode.color .black
      else return ())
      leftRotate (B + x.off.toNat)
      rootNode) Q s := by
  have hdy : Distinct (fill (⟨.right, c, x, v⟩ :: p) (node d (node e a z b) y r)) := hd
  have hdz : Distinct (fill (⟨.left, d, y, r⟩ :: ⟨.right, c, x, v⟩ :: p) (node e a z b)) := hd
  have hda : Distinct (fill (⟨.left, e, z, b⟩ :: ⟨.left, d, y, r⟩ :: ⟨.right, c, x, v⟩ :: p) a) := hd
  have hxz : x.off ≠ z.off := hdz.path_ne (by simp [mem_pathCells_cons])
  have hyz : y.off ≠ z.off := hdz.path_ne (by simp [mem_pathCells_cons])
  have hxy : x.off ≠ y.off := hdy.path_ne (by simp [mem_pathCells_cons])
  have hx0 : x.off ≠ NIL := h.ne_nil hx
  have hy0 : y.off ≠ NIL := h.ne_nil hy
  have hz0 : z.off ≠ NIL := h.ne_nil hz
  obtain ⟨-, hxn, -, hp⟩ := hpath
  apply wp_bind
  apply h.wp_get hG hx NodeField.color
  apply wp_bind
  apply h.wp_setColor hG hz
  intro s₁ h₁
  apply wp_bind
  apply h₁.wp_setColor hG hx
  intro s₂ h₂
  apply wp_bind
  apply h₂.wp_get hG hz NodeField.right
  have hzr : (k.node z.off).rightOffset = y.off := congrArg RbNode.rightOffset hzn
  have hzl : (k.node z.off).leftOffset = rootOff a := congrArg RbNode.leftOffset hzn
  rw [NodeField.right_get, setColor_right, setColor_right, hzr, if_pos hy0]
  apply wp_bind
  apply wp_bind
  apply h₂.wp_right hG hz
  rw [setColor_right, setColor_right, hzr, ptrAt_of_ne hy0]
  apply h₂.wp_setColor hG hy
  intro s₃ h₃
  have hxr : (k.node x.off).rightOffset = z.off := congrArg RbNode.rightOffset hxn
  have hxp : (k.node x.off).parentOffset = parentOff p := congrArg RbNode.parentOffset hxn
  have hp₁ := hp.set (n := z.off) (fun w hw => hdz.path_ne (by simp [mem_pathCells_cons, hw]))
    (NodeField.color.set (NodeField.color.get (k.node x.off)))
  have hp₂ := hp₁.set (n := x.off) (fun w hw => hd.path_ne hw) (NodeField.color.set .black)
  have hp₃ := hp₂.set (n := y.off) (fun w hw => hdy.path_ne (by simp [mem_pathCells_cons, hw]))
    (NodeField.color.set .black)
  obtain ⟨h1, h2, h3, -, h5⟩ := hp₃.leftRotate (n := x.off) (m := z.off) (z := rootOff a) hx0
    (by simpa using hxr) hz0 (by simpa using hzl) (by simpa using hxp) hd.parentApart
    (fun w hw => ⟨hd.path_ne hw, hdz.path_ne (by simp [mem_pathCells_cons, hw]),
      hda.path_ne (by simp [mem_pathCells_cons, hw])⟩) hxz
    (hda.path_ne (by simp [mem_pathCells_cons])).symm
    (hda.path_ne (by simp [mem_pathCells_cons])).symm
  apply wp_bind
  apply h₃.wp_leftRotate hG hx
  intro t ht
  apply ht.wp_rootNode_looping _ hQ
  refine ⟨z.off, h1.reached, hz0, ?_, ?_⟩
  · rw [h2]
    simpa [hzr] using hy0
  · rw [h2]
    simp only [setColor_right, hzr]
    rw [h5 _ hxy.symm hyz (hda.path_ne (by simp [mem_pathCells_cons])) (hd.tree_ne (by simp [toList]))]
    simpa using hyl

/-- Whether both children of a node are black. -/
theorem LinkRep.wp_bothBlack {rest : Bool → RbM ℕ} (h : LinkRep B u L (fill p (node e a y b)) s)
    (hG : Access G B L)
    (hQ : wp G (rest (decide (a.color = .black) && decide (b.color = .black))) Q s) :
    wp G (do
      let l ← leftNode (B + y.off.toNat)
      let lBlack ← isBlack l
      let both ← (if lBlack then do
        let r ← rightNode (B + y.off.toNat)
        isBlack r
      else return false)
      rest both) Q s := by
  apply wp_bind
  apply h.wp_left hG
  apply wp_bind
  apply h.focusLeft.wp_isBlack hG
  apply wp_bind
  cases hca : decide (a.color = .black) with
  | false =>
    rw [hca] at hQ
    exact wp_pure hQ
  | true =>
    rw [hca] at hQ
    apply wp_bind
    apply h.wp_right hG
    exact h.focusRight.wp_isBlack hG hQ

theorem LinkRep.wp_delLeftBlack
    (h : LinkRep B u L (fill p (node c v x (node .black a y b))) s) (hG : Access G B L)
    (hup : a.color = .black → b.color = .black →
      ∀ t, LinkRep B u L (fill p (node c v x (node .red a y b))) t →
        wp G (delFixupLoop rounds (ptrAt B (parentOff p)) (B + x.off.toNat)) Q t)
    (hfar : ∀ b₁ z b₂, b = node .red b₁ z b₂ →
      ∀ t, LinkRep B u L (fill p (node c (node .black v x a) y (node .black b₁ z b₂))) t →
        Q (ptrAt B (rootOff (fill p (node c (node .black v x a) y (node .black b₁ z b₂))))) t)
    (hnear : a.color = .red → b.color = .black → ∀ o t, Looping B u L o t → Q o t) :
    wp G (delLeftBlack rounds (B + x.off.toNat) (B + y.off.toNat)) Q s := by
  have hy := h.focusRight
  have hb := hy.focusRight
  unfold delLeftBlack
  apply hy.wp_bothBlack hG
  by_cases hcb : b.color = .black
  · by_cases hca : a.color = .black
    · rw [if_pos (by simp [hca, hcb])]
      apply wp_bind
      apply hy.wp_setColor (d := .red) hG
      intro t ht
      apply wp_bind
      apply LinkRep.wp_parent (p := p) ht hG
      exact hup hca hcb t ht
    · rw [if_neg (by simp [hca])]
      apply wp_bind
      apply hy.wp_right hG
      apply wp_bind
      apply hb.wp_isBlack hG
      apply wp_bind
      rw [if_pos (by simp [hcb])]
      obtain ⟨a₁, z, a₂, rfl⟩ := exists_red hca
      have hz := hy.focusLeft
      apply wp_bind
      apply hy.wp_left hG
      rw [hz.ptr_eq]
      apply wp_bind
      rw [if_pos ((h.owned z hz.mem).ptr_ne B)]
      apply hz.wp_setColor (d := .black) hG
      intro s₁ h₁
      have hy₁ := LinkRep.focusUp (f := ⟨.left, .black, y, b⟩) h₁
      apply wp_bind
      apply hy₁.wp_setColor (d := .black) hG
      intro s₂ h₂
      apply wp_bind
      apply LinkRep.wp_rightRotate h₂ hG
      intro t k hk hpath hzn hyn _
      have hxr : (k.node x.off).rightOffset = z.off := congrArg RbNode.rightOffset hpath.2.1
      have hca' : (node .red a₁ z a₂).color = RbColor.red := rfl
      apply hk.wp_right hG h.mem
      rw [hxr, ptrAt_of_ne (h.ne_nil hz.mem)]
      apply hk.wp_borrow_looping hG h.mem hz.mem hy.mem h₂.distinct hpath hzn
      · rw [hyn]
        rfl
      · exact hnear hca' hcb
  · obtain ⟨b₁, z, b₂, rfl⟩ := exists_red hcb
    rw [if_neg (by simp [hcb])]
    apply wp_bind
    apply hy.wp_right hG
    apply wp_bind
    apply hb.wp_isBlack hG
    apply wp_bind
    rw [if_neg (by simp [hcb])]
    apply wp_pure
    exact h.wp_borrow hG (hfar _ _ _ rfl)

/-- The end of the right side: the rotation to the right goes wrong. -/
theorem LinkRep.wp_lend_looping {d : RbColor}
    (h : LinkRep B u L (fill p (node c (node e (node d a z b) y r) x v)) s) (hG : Access G B L)
    (hQ : ∀ o t, Looping B u L o t → Q o t) :
    wp G (do
      let c ← getField (B + x.off.toNat) RbtreeNode.color
      setField (B + y.off.toNat) RbtreeNode.color c
      setField (B + x.off.toNat) RbtreeNode.color .black
      let o ← getField (B + y.off.toNat) RbtreeNode.leftOffset
      (if o ≠ NIL then do
        let l ← leftNode (B + y.off.toNat)
        setField l RbtreeNode.color .black
      else return ())
      rightRotate (B + x.off.toNat)
      rootNode) Q s := by
  apply wp_bind
  apply h.wp_color hG
  apply wp_bind
  apply h.focusLeft.wp_setColor hG
  intro s₁ h₁
  apply wp_bind
  apply LinkRep.wp_setColor (p := p) (d := .black) h₁ hG
  intro s₂ h₂
  have hy := h₂.focusLeft
  have hz := hy.focusLeft
  have hl : NodeField.left.get ((linksOf B s₂).node y.off) = z.off :=
    congrArg RbNode.leftOffset hy.node_eq
  apply wp_bind
  apply hy.nodes.wp_get hG hy.mem NodeField.left
  rw [hl, if_pos (hz.ne_nil hz.mem)]
  apply wp_bind
  apply wp_bind
  apply hy.wp_left hG
  rw [hz.ptr_eq]
  apply hz.wp_setColor (d := .black) hG
  intro s₃ h₃
  exact LinkRep.wp_rightRotate_looping (p := p) h₃ hG hQ

theorem LinkRep.wp_delRightBlack
    (h : LinkRep B u L (fill p (node c (node .black a y b) x v)) s) (hG : Access G B L)
    (hup : a.color = .black → b.color = .black →
      ∀ t, LinkRep B u L (fill p (node c (node .red a y b) x v)) t →
        wp G (delFixupLoop rounds (ptrAt B (parentOff p)) (B + x.off.toNat)) Q t)
    (hred : ¬ (a.color = .black ∧ b.color = .black) → ∀ o t, Looping B u L o t → Q o t) :
    wp G (delRightBlack rounds (B + x.off.toNat) (B + y.off.toNat)) Q s := by
  have hy := h.focusLeft
  have ha := hy.focusLeft
  have hb := hy.focusRight
  unfold delRightBlack
  apply hy.wp_bothBlack hG
  by_cases hca : a.color = .black
  · by_cases hcb : b.color = .black
    · rw [if_pos (by simp [hca, hcb])]
      apply wp_bind
      apply hy.wp_setColor (d := .red) hG
      intro t ht
      apply wp_bind
      apply LinkRep.wp_parent (p := p) ht hG
      exact hup hca hcb t ht
    · obtain ⟨b₁, z, b₂, rfl⟩ := exists_red hcb
      rw [if_neg (by simp [hcb])]
      apply wp_bind
      apply hy.wp_left hG
      apply wp_bind
      apply ha.wp_isBlack hG
      apply wp_bind
      rw [if_pos (by simp [hca])]
      apply wp_bind
      apply hy.wp_right hG
      rw [hb.ptr_eq]
      apply wp_bind
      rw [if_pos ((h.owned z hb.mem).ptr_ne B)]
      apply hb.wp_setColor (d := .black) hG
      intro s₁ h₁
      have hy₁ := LinkRep.focusUp (f := ⟨.right, .black, y, a⟩) h₁
      apply wp_bind
      apply hy₁.wp_setColor (d := .black) hG
      intro s₂ h₂
      apply wp_bind
      apply LinkRep.wp_leftRotate h₂ hG
      intro s₃ h₃
      have hx₃ := LinkRep.focusUp (f := ⟨.left, c, x, v⟩) h₃
      apply hx₃.wp_left hG
      rw [h₃.ptr_eq]
      exact hx₃.wp_lend_looping hG (hred (by simp [hcb]))
  · obtain ⟨a₁, z, a₂, rfl⟩ := exists_red hca
    rw [if_neg (by simp [hca])]
    apply wp_bind
    apply hy.wp_left hG
    apply wp_bind
    apply ha.wp_isBlack hG
    apply wp_bind
    rw [if_neg (by simp [hca])]
    apply wp_pure
    exact h.wp_lend_looping hG (hred (by simp [hca]))

/-- The sibling on the left was red: the nodes of the cycle go round each other. -/
theorem Wired.wp_delRightBlack_looping (h : Wired B u L k s) (hG : Access G B L) (hx : x ∈ L)
    (hy : y ∈ L) (hz : z ∈ L) (hxy : x.off ≠ y.off)
    (hpath : HoldsPath k.node k.root p y.off)
    (hap : ∀ w ∈ pathCells p, w.off ≠ x.off ∧ w.off ≠ y.off ∧ w.off ≠ z.off)
    (hyl : (k.node y.off).leftOffset = z.off) (hyr : (k.node y.off).rightOffset = x.off)
    (hxl : (k.node x.off).leftOffset = y.off) (hxr : (k.node x.off).rightOffset ≠ x.off)
    (hxc : (k.node x.off).color = .red) (hzc : (k.node z.off).color = .black)
    (hQ : ∀ o t, Looping B u L o t → Q o t) :
    wp G (delRightBlack rounds (B + x.off.toNat) (B + y.off.toNat)) Q s := by
  have hx0 : x.off ≠ NIL := h.ne_nil hx
  have hy0 : y.off ≠ NIL := h.ne_nil hy
  have hz0 : z.off ≠ NIL := h.ne_nil hz
  have hxN := (h.owned x hx).ptr_ne B
  unfold delRightBlack
  apply wp_bind
  apply h.wp_left hG hy
  rw [hyl, ptrAt_of_ne hz0]
  apply wp_bind
  apply h.wp_isBlack hG hz
  apply wp_bind
  rw [if_pos (by simp [hzc])]
  apply wp_bind
  apply h.wp_right hG hy
  rw [hyr, ptrAt_of_ne hx0]
  apply h.wp_isBlack hG hx
  rw [if_neg (by simp [hxc])]
  apply wp_bind
  apply h.wp_left hG hy
  rw [hyl, ptrAt_of_ne hz0]
  apply wp_bind
  apply h.wp_isBlack hG hz
  apply wp_bind
  rw [if_pos (by simp [hzc])]
  apply wp_bind
  apply h.wp_right hG hy
  rw [hyr, ptrAt_of_ne hx0]
  apply wp_bind
  rw [if_pos hxN]
  apply h.wp_setColor hG hx
  intro s₁ h₁
  apply wp_bind
  apply h₁.wp_setColor hG hy
  intro s₂ h₂
  apply wp_bind
  apply h₂.wp_leftRotate hG hy
  rw [leftRotate_cycle hxy.symm hy0 hx0 (by simpa using hyr) (by simpa using hxl)]
  intro s₃ h₃
  apply h₃.wp_left hG hx
  simp only [setParent_left, setColor_left, hxl, ptrAt_of_ne hy0]
  apply wp_bind
  apply h₃.wp_get hG hx NodeField.color
  apply wp_bind
  apply h₃.wp_setColor hG hy
  intro s₄ h₄
  apply wp_bind
  apply h₄.wp_setColor hG hx
  intro s₅ h₅
  apply wp_bind
  apply h₅.wp_get hG hy NodeField.left
  simp only [NodeField.left_get, setParent_left, setColor_left, hyl]
  rw [if_pos hz0]
  apply wp_bind
  apply wp_bind
  apply h₅.wp_left hG hy
  simp only [setParent_left, setColor_left, hyl]
  rw [ptrAt_of_ne hz0]
  apply h₅.wp_setColor hG hz
  intro s₆ h₆
  apply wp_bind
  apply h₆.wp_rightRotate hG hx
  rw [rightRotate_cycle hxy hx0 hy0 (by simpa using hxl) (by simpa using hyr)
    (by rw [setColor_parent, setColor_parent, setColor_parent, set_self]; rfl) (by simpa using hxr)]
  intro t ht
  apply ht.wp_rootNode_looping _ hQ
  refine ⟨y.off, HoldsPath.reached (p := p) ?_, hy0, ?_, ?_⟩
  · apply hpath.congr
    intro w hw
    obtain ⟨h1, h2, h3⟩ := hap w hw
    simp only [set_ne _ _ h1, set_ne _ _ h2, set_ne _ _ h3]
  · simp only [setParent_right, setColor_right, hyr]
    exact hx0
  · simp only [setParent_right, setParent_left, setColor_right, setColor_left, hyr, hxl]

/-- The root of a tree lies above any place in it but the top. -/
theorem rootOff_fill (f : Crumb TreeCell) (p : Path TreeCell) (v : RbTree TreeCell) :
    ∃ y ∈ pathCells (f :: p), rootOff (fill (f :: p) v) = y.off := by
  induction p generalizing f v with
  | nil => exact ⟨f.label, label_mem_pathCells, rootOff_crumb f v⟩
  | cons g p ih =>
    obtain ⟨y, hy, he⟩ := ih g (f.fill v)
    exact ⟨y, mem_pathCells_cons.mpr (.inr (.inr hy)), he⟩

/-- The place is one black node short; its own root may be red. -/
structure Short (p : Path TreeCell) (v : RbTree TreeCell) (n : ℕ) : Prop where
  fits : Fits p (n + 1)
  black : v.color = .black → v.Balanced n
  red : v.color = .red → v.blacken.Balanced (n + 1)

theorem Short.finishing {n : ℕ} (hs : Short p v n) (h : LinkRep B u L (fill p v) s)
    (hc : v.color = .red) : Finishing B u L (ptrAt B (rootOff v)) s := by
  refine ⟨p, v, h, rfl, hs.fits.valid (hs.red hc) ?_⟩
  rw [color_blacken]
  exact allows_black p

/-- The loop is left at a red node, whatever is above it. -/
theorem LinkRep.wp_delFixupLoop_red {par : ℕ} (h : LinkRep B u L (fill p v) s) (hG : Access G B L)
    (hc : v.color = .red) (hQ : Q (ptrAt B (rootOff v)) s) :
    wp G (delFixupLoop (rounds + 1) par (ptrAt B (rootOff v))) Q s := by
  rw [delFixupLoop_succ]
  apply wp_bind
  apply h.wp_isBlack hG
  apply wp_bind
  rw [if_neg (by simp [hc])]
  apply wp_pure
  rw [if_neg (by simp)]
  exact wp_pure hQ

/-- The sibling on the right is red: a rotation to the left brings a black one there. -/
theorem LinkRep.wp_turnLeft {rest : ℕ → RbM ℕ}
    (h : LinkRep B u L (fill p (node .black v x (node .red (node e a z b) y r))) s)
    (hG : Access G B L)
    (hQ : ∀ t, LinkRep B u L (fill (⟨.left, .black, y, r⟩ :: p) (node .red v x (node e a z b))) t →
      wp G (rest (B + z.off.toNat)) Q t) :
    wp G (do
      setField (B + y.off.toNat) RbtreeNode.color .black
      setField (B + x.off.toNat) RbtreeNode.color .red
      leftRotate (B + x.off.toNat)
      rightNode (B + x.off.toNat)) (fun other t => wp G (rest other) Q t) s := by
  apply wp_bind
  apply h.focusRight.wp_setColor (d := .black) hG
  intro s₁ h₁
  apply wp_bind
  apply LinkRep.wp_setColor (p := p) (d := .red) h₁ hG
  intro s₂ h₂
  apply wp_bind
  apply h₂.wp_leftRotate hG
  intro s₃ h₃
  have hx := h₃.focusLeft
  apply hx.wp_right hG
  rw [hx.focusRight.ptr_eq]
  exact hQ _ hx

/-- The sibling on the left is red: the rotation to the right leaves a cycle. -/
theorem LinkRep.wp_turnRight_looping
    (h : LinkRep B u L (fill p (node .black (node .red (node .black a z b) y r) x v)) s)
    (hG : Access G B L) (hQ : ∀ o t, Looping B u L o t → Q o t) :
    wp G (do
      setField (B + y.off.toNat) RbtreeNode.color .black
      setField (B + x.off.toNat) RbtreeNode.color .red
      rightRotate (B + x.off.toNat)
      leftNode (B + x.off.toNat))
      (fun other t => wp G (delRightBlack rounds (B + x.off.toNat) other) Q t) s := by
  apply wp_bind
  apply h.focusLeft.wp_setColor (d := .black) hG
  intro s₁ h₁
  apply wp_bind
  apply LinkRep.wp_setColor (p := p) (d := .red) h₁ hG
  intro s₂ h₂
  have hd := h₂.distinct
  have hy := h₂.focusLeft
  have hz := hy.focusLeft
  have hy0 : y.off ≠ NIL := h₂.ne_nil hy.mem
  apply wp_bind
  apply h₂.wp_rightRotate hG
  intro t k hk hpath hyn hxn hrest
  have hxl : (k.node x.off).leftOffset = y.off := congrArg RbNode.leftOffset hxn
  apply hk.wp_left hG h₂.mem
  rw [hxl, ptrAt_of_ne hy0]
  apply hk.wp_delRightBlack_looping hG h₂.mem hy.mem hz.mem (hy.distinct.path_ne
    (by simp [mem_pathCells_cons])) hpath (fun w hw => ⟨hd.path_ne hw,
      hy.distinct.path_ne (by simp [mem_pathCells_cons, hw]),
      hz.distinct.path_ne (by simp [mem_pathCells_cons, hw])⟩) (congrArg RbNode.leftOffset hyn)
    (congrArg RbNode.rightOffset hyn) hxl
  · rw [show (k.node x.off).rightOffset = rootOff v from congrArg RbNode.rightOffset hxn]
    exact (h₂.focusRight.distinct.path_ne (by simp [mem_pathCells_cons])).symm
  · exact congrArg RbNode.color hxn
  · rw [hrest z (.inl (by simp [toList])), hz.node_eq]
    rfl
  · exact hQ

/-- The sibling gives up its black node, and the place moves up. -/
theorem Short.up {n : ℕ} {f : Crumb TreeCell} (hs : Short (f :: p) v n) (hc : v.color = .black)
    (hf : f.sibling = node .black a y b) (ha : a.color = .black) (hb : b.color = .black) :
    ∃ m, Short p (Crumb.fill ⟨f.side, f.color, f.label, node .red a y b⟩ v) m := by
  have hsib := hs.fits.sibling
  rw [hf] at hsib
  obtain ⟨i, hi, han, hbn⟩ := Balanced.black_iff.mp hsib
  obtain rfl : n = i := Nat.succ_injective hi
  have hred : (node .red a y b).Balanced n := .red han hbn ha hb
  have hv := hs.black hc
  rcases f with ⟨d, c, x, t⟩
  cases c with
  | red =>
    refine ⟨n, ?_, fun h0 => ?_, fun _ => ?_⟩
    · cases hs.fits with
      | red _ _ _ hp _ _ => exact hp
      | black h0 _ _ => cases h0
    · rw [Crumb.color_fill] at h0
      cases h0
    · cases d with
      | left => exact .black hv hred
      | right => exact .black hred hv
  | black =>
    refine ⟨n + 1, ?_, fun _ => ?_, fun h0 => ?_⟩
    · cases hs.fits with
      | red h0 _ _ _ _ _ => cases h0
      | black _ _ hp => exact hp
    · cases d with
      | left => exact .black hv hred
      | right => exact .black hred hv
    · rw [Crumb.color_fill] at h0
      cases h0

/-- The root of a valid tree is black already. -/
theorem LinkRep.finishing {T : RbTree TreeCell} (h : LinkRep B u L T s) (hT : T.Valid) :
    Finishing B u L (ptrAt B (rootOff T)) s := by
  refine ⟨[], T, h, rfl, ?_⟩
  rw [blacken_of_black hT.1]
  exact hT

/-- The far child of a black sibling is red: the tree is mended with one rotation. -/
theorem Short.borrowed {n : ℕ} {b₁ b₂ t : RbTree TreeCell} {w : TreeCell}
    (hs : Short (⟨.left, c, w, t⟩ :: p) v n) (hc : v.color = .black) (ha : a.Balanced n)
    (hb : (node .red b₁ z b₂).Balanced n) :
    (fill p (node c (node .black v x a) y (node .black b₁ z b₂))).Valid := by
  have hb' : (node .black b₁ z b₂).Balanced (n + 1) := hb.blacken_red rfl
  have hf : Fits (⟨.left, c, y, node .black b₁ z b₂⟩ :: p) (n + 1) := hs.fits.swap hb' rfl
  exact hf.valid (t := node .black v x a) (.black (hs.black hc) ha) (allows_black _)

/-- The loop from the next place up. -/
def Recurs (B : ℕ) (u : PoolAlloc) (L : List TreeCell) (G : Guard Stop RbEvent) (p : Path TreeCell)
    (rounds : ℕ) (Q : ℕ → RbStore → Prop) : Prop :=
  ∀ v n t, LinkRep B u L (fill p v) t → Short p v n →
    (v.color = .red ∨ mends p = true → ∀ o t, Finishing B u L o t → Q o t) →
    (¬ (v.color = .red ∨ mends p = true) → ∀ o t, Looping B u L o t → Q o t) →
    wp G (delFixupLoop rounds (ptrAt B (parentOff p)) (ptrAt B (rootOff v))) Q t

section Step
variable {n : ℕ} {t : RbTree TreeCell}

/-- The place is a left child. -/
theorem LinkRep.wp_delLeft (h : LinkRep B u L (fill p (node c v x t)) s) (hG : Access G B L)
    (hs : Short (⟨.left, c, x, t⟩ :: p) v n) (hc : v.color = .black) (hr : 0 < rounds)
    (hrec : Recurs B u L G p rounds Q)
    (hyes : mends (⟨.left, c, x, t⟩ :: p) = true → ∀ o t, Finishing B u L o t → Q o t)
    (hno : ¬ mends (⟨.left, c, x, t⟩ :: p) = true → ∀ o t, Looping B u L o t → Q o t) :
    wp G (do
      let other ← rightNode (B + x.off.toNat)
      let c ← getField other RbtreeNode.color
      let other ← (if c = .red then do
        setField other RbtreeNode.color .black
        setField (B + x.off.toNat) RbtreeNode.color .red
        leftRotate (B + x.off.toNat)
        rightNode (B + x.off.toNat)
      else return other)
      delLeftBlack rounds (B + x.off.toNat) other) Q s := by
  obtain ⟨e, a, y, b, rfl⟩ := hs.fits.sibling.ne_nil
  have hsb := hs.fits.sibling
  have hy := h.focusRight
  apply wp_bind
  apply h.wp_right hG
  rw [hy.ptr_eq]
  apply wp_bind
  apply hy.wp_color hG
  apply wp_bind
  cases e with
  | red =>
    obtain ⟨hcb, hp⟩ := hs.fits.of_red rfl
    obtain rfl : c = .black := hcb
    obtain ⟨han, hbn, ha, hb⟩ := Balanced.red_iff.mp hsb
    obtain ⟨e, a₁, z, a₂, rfl⟩ := han.ne_nil
    obtain rfl : e = .black := ha
    obtain ⟨i, hi, han₁, han₂⟩ := Balanced.black_iff.mp han
    obtain rfl : n = i := Nat.succ_injective hi
    obtain ⟨r, rfl⟩ : ∃ r, rounds = r + 1 := ⟨rounds - 1, by omega⟩
    have hfit : Fits (⟨.left, .black, y, b⟩ :: p) (n + 1) := .black rfl hbn hp
    rw [colorOf_red, if_pos rfl]
    apply h.wp_turnLeft hG
    intro t₁ h₁
    apply h₁.wp_delLeftBlack hG
    · intro hca hcb t₂ h₂
      have hm : mends (⟨.left, .black, x, node .red (node .black a₁ z a₂) y b⟩ :: p) = true := by
        simp [mends, mendsBlack, hca, hcb]
      have hs₂ : Short (⟨.left, .black, y, b⟩ :: p) (node .red v x (node .red a₁ z a₂)) n :=
        ⟨hfit, (fun h0 => nomatch h0), fun _ => .black (hs.black hc) (.red han₁ han₂ hca hcb)⟩
      have hx₂ : ptrAt B (rootOff (node .red v x (node .red a₁ z a₂))) = B + x.off.toNat := h₂.ptr_eq
      rw [← hx₂]
      exact h₂.wp_delFixupLoop_red hG rfl (hyes hm _ _ (hs₂.finishing h₂ rfl))
    · intro b₁ w b₂ hb₂ t₂ h₂
      subst hb₂
      have hm : mends (⟨.left, .black, x, node .red (node .black a₁ z (node .red b₁ w b₂)) y b⟩ :: p) =
          true := by simp [mends, mendsBlack, RbTree.color]
      apply hyes hm
      have hs₂ : Short (⟨.left, .red, x, node .black a₁ z (node .red b₁ w b₂)⟩ ::
          ⟨.left, .black, y, b⟩ :: p) v n :=
        ⟨.red rfl (.black han₁ han₂) rfl hfit (by simp) rfl, hs.black, hs.red⟩
      exact h₂.finishing (hs₂.borrowed hc han₁ han₂)
    · intro hca hcb
      apply hno
      simp [mends, mendsBlack, hca, hcb]
  | black =>
    obtain ⟨i, hi, han, hbn⟩ := Balanced.black_iff.mp hsb
    obtain rfl : n = i := Nat.succ_injective hi
    rw [if_neg (by simp [colorOf])]
    apply wp_pure
    apply h.wp_delLeftBlack hG
    · intro ha hb t ht
      obtain ⟨m, hm⟩ := hs.up hc rfl ha hb
      have hx : ptrAt B (rootOff (node c v x (node .red a y b))) = B + x.off.toNat :=
        LinkRep.ptr_eq (p := p) ht
      have hiff : mends (⟨.left, c, x, node .black a y b⟩ :: p) = true ↔ c = .red ∨ mends p = true := by
        simp [mends, mendsBlack, ha, hb]
      rw [← hx]
      apply hrec _ m t ht hm
      · exact fun h1 => hyes (hiff.mpr h1)
      · exact fun h1 => hno (mt hiff.mp h1)
    · intro b₁ z b₂ hb t ht
      subst hb
      apply hyes (by simp [mends, mendsBlack, RbTree.color])
      exact ht.finishing (hs.borrowed hc han hbn)
    · intro ha hb
      apply hno
      simp [mends, mendsBlack, ha, hb]

/-- The place is a right child. -/
theorem LinkRep.wp_delRight (h : LinkRep B u L (fill p (node c t x v)) s) (hG : Access G B L)
    (hs : Short (⟨.right, c, x, t⟩ :: p) v n) (hc : v.color = .black)
    (hrec : Recurs B u L G p rounds Q)
    (hyes : mends (⟨.right, c, x, t⟩ :: p) = true → ∀ o t, Finishing B u L o t → Q o t)
    (hno : ¬ mends (⟨.right, c, x, t⟩ :: p) = true → ∀ o t, Looping B u L o t → Q o t) :
    wp G (do
      let other ← leftNode (B + x.off.toNat)
      let c ← getField other RbtreeNode.color
      let other ← (if c = .red then do
        setField other RbtreeNode.color .black
        setField (B + x.off.toNat) RbtreeNode.color .red
        rightRotate (B + x.off.toNat)
        leftNode (B + x.off.toNat)
      else return other)
      delRightBlack rounds (B + x.off.toNat) other) Q s := by
  obtain ⟨e, a, y, b, rfl⟩ := hs.fits.sibling.ne_nil
  have hsb := hs.fits.sibling
  have hy := h.focusLeft
  apply wp_bind
  apply h.wp_left hG
  rw [hy.ptr_eq]
  apply wp_bind
  apply hy.wp_color hG
  apply wp_bind
  cases e with
  | red =>
    obtain ⟨hcb, -⟩ := hs.fits.of_red rfl
    obtain rfl : c = .black := hcb
    obtain ⟨han, -, ha, -⟩ := Balanced.red_iff.mp hsb
    obtain ⟨e, a₁, z, a₂, rfl⟩ := han.ne_nil
    obtain rfl : e = .black := ha
    rw [colorOf_red, if_pos rfl]
    exact h.wp_turnRight_looping hG (hno (by simp [mends]))
  | black =>
    rw [if_neg (by simp [colorOf])]
    apply wp_pure
    apply h.wp_delRightBlack hG
    · intro ha hb t ht
      obtain ⟨m, hm⟩ := hs.up hc rfl ha hb
      have hx : ptrAt B (rootOff (node c (node .red a y b) x v)) = B + x.off.toNat :=
        LinkRep.ptr_eq (p := p) ht
      have hiff : mends (⟨.right, c, x, node .black a y b⟩ :: p) = true ↔ c = .red ∨ mends p = true := by
        simp [mends, ha, hb]
      rw [← hx]
      apply hrec _ m t ht hm
      · exact fun h1 => hyes (hiff.mpr h1)
      · exact fun h1 => hno (mt hiff.mp h1)
    · intro hab
      apply hno
      simp only [mends, Bool.and_eq_true, decide_eq_true_eq]
      tauto

end Step

/-- The loop ends with a tree that it has mended, or with a cycle. -/
theorem LinkRep.wp_delFixupLoop {n : ℕ} (h : LinkRep B u L (fill p v) s) (hG : Access G B L)
    (hs : Short p v n) (hr : p.length < rounds)
    (hyes : v.color = .red ∨ mends p = true → ∀ o t, Finishing B u L o t → Q o t)
    (hno : ¬ (v.color = .red ∨ mends p = true) → ∀ o t, Looping B u L o t → Q o t) :
    wp G (delFixupLoop rounds (ptrAt B (parentOff p)) (ptrAt B (rootOff v))) Q s := by
  induction p generalizing v n rounds s with
  | nil =>
    obtain ⟨r, rfl⟩ : ∃ r, rounds = r + 1 := ⟨rounds - 1, by omega⟩
    by_cases hc : v.color = .black
    · rw [delFixupLoop_succ]
      apply wp_bind
      apply h.wp_isBlack hG
      apply wp_bind
      rw [if_pos (by simp [hc])]
      apply wp_bind
      apply h.wp_root
      apply wp_pure
      rw [if_neg (by simp)]
      apply wp_pure
      apply hyes (.inr rfl)
      exact LinkRep.finishing h ⟨hc, n, hs.black hc⟩
    · have hc' := color_ne_black.mp hc
      exact h.wp_delFixupLoop_red hG hc' (hyes (.inl hc') _ _ (hs.finishing h hc'))
  | cons f p ih =>
    obtain ⟨r, rfl⟩ : ∃ r, rounds = r + 1 := ⟨rounds - 1, by omega⟩
    simp only [List.length_cons] at hr
    by_cases hc : v.color = .black
    · obtain ⟨w, hw, hwr⟩ := rootOff_fill f p v
      have hne : ptrAt B (rootOff v) ≠ ptrAt B (rootOff (fill (f :: p) v)) := by
        intro he
        rw [hwr] at he
        exact h.distinct.path_ne hw (ptrAt_inj he).symm
      have hrec : Recurs B u L G p r Q := fun v' m t ht hm h1 h2 => ih ht hm (by omega) h1 h2
      have hcr : v.color ≠ .red := by simp [hc]
      rw [delFixupLoop_succ]
      apply wp_bind
      apply h.wp_isBlack hG
      apply wp_bind
      rw [if_pos (by simp [hc])]
      apply wp_bind
      apply h.wp_root
      apply wp_pure
      rw [if_pos (by simpa using hne), h.ptr_parent]
      apply wp_bind
      obtain ⟨e, a, y, b, hsib⟩ := hs.fits.sibling.ne_nil
      rcases f with ⟨⟨⟩, c, x, t⟩
      · have h' : LinkRep B u L (fill p (node c v x t)) s := h
        apply h'.wp_left hG
        rw [if_pos rfl]
        exact h'.wp_delLeft hG hs hc (by omega) hrec (fun h1 => hyes (.inr h1))
          fun h1 => hno (not_or.mpr ⟨hcr, h1⟩)
      · have h' : LinkRep B u L (fill p (node c t x v)) s := h
        have hty : ptrAt B (rootOff t) ≠ ptrAt B (rootOff v) := by
          obtain rfl : t = node e a y b := hsib
          exact (h.ptr_sibling_ne nofun).symm
        apply h'.wp_left hG
        rw [if_neg hty]
        exact h'.wp_delRight hG hs hc hrec (fun h1 => hyes (.inr h1))
          fun h1 => hno (not_or.mpr ⟨hcr, h1⟩)
    · have hc' := color_ne_black.mp hc
      exact h.wp_delFixupLoop_red hG hc' (hyes (.inl hc') _ _ (hs.finishing h hc'))

/-- The node that the loop ends at is made black. -/
theorem LinkRep.wp_delFixup {Q : Unit → RbStore → Prop} {n : ℕ} {par : ℕ}
    (h : LinkRep B u L (fill p v) s) (hG : Access G B L) (hs : Short p v n)
    (hpar : v.color = .red ∨ par = ptrAt B (parentOff p))
    (hyes : v.color = .red ∨ mends p = true → ∀ T t, LinkRep B u L T t → T.Valid → Q () t)
    (hno : ¬ (v.color = .red ∨ mends p = true) → ∀ t, Cyclic (rbNode B t.db) t.tree.rootOffset →
      Q () t) : wp G (delFixup par (ptrAt B (rootOff v))) Q s := by
  have hlen := h.path_length_lt
  have hloop : wp G (delFixupLoop walkRounds par (ptrAt B (rootOff v))) (fun o t =>
      (v.color = .red ∨ mends p = true) ∧ Finishing B u L o t ∨
        ¬ (v.color = .red ∨ mends p = true) ∧ Looping B u L o t) s := by
    by_cases hc : v.color = .red
    · obtain ⟨r, hr⟩ : ∃ r, walkRounds = r + 1 := ⟨walkRounds - 1, by omega⟩
      rw [hr]
      exact h.wp_delFixupLoop_red hG hc (.inl ⟨.inl hc, hs.finishing h hc⟩)
    · rw [hpar.resolve_left hc]
      apply h.wp_delFixupLoop hG hs hlen
      · exact fun h1 o t ht => .inl ⟨h1, ht⟩
      · exact fun h1 o t ht => .inr ⟨h1, ht⟩
  unfold delFixup
  apply wp_seq hloop
  rintro o t (⟨hy, p', v', ht, rfl, hval⟩ | ⟨hn, k, w, ht, hc, hw, rfl⟩)
  · cases v' with
    | nil =>
      rw [rootOff_nil, ptrAt_nil, if_neg (by simp)]
      exact wp_pure (hyes hy _ t ht hval)
    | node d a y b =>
      rw [ht.ptr_eq, if_pos ((h.owned y ht.mem).ptr_ne B)]
      apply ht.wp_setColor (d := .black) hG
      exact fun t' ht' => hyes hy _ t' ht' hval
  · by_cases hw0 : w = NIL
    · rw [hw0, ptrAt_nil, if_neg (by simp)]
      exact wp_pure (hno hn t (ht.cyclic hc))
    · obtain ⟨y, hy, rfl⟩ := hw.mem hw0
      rw [ptrAt_of_ne hw0, if_pos ((h.owned y hy).ptr_ne B)]
      apply ht.wp_setColor hG hy
      exact fun t' ht' => hno hn t' (ht'.cyclic (hc.setColor _ _))

end Wp

end TouchDb
