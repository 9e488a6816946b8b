import TouchDb.Rbtree.State
import TouchDb.Rbtree.Turn

/-! `insert_fixup`: the red nodes that it mends, by colors alone, and what its rotations leave
otherwise. -/
namespace TouchDb
open Prog Layout RbTree

/-- Whether colors are enough to mend a red node at the end of the path: on the way up to the first
black parent every uncle is red. -/
def lifts {α : Type} : Path α → Bool
  | f :: g :: p => decide (f.color = .black) || decide (g.sibling.color = .red) && lifts p
  | _ => true

/-! The body of the loop in parts. -/
section Parts

/-- The parent is a left child, and the uncle is not red. -/
def insertLeftBlack (rounds n parent gparent : ℕ) : RbM Unit := do
  let r ← rightNode parent
  let (n, parent) ← (if n = r then do
    leftRotate parent
    return (parent, n)
  else return (n, parent))
  setField parent RbtreeNode.color .black
  setField gparent RbtreeNode.color .red
  rightRotate gparent
  insertFixupLoop rounds n

/-- The parent is no left child, and the uncle is not red. -/
def insertRightBlack (rounds n parent gparent : ℕ) : RbM Unit := do
  let l ← leftNode parent
  let (n, parent) ← (if n = l then do
    rightRotate parent
    return (parent, n)
  else return (n, parent))
  setField parent RbtreeNode.color .black
  setField gparent RbtreeNode.color .black
  leftRotate gparent
  insertFixupLoop rounds n

theorem insertFixupLoop_succ (rounds n : ℕ) : insertFixupLoop (rounds + 1) n = (do
    let parent ← parentNode n
    let red ← isRed parent
    if red then
      let gparent ← parentNode parent
      let onLeft ← (if gparent ≠ NULL then do
        let l ← leftNode gparent
        return decide (parent = l)
      else return false)
      if onLeft then
        let uncle ← rightNode gparent
        let redUncle ← isRed uncle
        if redUncle then
          setField parent RbtreeNode.color .black
          setField uncle RbtreeNode.color .black
          setField gparent RbtreeNode.color .red
          insertFixupLoop rounds gparent
        else insertLeftBlack rounds n parent gparent
      else
        let uncle ← leftNode gparent
        let redUncle ← isRed uncle
        if redUncle then
          setField uncle RbtreeNode.color .black
          setField parent RbtreeNode.color .black
          setField gparent RbtreeNode.color .red
          insertFixupLoop rounds gparent
        else insertRightBlack rounds n parent gparent
    else return ()) := rfl

end Parts

/-- What the rotations leave: a cycle, or a tree whose root is black and that is out of balance. -/
def Spoiled (B : ℕ) (u : PoolAlloc) (L : List TreeCell) (t : RbStore) : Prop :=
  (∃ k, Wired B u L k t ∧ Cyclic k.node k.root) ∨
    ∃ T, LinkRep B u L T t ∧ T.color = .black ∧ ¬ T.Valid

section Wp
variable {B : ℕ} {u : PoolAlloc} {L : List TreeCell} {k : Links} {s : RbStore}
  {G : Guard Stop RbEvent} {p : Path TreeCell} {f g : Crumb TreeCell}
  {v w l r a b w₁ w₂ T : RbTree TreeCell} {x y z q : TreeCell} {c d : RbColor} {rounds n : ℕ}
  {Q : Unit → RbStore → Prop}

/-- Below a black parent the loop is left. -/
theorem Wired.wp_insertFixupLoop_black (h : Wired B u L k s) (hG : Access G B L) (hx : x ∈ L)
    (hy : y ∈ L) (hp : (k.node x.off).parentOffset = y.off) (hc : (k.node y.off).color = .black)
    (hQ : Q () s) : wp G (insertFixupLoop (rounds + 1) (B + x.off.toNat)) Q s := by
  rw [insertFixupLoop_succ]
  apply wp_bind
  apply h.wp_parent hG hx
  rw [hp, ptrAt_of_ne (h.ne_nil hy)]
  apply wp_bind
  unfold isRed
  rw [if_pos ((h.owned y hy).ptr_ne B)]
  apply wp_bind
  apply h.wp_get hG hy NodeField.color
  apply wp_pure
  rw [NodeField.color_get, hc, if_neg (by simp)]
  exact wp_pure hQ

theorem LinkRep.wp_insertFixupLoop_black (h : LinkRep B u L (fill (f :: p) (node c a x b)) s)
    (hG : Access G B L) (hf : f.color = .black) (hQ : Q () s) :
    wp G (insertFixupLoop (rounds + 1) (B + x.off.toNat)) Q s := by
  have hy : f.label ∈ L := h.mem_of_path label_mem_pathCells
  apply h.wired.wp_insertFixupLoop_black hG h.mem hy _ _ hQ
  · rw [h.node_eq]
    rfl
  · rw [h.holdsPath.1.2.1]
    rcases f with ⟨⟨⟩, c, y, v⟩
    · exact congrArg colorOf hf
    · exact congrArg colorOf hf

/-- The root has no parent. -/
theorem LinkRep.wp_insertFixupLoop_root (h : LinkRep B u L (node c a x b) s) (hG : Access G B L)
    (hQ : Q () s) : wp G (insertFixupLoop (rounds + 1) (B + x.off.toNat)) Q s := by
  rw [insertFixupLoop_succ]
  apply wp_bind
  apply LinkRep.wp_parent (p := []) h hG
  rw [parentOff, ptrAt_nil]
  apply wp_bind
  unfold isRed
  rw [if_neg (by simp)]
  apply wp_pure
  rw [if_neg (by simp)]
  exact wp_pure hQ

/-- A rotation to the right at the grandparent. -/
theorem LinkRep.wp_liftRight
    (h : LinkRep B u L (fill p (node c (node .red (node .red a x b) y v) z w)) s) (hG : Access G B L)
    (hQ : ∀ t, Spoiled B u L t → Q () t) :
    wp G (do
      setField (B + y.off.toNat) RbtreeNode.color .black
      setField (B + z.off.toNat) RbtreeNode.color .red
      rightRotate (B + z.off.toNat)
      insertFixupLoop (rounds + 1) (B + x.off.toNat)) Q s := by
  apply wp_bind
  apply h.focusLeft.wp_setColor (d := .black) hG
  intro s₁ h₁
  apply wp_bind
  apply LinkRep.wp_setColor (p := p) (d := .red) h₁ hG
  intro s₂ h₂
  have hy := h₂.focusLeft
  have hx := hy.focusLeft
  apply wp_bind
  apply h₂.wp_rightRotate hG
  intro t k hk hpath hyn hzn hrest
  apply hk.wp_insertFixupLoop_black hG hx.mem hy.mem
  · rw [hrest x (.inl (by simp [toList])), hx.node_eq]
    rfl
  · rw [hyn]
    rfl
  · apply hQ
    refine .inl ⟨k, hk, y.off, hpath.reached, h₂.ne_nil hy.mem, ?_, ?_⟩
    · rw [hyn]
      exact h₂.ne_nil h₂.mem
    · rw [hyn]
      show (k.node z.off).leftOffset = y.off
      rw [hzn]
      rfl

/-- The node is a left child of a left child. -/
theorem LinkRep.wp_insertLeftBlack_outer
    (h : LinkRep B u L (fill p (node c (node .red (node .red a x b) y v) z w)) s) (hG : Access G B L)
    (hQ : ∀ t, Spoiled B u L t → Q () t) :
    wp G (insertLeftBlack (rounds + 1) (B + x.off.toNat) (B + y.off.toNat) (B + z.off.toNat)) Q s := by
  have hy := h.focusLeft
  have hx := hy.focusLeft
  have hne : B + x.off.toNat ≠ ptrAt B (rootOff v) := by
    rw [← hx.ptr_eq]
    exact (hy.focusRight.ptr_sibling_ne nofun).symm
  unfold insertLeftBlack
  apply wp_bind
  apply hy.wp_right hG
  apply wp_bind
  rw [if_neg hne]
  apply wp_pure
  exact h.wp_liftRight hG hQ

/-- The node is a right child of a left child: it changes places with its parent first. -/
theorem LinkRep.wp_insertLeftBlack_inner
    (h : LinkRep B u L (fill p (node c (node .red v y (node .red a x b)) z w)) s) (hG : Access G B L)
    (hQ : ∀ t, Spoiled B u L t → Q () t) :
    wp G (insertLeftBlack (rounds + 1) (B + x.off.toNat) (B + y.off.toNat) (B + z.off.toNat)) Q s := by
  have hy := h.focusLeft
  unfold insertLeftBlack
  apply wp_bind
  apply hy.wp_right hG
  rw [hy.focusRight.ptr_eq]
  apply wp_bind
  rw [if_pos rfl]
  apply wp_bind
  apply hy.wp_leftRotate hG
  intro t ht
  apply wp_pure
  exact LinkRep.wp_liftRight (p := p) ht hG hQ

/-- The rotation to the left at the grandparent balances nothing, because the grandparent was made
black. -/
theorem LinkRep.wp_insertRightBlack_outer
    (h : LinkRep B u L (fill p (node .black w z (node .red v y (node .red a x b)))) s)
    (hG : Access G B L) (hf : Fits p (n + 1)) (hw : w.Balanced n) (hv : v.Balanced n)
    (ha : a.Balanced n) (hQ : ∀ t, Spoiled B u L t → Q () t) :
    wp G (insertRightBlack (rounds + 1) (B + x.off.toNat) (B + y.off.toNat) (B + z.off.toNat)) Q s := by
  have hy := h.focusRight
  have hx := hy.focusRight
  have hne : B + x.off.toNat ≠ ptrAt B (rootOff v) := by
    rw [← hx.ptr_eq]
    exact (hy.focusLeft.ptr_sibling_ne nofun).symm
  unfold insertRightBlack
  apply wp_bind
  apply hy.wp_left hG
  apply wp_bind
  rw [if_neg hne]
  apply wp_pure
  apply wp_bind
  apply hy.wp_setColor (d := .black) hG
  intro s₁ h₁
  apply wp_bind
  apply LinkRep.wp_setColor (p := p) (d := .black) h₁ hG
  intro s₂ h₂
  apply wp_bind
  apply h₂.wp_leftRotate hG
  intro t ht
  apply LinkRep.wp_insertFixupLoop_black (f := ⟨.right, .black, y, node .black w z v⟩) ht hG rfl
  apply hQ
  refine .inr ⟨_, ht, ?_, fun hval => ?_⟩
  · have hvalid := hf.valid (t := node .black w z v) (.black hw hv) (allows_black p)
    have hcolor : (fill p (node .black (node .black w z v) y (node .red a x b))).color =
        (fill p (node .black w z v)).color := color_fill_congr p rfl
    exact hcolor.trans hvalid.1
  · obtain ⟨m, -, hbal, -⟩ := Fits.of_fill hval
    obtain ⟨i, -, hl, hr⟩ := Balanced.black_iff.mp hbal
    obtain ⟨j, hj, hwj, -⟩ := Balanced.black_iff.mp hl
    have h1 := hw.unique hwj
    have h2 := ha.unique (Balanced.red_iff.mp hr).1
    omega

/-- The node is a left child of a right child: the rotation to the right has left a cycle, and the
one to the left keeps it. -/
theorem LinkRep.wp_insertRightBlack_inner
    (h : LinkRep B u L (fill p (node .black w z (node .red (node .red a x b) y v))) s)
    (hG : Access G B L) (hQ : ∀ t, Spoiled B u L t → Q () t) :
    wp G (insertRightBlack (rounds + 1) (B + x.off.toNat) (B + y.off.toNat) (B + z.off.toNat)) Q s := by
  have hy := h.focusRight
  have hx := hy.focusLeft
  have ha := hx.focusLeft
  have hdz := h.distinct
  have hdy := hy.distinct
  have hdx := hx.distinct
  have hda := ha.distinct
  have hx0 : x.off ≠ NIL := h.ne_nil hx.mem
  have hy0 : y.off ≠ NIL := h.ne_nil hy.mem
  have hz0 : z.off ≠ NIL := h.ne_nil h.mem
  have hzx : z.off ≠ x.off := hdx.path_ne (by simp [mem_pathCells_cons])
  have hzy : z.off ≠ y.off := hdy.path_ne (by simp [mem_pathCells_cons])
  have hyx : y.off ≠ x.off := hdx.path_ne (by simp [mem_pathCells_cons])
  have hya : y.off ≠ rootOff a := hda.path_ne (by simp [mem_pathCells_cons])
  have hyp : y.off ≠ parentOff p := hdz.tree_ne (by simp [toList])
  unfold insertRightBlack
  apply wp_bind
  apply hy.wp_left hG
  rw [hx.ptr_eq]
  apply wp_bind
  rw [if_pos rfl]
  apply wp_bind
  apply hy.wp_rightRotate hG
  rintro s₁ k h₁ ⟨-, hzn, -, hp⟩ hxn hyn -
  apply wp_pure
  apply wp_bind
  apply h₁.wp_setColor hG hx.mem
  intro s₂ h₂
  apply wp_bind
  apply h₂.wp_setColor hG h.mem
  intro s₃ h₃
  have hp₁ := hp.set (n := x.off) (fun e he => hdx.path_ne (by simp [mem_pathCells_cons, he]))
    (NodeField.color.set .black)
  have hp₂ := hp₁.set (n := z.off) (fun e he => hdz.path_ne he) (NodeField.color.set .black)
  have hzr : (k.node z.off).rightOffset = x.off := congrArg RbNode.rightOffset hzn
  have hzp : (k.node z.off).parentOffset = parentOff p := congrArg RbNode.parentOffset hzn
  have hxl : (k.node x.off).leftOffset = rootOff a := congrArg RbNode.leftOffset hxn
  obtain ⟨h4, h5, -, -, h6⟩ := hp₂.leftRotate (n := z.off) (m := x.off) (z := rootOff a) hz0
    (by simpa using hzr) hx0 (by simpa using hxl) (by simpa using hzp) hdz.parentApart
    (fun e he => ⟨hdz.path_ne he, hdx.path_ne (by simp [mem_pathCells_cons, he]),
      hda.path_ne (by simp [mem_pathCells_cons, he])⟩) hzx
    (hda.path_ne (by simp [mem_pathCells_cons])).symm
    (hda.path_ne (by simp [mem_pathCells_cons])).symm
  have hy₃ := h6 y.off hzy.symm hyx hya hyp
  apply wp_bind
  apply h₃.wp_leftRotate hG h.mem
  intro t ht
  apply ht.wp_insertFixupLoop_black hG hy.mem hx.mem
  · rw [hy₃, setColor_parent, setColor_parent, hyn]
    rfl
  · rw [h5, set_ne _ _ hzx.symm, set_self]
    rfl
  · apply hQ
    refine .inl ⟨_, ht, x.off, h4.reached, hx0, ?_, ?_⟩
    · rw [h5]
      simp only [setColor_right, hxn]
      exact hy0
    · rw [h5]
      simp only [setColor_right, hxn]
      show (Links.node _ y.off).leftOffset = x.off
      rw [hy₃, setColor_left, setColor_left, hyn]
      rfl

/-- Colors move the red node up to the grandparent. -/
theorem LinkRep.wp_recolor
    (h : LinkRep B u L (fill p (node .black (node .red l y r) z (node .red w₁ q w₂))) s)
    (hG : Access G B L)
    (hQ : ∀ t, LinkRep B u L (fill p (node .red (node .black l y r) z (node .black w₁ q w₂))) t →
      wp G (insertFixupLoop rounds (B + z.off.toNat)) Q t) :
    wp G (do
      setField (B + y.off.toNat) RbtreeNode.color .black
      setField (B + q.off.toNat) RbtreeNode.color .black
      setField (B + z.off.toNat) RbtreeNode.color .red
      insertFixupLoop rounds (B + z.off.toNat)) Q s := by
  apply wp_bind
  apply h.focusLeft.wp_setColor (d := .black) hG
  intro s₁ h₁
  apply wp_bind
  apply (LinkRep.focusSibling h₁).wp_setColor (d := .black) hG
  intro s₂ h₂
  apply wp_bind
  apply LinkRep.wp_setColor (p := p) (d := .red) h₂ hG
  exact hQ

/-- The parent is a left child: the color of the uncle decides. -/
theorem LinkRep.wp_insertFixupLoop_left {m : ℕ}
    (h : LinkRep B u L (fill p (node c (node .red l y r) z w)) s) (hG : Access G B L)
    (hm : ∀ R : ℕ → RbStore → Prop, R (B + y.off.toNat) s → wp G (parentNode m) R s)
    (hred : ∀ w₁ q w₂, w = node .red w₁ q w₂ → wp G (do
      setField (B + y.off.toNat) RbtreeNode.color .black
      setField (B + q.off.toNat) RbtreeNode.color .black
      setField (B + z.off.toNat) RbtreeNode.color .red
      insertFixupLoop rounds (B + z.off.toNat)) Q s)
    (hblack : w.color = .black →
      wp G (insertLeftBlack rounds m (B + y.off.toNat) (B + z.off.toNat)) Q s) :
    wp G (insertFixupLoop (rounds + 1) m) Q s := by
  have hy := h.focusLeft
  have hw := h.focusRight
  rw [insertFixupLoop_succ]
  apply wp_bind
  apply hm
  apply wp_bind
  rw [← hy.ptr_eq]
  apply hy.wp_isRed hG
  rw [if_pos (by simp [color]), hy.ptr_eq]
  apply wp_bind
  apply hy.wp_parent_label hG
  apply wp_bind
  rw [if_pos ((h.owned z h.mem).ptr_ne B)]
  apply wp_bind
  apply h.wp_left hG
  apply wp_pure
  rw [if_pos (by simpa using hy.ptr_eq.symm)]
  apply wp_bind
  apply h.wp_right hG
  apply hw.wp_ifRed hG _ hblack
  rintro w₁ q w₂ rfl
  rw [hw.ptr_eq]
  exact hred w₁ q w₂ rfl

/-- The parent is a right child. -/
theorem LinkRep.wp_insertFixupLoop_right {m : ℕ}
    (h : LinkRep B u L (fill p (node c w z (node .red l y r))) s) (hG : Access G B L)
    (hm : ∀ R : ℕ → RbStore → Prop, R (B + y.off.toNat) s → wp G (parentNode m) R s)
    (hred : ∀ w₁ q w₂, w = node .red w₁ q w₂ → wp G (do
      setField (B + q.off.toNat) RbtreeNode.color .black
      setField (B + y.off.toNat) RbtreeNode.color .black
      setField (B + z.off.toNat) RbtreeNode.color .red
      insertFixupLoop rounds (B + z.off.toNat)) Q s)
    (hblack : w.color = .black →
      wp G (insertRightBlack rounds m (B + y.off.toNat) (B + z.off.toNat)) Q s) :
    wp G (insertFixupLoop (rounds + 1) m) Q s := by
  have hy := h.focusRight
  have hw := h.focusLeft
  have hne : B + y.off.toNat ≠ ptrAt B (rootOff w) := by
    rw [← hy.ptr_eq]
    exact (hw.ptr_sibling_ne nofun).symm
  rw [insertFixupLoop_succ]
  apply wp_bind
  apply hm
  apply wp_bind
  rw [← hy.ptr_eq]
  apply hy.wp_isRed hG
  rw [if_pos (by simp [color]), hy.ptr_eq]
  apply wp_bind
  apply hy.wp_parent_label hG
  apply wp_bind
  rw [if_pos ((h.owned z h.mem).ptr_ne B)]
  apply wp_bind
  apply h.wp_left hG
  apply wp_pure
  rw [if_neg (by simpa using hne)]
  apply wp_bind
  apply h.wp_left hG
  apply hw.wp_ifRed hG _ hblack
  rintro w₁ q w₂ rfl
  rw [hw.ptr_eq]
  exact hred w₁ q w₂ rfl

/-- The red node stands below a left child of a black node. -/
theorem LinkRep.wp_insertLeft
    (h : LinkRep B u L (fill (f :: ⟨.left, .black, z, w⟩ :: p) (node .red a x b)) s) (hG : Access G B L)
    (hf : f.color = .red) (hr : 0 < rounds)
    (hrec : ∀ t, LinkRep B u L (fill p (node .red (f.fill (node .red a x b)).blacken z w.blacken)) t →
      w.color = .red → wp G (insertFixupLoop rounds (B + z.off.toNat)) Q t)
    (hspoil : w.color = .black → ∀ t, Spoiled B u L t → Q () t) :
    wp G (insertFixupLoop (rounds + 1) (B + x.off.toNat)) Q s := by
  obtain ⟨r, rfl⟩ : ∃ r, rounds = r + 1 := ⟨rounds - 1, by omega⟩
  have hm : ∀ R : ℕ → RbStore → Prop, R (B + f.label.off.toNat) s →
      wp G (parentNode (B + x.off.toNat)) R s := fun _ => h.wp_parent_label hG
  rcases f with ⟨⟨⟩, c, y, v⟩
  · obtain rfl : c = .red := hf
    apply LinkRep.wp_insertFixupLoop_left (p := p) h hG hm
    · rintro w₁ q w₂ rfl
      apply LinkRep.wp_recolor (p := p) h hG
      exact fun t ht => hrec t ht rfl
    · intro hw
      exact LinkRep.wp_insertLeftBlack_outer (p := p) h hG (hspoil hw)
  · obtain rfl : c = .red := hf
    apply LinkRep.wp_insertFixupLoop_left (p := p) h hG hm
    · rintro w₁ q w₂ rfl
      apply LinkRep.wp_recolor (p := p) h hG
      exact fun t ht => hrec t ht rfl
    · intro hw
      exact LinkRep.wp_insertLeftBlack_inner (p := p) h hG (hspoil hw)

/-- The red node stands below a right child of a black node. -/
theorem LinkRep.wp_insertRight
    (h : LinkRep B u L (fill (f :: ⟨.right, .black, z, w⟩ :: p) (node .red a x b)) s) (hG : Access G B L)
    (hp : Fits p (n + 1)) (hwn : w.Balanced n) (hs : f.sibling.Balanced n) (ha : a.Balanced n)
    (hf : f.color = .red) (hr : 0 < rounds)
    (hrec : ∀ t, LinkRep B u L (fill p (node .red w.blacken z (f.fill (node .red a x b)).blacken)) t →
      w.color = .red → wp G (insertFixupLoop rounds (B + z.off.toNat)) Q t)
    (hspoil : w.color = .black → ∀ t, Spoiled B u L t → Q () t) :
    wp G (insertFixupLoop (rounds + 1) (B + x.off.toNat)) Q s := by
  obtain ⟨r, rfl⟩ : ∃ r, rounds = r + 1 := ⟨rounds - 1, by omega⟩
  have hm : ∀ R : ℕ → RbStore → Prop, R (B + f.label.off.toNat) s →
      wp G (parentNode (B + x.off.toNat)) R s := fun _ => h.wp_parent_label hG
  rcases f with ⟨⟨⟩, c, y, v⟩
  · obtain rfl : c = .red := hf
    apply LinkRep.wp_insertFixupLoop_right (p := p) h hG hm
    · rintro w₁ q w₂ rfl
      apply LinkRep.wp_recolor (p := p) h hG
      exact fun t ht => hrec t ht rfl
    · intro hw
      exact LinkRep.wp_insertRightBlack_inner (p := p) h hG (hspoil hw)
  · obtain rfl : c = .red := hf
    apply LinkRep.wp_insertFixupLoop_right (p := p) h hG hm
    · rintro w₁ q w₂ rfl
      apply LinkRep.wp_recolor (p := p) h hG
      exact fun t ht => hrec t ht rfl
    · intro hw
      exact LinkRep.wp_insertRightBlack_outer (p := p) h hG hp hwn hs ha (hspoil hw)

/-- The loop ends with a tree that is balanced once its root is black, or it has spoiled it. -/
theorem LinkRep.wp_insertFixupLoop (h : LinkRep B u L (fill p (node .red a x b)) s) (hG : Access G B L)
    (hp : Fits p n) (hx : (node .red a x b).Balanced n) (hr : p.length < rounds)
    (hyes : lifts p = true → ∀ T t, LinkRep B u L T t → T.blacken.Valid → Q () t)
    (hno : lifts p = false → ∀ t, Spoiled B u L t → Q () t) :
    wp G (insertFixupLoop rounds (B + x.off.toNat)) Q s := by
  induction rounds generalizing p a x b n s with
  | zero => omega
  | succ rounds ih =>
    match p, hp with
    | [], _ =>
      apply LinkRep.wp_insertFixupLoop_root h hG
      exact hyes rfl _ s h ⟨color_blacken _, hx.blacken⟩
    | f :: p, hp =>
      by_cases hf : f.color = .black
      · apply h.wp_insertFixupLoop_black hG hf
        have hval := hp.valid hx fun _ => ⟨List.cons_ne_nil _ _, hf⟩
        apply hyes _ _ s h
        · rwa [blacken_of_black hval.1]
        · cases p with
          | nil => rfl
          | cons g p => simp [lifts, hf]
      · have hf' := color_ne_black.mp hf
        cases hp with
        | black hb _ _ => exact absurd hb hf
        | red _ hs _ hp hne cp =>
          obtain ⟨g, p, rfl⟩ := List.exists_cons_of_ne_nil hne
          have hg : g.color = .black := cp
          have hl : lifts (f :: g :: p) = (decide (g.sibling.color = .red) && lifts p) := by
            simp [lifts, hf']
          rw [hl] at hyes hno
          obtain ⟨hgs, hq⟩ : g.sibling.Balanced n ∧ Fits p (n + 1) := by
            cases hp with
            | red h1 _ _ _ _ _ => simp [hg] at h1
            | black _ h1 h2 => exact ⟨h1, h2⟩
          simp only [List.length_cons] at hr
          have hbn : (f.fill (node .red a x b)).blacken.Balanced (n + 1) := by
            rcases f with ⟨⟨⟩, c, y, v⟩
            · exact .black hx hs
            · exact .black hs hx
          rcases g with ⟨⟨⟩, c, z, w⟩
          · obtain rfl : c = .black := hg
            apply h.wp_insertLeft hG hf' (by omega)
            · intro t ht hw
              have hwn := hgs.blacken_red hw
              apply ih ht hq (.red hbn hwn (color_blacken _) (color_blacken _)) (by omega)
              · simpa [show w.color = .red from hw] using hyes
              · simpa [show w.color = .red from hw] using hno
            · exact fun hw => hno (by simp [hw])
          · obtain rfl : c = .black := hg
            apply h.wp_insertRight hG hq hgs hs (Balanced.red_iff.mp hx).1 hf' (by omega)
            · intro t ht hw
              have hwn := hgs.blacken_red hw
              apply ih ht hq (.red hwn hbn (color_blacken _) (color_blacken _)) (by omega)
              · simpa [show w.color = .red from hw] using hyes
              · simpa [show w.color = .red from hw] using hno
            · exact fun hw => hno (by simp [hw])

/-- The root is made black. -/
theorem LinkRep.wp_insertFixup (h : LinkRep B u L (fill p (node .red a x b)) s) (hG : Access G B L)
    (hp : Fits p n) (hx : (node .red a x b).Balanced n)
    (hyes : lifts p = true → ∀ T t, LinkRep B u L T t → T.Valid → Q () t)
    (hno : lifts p = false → ∀ t, Cyclic (rbNode B t.db) t.tree.rootOffset ∨
      (∃ T, LinkRep B u L T t ∧ ¬ T.Valid) → Q () t) :
    wp G (insertFixup (B + x.off.toNat)) Q s := by
  have hlen := h.path_length_lt
  have hroot {T : RbTree TreeCell} {t : RbStore} (ht : LinkRep B u L T t) : ∃ c l y r, T = node c l y r := by
    have hxL := h.mem
    cases T with
    | nil =>
      rw [← ht.list] at hxL
      exact absurd hxL List.not_mem_nil
    | node c l y r => exact ⟨c, l, y, r, rfl⟩
  unfold insertFixup
  apply wp_bind
  apply h.wp_insertFixupLoop hG hp hx hlen
  · intro hl T t ht hval
    obtain ⟨c, l, y, r, rfl⟩ := hroot ht
    apply wp_bind
    apply ht.wp_root
    rw [LinkRep.ptr_eq (p := []) ht]
    apply LinkRep.wp_setColor (p := []) (d := .black) ht hG
    exact fun t' ht' => hyes hl _ t' ht' hval
  · rintro hl t (⟨k, hk, hc⟩ | ⟨T, ht, hblack, hval⟩)
    · obtain ⟨y, hy, he⟩ := hk.root_known.mem hc.root_ne_nil
      apply wp_bind
      apply hk.wp_rootNode hk.root_known
      rw [ptrAt_of_ne hc.root_ne_nil, ← he]
      apply hk.wp_setColor hG hy
      exact fun t' ht' => hno hl t' (.inl (ht'.cyclic (hc.setColor _ _)))
    · obtain ⟨c, l, y, r, rfl⟩ := hroot ht
      obtain rfl : c = .black := hblack
      apply wp_bind
      apply ht.wp_root
      rw [LinkRep.ptr_eq (p := []) ht]
      apply LinkRep.wp_setColor (p := []) (d := .black) ht hG
      exact fun t' ht' => hno hl t' (.inr ⟨_, ht', hval⟩)

end Wp

/-- A store with a tree that was a red-black tree before a red node joined it. The order of its keys
does not matter. -/
structure RbJoined where
  ptr : ℕ
  store : RbStore
  alloc : PoolAlloc
  path : Path TreeCell
  cell : TreeCell
  rep : LinkRep ptr alloc (fill path (node .red nil cell nil)).toList (fill path (node .red nil cell nil)) store
  valid : (fill path nil).Valid

namespace RbJoined

/-- The tree with the new node. -/
def tree (s : RbJoined) : RbTree TreeCell := fill s.path (node .red nil s.cell nil)

/-- The call ends, with a red-black tree of the same nodes in the same order. -/
def FixupOk (s : RbJoined) : Prop :=
  ∃ t l, insertFixup (s.ptr + s.cell.off.toNat) s.store = .ok ((), t, l) ∧
    ∃ T, t.tree.rootOffset = rootOff T ∧ Holds (rbNode s.ptr t.db) NIL T ∧
      T.toList = s.tree.toList ∧ T.Valid

theorem fits (s : RbJoined) : ∃ n, Fits s.path n ∧ (node .red nil s.cell nil).Balanced n := by
  obtain ⟨n, hn, h0, -⟩ := Fits.of_fill s.valid
  obtain rfl := h0.unique .nil
  exact ⟨0, hn, .red .nil .nil rfl rfl⟩

/-- A rotation restores no tree. -/
theorem not_fixupOk (s : RbJoined) (hl : lifts s.path = false) : ¬ s.FixupOk := by
  rintro ⟨t, l, hrun, T, hroot, hT, -, hval⟩
  obtain ⟨n, hp, hx⟩ := s.fits
  have hwp : wp (among s.ptr s.tree.toList) (insertFixup (s.ptr + s.cell.off.toNat))
      (fun _ t => Cyclic (rbNode s.ptr t.db) t.tree.rootOffset ∨
        ∃ T, LinkRep s.ptr s.alloc s.tree.toList T t ∧ ¬ T.Valid) s.store := by
    apply s.rep.wp_insertFixup (access_among _ _) hp hx
    · exact fun h1 => absurd (hl.symm.trans h1) (by simp)
    · exact fun _ t ht => ht
  rcases (wp_elim hwp hrun).2 with hc | ⟨T', hT', hval'⟩
  · exact hc.not_holds hroot hT
  · have hmap := hT.unique hT'.holds (hroot.symm.trans hT'.root)
    exact hval' ((valid_map _).mp (hmap ▸ (valid_map _).mpr hval))

/-- The tree is restored exactly where colors are enough. -/
theorem fixupOk_iff (s : RbJoined) : s.FixupOk ↔ lifts s.path = true := by
  constructor
  · intro h
    by_contra hl
    exact s.not_fixupOk (by simpa using hl) h
  · intro hl
    obtain ⟨n, hp, hx⟩ := s.fits
    have hwp : wp (among s.ptr s.tree.toList) (insertFixup (s.ptr + s.cell.off.toNat))
        (fun _ t => ∃ T, LinkRep s.ptr s.alloc s.tree.toList T t ∧ T.Valid) s.store := by
      apply s.rep.wp_insertFixup (access_among _ _) hp hx
      · exact fun _ T t ht hval => ⟨T, ht, hval⟩
      · exact fun h1 => absurd (hl.symm.trans h1) (by simp)
    obtain ⟨_, t, l, hrun, -, T, hT, hval⟩ := wp_ends hwp fun _ h => h
    exact ⟨t, l, hrun, T, hT.root, hT.holds, hT.list, hval⟩

/-- Three keys that come in ascending order lose the balance, and in descending order the tree. -/
theorem fixupOk_fails : ∃ s t : RbJoined,
    s.tree.map TreeCell.pair = node .black nil (letter 97)
      (node .red nil (letter 98) (node .red nil (letter 99) nil)) ∧ ¬ s.FixupOk ∧
    t.tree.map TreeCell.pair = node .black (node .red (node .red nil (letter 97) nil)
      (letter 98) nil) (letter 99) nil ∧ ¬ t.FixupOk := by
  obtain ⟨u₁, s₁, T₁, h₁, hT₁⟩ := exists_treeRep (node .black nil (letter 97)
    (node .red nil (letter 98) (node .red nil (letter 99) nil))) (by decide) (by decide)
  obtain ⟨u₂, s₂, T₂, h₂, hT₂⟩ := exists_treeRep (node .black (node .red (node .red nil
    (letter 97) nil) (letter 98) nil) (letter 99) nil) (by decide) (by decide)
  have hmap₁ := hT₁
  have hmap₂ := hT₂
  simp only [map_eq_node, map_eq_nil] at hT₁ hT₂
  obtain ⟨_, x, _, rfl, rfl, -, _, y, _, rfl, rfl, -, _, z, _, rfl, rfl, -, rfl⟩ := hT₁
  obtain ⟨_, x', _, rfl, ⟨_, y', _, rfl, ⟨_, z', _, rfl, rfl, -, rfl⟩, -, rfl⟩, -, rfl⟩ := hT₂
  refine ⟨⟨4096, s₁, u₁, [⟨.right, .red, y, nil⟩, ⟨.right, .black, x, nil⟩], z, h₁.toLinkRep,
      rfl, 1, .black .nil (.red .nil .nil rfl rfl)⟩,
    ⟨4096, s₂, u₂, [⟨.left, .red, y', nil⟩, ⟨.left, .black, x', nil⟩], z', h₂.toLinkRep,
      rfl, 1, .black (.red .nil .nil rfl rfl) .nil⟩, hmap₁, not_fixupOk _ rfl, hmap₂, not_fixupOk _ rfl⟩

end RbJoined

end TouchDb
