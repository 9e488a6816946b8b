import TouchDb.Rbtree.Focus

/-! `get_node`: the search goes down a tree to the place of a key. Only the links to children and to
keys count. -/
namespace TouchDb
open Prog Layout RbTree

/-- The nodes `H` make up the tree, from each node down. -/
def Hangs (H : PtrOffset → RbNode) : RbTree TreeCell → Prop
  | .nil => True
  | .node _ l x r => x.off ≠ NIL ∧ (H x.off).leftOffset = rootOff l ∧
      (H x.off).rightOffset = rootOff r ∧ (H x.off).keyOffset = x.keyOffset ∧ Hangs H l ∧ Hangs H r

/-- The tree can be searched: its nodes and its keys lie in the pool. -/
structure SearchRep (B : ℕ) (T : RbTree TreeCell) (s : RbStore) : Prop where
  mapped : PoolMapped s.db 0
  base_eq : s.db.base 0 = B
  le : ∀ x ∈ T.toList, x.off.toNat + sizeofRbtreeNode ≤ touchdbDefaultPoolSize
  key_le : ∀ x ∈ T.toList, x.keyOffset.toNat + (x.key.strlen + 1) ≤ touchdbDefaultPoolSize
  key_holds : ∀ x ∈ T.toList, s.db.holds (B + x.keyOffset.toNat) x.key
  root : s.tree.rootOffset = rootOff T
  hangs : Hangs (rbNode B s.db) T

section
variable {B : ℕ} {u : PoolAlloc} {L : List TreeCell} {s : RbStore} {G : Guard Stop RbEvent}
  {p : Path TreeCell} {t l r T : RbTree TreeCell} {x y : TreeCell} {c : RbColor}
  {strcmp : Strcmp} {k : CStr} {H : PtrOffset → RbNode}

theorem hangs_crumb {f : Crumb TreeCell} (h : Hangs H (f.fill t)) : Hangs H t := by
  rcases f with ⟨⟨⟩, c, x, v⟩
  · exact h.2.2.2.2.1
  · exact h.2.2.2.2.2

theorem hangs_fill (h : Hangs H (fill p t)) : Hangs H t := by
  induction p generalizing t with
  | nil => exact h
  | cons f p ih => exact hangs_crumb (ih h)

theorem Hangs.keyOffset (h : Hangs H t) : ∀ x ∈ t.toList, (H x.off).keyOffset = x.keyOffset := by
  induction t with
  | nil => simp [toList]
  | node c l x r ihl ihr =>
    obtain ⟨-, -, -, hx, hl, hr⟩ := h
    intro y hy
    simp only [toList, List.mem_append, List.mem_cons] at hy
    rcases hy with hy | rfl | hy
    · exact ihl hl y hy
    · exact hx
    · exact ihr hr y hy

theorem Hangs.ne_nil (h : Hangs H t) : ∀ x ∈ t.toList, x.off ≠ NIL := by
  induction t with
  | nil => simp [toList]
  | node c l x r ihl ihr =>
    obtain ⟨hx, -, -, -, hl, hr⟩ := h
    intro y hy
    simp only [toList, List.mem_append, List.mem_cons] at hy
    rcases hy with hy | rfl | hy
    · exact ihl hl y hy
    · exact hx
    · exact ihr hr y hy

theorem Holds.hangs {par : PtrOffset} (h : Holds H par t) : Hangs H t := by
  induction t generalizing par with
  | nil => trivial
  | node c l x r ihl ihr =>
    obtain ⟨h0, hx, hl, hr⟩ := h
    rw [Hangs, hx]
    exact ⟨h0, rfl, rfl, rfl, ihl hl, ihr hr⟩

/-- What `get_node` returns, and `*parent`. -/
def found (B : ℕ) (at' : Path TreeCell × RbTree TreeCell) : ℕ × ℕ :=
  match at'.2 with
  | nil => (NULL, ptrAt B (parentOff at'.1))
  | node _ _ x _ => (B + x.off.toNat, B + x.off.toNat)

/-- The parent is left alone in an empty tree. -/
theorem wp_getNode_empty {parent : ℕ} {Q : ℕ × ℕ → RbStore → Prop} (h : s.tree.rootOffset = NIL)
    (hQ : Q (NULL, parent) s) : wp G (getNode strcmp k parent) Q s := by
  obtain ⟨n, hn⟩ : ∃ n, walkRounds = n + 1 := ⟨walkRounds - 1, rfl⟩
  unfold getNode rootNode rbtreeNode
  apply wp_bind
  apply wp_bind
  apply wp_getRoot
  rw [h, if_pos rfl]
  apply wp_pure
  rw [hn]
  unfold getNodeLoop
  rw [if_neg (by simp)]
  exact wp_pure hQ

/-- A key is compared with one that is stored. -/
theorem wp_strcmpKey {o : PtrOffset} {k' : CStr} {Q : ℤ → RbStore → Prop} (hm : PoolMapped s.db 0)
    (hB : s.db.base 0 = B) (hle : o.toNat + (k'.strlen + 1) ≤ touchdbDefaultPoolSize)
    (hk : s.db.holds (B + o.toNat) k') (hQ : Q (strcmp.cmp k k') s) : wp G (strcmpKey strcmp k o) Q s := by
  have hpos := hm.base_pos
  rw [hB] at hpos
  unfold strcmpKey
  apply wp_bind
  apply wp_onPool
  apply wp_ptrOf hm (by omega)
  rw [hB]
  apply wp_bind
  apply wp_onPool
  apply wp_readStr (by omega) _ hk (by omega)
  · exact wp_pure hQ
  · intro i hi
    apply hm.mapped
    · rw [hB]
      omega
    · rw [hB]
      omega

namespace SearchRep

theorem mem (_ : SearchRep B (fill p (node c l x r)) s) : x ∈ (fill p (node c l x r)).toList :=
  mem_fill.mpr (.inr (by simp [toList]))

theorem ne_nil (h : SearchRep B T s) (hx : x ∈ T.toList) : x.off ≠ NIL := h.hangs.ne_nil x hx

theorem ptr_ne (h : SearchRep B T s) : B + x.off.toNat ≠ NULL := by
  have hB := h.mapped.base_pos
  rw [h.base_eq] at hB
  change B + x.off.toNat ≠ 0
  omega

theorem wp_get {α : Type} [Layout α] {f : Field α} {Q : α → RbStore → Prop} (h : SearchRep B T s)
    (hG : Access G B T.toList) (hx : x ∈ T.toList) (hf : f.off + size α ≤ sizeofRbtreeNode)
    (hQ : Q (s.db.field (B + x.off.toNat) f) s) : wp G (getField (B + x.off.toNat) f) Q s := by
  have hle := h.le x hx
  unfold getField
  apply wp_bind
  apply wp_emit (hG x hx)
  apply wp_onPool
  apply wp_load (Nat.pos_of_ne_zero h.ptr_ne)
  · apply h.mapped.mapped
    · rw [h.base_eq]
      omega
    · rw [h.base_eq]
      omega
  · exact hQ

/-- The pointer for the root of a subtree. -/
theorem wp_ptr {Q : ℕ → RbStore → Prop} (h : SearchRep B (fill p t) s) (hQ : Q (ptrAt B (rootOff t)) s) :
    wp G (if rootOff t = NIL then return NULL else onPool (ptrOf 0 (rootOff t))) Q s := by
  apply wp_ite
  · intro h0
    rw [h0, ptrAt_nil] at hQ
    exact wp_pure hQ
  · intro h0
    obtain ⟨z, hz, he⟩ := exists_root h0
    have hle := h.le z (mem_fill.mpr (.inr hz))
    rw [ptrAt_of_ne h0] at hQ
    rw [← he] at hQ ⊢
    apply wp_onPool
    apply wp_ptrOf h.mapped (by omega)
    rw [h.base_eq]
    exact hQ

theorem wp_left {Q : ℕ → RbStore → Prop} (h : SearchRep B (fill p (node c l x r)) s)
    (hG : Access G B (fill p (node c l x r)).toList) (hQ : Q (ptrAt B (rootOff l)) s) :
    wp G (leftNode (B + x.off.toNat)) Q s := by
  have hl : s.db.field (B + x.off.toNat) RbtreeNode.leftOffset = rootOff l := (hangs_fill h.hangs).2.1
  unfold leftNode relative
  rw [if_neg h.ptr_ne]
  apply wp_bind
  apply h.wp_get hG h.mem (by decide)
  rw [hl]
  exact wp_ptr (p := ⟨.left, c, x, r⟩ :: p) h hQ

theorem wp_right {Q : ℕ → RbStore → Prop} (h : SearchRep B (fill p (node c l x r)) s)
    (hG : Access G B (fill p (node c l x r)).toList) (hQ : Q (ptrAt B (rootOff r)) s) :
    wp G (rightNode (B + x.off.toNat)) Q s := by
  have hr : s.db.field (B + x.off.toNat) RbtreeNode.rightOffset = rootOff r := (hangs_fill h.hangs).2.2.1
  unfold rightNode relative
  rw [if_neg h.ptr_ne]
  apply wp_bind
  apply h.wp_get hG h.mem (by decide)
  rw [hr]
  exact wp_ptr (p := ⟨.right, c, x, l⟩ :: p) h hQ

/-- From the place `p`, with the node above it as `*parent`. -/
theorem wp_getNodeLoop {rounds parent : ℕ} {Q : ℕ × ℕ → RbStore → Prop} (h : SearchRep B (fill p t) s)
    (hG : Access G B (fill p t).toList) (hr : t.toList.length < rounds)
    (hp : t = nil → parent = ptrAt B (parentOff p)) (hQ : Q (found B (locate TreeCell.key k t p)) s) :
    wp G (getNodeLoop strcmp k rounds (ptrAt B (rootOff t)) parent) Q s := by
  induction t generalizing p rounds parent with
  | nil =>
    obtain ⟨n, rfl⟩ : ∃ n, rounds = n + 1 := ⟨rounds - 1, by omega⟩
    unfold getNodeLoop
    rw [rootOff_nil, ptrAt_nil, if_neg (by simp), hp rfl]
    exact wp_pure hQ
  | node c l x r ihl ihr =>
    obtain ⟨n, rfl⟩ : ∃ n, rounds = n + 1 := ⟨rounds - 1, by omega⟩
    simp only [toList, List.length_append, List.length_cons] at hr
    have hx : ptrAt B (rootOff (node c l x r)) = B + x.off.toNat := ptrAt_of_ne (h.ne_nil h.mem)
    have hk : s.db.field (B + x.off.toNat) RbtreeNode.keyOffset = x.keyOffset :=
      (hangs_fill h.hangs).2.2.2.1
    unfold getNodeLoop
    rw [hx, if_pos h.ptr_ne]
    unfold locate at hQ
    apply wp_bind
    apply h.wp_get hG h.mem (by decide)
    rw [hk]
    apply wp_bind
    apply wp_strcmpKey h.mapped h.base_eq (h.key_le x h.mem) (h.key_holds x h.mem)
    by_cases h1 : x.key < k
    · rw [if_pos ((strcmp.pos_iff k x.key).mpr h1)]
      rw [if_pos h1] at hQ
      apply wp_bind
      apply h.wp_right hG
      apply ihr (p := ⟨.right, c, x, l⟩ :: p) h hG (by omega) _ hQ
      exact fun _ => hx.symm
    · rw [if_neg (mt (strcmp.pos_iff k x.key).mp h1)]
      rw [if_neg h1] at hQ
      by_cases h2 : k < x.key
      · rw [if_pos ((strcmp.neg_iff k x.key).mpr h2)]
        rw [if_pos h2] at hQ
        apply wp_bind
        apply h.wp_left hG
        apply ihl (p := ⟨.left, c, x, r⟩ :: p) h hG (by omega) _ hQ
        exact fun _ => hx.symm
      · rw [if_neg (mt (strcmp.neg_iff k x.key).mp h2)]
        rw [if_neg h2] at hQ
        exact wp_pure hQ

theorem wp_getNode {parent : ℕ} {Q : ℕ × ℕ → RbStore → Prop} (h : SearchRep B T s)
    (hG : Access G B T.toList) (hlen : T.toList.length < walkRounds) (hp : T = nil → parent = NULL)
    (hQ : Q (found B (locate TreeCell.key k T [])) s) : wp G (getNode strcmp k parent) Q s := by
  unfold getNode rootNode rbtreeNode
  apply wp_bind
  apply wp_bind
  apply wp_getRoot
  rw [h.root]
  apply wp_ptr (p := []) h
  exact wp_getNodeLoop (p := []) h hG hlen hp hQ

end SearchRep

theorem TreeRep.searchRep (h : TreeRep B u L T s) : SearchRep B T s where
  mapped := h.heap.toPoolMapped
  base_eq := h.heap.base_eq
  le x hx := (h.owned x (h.list ▸ hx)).bounds.2
  key_le x hx := (h.keys x (h.list ▸ hx) (h.keyed x (h.list ▸ hx))).le
  key_holds x hx := (h.keys x (h.list ▸ hx) (h.keyed x (h.list ▸ hx))).holds
  root := h.root
  hangs := h.holds.hangs

theorem TreeRep.wp_getNode {Q : ℕ × ℕ → RbStore → Prop} (h : TreeRep B u L T s) (hG : Access G B L)
    (hQ : Q (found B (locate TreeCell.key k T [])) s) : wp G (getNode strcmp k NULL) Q s := by
  apply h.searchRep.wp_getNode _ (LinkRep.length_lt (p := []) h.toLinkRep) (fun _ => rfl) hQ
  rw [h.list]
  exact hG

end

end TouchDb
