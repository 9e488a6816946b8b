import TouchDb.Rbtree.Search
import TouchDb.Rbtree.State

/-! How far `get_node` walks: in a red-black tree it reads no more nodes than stand on a path. -/
namespace TouchDb
open Prog Layout RbTree

/-- The nodes that a search for `k` reads from the subtree on: of each its key, and unless this is `k`
the link to one of its children. -/
def searchReads (B : ℕ) (k : CStr) : RbTree TreeCell → List RbEvent
  | .nil => []
  | .node _ l x r =>
    .access (B + x.off.toNat) ::
      if x.key < k then .access (B + x.off.toNat) :: searchReads B k r
      else if k < x.key then .access (B + x.off.toNat) :: searchReads B k l
      else []

/-- The nodes that a search for `k` meets, from the root on. -/
def searchPath (k : CStr) : RbTree TreeCell → List TreeCell
  | .nil => []
  | .node _ l x r => x :: if x.key < k then searchPath k r else if k < x.key then searchPath k l else []

/-- What a search reads of a node: its key, and the link to one child unless the key is the one looked
for. -/
def nodeReads (B : ℕ) (k : CStr) (x : TreeCell) : List RbEvent :=
  .access (B + x.off.toNat) :: if x.key = k then [] else [.access (B + x.off.toNat)]

theorem searchReads_eq (B : ℕ) (k : CStr) (t : RbTree TreeCell) :
    searchReads B k t = (searchPath k t).flatMap (nodeReads B k) := by
  induction t with
  | nil => rfl
  | node c l x r ihl ihr =>
    unfold searchReads searchPath
    rw [List.flatMap_cons, nodeReads]
    rcases lt_trichotomy x.key k with h | h | h
    · rw [if_pos h, if_pos h, if_neg h.ne, ihr]
      rfl
    · rw [h, if_neg (lt_irrefl k), if_neg (lt_irrefl k), if_neg (lt_irrefl k), if_neg (lt_irrefl k),
        if_pos rfl]
      rfl
    · rw [if_neg h.not_gt, if_neg h.not_gt, if_pos h, if_pos h, if_neg h.ne', ihl]
      rfl

/-- No path is longer than the tree is deep. -/
theorem length_searchPath (k : CStr) (t : RbTree TreeCell) : (searchPath k t).length ≤ t.depth := by
  induction t with
  | nil => exact le_rfl
  | node c l x r ihl ihr =>
    unfold searchPath depth
    split_ifs
    · simp only [List.length_cons]
      omega
    · simp only [List.length_cons]
      omega
    · simp only [List.length_cons, List.length_nil]
      omega

theorem length_nodeReads (B : ℕ) (k : CStr) (x : TreeCell) : (nodeReads B k x).length ≤ 2 := by
  unfold nodeReads
  split_ifs <;> simp

theorem length_flatMap_reads (B : ℕ) (k : CStr) (xs : List TreeCell) :
    (xs.flatMap (nodeReads B k)).length ≤ 2 * xs.length := by
  induction xs with
  | nil => exact le_rfl
  | cons x xs ih =>
    have hx := length_nodeReads B k x
    rw [List.flatMap_cons, List.length_append, List.length_cons]
    omega

section Runs
variable {B : ℕ} {s : RbStore} {p : Path TreeCell} {t l r : RbTree TreeCell} {x : TreeCell}
  {c : RbColor} {strcmp : Strcmp} {k : CStr}

/-- No access and no release. -/
def silent : Guard Stop RbEvent := ⟨fun _ => False, fun _ => False⟩

theorem run_silent {α : Type} {c : RbM α} {a : α} (h : wp silent c (fun b t => b = a ∧ t = s) s) :
    c s = .ok (a, s, []) := by
  obtain ⟨b, t, l, hc, hl, rfl, rfl⟩ := wp_ends h fun _ h => h
  obtain rfl : l = [] := List.eq_nil_iff_forall_not_mem.mpr hl
  exact hc

namespace SearchRep

/-- A field of a node is read by one access. -/
theorem run_get {α : Type} [Layout α] {f : Field α} (h : SearchRep B (fill p (node c l x r)) s)
    (hf : f.off + size α ≤ sizeofRbtreeNode) :
    getField (B + x.off.toNat) f s =
      .ok (s.db.field (B + x.off.toNat) f, s, [.access (B + x.off.toNat)]) := by
  have hle := h.le x h.mem
  have hload : onPool (load (B + x.off.toNat) f) s = .ok (s.db.field (B + x.off.toNat) f, s, []) := by
    apply run_silent
    apply wp_onPool
    apply wp_load (Nat.pos_of_ne_zero h.ptr_ne)
    · apply h.mapped.mapped
      · rw [h.base_eq]
        omega
      · rw [h.base_eq]
        omega
    · exact ⟨rfl, rfl⟩
  have hemit : emit (.access (B + x.off.toNat)) s = .ok ((), s, [.access (B + x.off.toNat)]) := rfl
  exact ok_bind hemit hload

theorem run_relative {f : Field PtrOffset} {u : RbTree TreeCell} {q : Path TreeCell}
    (h : SearchRep B (fill p (node c l x r)) s) (hf : f.off + 4 ≤ sizeofRbtreeNode)
    (hu : s.db.field (B + x.off.toNat) f = rootOff u) (hq : SearchRep B (fill q u) s) :
    relative (B + x.off.toNat) f s = .ok (ptrAt B (rootOff u), s, [.access (B + x.off.toNat)]) := by
  have hget := h.run_get (f := f) hf
  have hptr : (if rootOff u = NIL then return NULL else onPool (ptrOf 0 (rootOff u)) : RbM ℕ) s =
      .ok (ptrAt B (rootOff u), s, []) := run_silent (hq.wp_ptr ⟨rfl, rfl⟩)
  rw [hu] at hget
  unfold relative
  rw [if_neg h.ptr_ne]
  exact ok_bind hget hptr

theorem run_left (h : SearchRep B (fill p (node c l x r)) s) :
    leftNode (B + x.off.toNat) s = .ok (ptrAt B (rootOff l), s, [.access (B + x.off.toNat)]) :=
  h.run_relative (q := ⟨.left, c, x, r⟩ :: p) (by decide) (hangs_fill h.hangs).2.1 h

theorem run_right (h : SearchRep B (fill p (node c l x r)) s) :
    rightNode (B + x.off.toNat) s = .ok (ptrAt B (rootOff r), s, [.access (B + x.off.toNat)]) :=
  h.run_relative (q := ⟨.right, c, x, l⟩ :: p) (by decide) (hangs_fill h.hangs).2.2.1 h

/-- The key of a node is compared by one access. -/
theorem run_compare (h : SearchRep B (fill p (node c l x r)) s) (strcmp : Strcmp) (k : CStr) :
    (do let keyOffset ← getField (B + x.off.toNat) RbtreeNode.keyOffset
        strcmpKey strcmp k keyOffset : RbM ℤ) s =
      .ok (strcmp.cmp k x.key, s, [.access (B + x.off.toNat)]) := by
  have hget := h.run_get (f := RbtreeNode.keyOffset) (by decide)
  have hk : s.db.field (B + x.off.toNat) RbtreeNode.keyOffset = x.keyOffset :=
    (hangs_fill h.hangs).2.2.2.1
  have hcmp : strcmpKey strcmp k x.keyOffset s = .ok (strcmp.cmp k x.key, s, []) :=
    run_silent (wp_strcmpKey h.mapped h.base_eq (h.key_le x h.mem) (h.key_holds x h.mem) ⟨rfl, rfl⟩)
  rw [hk] at hget
  exact ok_bind hget hcmp

/-- From the place `p`, with as many rounds as the subtree is deep and one more. -/
theorem run_getNodeLoop {rounds parent : ℕ} (h : SearchRep B (fill p t) s) (hr : t.depth < rounds)
    (hp : t = nil → parent = ptrAt B (parentOff p)) :
    getNodeLoop strcmp k rounds (ptrAt B (rootOff t)) parent s =
      .ok (found B (locate TreeCell.key k t p), s, searchReads B k t) := by
  induction t generalizing p rounds parent with
  | nil =>
    obtain ⟨n, rfl⟩ : ∃ n, rounds = n + 1 := ⟨rounds - 1, by omega⟩
    unfold getNodeLoop
    rw [rootOff_nil, ptrAt_nil, if_neg (by simp), hp rfl]
    rfl
  | node c l x r ihl ihr =>
    obtain ⟨n, rfl⟩ : ∃ n, rounds = n + 1 := ⟨rounds - 1, by omega⟩
    simp only [depth] at hr
    have hx : ptrAt B (rootOff (node c l x r)) = B + x.off.toNat := ptrAt_of_ne (h.ne_nil h.mem)
    have hcmp := h.run_compare strcmp k
    unfold getNodeLoop locate searchReads
    rw [hx, if_pos h.ptr_ne, ← bind_then]
    by_cases h1 : x.key < k
    · have hrest : getNodeLoop strcmp k n (ptrAt B (rootOff r)) (B + x.off.toNat) s =
          .ok (found B (locate TreeCell.key k r (⟨.right, c, x, l⟩ :: p)), s, searchReads B k r) :=
        ihr h (by omega) fun _ => hx.symm
      rw [if_pos h1, if_pos h1]
      apply ok_bind hcmp
      rw [if_pos ((strcmp.pos_iff k x.key).mpr h1)]
      exact ok_bind h.run_right hrest
    · rw [if_neg h1, if_neg h1]
      by_cases h2 : k < x.key
      · have hrest : getNodeLoop strcmp k n (ptrAt B (rootOff l)) (B + x.off.toNat) s =
            .ok (found B (locate TreeCell.key k l (⟨.left, c, x, r⟩ :: p)), s, searchReads B k l) :=
          ihl h (by omega) fun _ => hx.symm
        rw [if_pos h2, if_pos h2]
        apply ok_bind hcmp
        rw [if_neg (mt (strcmp.pos_iff k x.key).mp h1), if_pos ((strcmp.neg_iff k x.key).mpr h2)]
        exact ok_bind h.run_left hrest
      · rw [if_neg h2, if_neg h2]
        apply ok_bind hcmp
        rw [if_neg (mt (strcmp.pos_iff k x.key).mp h1), if_neg (mt (strcmp.neg_iff k x.key).mp h2)]
        rfl

end SearchRep

end Runs

/-- A search of a red-black tree goes down one path, which has no more nodes than twice the logarithm
of their number. At each level it reads the key of the node and, unless it ends there, one link. -/
theorem RbState.getNode_reads (s : RbState) (strcmp : Strcmp) (k : CStr) : ∃ a l,
    getNode strcmp k NULL s.store = .ok (a, s.store, l) ∧
      l = (searchPath k s.tree).flatMap (nodeReads s.ptr k) ∧
      (searchPath k s.tree).length ≤ 2 * Nat.log 2 (s.tree.toList.length + 1) ∧
      l.length ≤ 4 * Nat.log 2 (s.tree.toList.length + 1) := by
  have hrep := s.rep.searchRep
  have hlen := LinkRep.length_lt (p := []) s.rep.toLinkRep
  have hdepth := depth_le_length s.tree
  have hroot : rootNode s.store = .ok (ptrAt s.ptr (rootOff s.tree), s.store, []) := by
    apply run_silent
    unfold rootNode rbtreeNode
    apply wp_bind
    apply wp_getRoot
    rw [hrep.root]
    exact hrep.wp_ptr (p := []) ⟨rfl, rfl⟩
  have hloop : getNodeLoop strcmp k walkRounds (ptrAt s.ptr (rootOff s.tree)) NULL s.store =
      .ok (found s.ptr (locate TreeCell.key k s.tree []), s.store, searchReads s.ptr k s.tree) :=
    hrep.run_getNodeLoop (p := []) (hdepth.trans_lt hlen) fun _ => rfl
  have hpath := length_searchPath k s.tree
  have hreads := length_flatMap_reads s.ptr k (searchPath k s.tree)
  have hlog := s.valid.depth_le
  refine ⟨_, _, ok_bind hroot hloop, ?_, by omega, ?_⟩
  · rw [List.nil_append, searchReads_eq]
  · rw [List.nil_append, searchReads_eq]
    omega

end TouchDb
