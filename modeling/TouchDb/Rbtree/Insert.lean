import TouchDb.Core.History
import TouchDb.Rbtree.Search
import TouchDb.Rbtree.State

/-! `touchdb_rbtree_insert`: the first node of a tree keeps the links that its block came with. -/
namespace TouchDb
open Prog Layout RbTree

/-- A process with an empty tree. Of the blocks that wait in the pool nothing is known. -/
structure RbStart where
  ptr : ℕ
  db : Touchdb
  alloc : PoolAlloc
  heap : Heap ptr db alloc

namespace RbStart

def store (s : RbStart) : RbStore := ⟨s.db, ⟨NIL⟩⟩

/-- There is room for `n` nodes. -/
def Room (s : RbStart) (n : ℕ) : Prop :=
  s.alloc.cur + n * (sizeofRbtreeNode + 24) ≤ touchdbDefaultPoolSize

end RbStart

/-- One call after the other. -/
def runInserts (strcmp : Strcmp) (ops : History CStr TouchdbVal) (s : RbStore) : Except Stop RbStore :=
  Run.exec (fun p => (touchdbRbtreeInsert strcmp p.1 p.2).next) ops s

/-- `get_node` finds the keys that were inserted, with the last value of each, and no others. -/
def Finds (strcmp : Strcmp) (ops : History CStr TouchdbVal) (t : RbStore) : Prop :=
  ∀ k, ∃ n parent l, getNode strcmp k NULL t = .ok ((n, parent), t, l) ∧
    match ops.last k with
    | none => n = NULL
    | some v => n ≠ NULL ∧ t.db.field n RbtreeNode.val = v

/-- The calls end, with a red-black search tree of the keys. -/
def GrowsTree (strcmp : Strcmp) (ops : History CStr TouchdbVal) (s : RbStart) : Prop :=
  ∃ t, runInserts strcmp ops s.store = .ok t ∧ Finds strcmp ops t ∧
    ∃ u T, TreeRep s.ptr u T.toList T t ∧ T.Valid ∧ Sorted TreeCell.key T

/-- So it is after every call, wherever there is room, whatever the blocks hold. -/
def InsertsOk (strcmp : Strcmp) (ops : History CStr TouchdbVal) : Prop :=
  ∀ s : RbStart, ∀ n ≤ ops.length, s.Room n → GrowsTree strcmp (ops.take n) s

section Wp
variable {B o : ℕ} {s : RbStore} {a : PoolAlloc} {G : Guard Stop RbEvent} {strcmp : Strcmp} {k : CStr}
  {v : TouchdbVal}

theorem wp_offsetOf_null {Q : PtrOffset → RbStore → Prop} (hQ : Q NIL s) : wp G (offsetOf NULL) Q s := by
  unfold offsetOf ptrOffsetOf
  apply wp_onPool
  rw [if_pos rfl]
  exact wp_pure hQ

/-- A block joins the empty tree. -/
theorem wp_attach_first {Q : Unit → RbStore → Prop} (h : Heap B s.db a) (ho : Owns a o sizeofRbtreeNode)
    (hG : ∀ e, G.emits e)
    (hQ : ∀ d, Heap B d a → (rbNode B d (UInt32.ofNat o)).parentOffset = NIL →
      (rbNode B d (UInt32.ofNat o)).leftOffset = (rbNode B s.db (UInt32.ofNat o)).leftOffset →
      Q () ⟨d, ⟨UInt32.ofNat o⟩⟩) : wp G (rbtreeAttach strcmp k (B + o) NULL) Q s := by
  have hoff : (UInt32.ofNat o).toNat = o := Words.toNat_ofNat ho.lt
  unfold rbtreeAttach
  apply wp_bind
  unfold offsetOf
  apply wp_onPool
  rw [← h.base_eq]
  apply wp_ptrOffsetOf h.toPoolMapped
  rw [h.base_eq]
  apply wp_bind
  apply wp_offsetOf_null
  apply wp_bind
  apply wp_setCell h ho (by decide) (hG _)
  intro h₁
  rw [if_pos rfl]
  apply wp_update
  · simp
  · apply hQ _ h₁
    · simp only [rbNode, hoff]
      exact field_write_same _ _ RbtreeNode.parentOffset _
    · simp only [rbNode, hoff]
      exact field_write_apart (by simp)

/-- A root without a parent becomes black, and that is all. -/
theorem wp_insertFixup_root {Q : Unit → RbStore → Prop} (h : Heap B s.db a)
    (ho : Owns a o sizeofRbtreeNode) (hG : ∀ e, G.emits e) (hroot : s.tree.rootOffset = UInt32.ofNat o)
    (hpar : (rbNode B s.db (UInt32.ofNat o)).parentOffset = NIL)
    (hQ : ∀ d, (rbNode B d (UInt32.ofNat o)).leftOffset = (rbNode B s.db (UInt32.ofNat o)).leftOffset →
      Q () { s with db := d }) : wp G (insertFixup (B + o)) Q s := by
  have hoff : (UInt32.ofNat o).toNat = o := Words.toNat_ofNat ho.lt
  have hb := ho.bounds
  have h0 : UInt32.ofNat o ≠ NIL := Words.ofNat_ne_zero ho.lt (by omega)
  obtain ⟨n, hn⟩ : ∃ n, walkRounds = n + 1 := ⟨walkRounds - 1, rfl⟩
  unfold insertFixup
  apply wp_bind
  rw [hn]
  unfold insertFixupLoop
  apply wp_bind
  unfold parentNode relative
  rw [if_neg (ho.ptr_ne B)]
  apply wp_bind
  apply wp_getCell h ho (by decide) (hG _)
  rw [if_pos (by rw [← hpar, rbNode, hoff])]
  apply wp_pure
  apply wp_bind
  unfold isRed
  rw [if_neg (by simp)]
  apply wp_pure
  rw [if_neg (by simp)]
  apply wp_pure
  apply wp_bind
  unfold rootNode rbtreeNode
  apply wp_bind
  apply wp_getRoot
  rw [hroot, if_neg h0]
  apply wp_onPool
  apply wp_ptrOf h.toPoolMapped (by omega)
  rw [h.base_eq, hoff]
  apply wp_setCell h ho (by decide) (hG _)
  intro h₁
  apply hQ
  simp only [rbNode, hoff]
  exact field_write_apart (by simp)

/-- The first key: only the value, the parent and the color of the node are written. -/
theorem wp_insert_first {Q : Unit → RbStore → Prop} (h : Heap B s.db a) (h0 : s.tree.rootOffset = NIL)
    (hG : ∀ e, G.emits e) (hr : a.cur + (sizeofRbtreeNode + 24) ≤ touchdbDefaultPoolSize)
    (hQ : ∀ o a' t, Handed a sizeofRbtreeNode o a' → t.tree.rootOffset = UInt32.ofNat o →
      (rbNode B t.db (UInt32.ofNat o)).leftOffset = (rbNode B s.db (UInt32.ofNat o)).leftOffset →
      Q () t) : wp G (touchdbRbtreeInsert strcmp k v) Q s := by
  unfold touchdbRbtreeInsert
  apply wp_bind
  apply wp_getNode_empty h0
  dsimp only
  rw [if_neg (by simp)]
  apply wp_bind
  apply wp_onPool
  apply wp_poolMalloc h (by decide) (by decide) hr fun _ => trivial
  intro o a' t ho ht _ hmem
  have hO : Owns a' o sizeofRbtreeNode := ho.owns (by decide)
  have hoff : (UInt32.ofNat o).toNat = o := Words.toNat_ofNat hO.lt
  apply wp_bind
  apply wp_setCell ht hO (by decide) (hG _)
  intro h₁
  apply wp_bind
  apply wp_attach_first h₁ hO hG
  intro d h₂ hpar hleft
  apply wp_insertFixup_root (s := ⟨d, ⟨UInt32.ofNat o⟩⟩) h₂ hO hG rfl hpar
  intro d' hleft'
  apply hQ o a' _ ho rfl
  rw [hleft', hleft]
  simp only [rbNode, hoff]
  refine (field_write_apart (by simp)).trans (field_congr fun i hi => ?_)
  have hi4 : i < 4 := hi
  exact hmem i (by unfold sizeofRbtreeNode; omega)

end Wp

/-- A root that is its own left child is no tree. -/
theorem LinkRep.left_ne_root {B : ℕ} {u : PoolAlloc} {L : List TreeCell} {T : RbTree TreeCell} {t : RbStore}
    (h : LinkRep B u L T t) (h0 : t.tree.rootOffset ≠ NIL) :
    (rbNode B t.db t.tree.rootOffset).leftOffset ≠ t.tree.rootOffset := by
  rw [h.root] at h0 ⊢
  cases T with
  | nil => exact absurd rfl h0
  | node c l x r =>
    obtain ⟨-, hx, -, -⟩ := h.holds
    have hl : (rbNode B t.db x.off).leftOffset = rootOff l := congrArg RbNode.leftOffset hx
    intro he
    have hroot : rootOff l = x.off := hl.symm.trans he
    obtain ⟨z, hz, hzl⟩ := exists_root (hroot.trans_ne h0)
    exact Distinct.node (p := []) h.distinct z (.inl hz) (hzl.trans hroot)

/-- The first block that this pool hands out for a node says that it is its own left child. -/
def SelfLinked (s : RbStart) : Prop :=
  ∀ o a', Handed s.alloc sizeofRbtreeNode o a' →
    (rbNode s.ptr s.db (UInt32.ofNat o)).leftOffset = UInt32.ofNat o

/-- Such a block has been in use and was released. -/
theorem exists_selfLinked : ∃ s : RbStart, s.Room 1 ∧ SelfLinked s := by
  obtain ⟨s₀, h₀⟩ := exists_newHeap
  have hcur₀ : freshAlloc.cur = 1 := rfl
  obtain ⟨o, a, s₁, ho, h₁, -⟩ := h₀.exists_handed (n := sizeofRbtreeNode) (by decide) (by decide)
    (by decide)
  have hO : Owns a o sizeofRbtreeNode := ho.owns (by decide)
  have hoff : (UInt32.ofNat o).toNat = o := Words.toNat_ofNat hO.lt
  have hcur := ho.cur_le
  have hq : a.queue = freshAlloc.queue := ho.queue_of_nil rfl
  obtain ⟨h₂, -⟩ := h₁.write (k := RbtreeNode.leftOffset.off) hO
    (show _ + (enc (UInt32.ofNat o)).length ≤ _ by simp [sizeofRbtreeNode])
  obtain ⟨c, hc, -⟩ := id hO
  obtain ⟨b, hb, rfl, -⟩ := (Segregated.payload_eq_some blkHdrSize_pos).mp hc
  have hfree : wp anyEvent (touchdbPoolFree 0 (4096 + (b.off + blkHdrSize))) (fun _ t =>
      PoolRep t 0 (a.free b) ∧ HdrOnly (s₁.write (4096 + (b.off + blkHdrSize) +
        RbtreeNode.leftOffset.off) (enc (UInt32.ofNat (b.off + blkHdrSize)))) t 0 a.blocks)
      (s₁.write (4096 + (b.off + blkHdrSize) + RbtreeNode.leftOffset.off)
        (enc (UInt32.ofNat (b.off + blkHdrSize)))) := by
    have hbase := h₂.base_eq
    have hwp := wp_touchdbPoolFree (G := anyEvent) h₂.toPoolRep hb fun _ _ => trivial
    rwa [hbase, Nat.add_assoc] at hwp
  obtain ⟨_, t, _, -, -, hr, hd⟩ := wp_ends hfree fun _ h => h
  obtain ⟨hf, ht, -, hF⟩ := h₂.freed hb hr hd
  refine ⟨⟨4096, t, a.free b, ht⟩, ?_, fun o' a' ho' => ?_⟩
  · have h1 := hf.cur_eq
    have h2 : 1 + (sizeofRbtreeNode + 24) + (sizeofRbtreeNode + 24) ≤ touchdbDefaultPoolSize := by decide
    rw [RbStart.Room, Nat.one_mul]
    dsimp only
    omega
  · have hwait : (a.free b).queue (sizeClass sizeofRbtreeNode) = [b.off] := by
      rw [ho.queue_of_freed hf, Function.update_self, hq, Nat.add_sub_cancel]
      rfl
    obtain rfl : o' = b.off + blkHdrSize := ho'.eq_of_queue hwait
    show Touchdb.field t _ RbtreeNode.leftOffset = _
    rw [hoff, hF.field (by simp) hO (by decide)]
    exact field_write_same _ _ RbtreeNode.leftOffset _

theorem not_growsTree_selfLinked {s : RbStart} {strcmp : Strcmp} {p : CStr × TouchdbVal} (hr : s.Room 1)
    (h : SelfLinked s) : ¬ GrowsTree strcmp [p] s := by
  rintro ⟨t, hrun, -, u, T, hT, -⟩
  have hwp : wp (⟨fun _ => False, fun _ => True⟩ : Guard Stop RbEvent)
      (touchdbRbtreeInsert strcmp p.1 p.2) (fun _ t => t.tree.rootOffset ≠ NIL ∧
        (rbNode s.ptr t.db t.tree.rootOffset).leftOffset = t.tree.rootOffset) s.store := by
    apply wp_insert_first s.heap rfl (fun _ => trivial)
    · rw [RbStart.Room, Nat.one_mul] at hr
      exact hr
    · intro o a' t ho hroot hleft
      have hO : Owns a' o sizeofRbtreeNode := ho.owns (by decide)
      have hb := hO.bounds
      rw [hroot, hleft]
      exact ⟨Words.ofNat_ne_zero hO.lt (by omega), h o a' ho⟩
  obtain ⟨_, t', l, hins, -, h0, hleft⟩ := wp_ends hwp fun _ h => h
  have hnext : (touchdbRbtreeInsert strcmp p.1 p.2).next s.store = .ok t' := by
    unfold next
    rw [hins]
  simp only [runInserts, Run.exec, hnext] at hrun
  obtain rfl := Except.ok.inj hrun
  exact hT.left_ne_root h0 hleft

/-- No key can be inserted, unless one knows what the blocks hold. -/
theorem insertsOk_iff (strcmp : Strcmp) (ops : History CStr TouchdbVal) :
    InsertsOk strcmp ops ↔ ops = [] := by
  constructor
  · intro h
    by_contra hne
    obtain ⟨p, ops, rfl⟩ := List.exists_cons_of_ne_nil hne
    obtain ⟨s, hr, hs⟩ := exists_selfLinked
    have h1 := h s 1 (by simp) hr
    exact not_growsTree_selfLinked hr hs h1
  · rintro rfl s n - -
    rw [List.take_nil]
    have hT : TreeRep s.ptr s.alloc [] .nil s.store :=
      ⟨⟨⟨s.heap, by simp, by simp, by simp⟩, rfl, rfl, trivial⟩, by simp⟩
    refine ⟨s.store, rfl, fun k => ?_, s.alloc, .nil, hT, ⟨rfl, 0, .nil⟩, .nil⟩
    have hget : wp (⟨fun _ => False, fun _ => True⟩ : Guard Stop RbEvent) (getNode strcmp k NULL)
        (fun a t => a = (NULL, NULL) ∧ t = s.store) s.store := wp_getNode_empty rfl ⟨rfl, rfl⟩
    obtain ⟨_, _, l, hrun, -, rfl, rfl⟩ := wp_ends hget fun _ h => h
    exact ⟨NULL, NULL, l, hrun, rfl⟩

/-- One key, in a pool whose first free block was its own left child when it was released. -/
theorem insertsOk_fails : ¬ InsertsOk signCmp [letter 97] ∧
    ∃ s : RbStart, s.Room 1 ∧ SelfLinked s ∧ ¬ GrowsTree signCmp [letter 97] s := by
  obtain ⟨s, hr, hs⟩ := exists_selfLinked
  have hnot := @not_growsTree_selfLinked s signCmp (letter 97) hr hs
  exact ⟨fun h => hnot (h s 1 (by simp) hr), s, hr, hs, hnot⟩

end TouchDb
