import TouchDb.Rbtree.Search
import TouchDb.Rbtree.State

/-! What `get_node` finds in a search tree: the node with the key, or the place where the key
belongs. -/
namespace TouchDb
open Prog Layout RbTree

/-- A store with a search tree. Nothing is known of the links to parents and of the colors. -/
structure SearchState where
  ptr : ℕ
  store : RbStore
  tree : RbTree TreeCell
  rep : SearchRep ptr tree store
  sorted : Sorted TreeCell.key tree

namespace SearchState
variable (s : SearchState)

/-- The node at `parent` has no child on the side where `strcmp` sends `k`, and a node with the key `k`
can stand there. -/
def Slot (strcmp : Strcmp) (k : CStr) (parent : ℕ) : Prop :=
  ∃ p c l x r, s.tree = fill p (node c l x r) ∧ parent = s.ptr + x.off.toNat ∧
    (0 < strcmp.cmp k x.key ∧ s.store.db.field parent RbtreeNode.rightOffset = NIL ∧ r = nil ∧
        (∀ y d, y.key = k → Sorted TreeCell.key (fill p (node c l x (node d nil y nil)))) ∨
      strcmp.cmp k x.key < 0 ∧ s.store.db.field parent RbtreeNode.leftOffset = NIL ∧ l = nil ∧
        ∀ y d, y.key = k → Sorted TreeCell.key (fill p (node c (node d nil y nil) x r)))

variable {s} {strcmp : Strcmp} {k : CStr} {x y : TreeCell} {p : Path TreeCell}

/-- The nodes are apart, because their keys are. -/
theorem off_inj (hx : x ∈ s.tree.toList) (hy : y ∈ s.tree.toList) (he : x.off = y.off) : x = y := by
  apply s.sorted.inj hx hy
  have hko : x.keyOffset = y.keyOffset := by
    rw [← s.rep.hangs.keyOffset x hx, ← s.rep.hangs.keyOffset y hy, he]
  apply holds_inj (s.rep.key_holds x hx)
  rw [hko]
  exact s.rep.key_holds y hy

/-- The pool has room for fewer nodes than the rounds of a walk. -/
theorem length_lt : s.tree.toList.length < walkRounds := by
  have hkeys : (s.tree.toList.map TreeCell.key).Nodup := List.Pairwise.imp ne_of_lt s.sorted
  have hnodup : (s.tree.toList.map fun x => x.off.toNat).Nodup := by
    apply List.Nodup.map_on _ (List.Nodup.of_map _ hkeys)
    exact fun x hx y hy he => off_inj hx hy (UInt32.toNat_inj.mp he)
  have hsub : (s.tree.toList.map fun x => x.off.toNat) ⊆ List.range' 1 (touchdbDefaultPoolSize - 1) := by
    intro o ho
    obtain ⟨x, hx, rfl⟩ := List.mem_map.mp ho
    have hle := s.rep.le x hx
    have hne : x.off.toNat ≠ 0 := fun h0 => s.rep.ne_nil hx (UInt32.toNat_inj.mp h0)
    unfold sizeofRbtreeNode at hle
    rw [List.mem_range'_1]
    omega
  have hlen := hnodup.length_le_of_subset hsub
  rw [List.length_map, List.length_range'] at hlen
  unfold walkRounds touchdbDefaultPoolSize at *
  omega

/-- A search that ends at a `nil` below a node ends where the key belongs. -/
theorem slot_of_locate {f : Crumb TreeCell} (h : locate TreeCell.key k s.tree [] = (f :: p, .nil)) :
    s.Slot strcmp k (s.ptr + f.label.off.toNat) := by
  obtain ⟨htree, haround⟩ := locate_nil_eq s.sorted h
  have hsorted := s.sorted
  rw [← htree] at hsorted
  have hhangs := s.rep.hangs
  rw [← htree] at hhangs
  rcases f with ⟨⟨⟩, c, x, v⟩
  · have hlt : k < x.key := haround.2 x (by simp [Path.after])
    refine ⟨p, c, nil, x, v, htree.symm, rfl, .inr ⟨(strcmp.neg_iff k x.key).mpr hlt, ?_, rfl, ?_⟩⟩
    · exact (hangs_fill (t := node c nil x v) hhangs).2.1
    · rintro y d rfl
      exact Sorted.attach (p := ⟨.left, c, x, v⟩ :: p) hsorted haround
  · have hlt : x.key < k := haround.1 x (by simp [Path.before])
    refine ⟨p, c, v, x, nil, htree.symm, rfl, .inl ⟨(strcmp.pos_iff k x.key).mpr hlt, ?_, rfl, ?_⟩⟩
    · exact (hangs_fill (t := node c v x nil) hhangs).2.2.1
    · rintro y d rfl
      exact Sorted.attach (p := ⟨.right, c, x, v⟩ :: p) hsorted haround

/-- The search ends. It finds the key if and only if the tree has it, and the place of a key that the
tree does not have. -/
theorem getNode_locates (s : SearchState) (strcmp : Strcmp) (k : CStr) (parent₀ : ℕ) :
    ∃ n parent l, getNode strcmp k parent₀ s.store = .ok ((n, parent), s.store, l) ∧
      (n ≠ NULL ↔ k ∈ s.tree.toList.map TreeCell.key) ∧
      (∀ x ∈ s.tree.toList, x.key = k → n = s.ptr + x.off.toNat) ∧
      (k ∉ s.tree.toList.map TreeCell.key → s.tree ≠ nil → s.Slot strcmp k parent) := by
  rcases hloc : locate TreeCell.key k s.tree [] with ⟨p, _ | ⟨c, l, x, r⟩⟩
  · obtain ⟨htree, haround⟩ := locate_nil_eq s.sorted hloc
    have habsent := notMem_of_around haround
    rw [htree] at habsent
    have hnone : ∀ x ∈ s.tree.toList, x.key = k → (NULL : ℕ) = s.ptr + x.off.toNat := by
      rintro x hx rfl
      exact absurd (List.mem_map_of_mem hx) habsent
    cases p with
    | nil =>
      have hnil : s.tree = nil := htree.symm
      have hroot : s.store.tree.rootOffset = NIL := by
        rw [s.rep.root, hnil, rootOff_nil]
      have hwp : wp (⟨fun _ => False, fun _ => True⟩ : Guard Stop RbEvent)
          (getNode strcmp k parent₀) (fun a t => a = (NULL, parent₀) ∧ t = s.store) s.store :=
        wp_getNode_empty hroot ⟨rfl, rfl⟩
      obtain ⟨_, _, l, hrun, -, rfl, rfl⟩ := wp_ends hwp fun _ h => h
      exact ⟨NULL, parent₀, l, hrun, by simp [habsent], hnone, fun _ h => absurd hnil h⟩
    | cons f p =>
      have hne : s.tree ≠ nil := by
        intro hnil
        rw [hnil, locate] at hloc
        cases hloc
      have hf : f.label ∈ s.tree.toList := by
        rw [← htree]
        exact label_mem_fill
      have hwp : wp (⟨fun _ => False, fun _ => True⟩ : Guard Stop RbEvent)
          (getNode strcmp k parent₀)
          (fun a t => a = (NULL, s.ptr + f.label.off.toNat) ∧ t = s.store) s.store := by
        apply s.rep.wp_getNode (fun _ _ => trivial) length_lt fun h => absurd h hne
        rw [hloc]
        exact ⟨by rw [found, parentOff, ptrAt_of_ne (s.rep.ne_nil hf)], rfl⟩
      obtain ⟨_, _, l, hrun, -, rfl, rfl⟩ := wp_ends hwp fun _ h => h
      exact ⟨NULL, _, l, hrun, by simp [habsent], hnone, fun _ _ => slot_of_locate hloc⟩
  · obtain ⟨htree, hkey⟩ := locate_node_eq hloc
    have hx : x ∈ s.tree.toList := by
      rw [← htree]
      exact mem_fill.mpr (.inr (by simp [toList]))
    have hpresent : k ∈ s.tree.toList.map TreeCell.key := hkey ▸ List.mem_map_of_mem hx
    have hwp : wp (⟨fun _ => False, fun _ => True⟩ : Guard Stop RbEvent) (getNode strcmp k parent₀)
        (fun a t => a = (s.ptr + x.off.toNat, s.ptr + x.off.toNat) ∧ t = s.store) s.store := by
      apply s.rep.wp_getNode (fun _ _ => trivial) length_lt
      · intro hnil
        rw [hnil] at hx
        exact absurd hx List.not_mem_nil
      · rw [hloc]
        exact ⟨rfl, rfl⟩
    obtain ⟨_, _, l, hrun, -, rfl, rfl⟩ := wp_ends hwp fun _ h => h
    refine ⟨_, _, l, hrun, ?_, fun y hy hyk => ?_, fun h => absurd hpresent h⟩
    · exact iff_of_true s.rep.ptr_ne hpresent
    · rw [s.sorted.inj hy hx (hyk.trans hkey.symm)]

end SearchState

/-- The store of a red-black tree. -/
def RbState.searchState (s : RbState) : SearchState := ⟨s.ptr, s.store, s.tree, s.rep.searchRep, s.sorted⟩

/-- In a tree of two letters the first one is found, and the place of a third one. -/
theorem SearchState.getNode_locates_two : ∃ s : SearchState,
    (∃ n parent l, getNode signCmp (letter 97).1 NULL s.store = .ok ((n, parent), s.store, l) ∧ n ≠ NULL) ∧
    ∃ parent l, getNode signCmp (letter 99).1 NULL s.store = .ok ((NULL, parent), s.store, l) ∧
      s.Slot signCmp (letter 99).1 parent := by
  obtain ⟨s, hs⟩ := exists_rbState (node .black (node .red nil (letter 97) nil) (letter 98) nil)
    ⟨rfl, 1, .black (.red .nil .nil rfl rfl) .nil⟩ (by unfold Sorted; decide) (by decide) (by decide)
  have hkeys : s.searchState.tree.toList.map TreeCell.key = [(letter 97).1, (letter 98).1] := by
    have hpairs : s.tree.toList.map TreeCell.pair = [letter 97, letter 98] := by
      rw [← toList_map, hs]
      rfl
    have hmap := congrArg (List.map Prod.fst) hpairs
    rwa [List.map_map] at hmap
  have hne : s.searchState.tree ≠ nil := by
    intro hnil
    rw [hnil] at hkeys
    cases hkeys
  obtain ⟨n, parent, l, hrun, hn, -, -⟩ := s.searchState.getNode_locates signCmp (letter 97).1 NULL
  obtain ⟨n', parent', l', hrun', hn', -, hslot⟩ := s.searchState.getNode_locates signCmp (letter 99).1 NULL
  rw [hkeys] at hn hn' hslot
  have hnull : n' = NULL := by
    by_contra hc
    exact absurd (hn'.mp hc) (by decide)
  exact ⟨s.searchState, ⟨n, parent, l, hrun, hn.mpr (by decide)⟩, parent', l', hnull ▸ hrun',
    hslot (by decide) hne⟩

end TouchDb
