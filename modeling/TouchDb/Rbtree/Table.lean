import TouchDb.Rbtree.Attach
import TouchDb.Rbtree.Delete

/-! Runs of `touchdb_rbtree_insert` on keys that are there and of `touchdb_rbtree_del`: to its user the
tree is an ordered table. -/
namespace TouchDb
open Prog Layout RbTree

/-- A call of the tree. -/
inductive RbOp where
  | insert (k : CStr) (v : TouchdbVal)
  | del (k : CStr)

namespace RbOp

def run (strcmp : Strcmp) : RbOp → RbM Unit
  | insert k v => touchdbRbtreeInsert strcmp k v
  | del k => touchdbRbtreeDel strcmp k

/-- What a call does to a table that has the key of an insertion. -/
def update : RbOp → List (CStr × TouchdbVal) → List (CStr × TouchdbVal)
  | insert k v, ps => ps.map fun q => if q.1 = k then (k, v) else q
  | del k, ps => ps.filter fun q => decide (q.1 ≠ k)

end RbOp

section Wp
variable {B : ℕ} {u : PoolAlloc} {L : List TreeCell} {s : RbStore} {G : Guard Stop RbEvent}
  {p : Path TreeCell} {l r : RbTree TreeCell} {x : TreeCell} {c : RbColor} {v : TouchdbVal}

/-- The node gets another value. -/
def TreeCell.revalue (x : TreeCell) (v : TouchdbVal) : TreeCell := { x with val := v }

theorem TreeRep.wp_setVal {Q : Unit → RbStore → Prop} (h : TreeRep B u L (fill p (node c l x r)) s)
    (hG : Access G B L)
    (hQ : ∀ t, TreeRep B u (fill p (node c l (x.revalue v) r)).toList (fill p (node c l (x.revalue v) r)) t →
      Q () t) : wp G (setField (B + x.off.toNat) RbtreeNode.val v) Q s := by
  apply h.nodes.wp_set hG h.mem NodeField.val
  intro t ht
  apply hQ
  have hold := toList_fill_perm p c l x r
  have hnew := toList_fill_perm p c l (x.revalue v) r
  rw [h.list] at hold
  have hcells : Cells B t.db u (fill p (node c l (x.revalue v) r)).toList := by
    apply ((ht.toCells.perm hold).rekey (y := x.revalue v) rfl _).perm hnew.symm
    exact fun hk => (ht.toCells.perm hold).keys x List.mem_cons_self hk
  have hmem : ∀ y ∈ (fill p (node c l (x.revalue v) r)).toList, ∃ z ∈ L, z.off = y.off ∧ z.keyed = y.keyed := by
    intro y hy
    rcases List.mem_cons.mp (hnew.mem_iff.mp hy) with rfl | hy
    · exact ⟨x, h.mem, rfl, rfl⟩
    · exact ⟨y, hold.mem_iff.mpr (List.mem_cons_of_mem x hy), rfl, rfl⟩
  have hnodes : Nodes B u (fill p (node c l (x.revalue v) r)).toList
      ((linksOf B s).set x.off (NodeField.val.set v)) t := by
    refine ⟨hcells, fun y hy => ?_, ht.root_eq⟩
    obtain ⟨z, hz, he, -⟩ := hmem y hy
    rw [← he]
    exact ht.node z hz
  obtain ⟨hpath, hx0, hx, hl, hr⟩ := h.holdsPath
  have hne {y : TreeCell} (hy : y ∈ l.toList ∨ y ∈ r.toList ∨ y ∈ pathCells p) :
      ((linksOf B s).set x.off (NodeField.val.set v)).node y.off = (linksOf B s).node y.off :=
    set_ne _ _ (h.distinct.node y hy)
  have hholds : (linksOf B s).root = rootOff (fill p (node c l (x.revalue v) r)) ∧
      Holds ((linksOf B s).set x.off (NodeField.val.set v)).node NIL
        (fill p (node c l (x.revalue v) r)) := by
    apply (holds_fill p (node c l (x.revalue v) r)).mpr
    refine ⟨hpath.congr fun y hy => hne (.inr (.inr hy)), hx0, ?_, hl.congr fun y hy => hne (.inl hy),
      hr.congr fun y hy => hne (.inr (.inl hy))⟩
    have hself := set_self (linksOf B s) x.off (NodeField.val.set v)
    rw [hx] at hself
    exact hself
  refine ⟨hnodes.linkRep rfl hholds.1 hholds.2, fun y hy => ?_⟩
  obtain ⟨z, hz, -, hk⟩ := hmem y hy
  rw [← hk]
  exact h.keyed z hz

/-- An insertion that finds its key. -/
theorem TreeRep.wp_insert_present {strcmp : Strcmp} {Q : Unit → RbStore → Prop}
    (h : TreeRep B u L (fill p (node c l x r)) s) (hG : Access G B L)
    (hloc : locate TreeCell.key x.key (fill p (node c l x r)) [] = (p, node c l x r))
    (hQ : ∀ t, TreeRep B u (fill p (node c l (x.revalue v) r)).toList (fill p (node c l (x.revalue v) r)) t →
      Q () t) : wp G (touchdbRbtreeInsert strcmp x.key v) Q s := by
  unfold touchdbRbtreeInsert
  apply wp_bind
  apply h.wp_getNode hG
  rw [hloc]
  dsimp only [found]
  rw [if_pos ((h.owned x h.mem).ptr_ne B)]
  exact h.wp_setVal hG hQ

end Wp

namespace RbState
variable {s : RbState} {strcmp : Strcmp} {k : CStr} {v : TouchdbVal} {op : RbOp} {ops : List RbOp}

/-- What the tree says, in the order of its keys. -/
def pairs (s : RbState) : List (CStr × TouchdbVal) := s.tree.toList.map TreeCell.pair

/-- The keys of insertions are there, and what is taken out can be taken out. -/
def Takes (s : RbState) : RbOp → Prop
  | .insert k _ => k ∈ s.tree.toList.map TreeCell.key
  | .del k => s.mended k = true

/-- So it is at every call of a run. -/
def TakesAll (strcmp : Strcmp) : List RbOp → RbState → Prop
  | [], _ => True
  | op :: ops, s => s.Takes op ∧
    ∀ t : RbState, t.ptr = s.ptr → (op.run strcmp).next s.store = .ok t.store → TakesAll strcmp ops t

/-- `get_node` finds exactly what the tree says. -/
def Answers (s : RbState) (strcmp : Strcmp) : Prop :=
  ∀ k, ∃ n parent l, getNode strcmp k NULL s.store = .ok ((n, parent), s.store, l) ∧
    ∀ v, (k, v) ∈ s.pairs ↔ n ≠ NULL ∧ s.store.db.field n RbtreeNode.val = v

/-- A key that is there gets another value. -/
theorem step_insert (h : k ∈ s.tree.toList.map TreeCell.key) (strcmp : Strcmp) (v : TouchdbVal) :
    ∃ t : RbState, t.ptr = s.ptr ∧ (touchdbRbtreeInsert strcmp k v).next s.store = .ok t.store ∧
      t.pairs = (RbOp.insert k v).update s.pairs := by
  rcases hloc : locate TreeCell.key k s.tree [] with ⟨p, _ | ⟨c, l, x, r⟩⟩
  · obtain ⟨htree, haround⟩ := locate_nil_eq s.sorted hloc
    rw [← htree] at h
    exact absurd h (notMem_of_around haround)
  · obtain ⟨htree, rfl⟩ := tree_eq hloc
    have hrep := s.rep
    have hval := s.valid
    have hsort := s.sorted
    rw [htree] at hloc hrep hval hsort
    have hwp : wp (among s.ptr (fill p (node c l x r)).toList) (touchdbRbtreeInsert strcmp x.key v)
        (fun _ t => TreeRep s.ptr s.alloc (fill p (node c l (x.revalue v) r)).toList
          (fill p (node c l (x.revalue v) r)) t) s.store :=
      hrep.wp_insert_present (access_among _ _) hloc fun _ ht => ht
    obtain ⟨_, t, hrun, ht⟩ := next_ends hwp fun _ h => h
    have hkeys : (fill p (node c l (x.revalue v) r)).toList.map TreeCell.key =
        (fill p (node c l x r)).toList.map TreeCell.key := hsort.map_eq rfl fun _ _ => rfl
    refine ⟨⟨s.ptr, t, s.alloc, _, ht, hval.relabel _, ?_⟩, rfl, hrun, ?_⟩
    · show List.Pairwise _ _
      rw [hkeys]
      exact hsort
    · show _ = (s.tree.toList.map TreeCell.pair).map fun q => if q.1 = x.key then (x.key, v) else q
      rw [htree, List.map_map]
      apply hsort.map_eq
      · exact (if_pos rfl).symm
      · exact fun z hz => if_neg hz

theorem step_del (h : s.mended k = true) (strcmp : Strcmp) :
    ∃ t : RbState, t.ptr = s.ptr ∧ (touchdbRbtreeDel strcmp k).next s.store = .ok t.store ∧
      t.pairs = (RbOp.del k).update s.pairs := by
  have hok : s.DelOk strcmp k := by
    unfold mended at h
    rcases hloc : locate TreeCell.key k s.tree [] with ⟨p, _ | ⟨c, l, x, r⟩⟩
    · exact delOk_absent hloc
    · rw [hloc] at h
      exact delOk_found hloc h
  obtain ⟨t, l, hrun, -, u, T, hT, hval, hsort, hpairs⟩ := hok
  have hfilter : (s.tree.toList.map TreeCell.pair).filter (fun q => decide (q.1 ≠ k)) =
      (s.tree.toList.filter fun x => decide (x.key ≠ k)).map TreeCell.pair := List.filter_map
  refine ⟨⟨s.ptr, t, u, T, hT, hval, hsort⟩, rfl, ?_, hpairs.trans hfilter.symm⟩
  unfold next
  rw [hrun]

theorem step_takes (h : s.Takes op) (strcmp : Strcmp) : ∃ t : RbState, t.ptr = s.ptr ∧
    (op.run strcmp).next s.store = .ok t.store ∧ t.pairs = op.update s.pairs := by
  cases op with
  | insert k v => exact step_insert h strcmp v
  | del k => exact step_del h strcmp

theorem answers (s : RbState) (strcmp : Strcmp) : s.Answers strcmp := by
  intro k
  have hget : wp (⟨fun _ => False, fun _ => True⟩ : Guard Stop RbEvent) (getNode strcmp k NULL)
      (fun a t => a = found s.ptr (locate TreeCell.key k s.tree []) ∧ t = s.store) s.store :=
    s.rep.wp_getNode (fun _ _ => trivial) ⟨rfl, rfl⟩
  obtain ⟨_, _, l, hrun, -, rfl, rfl⟩ := wp_ends hget fun _ h => h
  refine ⟨_, _, l, hrun, fun v => ?_⟩
  have hpairs : (k, v) ∈ s.pairs ↔ ∃ y ∈ s.tree.toList, y.key = k ∧ y.val = v := by
    simp only [pairs, TreeCell.pair, List.mem_map, Prod.mk.injEq]
  rw [hpairs]
  rcases hloc : locate TreeCell.key k s.tree [] with ⟨p, _ | ⟨c, l, x, r⟩⟩
  · obtain ⟨htree, haround⟩ := locate_nil_eq s.sorted hloc
    have habsent := notMem_of_around haround
    rw [htree] at habsent
    constructor
    · rintro ⟨y, hy, rfl, -⟩
      exact absurd (List.mem_map_of_mem hy) habsent
    · exact fun h => absurd rfl h.1
  · obtain ⟨htree, hkey⟩ := tree_eq hloc
    have hrep := s.rep.toLinkRep
    rw [htree] at hrep
    have hx : x ∈ s.tree.toList := htree ▸ hrep.mem
    have hne : s.ptr + x.off.toNat ≠ NULL := (s.rep.owned x hx).ptr_ne s.ptr
    have hfield : s.store.db.field (s.ptr + x.off.toNat) RbtreeNode.val = x.val :=
      congrArg RbNode.val hrep.node_eq
    constructor
    · rintro ⟨y, hy, hyk, rfl⟩
      obtain rfl := s.sorted.inj hy hx (hyk.trans hkey.symm)
      exact ⟨hne, hfield⟩
    · rintro ⟨-, hv⟩
      exact ⟨x, hx, hkey, hfield.symm.trans hv⟩

/-- In every such run the tree changes as an ordered table does, and answers as it would. -/
theorem runOps_table (h : TakesAll strcmp ops s) : ∃ t : RbState, t.ptr = s.ptr ∧
    Run.exec (fun op => (RbOp.run strcmp op).next) ops s.store = .ok t.store ∧
    t.pairs = ops.foldl (fun ps op => op.update ps) s.pairs ∧ t.Answers strcmp := by
  induction ops generalizing s with
  | nil => exact ⟨s, rfl, rfl, rfl, s.answers strcmp⟩
  | cons op ops ih =>
    obtain ⟨hop, hops⟩ := h
    obtain ⟨s₁, hptr, hstep, hpairs⟩ := step_takes hop strcmp
    obtain ⟨t, hptr', hrun, hpairs', ht⟩ := ih (hops s₁ hptr hstep)
    refine ⟨t, hptr'.trans hptr, ?_, ?_, ht⟩
    · unfold Run.exec
      rw [hstep]
      exact hrun
    · rw [List.foldl_cons, ← hpairs]
      exact hpairs'

theorem keys_eq (s : RbState) : s.tree.toList.map TreeCell.key = s.pairs.map Prod.fst := by
  unfold pairs
  rw [List.map_map]
  rfl

/-- A store holds one table. -/
theorem mem_pairs_congr {t : RbState} (h : t.store = s.store) : (k, v) ∈ t.pairs ↔ (k, v) ∈ s.pairs := by
  obtain ⟨n, parent, l, hrun, hs⟩ := s.answers signCmp k
  obtain ⟨n', parent', l', hrun', ht⟩ := t.answers signCmp k
  rw [h, hrun] at hrun'
  cases hrun'
  rw [ht, hs, h]

theorem pairs_congr {t : RbState} (h : t.store = s.store) : t.pairs = s.pairs := by
  have hsort (r : RbState) : r.pairs.Pairwise fun p q => p.1 < q.1 := by
    apply List.pairwise_map.mpr
    exact List.pairwise_map.mp r.sorted
  have hnodup (r : RbState) : r.pairs.Nodup := (hsort r).imp fun hlt he => hlt.ne (congrArg Prod.fst he)
  have hperm : t.pairs.Perm s.pairs :=
    (List.perm_ext_iff_of_nodup (hnodup t) (hnodup s)).mpr fun _ => mem_pairs_congr h
  apply hperm.eq_of_pairwise _ (hsort t) (hsort s)
  exact fun p q _ _ hpq hqp => absurd hpq hqp.not_gt

/-- What is asked of the calls after the first one can be told from the table. -/
theorem TakesAll.cons (hop : s.Takes op) (hops : ∀ t : RbState, t.pairs = op.update s.pairs →
    TakesAll strcmp ops t) : TakesAll strcmp (op :: ops) s := by
  refine ⟨hop, fun t _ ht => hops t ?_⟩
  obtain ⟨s₁, -, h₁, hp⟩ := step_takes hop strcmp
  rw [← hp]
  exact pairs_congr (Except.ok.inj (ht.symm.trans h₁))

theorem mended_of_absent (h : k ∉ s.pairs.map Prod.fst) : s.mended k = true := by
  unfold mended
  rcases hloc : locate TreeCell.key k s.tree [] with ⟨p, _ | ⟨c, l, x, r⟩⟩
  · rfl
  · obtain ⟨htree, rfl⟩ := tree_eq hloc
    have hx : x ∈ s.tree.toList := by
      rw [htree]
      exact mem_fill.mpr (.inr (by simp [toList]))
    rw [← keys_eq] at h
    exact absurd (List.mem_map_of_mem hx) h

/-- A red leaf is taken out, then the root gets another value, and a key that is not there goes. -/
theorem runOps_table_two : ∃ s t : RbState, s.pairs = [letter 97, letter 98] ∧
    Run.exec (fun op => (RbOp.run signCmp op).next)
      [.del (letter 97).1, .insert (letter 98).1 ⟨.str, nullAddr⟩, .del (letter 99).1] s.store = .ok t.store ∧
    t.pairs = [((letter 98).1, ⟨.str, nullAddr⟩)] ∧ t.Answers signCmp := by
  obtain ⟨s, hs⟩ := exists_rbState (node .black (node .red nil (letter 97) nil) (letter 98) nil)
    ⟨rfl, 1, .black (.red .nil .nil rfl rfl) .nil⟩ (by unfold Sorted; decide) (by decide) (by decide)
  have hpairs : s.pairs = [letter 97, letter 98] := by
    unfold pairs
    rw [← toList_map, hs]
    rfl
  have hdel : s.mended (letter 97).1 = true := by
    simp only [map_eq_node, map_eq_nil] at hs
    obtain ⟨_, x, _, ht, ⟨_, y, _, rfl, rfl, hy, rfl⟩, hx, rfl⟩ := hs
    have hkx : x.key = (letter 98).1 := congrArg Prod.fst hx
    have hky : y.key = (letter 97).1 := congrArg Prod.fst hy
    have hlt : (letter 97).1 < (letter 98).1 := by decide
    have hloc : locate TreeCell.key (letter 97).1 s.tree [] =
        ([⟨.left, .black, x, nil⟩], node .red nil y nil) := by
      rw [ht, locate, hkx, if_neg hlt.not_gt, if_pos hlt, locate, hky, if_neg (lt_irrefl _),
        if_neg (lt_irrefl _)]
    unfold mended
    rw [hloc]
    rfl
  have htakes : TakesAll signCmp
      [.del (letter 97).1, .insert (letter 98).1 ⟨.str, nullAddr⟩, .del (letter 99).1] s := by
    apply TakesAll.cons (show s.Takes (.del (letter 97).1) from hdel)
    intro t ht
    rw [hpairs] at ht
    apply TakesAll.cons
    · show (letter 98).1 ∈ t.tree.toList.map TreeCell.key
      rw [keys_eq, ht]
      decide
    · intro t' ht'
      rw [ht] at ht'
      refine TakesAll.cons (mended_of_absent ?_) fun _ _ => trivial
      rw [ht']
      decide
  obtain ⟨t, -, hrun, ht, ha⟩ := runOps_table htakes
  refine ⟨s, t, hpairs, hrun, ?_, ha⟩
  rw [ht, hpairs]
  decide

end RbState

end TouchDb
