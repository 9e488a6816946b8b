import TouchDb.Chain.Insert
import TouchDb.Chain.Lookup
import TouchDb.Chain.Client

/-! `touchdb_chain_insert_idx`: the address of a value inside a node is passed on as that of a
node, so that the insertion follows and writes links that are none. -/
namespace TouchDb
open Prog Layout

/-- Everything is allowed. -/
def wild : Guard Stop Event := ⟨fun _ => True, fun _ => True⟩

section Wild
variable {α : Type} [Layout α] {s : Touchdb} {p : ℕ} {f : Field α} {v : α}

theorem wild_load {Q : α → Touchdb → Prop} (h : Q (s.field p f) s) : wp wild (load p f) Q s := by
  by_cases hp : p ≠ NULL ∧ s.mapped (p + f.off) (size α) = true
  · have hr : load p f s = .ok (s.field p f, s, []) := if_pos hp
    exact (wp_ok hr).mpr ⟨by simp, h⟩
  · have hr : load p f s = .error (.fault, []) := if_neg hp
    exact wp_fail hr trivial

/-- Whatever is stored to, only those bytes change. -/
theorem wild_store {Q : Unit → Touchdb → Prop} (h : Q () (s.write (p + f.off) (enc v))) :
    wp wild (store p f v) Q s := by
  by_cases hp : p ≠ NULL ∧ s.mapped (p + f.off) (size α) = true
  · have hr : store p f v s = .ok ((), s.write (p + f.off) (enc v),
        [.store (p + f.off) (size α) (s.write (p + f.off) (enc v))]) := if_pos hp
    exact (wp_ok hr).mpr ⟨fun _ _ => trivial, h⟩
  · have hr : store p f v s = .error (.fault, []) := if_neg hp
    exact wp_fail hr trivial

theorem wild_poolAt {Q : ℕ → Touchdb → Prop} {i : Int32} (h : ∀ j, Q j s) : wp wild (poolAt i) Q s := by
  by_cases hi : 0 ≤ i.toInt ∧ i.toInt < touchdbPoolListSize
  · have hr : poolAt i s = .ok (i.toInt.toNat, s, []) := if_pos hi
    exact (wp_ok hr).mpr ⟨by simp, h _⟩
  · have hr : poolAt i s = .error (.fault, []) := if_neg hi
    exact wp_fail hr trivial

theorem wild_ptrOf {Q : ℕ → Touchdb → Prop} {j : ℕ} {offset : PtrOffset} (h : ∀ q, Q q s) :
    wp wild (ptrOf j offset) Q s := by
  unfold ptrOf
  apply wp_bind
  apply wp_getPool
  apply wp_ite
  · intro _
    exact wp_pure (h NULL)
  · intro _
    apply wp_bind
    by_cases hi : 0 ≤ (s.poolList j).idx.toInt ∧ (s.poolList j).idx.toInt < touchdbPoolListSize
    · have hr : shmStart j s = .ok (s.base j, s, []) := if_pos hi
      exact (wp_ok hr).mpr ⟨by simp, wp_pure (h _)⟩
    · have hr : shmStart j s = .error (.fault, []) := if_neg hi
      exact wp_fail hr trivial

/-- A link leads anywhere, but following it writes nothing. -/
theorem wild_followLink {Q : ℕ → Touchdb → Prop} {e : Field TouchdbAddr} (h : ∀ q, Q q s) :
    wp wild (followLink p e) Q s := by
  unfold followLink
  apply wp_ite
  · intro _
    exact wp_pure (h NULL)
  · intro _
    apply wp_bind
    apply wild_load
    apply wp_ite
    · intro _
      exact wp_pure (h NULL)
    · intro _
      apply wp_bind
      apply wp_translate trivial
      apply wp_bind
      apply wild_poolAt
      intro j
      exact wild_ptrOf h

end Wild

section
variable {B : ℕ} {s t u : Touchdb} {a a' a'' : PoolAlloc} {C N N' o m : ℕ} {q l r : List ListNode}
variable {n y : ListNode}

/-- The payload of a node has room for a link more. -/
theorem Owns.padded (h : Owns a o touchdbChainNodeSize) : Owns a o 32 := by
  obtain ⟨c, hc, hle⟩ := h
  obtain ⟨b, -, -, hcap⟩ := (Segregated.payload_eq_some blkHdrSize_pos).mp hc
  refine ⟨c, hc, ?_⟩
  simp only [blkCap, touchdbChainNodeSize] at hcap hle
  omega

/-- What an insertion behind the value of `n` leaves: the new node points back to the value, a
stray address is written somewhere, and another one behind the value. -/
structure Strayed (B : ℕ) (s : Touchdb) (a : PoolAlloc) (C : ℕ) (n : ListNode) (N : ℕ) (t : Touchdb) :
    Prop where
  handed : ∃ a', Handed a touchdbChainNodeSize N a'
  within : ∃ (u : Touchdb) (p : ℕ), u.Within t [(p, 8), (B + n.blk + 24, 8), (B + C + 16, 4)] ∧
    u.field (B + N) ChainNode.prev = addrOf (n.blk + ChainNode.val.off) ∧
    u.field (B + n.blk) ChainNode.next = s.field (B + n.blk) ChainNode.next

/-- The first link of a node and the second one of another are not met by one store. -/
theorem Strayed.not_inserted (h : Strayed B s a C n N t) (hC : DoublyRep B s a C (l ++ n :: y :: r))
    (hprev : nodePrev B t N = some n.blk) (hnext : nodeNext B t n.blk = some N) : False := by
  unfold nodePrev at hprev
  unfold nodeNext at hnext
  obtain ⟨a', hN⟩ := h.handed
  obtain ⟨u, p, hw, hup, hun⟩ := h.within
  have hn : Owns a n.blk touchdbChainNodeSize := hC.node n (by simp)
  have hy : Owns a y.blk touchdbChainNodeSize := hC.node y (by simp)
  have hNO : Owns a' N touchdbChainNodeSize := hN.owns (by decide)
  have hnN := (hN.keep hn.padded).disjoint hNO (hn.ne hN.fresh)
  have hCN := (hN.keep hC.chain).disjoint hNO (hC.chain.ne hN.fresh)
  have hCn := hC.chain.disjoint hn.padded (hC.toChainRep.blk_ne (by simp)).symm
  have hb := hn.bounds
  have hsz := poolSize_lt
  simp only [touchdbChainNodeSize, sizeofChain] at hnN hCN hCn hb
  -- the store that repairs the new node
  have h1 : ¬ (p + 8 ≤ B + N ∨ B + N + 8 ≤ p) := by
    intro hd
    have hkeep : t.field (B + N) ChainNode.prev = u.field (B + N) ChainNode.prev := by
      apply hw.field
      simp only [List.mem_cons, List.not_mem_nil, or_false, size_addr]
      rintro x (rfl | rfl | rfl) <;> dsimp only <;> omega
    have h16 : n.blk + ChainNode.val.off < 2 ^ 32 := by
      show n.blk + 16 < 2 ^ 32
      omega
    rw [hkeep, hup, linkOf_addrOf h16 (by omega)] at hprev
    have heq : n.blk + 16 = n.blk := Option.some.inj hprev
    omega
  -- the store that repairs the old one
  have h2 : ¬ (p + 8 ≤ B + n.blk + 8 ∨ B + n.blk + 16 ≤ p) := by
    intro hd
    have hkeep : t.field (B + n.blk) ChainNode.next = u.field (B + n.blk) ChainNode.next := by
      apply hw.field
      simp only [List.mem_cons, List.not_mem_nil, or_false, size_addr]
      rintro x (rfl | rfl | rfl) <;> dsimp only <;> omega
    have hl := hC.links
    rw [List.map_append, List.map_cons] at hl
    have hold : linkOf (s.field (B + n.blk) ChainNode.next) = some y.blk := hl.node.2
    rw [hkeep, hun, hold] at hnext
    exact hy.ne hN.fresh (Option.some.inj hnext)
  omega

theorem wp_insert_atVal {Q : Unit → Touchdb → Prop} (h : Heap B s a) (hC : DoublyRep B s a C q)
    (hn : n ∈ q) (hr : Serves wild a [touchdbChainNodeSize]) (v : ValArg a)
    (hQ : ∀ N t, Strayed B s a C n N t → Q () t) :
    wp wild (touchdbChainInsert (B + C) (B + n.blk + ChainNode.val.off) (v.ptr B)) Q s := by
  have hnO := (hC.node n hn).padded
  have hb := hnO.bounds
  have hne : B + n.blk + ChainNode.val.off ≠ NULL := by
    simp only [NULL]
    omega
  unfold touchdbChainInsert chainInsertBy
  rw [if_neg hne, Nat.add_assoc B]
  apply wp_bind
  apply wp_touchdbAddrOf h (by simp only; omega)
  apply wp_bind
  have hlink : Supplies wild B s a (linkAt (B + (n.blk + ChainNode.val.off) + ChainNode.next.off))
      (s.field (B + n.blk) ⟨24⟩) := by
    rw [show B + (n.blk + ChainNode.val.off) + ChainNode.next.off = B + n.blk + (⟨24⟩ : Field TouchdbAddr).off
      by simp only; omega]
    exact supplies_at hnO (by decide)
  apply wp_chainNodeNew h (fun _ => trivial) hr hlink supplies_pure v
  intro N a' u hm
  apply wp_bind
  apply wild_followLink
  intro p
  apply wp_bind
  apply wild_store
  apply wp_bind
  apply wild_store
  apply wp_bind
  apply wild_load
  apply wild_store
  apply hQ N
  refine ⟨⟨a', hm.handed⟩, u, p, ?_, hm.prev, hm.frame.field (by simp) (hC.node n hn) (by decide)⟩
  apply Touchdb.Within.write (r := (B + C + 16, 4)) _ (by simp) (by simp)
  apply Touchdb.Within.write (r := (B + n.blk + 24, 8)) _ (by simp) (by simp; omega)
  apply Touchdb.Within.write (r := (p, 8)) _ (by simp) (by simp)
  exact .refl u _

end

/-- Insertion by index does what insertion at the node does, and nothing where there is no node. -/
structure InsertIdxOk (c : ChainCall) (i : ChainIdx) : Prop where
  inside : 1 ≤ i.idx.toInt → i.idx.toInt < c.nodes.length → ∀ n ∈ c.nodes,
    (touchdbChainNodeIdx c.chainPtr i.idx).run c.db = .ok (c.ptr + n.blk + ChainNode.val.off, c.db) →
      (touchdbChainInsertIdx c.chainPtr i.idx c.argPtr).run c.db =
        (touchdbChainInsert c.chainPtr (c.ptr + n.blk) c.argPtr).run c.db
  outside : i.idx.toInt < 1 ∨ c.nodes.length < i.idx.toInt →
    (touchdbChainInsertIdx c.chainPtr i.idx c.argPtr).run c.db = .ok ((), c.db)

/-- No insertion at an index inside a chain does what it should. -/
theorem ChainCall.not_insertIdxOk (c : ChainCall) (i : ChainIdx) (h1 : 1 ≤ i.idx.toInt)
    (h2 : i.idx.toInt < c.nodes.length) : ¬ InsertIdxOk c i := by
  intro hok
  obtain ⟨k, hk⟩ : ∃ k : ℕ, i.idx.toInt = k + 1 := ⟨(i.idx.toInt - 1).toNat, by omega⟩
  have hk1 : k + 1 < c.nodes.length := by omega
  have hnth : Deques.nth c.nodes i.idx.toInt = some c.nodes[k] := by
    unfold Deques.nth
    rw [if_pos h1, hk, show ((k : ℤ) + 1 - 1).toNat = k by omega]
    exact List.getElem?_eq_getElem _
  have hidx := run_nodeIdx c.heap c.rep.toChainRep _ i.lt
  rw [hnth] at hidx
  have hmem : c.nodes[k] ∈ c.nodes := List.getElem_mem _
  have heq := hok.inside h1 h2 c.nodes[k] hmem hidx
  have hsplit : c.nodes.take k ++ c.nodes[k] :: c.nodes[k + 1] :: c.nodes.drop (k + 1 + 1) = c.nodes := by
    rw [List.getElem_cons_drop, List.getElem_cons_drop, List.take_append_drop]
  have hC := c.rep
  rw [← hsplit] at hC
  -- the insertion at the node
  have hnode : wp anyEvent (touchdbChainInsert c.chainPtr (c.ptr + c.nodes[k].blk) c.argPtr)
      (fun _ u => ∃ N a', Handed c.alloc touchdbChainNodeSize N a' ∧
        nodePrev c.ptr u N = some c.nodes[k].blk ∧ nodeNext c.ptr u c.nodes[k].blk = some N) c.db := by
    apply wp_touchdbChainInsert_inner c.heap hC (fun _ => trivial) (c.served.serves c.heap) c.arg
    intro N a' u hN _ hrep
    have hl := hrep.links
    rw [List.append_assoc, List.map_append, List.singleton_append, List.map_cons, List.map_cons] at hl
    have hnx := hl.node.2
    rw [← List.singleton_append, ← List.append_assoc] at hl
    have hpv := hl.node.1
    refine ⟨N, a', hN, ?_, ?_⟩
    · simpa using hpv
    · simpa using hnx
  obtain ⟨_, t, l, hrun, -, N, a', hN, hprev, hnext⟩ := wp_ends hnode fun _ h => h
  rw [run_ok hrun] at heq
  -- the insertion at the value
  have hval : wp wild (touchdbChainInsertIdx c.chainPtr i.idx c.argPtr)
      (fun _ t => ∃ N, Strayed c.ptr c.db c.alloc c.chain c.nodes[k] N t) c.db := by
    unfold touchdbChainInsertIdx
    apply wp_bind
    apply wp_touchdbChainNodeIdx c.heap (fun _ _ _ => trivial) c.rep.toChainRep i.lt
    rw [hnth]
    apply wp_insert_atVal c.heap c.rep hmem (c.served.serves c.heap) c.arg
    intro N t hs
    exact ⟨N, hs⟩
  obtain ⟨N', hs⟩ := wp_run hval heq
  obtain ⟨a'', hN'⟩ := hs.handed
  obtain rfl := hN'.unique hN
  exact hs.not_inserted hC hprev hnext

/-- Insertion by index is right for the indices that name no node. -/
theorem insertIdxOk_iff (c : ChainCall) (i : ChainIdx) :
    InsertIdxOk c i ↔ ¬ (1 ≤ i.idx.toInt ∧ i.idx.toInt < c.nodes.length) := by
  constructor
  · rintro h ⟨h1, h2⟩
    exact c.not_insertIdxOk i h1 h2 h
  · intro h
    refine ⟨fun h1 h2 => absurd ⟨h1, h2⟩ h, fun hout => ?_⟩
    have hnth : Deques.nth c.nodes i.idx.toInt = none := by
      unfold Deques.nth
      split_ifs with h1
      · apply List.getElem?_eq_none
        omega
      · rfl
    apply run_eq (G := anyEvent) _ fun _ h => h
    unfold touchdbChainInsertIdx
    apply wp_bind
    apply wp_touchdbChainNodeIdx c.heap (fun _ _ _ => trivial) c.rep.toChainRep i.lt
    rw [hnth]
    unfold touchdbChainInsert chainInsertBy
    have hnull : valPtr c.ptr none = NULL := rfl
    rw [if_pos hnull]
    exact wp_pure ⟨rfl, rfl⟩

/-- A value inserted at index 1 of a chain of two. -/
theorem insertIdxOk_fails : ∃ c : ChainCall,
    (newStock .page [zeroInt, zeroInt]).run NewFiles.page.db = .ok (c.chainPtr, c.db) ∧
    c.nodes.length = 2 ∧ ¬ InsertIdxOk c ⟨1, by decide⟩ := by
  obtain ⟨c, hrun, hlen⟩ := exists_call
  refine ⟨c, hrun, hlen, c.not_insertIdxOk _ (by decide) ?_⟩
  rw [hlen]
  decide

end TouchDb
