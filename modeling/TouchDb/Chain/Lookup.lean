import TouchDb.Chain.Find
import TouchDb.Chain.Stock

/-! What the searches of a chain by content say together: positions that are found can be looked
up again, and the comparison that the source ships decides nothing about strings. -/
namespace TouchDb
open Prog Layout

section
variable {B : ℕ} {s : Touchdb} {a : PoolAlloc} {C v : ℕ} {q : List ListNode} {n : ListNode}
variable {valCmp : ℕ → ℕ → M Int32} {res : ListNode → Int32} {i : ℕ}

/-- The node at the position that is found. -/
theorem find?_of_findIdx? {α : Type} {p : α → Bool} {l : List α} (h : l.findIdx? p = some i) :
    ∃ hi : i < l.length, l.find? p = some l[i] := by
  obtain ⟨hi, hp, hlt⟩ := List.findIdx?_eq_some_iff_getElem.mp h
  refine ⟨hi, List.find?_eq_some_iff_getElem.mpr ⟨hp, i, hi, rfl, ?_⟩⟩
  intro j hj
  simpa using hlt j hj

theorem run_indexOf (h : Heap B s a) (hC : ChainRep B s a C q)
    (hc : Compares anyEvent valCmp B s v q res) :
    (touchdbChainIndexOf valCmp (B + C) v).run s = .ok (idxOf 0 (q.findIdx? (isMatch res)), s) :=
  run_eq (wp_touchdbChainIndexOf h (fun _ _ _ => trivial) hC hc ⟨rfl, rfl⟩) fun _ h => h

theorem run_chainNode (h : Heap B s a) (hC : ChainRep B s a C q)
    (hc : Compares anyEvent valCmp B s v q res) :
    (touchdbChainNode valCmp (B + C) v).run s = .ok (nodePtr B (q.find? (isMatch res)), s) :=
  run_eq (wp_touchdbChainNode h (fun _ _ _ => trivial) hC hc ⟨rfl, rfl⟩) fun _ h => h

theorem run_contains (h : Heap B s a) (hC : ChainRep B s a C q)
    (hc : Compares anyEvent valCmp B s v q res) :
    (touchdbChainContains valCmp (B + C) v).run s = .ok (q.any (isMatch res), s) :=
  run_eq (wp_touchdbChainContains h (fun _ _ _ => trivial) hC hc ⟨rfl, rfl⟩) fun _ h => h

theorem run_nodeIdx (h : Heap B s a) (hC : ChainRep B s a C q) (idx : Int32)
    (hi : -2 ^ 31 < idx.toInt) :
    (touchdbChainNodeIdx (B + C) idx).run s = .ok (valPtr B (Deques.nth q idx.toInt), s) :=
  run_eq (G := anyEvent) (wp_touchdbChainNodeIdx h (fun _ _ _ => trivial) hC hi ⟨rfl, rfl⟩) fun _ h => h

end

/-- Positions are counted from zero by `touchdb_chain_index_of` and from one by
`touchdb_chain_node_idx`. -/
theorem nodeIdx_indexOf (c : ChainState) (res : ℕ → ℕ → Int32) (v : ℕ) :
    ∃ i p, (touchdbChainIndexOf (assigned res) c.chainPtr v).run c.db = .ok (i, c.db) ∧
      (touchdbChainNode (assigned res) c.chainPtr v).run c.db = .ok (p, c.db) ∧
      (0 ≤ i.toInt → p ≠ NULL ∧
        (touchdbChainNodeIdx c.chainPtr (i + 1)).run c.db = .ok (p + ChainNode.val.off, c.db)) := by
  have hC := c.rep.toChainRep
  have hidx := run_indexOf c.heap hC (c.compares res v)
  have hnode := run_chainNode c.heap hC (c.compares res v)
  refine ⟨_, _, hidx, hnode, ?_⟩
  intro h0
  cases hf : c.nodes.findIdx? (isMatch (c.results res v)) with
  | none =>
    rw [hf] at h0
    exact absurd h0 (by decide)
  | some i =>
    obtain ⟨hi, hfind⟩ := find?_of_findIdx? hf
    have hlt := hC.length_lt_word
    have hn := hC.node c.nodes[i] (List.getElem_mem hi)
    have hsucc : idxOf 0 (some i) + 1 = Int32.ofNat (i + 1) := by
      simp only [idxOf, Nat.zero_add]
      exact (Int32.ofNat_add _ _).symm
    have hto : (Int32.ofNat (i + 1)).toInt = (i + 1 : ℕ) := Int32.toInt_ofNat_of_lt (by omega)
    have hnth : Deques.nth c.nodes (i + 1 : ℕ) = some c.nodes[i] := by
      unfold Deques.nth
      rw [if_pos (by omega), show (((i + 1 : ℕ) : ℤ) - 1).toNat = i by omega]
      exact List.getElem?_eq_getElem hi
    rw [hfind, hsucc, nodePtr_some]
    refine ⟨hn.ptr_ne _, ?_⟩
    have hrun := run_nodeIdx c.heap hC (Int32.ofNat (i + 1)) (by rw [hto]; omega)
    rw [hto, hnth] at hrun
    exact hrun

/-- The value of the only node of a chain is found at position 0, and there is nothing at position 0. -/
theorem nodeIdx_indexOf_fails : ∃ c : StockState,
    (newStock .page [zeroInt]).run NewFiles.page.db = .ok (c.toChain.chainPtr, c.db) ∧
    ∃ p, (touchdbChainIndexOf (assigned fun _ _ => 0) c.toChain.chainPtr (p + ChainNode.val.off)).run c.db =
        .ok (0, c.db) ∧
      (touchdbChainNode (assigned fun _ _ => 0) c.toChain.chainPtr (p + ChainNode.val.off)).run c.db =
        .ok (p, c.db) ∧
      p ≠ NULL ∧ (touchdbChainNodeIdx c.toChain.chainPtr 0).run c.db = .ok (NULL, c.db) := by
  obtain ⟨c, hrun, hitems, -⟩ := exists_stock (f := .page) [zeroInt] [] (by decide)
  obtain ⟨z, hz⟩ : ∃ z, c.cells = [z] := by
    apply List.length_eq_one_iff.mp
    simpa [StockState.items] using congrArg List.length hitems
  have hC := c.stocked.rep.toChainRep
  have hcmp : Compares anyEvent (assigned fun _ _ => 0) c.ptr c.db
      (c.ptr + z.node.blk + ChainNode.val.off) (c.cells.map StockCell.node) fun _ => 0 :=
    compares_assigned _
  have hidx := run_indexOf c.stocked.heap hC hcmp
  have hnode := run_chainNode c.stocked.heap hC hcmp
  have hnil := run_nodeIdx c.stocked.heap hC 0 (by decide)
  have hO := hC.node z.node (by simp [hz])
  refine ⟨c, hrun, c.ptr + z.node.blk, ?_, ?_, hO.ptr_ne _, ?_⟩
  · rw [hz] at hidx
    exact hidx
  · rw [hz] at hnode
    exact hnode
  · exact hnil

/-- A string value that a caller passes to a search. -/
structure StrArg (c : StockState) where
  blk : ℕ
  off : ℕ
  str : ℕ
  chars : ℕ
  text : Text
  val : ValAt c.ptr c.db c.alloc blk off ⟨.str, addrOf str⟩
  rep : StrRep c.ptr c.db c.alloc str chars text.1

def StrArg.ptr {c : StockState} (v : StrArg c) : ℕ := c.ptr + v.blk + v.off

/-- The cell holds the string. -/
def StockCell.has (v : Text) (z : StockCell) : Bool := decide (z.item = .str v)

/-- The comparison tells whether two strings are equal, and the searches find what they should. -/
structure SearchOk (undef : ℕ → ℕ → Int32) (c : StockState) (v : StrArg c) : Prop where
  cmp : ∀ z ∈ c.cells, ∃ r, (touchdbValCmp undef (c.ptr + z.node.blk + ChainNode.val.off) v.ptr).run c.db =
    .ok (r, c.db) ∧ (r = 0 ↔ z.item = .str v.text)
  contains : (touchdbChainContains (touchdbValCmp undef) c.toChain.chainPtr v.ptr).run c.db =
    .ok (c.cells.any (StockCell.has v.text), c.db)
  indexOf : (touchdbChainIndexOf (touchdbValCmp undef) c.toChain.chainPtr v.ptr).run c.db =
    .ok (idxOf 0 (c.cells.findIdx? (StockCell.has v.text)), c.db)
  node : (touchdbChainNode (touchdbValCmp undef) c.toChain.chainPtr v.ptr).run c.db =
    .ok (nodePtr c.ptr ((c.cells.find? (StockCell.has v.text)).map StockCell.node), c.db)

/-- A chain all of whose values are strings. -/
structure StrStock extends StockState where
  strs : ∀ z ∈ cells, ∃ v, z.item = .str v

section
variable {B : ℕ} {s : Touchdb} {a : PoolAlloc} {k k' o o' : ℕ} {w w' : TouchdbVal}
variable {undef : ℕ → ℕ → Int32} {G : Guard Stop Event}

/-- Values of one type compare as nothing in the source says. -/
theorem wp_touchdbValCmp {Q : Int32 → Touchdb → Prop} (h : Heap B s a) (hv : ValAt B s a o k w)
    (hv' : ValAt B s a o' k' w') (ht : w.type = w'.type)
    (hQ : Q (undef (B + o + k) (B + o' + k')) s) :
    wp G (touchdbValCmp undef (B + o + k) (B + o' + k')) Q s := by
  have h1 := hv.owns.bounds
  have h2 := hv'.owns.bounds
  unfold touchdbValCmp
  apply wp_bind
  apply wp_load_shift (by omega)
  apply wp_loadCell h hv.owns (by simp [sizeofVal])
  apply wp_bind
  apply wp_load_shift (by omega)
  apply wp_loadCell h hv'.owns (by simp [sizeofVal])
  rw [hv.type, hv'.type, if_neg (not_not_intro ht)]
  exact wp_pure hQ

theorem ItemRep.type_eq {v : Text} {l : List ℕ} (h : ItemRep B s a (.str v) w l) : w.type = .str := by
  cases h
  rfl

/-- The nodes of a chain of strings compare as `undef` says. -/
theorem StrStock.compares (undef : ℕ → ℕ → Int32) (c : StrStock) (v : StrArg c.toStockState) :
    Compares G (touchdbValCmp undef) c.ptr c.db v.ptr (c.cells.map StockCell.node)
      fun n => undef (c.ptr + n.blk + ChainNode.val.off) v.ptr := by
  intro n hn R hR
  obtain ⟨z, hz, rfl⟩ := List.mem_map.mp hn
  obtain ⟨t, ht⟩ := c.strs z hz
  have hitem := c.stocked.items z hz
  rw [ht] at hitem
  have hO := c.stocked.rep.node z.node hn
  apply wp_touchdbValCmp c.stocked.heap (.of_field (hO.mono (by decide)) (c.stocked.rep.val _ hn)) v.val
    hitem.type_eq hR

end

/-- Whatever the comparison happens to return, the searches are right: this holds of the empty
chain only. -/
theorem searchOk_iff (c : StrStock) (v : StrArg c.toStockState) :
    (∀ undef, SearchOk undef c.toStockState v) ↔ c.cells = [] := by
  constructor
  · intro h
    by_contra hne
    obtain ⟨z, zs, hz⟩ := List.exists_cons_of_ne_nil hne
    have hmem : z ∈ c.cells := by simp [hz]
    -- the result that is wrong for the first node
    obtain ⟨r, hr, hiff⟩ := (h fun _ _ => if z.item = .str v.text then 1 else 0).cmp z hmem
    have hrun : (touchdbValCmp (fun _ _ => if z.item = .str v.text then 1 else 0)
        (c.ptr + z.node.blk + ChainNode.val.off) v.ptr).run c.db =
          .ok (if z.item = .str v.text then 1 else 0, c.db) :=
      run_eq (G := anyEvent) (c.compares _ v z.node (List.mem_map_of_mem hmem) _ ⟨rfl, rfl⟩) fun _ h => h
    rw [hrun] at hr
    obtain ⟨rfl, -⟩ := Prod.mk.inj (Except.ok.inj hr)
    by_cases hitem : z.item = .str v.text
    · simp [hitem] at hiff
    · simp [hitem] at hiff
  · intro hnil undef
    have hC := c.stocked.rep.toChainRep
    have hc : Compares anyEvent (touchdbValCmp undef) c.ptr c.db v.ptr (c.cells.map StockCell.node) _ :=
      c.compares _ v
    have h1 := run_contains c.stocked.heap hC hc
    have h2 := run_indexOf c.stocked.heap hC hc
    have h3 := run_chainNode c.stocked.heap hC hc
    rw [hnil] at h1 h2 h3
    refine ⟨?_, ?_, ?_, ?_⟩
    · simp [hnil]
    · rw [hnil]
      exact h1
    · rw [hnil]
      exact h2
    · rw [hnil]
      exact h3

/-- The value of a node, passed to a search. -/
def StockState.strArg (c : StockState) {z : StockCell} (hz : z ∈ c.cells) {S D : ℕ} {v : Text}
    (hv : z.node.val = ⟨.str, addrOf S⟩) (h : StrRep c.ptr c.db c.alloc S D v.1) : StrArg c where
  blk := z.node.blk
  off := ChainNode.val.off
  str := S
  chars := D
  text := v
  val := .of_field ((c.stocked.rep.node z.node (List.mem_map_of_mem hz)).mono (by decide))
    ((c.stocked.rep.val _ (List.mem_map_of_mem hz)).trans hv)
  rep := h

/-- A chain of one string, searched for that string: the comparison may return 1. -/
theorem searchOk_fails : ∃ c : StockState,
    (newStock .page [.str (text 3 97)]).run NewFiles.page.db = .ok (c.toChain.chainPtr, c.db) ∧
    ∃ v : StrArg c, v.text = text 3 97 ∧
      (touchdbChainContains (touchdbValCmp fun _ _ => 1) c.toChain.chainPtr v.ptr).run c.db =
        .ok (false, c.db) ∧
      ¬ SearchOk (fun _ _ => 1) c v := by
  obtain ⟨c, hrun, hitems, -⟩ := exists_stock (f := .page) [.str (text 3 97)] [] (by decide)
  obtain ⟨z, hz⟩ : ∃ z, c.cells = [z] := by
    apply List.length_eq_one_iff.mp
    simpa [StockState.items] using congrArg List.length hitems
  have hitem : z.item = .str (text 3 97) := by
    simpa [StockState.items, hz] using hitems
  have hmem : z ∈ c.cells := by simp [hz]
  have hrep := c.stocked.items z hmem
  rw [hitem] at hrep
  generalize hw : z.node.val = w at hrep
  generalize z.blocks = l at hrep
  cases hrep with
  | @str S D _ hstr =>
    have hcmp := StrStock.compares (G := anyEvent) (fun _ _ => 1) ⟨c, fun y hy => ⟨text 3 97, by
      obtain rfl : y = z := by simpa [hz] using hy
      exact hitem⟩⟩ (c.strArg hmem hw hstr)
    have hcontains := run_contains c.stocked.heap c.stocked.rep.toChainRep hcmp
    have hno : (c.cells.map StockCell.node).any (isMatch fun _ => 1) = false := by
      simp [isMatch]
    rw [hno] at hcontains
    refine ⟨c, hrun, c.strArg hmem hw hstr, rfl, hcontains, fun hok => ?_⟩
    have h1 := hcontains.symm.trans hok.contains
    have h2 : c.cells.any (StockCell.has (text 3 97)) = false := (Prod.mk.inj (Except.ok.inj h1)).1.symm
    simp [hz, StockCell.has, hitem] at h2

end TouchDb
