import TouchDb.Chain.Doubly
import TouchDb.Chain.Family

/-! Chains whose values own their blocks, and how a client builds one in a new pool. -/
namespace TouchDb
open Prog Layout

/-- What a client puts into a chain: a string, or a value without blocks. -/
inductive Item where
  | plain (w : {w : TouchdbVal // w.type ≠ .str})
  | str (v : Text)
  deriving DecidableEq

theorem int_ne_str : TouchdbValType.int ≠ .str := by decide

/-- A value that is not a string. -/
def zeroInt : Item := .plain ⟨⟨.int, nullAddr⟩, int_ne_str⟩

/-- The value `w` is the item, with the blocks `l`. -/
inductive ItemRep (B : ℕ) (s : Touchdb) (a : PoolAlloc) : Item → TouchdbVal → List ℕ → Prop
  | plain (w : {w : TouchdbVal // w.type ≠ .str}) : ItemRep B s a (.plain w) w.1 []
  | str {S D : ℕ} {v : Text} (h : StrRep B s a S D v.1) :
      ItemRep B s a (.str v) ⟨.str, addrOf S⟩ [S, D]

/-- A node, the item that it holds and the blocks of its value. -/
structure StockCell where
  item : Item
  node : ListNode
  blocks : List ℕ

/-- The blocks of a chain: the record, the nodes and the blocks of the values. -/
def stockBlocks (C : ℕ) (zs : List StockCell) : List ℕ :=
  (C :: (zs.map StockCell.node).map ListNode.blk) ++ zs.flatMap StockCell.blocks

/-- The chain at `C` holds the items, and every block belongs to one node or one value. -/
structure Stocked (B : ℕ) (s : Touchdb) (a : PoolAlloc) (C : ℕ) (zs : List StockCell) : Prop where
  heap : Heap B s a
  rep : DoublyRep B s a C (zs.map StockCell.node)
  items : ∀ z ∈ zs, ItemRep B s a z.item z.node.val z.blocks
  apart : (stockBlocks C zs).Nodup

/-- The client builds the item in the struct at `p`. -/
def Item.make (p : ℕ) : Item → M Unit
  | .plain w => store p Val.all w.1
  | .str v => do
    let _ ← touchdbStrNew2 p v.1
    return ()

/-- The client pushes one item after the other. -/
def pushItems (chain : ℕ) : List Item → M Unit
  | [] => return ()
  | x :: xs => do
    let (p, _) ← touchdbMalloc sizeofVal
    x.make p
    touchdbChainPushTail chain p
    pushItems chain xs

/-- A chain with these items, in a new pool. -/
def newStock (f : NewFiles) (xs : List Item) : M ℕ := do
  touchdbPoolInit 0 f.ptr false
  let (chain, _) ← touchdbMalloc sizeofChain
  touchdbChainInit chain
  pushItems chain xs
  return chain

/-- The requests that an item takes before it is pushed. -/
def Item.requests : Item → List ℕ
  | .plain _ => []
  | .str v => [sizeofStr, v.1.strlen + 1]

/-- The room that an item takes at most. -/
def Item.cost (x : Item) : ℕ := roomFor (sizeofVal :: x.requests ++ [touchdbChainNodeSize])

section
variable {B : ℕ} {s t : Touchdb} {a a' : PoolAlloc} {C o m : ℕ} {q : List ListNode} {x : Item}
variable {xs : List Item} {z : StockCell} {zs : List StockCell} {w : TouchdbVal} {l T : List ℕ}
variable {G : Guard Stop Event}

theorem roomFor_append (l r : List ℕ) : roomFor (l ++ r) = roomFor l + roomFor r := by
  simp [roomFor]

namespace ItemRep

theorem valRep (h : ItemRep B s a x w l) : ValRep B s a w l := by
  cases h with
  | plain w => exact .plain w.2
  | str h => exact .str h

theorem frame (h : ItemRep B s a x w l) (hF : Frame B s a t a' T) (hT : ∀ o ∈ l, o ∉ T) :
    ItemRep B t a' x w l := by
  cases h with
  | plain w => exact .plain w
  | str h => exact .str (h.frame hF (hT _ (by simp)) (hT _ (by simp)))

end ItemRep

/-- Links that mirror each other, from both directions. -/
theorem ChainRep.doubly (h : ChainRep B s a C q)
    (hr : Linked (nodePrev B s) (q.map ListNode.blk).reverse) : DoublyRep B s a C q :=
  ⟨h, .of_linked h.next hr⟩

/-- A push at the tail keeps the links. -/
theorem Pushed.doubly {N : ℕ} (h : Pushed B s a C q w N t a') (hC : DoublyRep B s a C q) :
    DoublyRep B t a' C (q ++ [⟨N, w⟩]) := by
  apply h.rep.doubly
  rw [List.map_append, List.reverse_append]
  constructor
  · refine h.prev.trans ?_
    exact (List.head?_reverse).symm
  · apply hC.links.linked_reverse.congr
    intro o ho
    obtain ⟨n, hn, rfl⟩ := List.mem_map.mp (List.mem_reverse.mp ho)
    exact h.prevs n hn

namespace Stocked

theorem blk_mem (hz : z ∈ zs) : z.node.blk ∈ stockBlocks C zs :=
  List.mem_append_left _ (List.mem_cons_of_mem _ (List.mem_map_of_mem (List.mem_map_of_mem hz)))

theorem block_mem (hz : z ∈ zs) (ho : o ∈ z.blocks) : o ∈ stockBlocks C zs :=
  List.mem_append_right _ (List.mem_flatMap.mpr ⟨z, hz, ho⟩)

theorem owns (h : Stocked B s a C zs) (ho : o ∈ stockBlocks C zs) : Owns a o 0 := by
  rcases List.mem_append.mp ho with ho | ho
  · rcases List.mem_cons.mp ho with rfl | ho
    · exact h.rep.chain.mono (Nat.zero_le _)
    · obtain ⟨n, hn, rfl⟩ := List.mem_map.mp ho
      exact (h.rep.node n hn).mono (Nat.zero_le _)
  · obtain ⟨z, hz, ho⟩ := List.mem_flatMap.mp ho
    exact (h.items z hz).valRep.owns o ho

/-- A stretch that leaves the chain and its values alone. -/
theorem frame (h : Stocked B s a C zs) (ht : Heap B t a') (hF : Frame B s a t a' T)
    (hT : ∀ o ∈ stockBlocks C zs, o ∉ T) : Stocked B t a' C zs where
  heap := ht
  rep := by
    apply h.rep.frame hF (hT C (List.mem_append_left _ List.mem_cons_self))
    intro n hn
    obtain ⟨z, hz, rfl⟩ := List.mem_map.mp hn
    exact hT _ (blk_mem hz)
  items z hz := (h.items z hz).frame hF fun o ho => hT o (block_mem hz ho)
  apart := h.apart

/-- A stretch that touches only blocks that were not in use. -/
theorem frameNew (h : Stocked B s a C zs) (ht : Heap B t a') (hF : Frame B s a t a' []) :
    Stocked B t a' C zs := h.frame ht hF (by simp)

/-- The blocks of the values are none of the chain's own. -/
theorem notMem (h : Stocked B s a C zs) (hz : z ∈ zs) (ho : o ∈ z.blocks) :
    o ∉ C :: (zs.map StockCell.node).map ListNode.blk := fun hm =>
  (List.nodup_append.mp h.apart).2.2 o hm o (List.mem_flatMap.mpr ⟨z, hz, ho⟩) rfl

/-- A value that has been built is pushed. -/
theorem push {N : ℕ} (h : Stocked B s a C zs)
    (hp : Pushed B s a C (zs.map StockCell.node) w N t a') (hx : ItemRep B s a x w l)
    (hl : ∀ o ∈ l, o ∉ stockBlocks C zs) (hnd : l.Nodup) :
    Stocked B t a' C (zs ++ [⟨x, ⟨N, w⟩, l⟩]) where
  heap := hp.heap
  rep := by
    rw [List.map_append]
    exact hp.doubly h.rep
  items z hz := by
    rcases List.mem_append.mp hz with hz | hz
    · exact (h.items z hz).frame hp.frame fun o ho => h.notMem hz ho
    · obtain rfl := List.mem_singleton.mp hz
      exact hx.frame hp.frame fun o ho hm => hl o ho (List.mem_append_left _ hm)
  apart := by
    have hN : ¬ Used a N := hp.handed.not_used
    have hNl : N ∉ l := fun hm => hN (hx.valRep.owns N hm).used
    have hnew : (N :: l).Nodup := List.nodup_cons.mpr ⟨hNl, hnd⟩
    apply nodup_of_count h.apart hnew
    · intro o ho hm
      rcases List.mem_cons.mp ho with rfl | ho
      · exact hN (h.owns hm).used
      · exact hl o ho hm
    · intro o
      simp only [stockBlocks, List.map_append, List.map_cons, List.map_nil, List.flatMap_append,
        List.flatMap_cons, List.flatMap_nil, List.count_append, List.count_cons, List.count_nil]
      omega

end Stocked

/-- What building an item leaves: the struct at `V` holds the value, in blocks that were free. -/
structure Made (B : ℕ) (s : Touchdb) (a : PoolAlloc) (V : ℕ) (x : Item) (l : List ℕ) (u : Touchdb)
    (a' : PoolAlloc) : Prop where
  heap : Heap B u a'
  frame : Frame B s a u a' [V]
  owns : Owns a' V sizeofVal
  item : ItemRep B u a' x (u.field (B + V) Val.all) l
  fresh : ∀ o ∈ l, ¬ Used a o
  nodup : l.Nodup
  cur : a'.cur ≤ a.cur + roomFor x.requests

theorem wp_make {V : ℕ} {Q : Unit → Touchdb → Prop} (h : Heap B s a) (hV : Owns a V sizeofVal)
    (hG : ∀ e, G.emits e) (hr : Serves G a x.requests)
    (hQ : ∀ l u a', Made B s a V x l u a' → Q () u) : wp G (x.make (B + V)) Q s := by
  have hw : Work B s a [V] s a := .start h
  cases x with
  | plain w =>
    apply wp_storeCell h hV (by decide) (hG _)
    intro h₁ hF₁
    apply hQ [] _ a
    refine ⟨h₁, hF₁, hV, ?_, by simp, .nil, by simp⟩
    rw [field_write_same]
    exact .plain w
  | str v =>
    unfold Item.make
    apply wp_bind
    apply wp_touchdbStrNew2 hw (.of_all hG) hr (.inl (List.mem_singleton_self V)) hV v.2
    intro S D a₁ a₂ u hS hD hw₁ hF hrep hval
    apply wp_pure
    apply hQ [S, D] u a₂
    have h1 := hS.cur_le
    have h2 := hD.cur_le
    refine ⟨hw₁.heap, hF, hD.keep (hS.keep hV), ?_, ?_, by simp [hrep.ne], ?_⟩
    · rw [hval]
      exact .str hrep
    · intro o ho
      rcases List.mem_pair.mp ho with rfl | rfl
      · exact hS.not_used
      · exact fun hu => hD.not_used (hS.used_iff.mpr (.inl hu))
    · simp only [Item.requests, roomFor, List.map_cons, List.map_nil, List.sum_cons, List.sum_nil]
      omega

/-- Where there is room, every item is pushed. -/
theorem wp_pushItems {Q : Unit → Touchdb → Prop} (h : Stocked B s a C zs) (hG : ∀ e, G.emits e)
    (hr : a.cur + (xs.map Item.cost).sum + m ≤ touchdbDefaultPoolSize)
    (hQ : ∀ zs' u a', Stocked B u a' C zs' → zs'.map StockCell.item = zs.map StockCell.item ++ xs →
      a'.cur + m ≤ touchdbDefaultPoolSize → Q () u) : wp G (pushItems (B + C) xs) Q s := by
  induction xs generalizing s a zs with
  | nil =>
    apply wp_pure
    apply hQ zs s a h (by simp)
    simpa using hr
  | cons x xs ih =>
    have hcost : x.cost = sizeofVal + 24 + roomFor x.requests + (touchdbChainNodeSize + 24) := by
      simp only [Item.cost, roomFor_append]
      simp [roomFor]
    simp only [List.map_cons, List.sum_cons, hcost] at hr
    unfold pushItems
    apply wp_bind
    apply (Work.start (T := []) h.heap).wp_malloc (.of_all hG) (.one _) (by decide)
      (by decide)
    · intro V a₁ t₁ hV hw₁ hF₁
      have hVO : Owns a₁ V sizeofVal := hV.owns (by decide)
      have hcur₁ := hV.cur_le
      have hst₁ := h.frameNew hw₁.heap hF₁
      have hVz : ∀ o ∈ stockBlocks C zs, o ∉ [V] := by
        intro o ho hm
        obtain rfl := List.mem_singleton.mp hm
        exact hV.not_used (h.owns ho).used
      apply wp_bind
      apply wp_make hw₁.heap hVO hG (.of_room _)
      · intro l u a₂ hm
        have hst₂ := hst₁.frame hm.heap hm.frame hVz
        have hcur₂ := hm.cur
        apply wp_bind
        apply wp_touchdbChainPushTail hst₂.heap hst₂.rep.toChainRep hm.owns (.of_all hG) (.of_room _)
          List.mem_cons_self (List.mem_cons_of_mem _ (List.mem_singleton_self _))
        · intro N v a₃ hp
          have hcur₃ := hp.handed.cur_le
          apply ih (hst₂.push hp hm.item _ hm.nodup)
          · omega
          · intro zs' u' a' hz hitems hroom
            apply hQ zs' u' a' hz _ hroom
            simpa using hitems
          · intro o ho hm'
            exact hm.fresh o ho (hst₁.owns hm').used
        · simp only [roomFor, List.map_cons, List.map_nil, List.sum_cons, List.sum_nil]
          omega
      · omega
    · omega

/-- A chain with the items in a new pool, where there is room. -/
theorem wp_newStock {f : NewFiles} {Q : ℕ → Touchdb → Prop} (hG : ∀ e, G.emits e)
    (hr : 1 + roomFor [sizeofChain] + (xs.map Item.cost).sum + m ≤ touchdbDefaultPoolSize)
    (hQ : ∀ C zs u a, Stocked f.ptr u a C zs → zs.map StockCell.item = xs →
      a.cur + m ≤ touchdbDefaultPoolSize → Q (f.ptr + C) u) : wp G (newStock f xs) Q f.db := by
  have hinit := wp_touchdbPoolInit (G := G) (s := f.db) (j := 0)
    (by simp [PoolIdxOk, NewFiles.db, Touchdb.zero, touchdbPoolListSize]) f.pos fun _ => hG _
  have hcur : freshAlloc.cur = 1 := rfl
  simp only [roomFor, List.map_cons, List.map_nil, List.sum_cons, List.sum_nil] at hr
  unfold newStock
  apply wp_seq hinit
  rintro _ t ⟨hp, hb, -, -⟩
  have ht : Heap f.ptr t freshAlloc := ⟨hp, hb⟩
  apply wp_bind
  apply (Work.start (T := []) ht).wp_malloc (.of_all hG) (.one _) (by decide)
    (by decide)
  · intro C a₁ t₁ hC hw₁ _
    have hcur₁ := hC.cur_le
    apply wp_bind
    apply wp_touchdbChainInit hw₁.heap (hC.owns (by decide)) hG
    intro u hu _ hrep
    have hst : Stocked f.ptr u a₁ C [] :=
      ⟨hu, hrep.doubly Linked.nil, by simp, by simp [stockBlocks]⟩
    apply wp_bind
    apply wp_pushItems (m := m) hst hG (by omega)
    intro zs u' a' hz hitems hroom
    apply wp_pure
    exact hQ C zs u' a' hz (by simpa using hitems) hroom
  · rw [hcur]
    omega

end

/-- A process whose first pool holds a chain, with the values of its nodes. -/
structure StockState where
  ptr : ℕ
  db : Touchdb
  alloc : PoolAlloc
  chain : ℕ
  cells : List StockCell
  stocked : Stocked ptr db alloc chain cells

namespace StockState

def toChain (c : StockState) : ChainState :=
  ⟨c.ptr, c.db, c.alloc, c.chain, c.cells.map StockCell.node, c.stocked.heap, c.stocked.rep⟩

def items (c : StockState) : List Item := c.cells.map StockCell.item

/-- There is room for one more request of each of these sizes. -/
def Room (c : StockState) (ns : List ℕ) : Prop := c.alloc.cur + roomFor ns ≤ touchdbDefaultPoolSize

end StockState

/-- What a client finds who pushes these items to a chain in a new pool. -/
theorem exists_stock {f : NewFiles} (xs : List Item) (ns : List ℕ)
    (hr : 1 + roomFor [sizeofChain] + (xs.map Item.cost).sum + roomFor ns ≤ touchdbDefaultPoolSize) :
    ∃ c : StockState, (newStock f xs).run f.db = .ok (c.toChain.chainPtr, c.db) ∧ c.items = xs ∧
      c.Room ns := by
  have hwp : wp anyEvent (newStock f xs) (fun p u => ∃ c : StockState, p = c.toChain.chainPtr ∧
      c.db = u ∧ c.items = xs ∧ c.Room ns) f.db := by
    apply wp_newStock (m := roomFor ns) (fun _ => trivial) hr
    intro C zs u a hz hitems hroom
    exact ⟨⟨f.ptr, u, a, C, zs, hz⟩, rfl, rfl, hitems, hroom⟩
  obtain ⟨_, _, l, hrun, -, c, rfl, rfl, hc⟩ := wp_ends hwp fun _ h => h
  exact ⟨c, run_ok hrun, hc⟩

end TouchDb
