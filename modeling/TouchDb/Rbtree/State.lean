import TouchDb.Heap.Allocated
import TouchDb.Rbtree.Focus

/-! Stores with a red-black search tree. Every tree of keys and values can be had, if the pool has room
for it. -/
namespace TouchDb
open Prog Layout RbTree

/-- A store with a red-black search tree in the pool that is mapped at `ptr`. -/
structure RbState where
  ptr : ℕ
  store : RbStore
  alloc : PoolAlloc
  tree : RbTree TreeCell
  rep : TreeRep ptr alloc tree.toList tree store
  valid : tree.Valid
  sorted : Sorted TreeCell.key tree

/-- What a node says to the user of a tree. -/
def TreeCell.pair (x : TreeCell) : CStr × TouchdbVal := (x.key, x.val)

/-- Nodes and their keys, in blocks of their own. -/
structure Planted (B : ℕ) (s : Touchdb) (u : PoolAlloc) (L : List TreeCell) : Prop where
  heap : Heap B s u
  nodes : ∀ x ∈ L, Owns u x.off.toNat sizeofRbtreeNode
  keys : ∀ x ∈ L, Owns u x.keyOffset.toNat (x.key.strlen + 1)
  holds : ∀ x ∈ L, s.holds (B + x.keyOffset.toNat) x.key
  keyed : ∀ x ∈ L, x.keyed = true
  data : ∀ x ∈ L, (rbNode B s x.off).keyOffset = x.keyOffset ∧ (rbNode B s x.off).val = x.val
  nodup : (L.map TreeCell.off).Nodup
  apart : ∀ x ∈ L, ∀ y ∈ L, x.off.toNat ≠ y.keyOffset.toNat

section
variable {B : ℕ} {s t : Touchdb} {u u' : PoolAlloc} {L : List TreeCell} {x y : TreeCell} {o n : ℕ}
  {T : List ℕ}

namespace Planted

theorem frame (h : Planted B s u L) (ht : Heap B t u') (hF : Frame B s u t u' T)
    (hT : ∀ x ∈ L, x.off.toNat ∉ T ∧ x.keyOffset.toNat ∉ T) : Planted B t u' L where
  heap := ht
  nodes x hx := hF.owns (hT x hx).1 (h.nodes x hx)
  keys x hx := hF.owns (hT x hx).2 (h.keys x hx)
  holds x hx := hF.holds (hT x hx).2 (h.keys x hx) (h.holds x hx)
  keyed := h.keyed
  data x hx := by
    obtain ⟨h1, h2⟩ := h.data x hx
    have ho := h.nodes x hx
    exact ⟨(hF.field (hT x hx).1 ho (by decide)).trans h1, (hF.field (hT x hx).1 ho (by decide)).trans h2⟩
  nodup := h.nodup
  apart := h.apart

theorem cells (h : Planted B s u L) : Cells B s u L where
  heap := h.heap
  owned := h.nodes
  nodup := h.nodup
  keys x hx _ := by
    obtain ⟨c, hc, hle⟩ := h.keys x hx
    have hb := (h.keys x hx).bounds
    exact ⟨hb.2, h.holds x hx, fun i hi =>
      .inr ⟨_, c, hc, by omega, by omega, fun y hy => h.apart y hy x hx⟩⟩

/-- The room that a key and its node take at most. -/
def cost (p : CStr × TouchdbVal) : ℕ := roomFor [p.1.strlen + 1, sizeofRbtreeNode]

/-- One more key and a node for it. -/
theorem add {k : CStr} {v : TouchdbVal} (h : Planted B s u L) (hk : k.Fits)
    (hr : u.cur + cost (k, v) ≤ touchdbDefaultPoolSize) :
    ∃ x t u', Planted B t u' (L ++ [x]) ∧ x.pair = (k, v) ∧ u'.cur ≤ u.cur + cost (k, v) := by
  simp only [cost, roomFor, List.map_cons, List.map_nil, List.sum_cons, List.sum_nil] at hr ⊢
  obtain ⟨D, u₁, t₁, hD, ht₁, hF₁⟩ := h.heap.exists_handed (n := k.strlen + 1) (by omega) hk (by omega)
  have hDk := hD.owns (by omega)
  have hcur₁ := hD.cur_le
  obtain ⟨N, u₂, t₂, hN, ht₂, hF₂⟩ := ht₁.exists_handed (n := sizeofRbtreeNode) (by decide) (by decide)
    (by omega)
  have hNk := hN.owns (by decide)
  have hcur₂ := hN.cur_le
  have hD₂ := hN.keep hDk
  have hDN : D ≠ N := hDk.ne hN.fresh
  -- the characters of the key, and the two fields that no function writes
  obtain ⟨t₃, h₃⟩ : ∃ t₃, t₃ = t₂.write (B + D + 0) k.bytes := ⟨_, rfl⟩
  obtain ⟨t₄, h₄⟩ : ∃ t₄, t₄ = t₃.write (B + N + RbtreeNode.keyOffset.off) (enc (UInt32.ofNat D)) :=
    ⟨_, rfl⟩
  obtain ⟨t, h₅⟩ : ∃ t, t = t₄.write (B + N + RbtreeNode.val.off) (enc v) := ⟨_, rfl⟩
  obtain ⟨ht₃, hF₃⟩ : Heap B t₃ u₂ ∧ Frame B t₂ u₂ t₃ u₂ [D] := h₃ ▸ ht₂.write hD₂ (by simp)
  obtain ⟨ht₄, hF₄⟩ : Heap B t₄ u₂ ∧ Frame B t₃ u₂ t₄ u₂ [N] :=
    h₄ ▸ ht₃.write hNk (by simp [sizeofRbtreeNode])
  obtain ⟨ht₅, hF₅⟩ : Heap B t u₂ ∧ Frame B t₄ u₂ t u₂ [N] :=
    h₅ ▸ ht₄.write hNk (by simp [sizeofRbtreeNode])
  have hF : Frame B s u t u₂ [] := by
    apply ((((hF₁.trans hF₂).trans hF₃).trans hF₄).trans hF₅).drop
    intro o ho
    simp only [List.mem_append, List.mem_singleton, List.not_mem_nil, false_or] at ho
    rcases ho with (rfl | rfl) | rfl
    · exact hD.mine
    · exact .inr ⟨hN.ne_mapRecord, hD.fresh_of hN.fresh⟩
    · exact .inr ⟨hN.ne_mapRecord, hD.fresh_of hN.fresh⟩
  have hold := h.frame ht₅ hF (by simp)
  have hNo : (UInt32.ofNat N).toNat = N := Words.toNat_ofNat hNk.lt
  have hDo : (UInt32.ofNat D).toNat = D := Words.toNat_ofNat hD₂.lt
  have hfresh {y : TreeCell} (hy : y ∈ L) : y.off.toNat ≠ N ∧ y.keyOffset.toNat ≠ N ∧ y.off.toNat ≠ D :=
    ⟨(h.nodes y hy).ne (hD.fresh_of hN.fresh), (h.keys y hy).ne (hD.fresh_of hN.fresh),
      (h.nodes y hy).ne hD.fresh⟩
  refine ⟨⟨UInt32.ofNat N, UInt32.ofNat D, k, v, true⟩, t, u₂, ⟨ht₅, ?_, ?_, ?_, ?_, ?_, ?_, ?_⟩, rfl, by omega⟩
  · intro y hy
    rcases List.mem_append.mp hy with hy | hy
    · exact hold.nodes y hy
    · obtain rfl := List.mem_singleton.mp hy
      simpa only [hNo] using hNk
  · intro y hy
    rcases List.mem_append.mp hy with hy | hy
    · exact hold.keys y hy
    · obtain rfl := List.mem_singleton.mp hy
      simpa only [hDo] using hD₂
  · intro y hy
    rcases List.mem_append.mp hy with hy | hy
    · exact hold.holds y hy
    · obtain rfl := List.mem_singleton.mp hy
      simp only [hDo]
      apply hF₅.holds (by simpa using hDN) hD₂
      apply hF₄.holds (by simpa using hDN) hD₂
      rw [h₃]
      exact holds_write t₂ (B + D) k
  · intro y hy
    rcases List.mem_append.mp hy with hy | hy
    · exact hold.keyed y hy
    · obtain rfl := List.mem_singleton.mp hy
      rfl
  · intro y hy
    rcases List.mem_append.mp hy with hy | hy
    · exact hold.data y hy
    · obtain rfl := List.mem_singleton.mp hy
      simp only [rbNode, hNo, h₅, h₄]
      constructor
      · rw [field_write_apart (by simp)]
        exact field_write_same _ _ RbtreeNode.keyOffset _
      · exact field_write_same _ _ RbtreeNode.val _
  · rw [List.map_append]
    apply List.nodup_append.mpr
    refine ⟨h.nodup, by simp, fun o ho o' ho' he => ?_⟩
    obtain ⟨y, hy, rfl⟩ := List.mem_map.mp ho
    simp only [List.map_cons, List.map_nil, List.mem_singleton] at ho'
    apply (hfresh hy).1
    rw [he, ho', hNo]
  · intro y hy z hz
    rcases List.mem_append.mp hy with hy | hy
    · rcases List.mem_append.mp hz with hz | hz
      · exact h.apart y hy z hz
      · obtain rfl := List.mem_singleton.mp hz
        simpa only [hDo] using (hfresh hy).2.2
    · obtain rfl := List.mem_singleton.mp hy
      simp only [hNo]
      rcases List.mem_append.mp hz with hz | hz
      · exact (hfresh hz).2.1.symm
      · obtain rfl := List.mem_singleton.mp hz
        simpa only [hDo] using hDN.symm

/-- Nodes for all keys of a list. -/
theorem adds {ps : List (CStr × TouchdbVal)} (h : Planted B s u L) (hk : ∀ p ∈ ps, p.1.Fits)
    (hr : u.cur + (ps.map cost).sum ≤ touchdbDefaultPoolSize) :
    ∃ M t u', Planted B t u' (L ++ M) ∧ M.map TreeCell.pair = ps := by
  induction ps generalizing s u L with
  | nil => exact ⟨[], s, u, by simpa using h, rfl⟩
  | cons p ps ih =>
    simp only [List.map_cons, List.sum_cons] at hr
    obtain ⟨x, t₁, u₁, h₁, hx, hcur⟩ := h.add (v := p.2) (hk p List.mem_cons_self) (by
      show u.cur + cost p ≤ _
      omega)
    have hcur' : u₁.cur ≤ u.cur + cost p := hcur
    obtain ⟨M, t, u', hM, rfl⟩ := ih h₁ (fun q hq => hk q (List.mem_cons_of_mem _ hq)) (by omega)
    refine ⟨x :: M, t, u', ?_, ?_⟩
    · rwa [List.append_assoc] at hM
    · rw [List.map_cons, hx]

end Planted

namespace Nodes
variable {k : Links} {s : RbStore}

theorem exists_set {α : Type} [Layout α] (h : Nodes B u L k s) (hx : x ∈ L) (F : NodeField α) (v : α) :
    ∃ t, Nodes B u L (k.set x.off (F.set v)) t := by
  have hwp : wp (⟨fun _ => False, fun _ => True⟩ : Guard Stop RbEvent)
      (setField (B + x.off.toNat) F.field v) (fun _ t => Nodes B u L (k.set x.off (F.set v)) t) s :=
    h.wp_set (fun _ _ => trivial) hx F v fun _ ht => ht
  obtain ⟨_, t, _, -, -, ht⟩ := wp_ends hwp fun _ h => h
  exact ⟨t, ht⟩

/-- A node gets its links and its color. -/
theorem exists_node {l r m : PtrOffset} {c : RbColor} (h : Nodes B u L k s) (hx : x ∈ L)
    (hdata : (k.node x.off).keyOffset = x.keyOffset ∧ (k.node x.off).val = x.val) :
    ∃ j t, Nodes B u L j t ∧ j.root = k.root ∧ j.node x.off = x.node l r m c ∧
      ∀ o, o ≠ x.off → j.node o = k.node o := by
  obtain ⟨s₁, h₁⟩ := h.exists_set hx NodeField.left l
  obtain ⟨s₂, h₂⟩ := h₁.exists_set hx NodeField.right r
  obtain ⟨s₃, h₃⟩ := h₂.exists_set hx NodeField.parent m
  obtain ⟨t, ht⟩ := h₃.exists_set hx NodeField.color (colorOf c)
  refine ⟨_, t, ht, rfl, ?_, fun o ho => ?_⟩
  · rw [set_self, set_self, set_self, set_self]
    apply RbNode.ext
    case keyOffset => exact hdata.1
    case val => exact hdata.2
    all_goals rfl
  · simp only [set_ne _ _ ho]

/-- The nodes are linked to a tree. -/
theorem exists_tree {t : RbTree TreeCell} (h : Nodes B u L k s) (ht : ∀ x ∈ t.toList, x ∈ L)
    (hd : Distinct t)
    (hdata : ∀ x ∈ t.toList, (k.node x.off).keyOffset = x.keyOffset ∧ (k.node x.off).val = x.val)
    (par : PtrOffset) :
    ∃ j s', Nodes B u L j s' ∧ j.root = k.root ∧ Holds j.node par t ∧
      ∀ o, (∀ x ∈ t.toList, x.off ≠ o) → j.node o = k.node o := by
  induction t generalizing k s par with
  | nil => exact ⟨k, s, h, rfl, trivial, fun _ _ => rfl⟩
  | node c l x r ihl ihr =>
    have hap := Distinct.node (p := []) hd
    have hdl : Distinct l := hd.of_sublist (List.sublist_append_left _ _)
    have hdr : Distinct r :=
      hd.of_sublist ((List.sublist_cons_self _ _).trans (List.sublist_append_right _ _))
    have hlr : ∀ y ∈ l.toList, ∀ z ∈ r.toList, z.off ≠ y.off := by
      intro y hy z hz
      apply Distinct.disjoint (p := [⟨.left, c, x, r⟩]) (t := l) hd _ hy
      exact mem_pathCells_cons.mpr (.inr (.inl hz))
    simp only [toList, List.mem_append, List.mem_cons] at ht hdata
    obtain ⟨j₁, s₁, h₁, hr₁, hl, hk₁⟩ := ihl h (fun y hy => ht y (.inl hy)) hdl
      (fun y hy => hdata y (.inl hy)) x.off
    obtain ⟨j₂, s₂, h₂, hr₂, hr, hk₂⟩ := ihr h₁ (fun y hy => ht y (.inr (.inr hy))) hdr (fun y hy => by
      rw [hk₁ _ fun z hz => (hlr z hz y hy).symm]
      exact hdata y (.inr (.inr hy))) x.off
    have hx₂ : j₂.node x.off = k.node x.off := by
      rw [hk₂ _ fun z hz => hap z (.inr (.inl hz)), hk₁ _ fun z hz => hap z (.inl hz)]
    obtain ⟨j, s', hs', hr₃, hx, hk⟩ := h₂.exists_node (l := rootOff l) (r := rootOff r) (m := par) (c := c)
      (ht x (.inr (.inl rfl))) (by rw [hx₂]; exact hdata x (.inr (.inl rfl)))
    refine ⟨j, s', hs', hr₃.trans (hr₂.trans hr₁), ⟨hd.ne_nil x (by simp [toList]), hx, ?_, ?_⟩, fun o ho => ?_⟩
    · apply hl.congr
      intro y hy
      rw [hk _ (hap y (.inl hy)), hk₂ _ fun z hz => hlr y hy z hz]
    · exact hr.congr fun y hy => hk _ (hap y (.inr (.inl hy)))
    · simp only [toList, List.mem_append, List.mem_cons] at ho
      rw [hk o (ho x (.inr (.inl rfl))).symm, hk₂ o fun z hz => ho z (.inr (.inr hz)),
        hk₁ o fun z hz => ho z (.inl hz)]

end Nodes

end

/-- A key of one letter, with a value without blocks. -/
def letter (c : UInt8) (hc : c ≠ 0 := by decide) : CStr × TouchdbVal :=
  (⟨[c], by simpa using hc.symm⟩, ⟨.int, nullAddr⟩)

/-- A `strcmp` whose results are -1, 0 and 1. -/
def signCmp : Strcmp where
  cmp a b := if b < a then 1 else if a < b then -1 else 0
  pos_iff a b := by split_ifs <;> simp [*]
  neg_iff a b := by
    split_ifs with h1 h2
    · simpa using h1.le
    · simp [h2]
    · simp [h2]

/-- A tree of keys and values in a new pool, and nodes that do not stand in it. -/
theorem exists_treeBeside (t : RbTree (CStr × TouchdbVal)) (ps : List (CStr × TouchdbVal))
    (hk : ∀ p ∈ ps ++ t.toList, p.1.Fits)
    (hr : 1 + ((ps ++ t.toList).map Planted.cost).sum ≤ touchdbDefaultPoolSize) :
    ∃ u s k T M, T.map TreeCell.pair = t ∧ M.map TreeCell.pair = ps ∧
      Nodes 4096 u (M ++ T.toList) k s ∧ k.root = rootOff T ∧ Holds k.node NIL T ∧
      (∀ x ∈ M ++ T.toList, x.keyed = true) ∧ ∀ x ∈ M, (k.node x.off).keyOffset = x.keyOffset := by
  obtain ⟨s₀, h₀⟩ := exists_newHeap
  have hempty : Planted 4096 s₀ freshAlloc [] :=
    ⟨h₀, by simp, by simp, by simp, by simp, by simp, by simp, by simp⟩
  obtain ⟨L, db, u, hL, hpairs⟩ := hempty.adds hk hr
  obtain ⟨M, N, rfl, rfl, hN⟩ := List.map_eq_append_iff.mp hpairs
  obtain ⟨T, rfl, rfl⟩ := exists_map TreeCell.pair hN
  rw [List.nil_append] at hL
  have hcells := hL.cells
  have hnodes : Nodes 4096 u (M ++ T.toList) ⟨rbNode 4096 db, rootOff T⟩ ⟨db, ⟨rootOff T⟩⟩ :=
    ⟨hcells, fun _ _ => rfl, rfl⟩
  have hnodup := hL.nodup
  rw [List.map_append, List.nodup_append] at hnodup
  have hmem : ∀ x ∈ T.toList, x ∈ M ++ T.toList := fun x hx => List.mem_append_right M hx
  have hd : Distinct T := ⟨hnodup.2.1, fun x hx => hnodes.ne_nil (hmem x hx)⟩
  obtain ⟨j, s, hj, hroot, hT, hrest⟩ := hnodes.exists_tree hmem hd (fun x hx => hL.data x (hmem x hx)) NIL
  refine ⟨u, s, j, T, M, rfl, rfl, hj, hroot, hT, hL.keyed, fun x hx => ?_⟩
  rw [hrest x.off fun z hz he => hnodup.2.2 _ (List.mem_map_of_mem hx) _ (List.mem_map_of_mem hz) he.symm]
  exact (hL.data x (List.mem_append_left _ hx)).1

theorem exists_treeRep (t : RbTree (CStr × TouchdbVal)) (hk : ∀ p ∈ t.toList, p.1.Fits)
    (hr : 1 + (t.toList.map Planted.cost).sum ≤ touchdbDefaultPoolSize) :
    ∃ u s T, TreeRep 4096 u T.toList T s ∧ T.map TreeCell.pair = t := by
  obtain ⟨u, s, k, T, M, rfl, hM, hnodes, hroot, hT, hkeyed, -⟩ := exists_treeBeside t [] hk hr
  obtain rfl := List.map_eq_nil_iff.mp hM
  exact ⟨u, s, T, ⟨hnodes.linkRep rfl hroot hT, hkeyed⟩, rfl⟩

/-- So it is for a red-black search tree. -/
theorem exists_rbState (t : RbTree (CStr × TouchdbVal)) (hv : t.Valid) (hs : Sorted Prod.fst t)
    (hk : ∀ p ∈ t.toList, p.1.Fits)
    (hr : 1 + (t.toList.map Planted.cost).sum ≤ touchdbDefaultPoolSize) :
    ∃ s : RbState, s.tree.map TreeCell.pair = t := by
  obtain ⟨u, s, T, hT, rfl⟩ := exists_treeRep t hk hr
  have hs' : Sorted TreeCell.key T := by
    unfold Sorted at hs
    rwa [toList_map, List.map_map] at hs
  exact ⟨⟨4096, s, u, T, hT, (valid_map _).mp hv, hs'⟩, rfl⟩

end TouchDb
