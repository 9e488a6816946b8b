import TouchDb.Chain.Lookup

/-! Chains are compared like words in a dictionary: any total order on the values gives one on
their sequences. -/
namespace TouchDb
open Prog Layout

/-- The sign of a result, as an `Ordering`. -/
def signOf (r : Int32) : Ordering := compare r.toInt 0

/-- The signs of `cmp` are those of a total order, in which `x` and `y` are equal when `val` takes
them to one value. -/
structure Orders {α ν : Type} (cmp : α → α → Int32) (val : α → ν) : Prop where
  antisymm : ∀ x y, (cmp y x).toInt.sign = -(cmp x y).toInt.sign
  trans : ∀ x y z, (cmp x y).toInt ≤ 0 → (cmp y z).toInt ≤ 0 → (cmp x z).toInt ≤ 0
  zero_iff : ∀ x y, cmp x y = 0 ↔ val x = val y

/-- What `touchdb_chain_cmp` returns for two sequences of values. -/
def seqCmp {ν : Type} (cmp : ν → ν → Int32) : List ν → List ν → Int32
  | [], [] => 0
  | [], _ :: _ => -1
  | _ :: _, [] => 1
  | x :: xs, y :: ys => if cmp x y ≠ 0 then cmp x y else seqCmp cmp xs ys

section Order
variable {α ν : Type} {cmp : α → α → Int32} {val : α → ν} {r r' : Int32}

theorem toInt_eq_zero : r.toInt = 0 ↔ r = 0 := by
  rw [← Int32.toInt_inj]
  rfl

theorem signOf_eq : signOf r = .eq ↔ r = 0 := by
  rw [← toInt_eq_zero]
  exact Int.compare_eq_eq

theorem signOf_isLE : (signOf r).isLE ↔ r.toInt ≤ 0 := by
  unfold signOf
  rw [Int.isLE_compare]

theorem signOf_swap : signOf r = (signOf r').swap ↔ r.toInt.sign = -r'.toInt.sign := by
  unfold signOf
  rw [Int.compare_swap]
  rcases lt_trichotomy r.toInt 0 with h | h | h
  all_goals rcases lt_trichotomy r'.toInt 0 with h' | h' | h'
  all_goals
    simp [h, h', Int.sign_eq_neg_one_of_neg, Int.sign_eq_one_of_pos, Int.compare_eq_lt.mpr,
      Int.compare_eq_gt.mpr]

theorem Orders.transCmp (h : Orders cmp val) : Std.TransCmp fun x y => signOf (cmp x y) where
  eq_swap := signOf_swap.mpr (h.antisymm _ _)
  isLE_trans h1 h2 := signOf_isLE.mpr (h.trans _ _ _ (signOf_isLE.mp h1) (signOf_isLE.mp h2))

theorem Orders.lawful {cmp : ν → ν → Int32} (h : Orders cmp id) :
    Std.LawfulEqCmp fun x y => signOf (cmp x y) where
  compare_self := signOf_eq.mpr ((h.zero_iff _ _).mpr rfl)
  eq_of_compare h0 := (h.zero_iff _ _).mp (signOf_eq.mp h0)

/-- The sign of the result is that of the lexicographic order. -/
theorem signOf_seqCmp (cmp : ν → ν → Int32) (xs ys : List ν) :
    signOf (seqCmp cmp xs ys) = List.compareLex (fun x y => signOf (cmp x y)) xs ys := by
  induction xs generalizing ys with
  | nil =>
    cases ys with
    | nil => rfl
    | cons y ys => rfl
  | cons x xs ih =>
    cases ys with
    | nil => rfl
    | cons y ys =>
      rw [List.compareLex_cons_cons]
      unfold seqCmp
      by_cases h0 : cmp x y = 0
      · rw [if_neg (not_not_intro h0), signOf_eq.mpr h0, ih]
        rfl
      · rw [if_pos h0]
        cases hs : signOf (cmp x y) with
        | lt => rfl
        | eq => exact absurd (signOf_eq.mp hs) h0
        | gt => rfl

/-- A total order on the values gives one on the sequences. -/
theorem Orders.seq {cmp : ν → ν → Int32} (h : Orders cmp id) : Orders (seqCmp cmp) id := by
  have := h.transCmp
  have := h.lawful
  constructor
  · intro xs ys
    apply signOf_swap.mp
    rw [signOf_seqCmp, signOf_seqCmp]
    exact Std.OrientedCmp.eq_swap
  · intro xs ys zs h1 h2
    rw [← signOf_isLE, signOf_seqCmp] at h1 h2 ⊢
    exact Std.TransCmp.isLE_trans h1 h2
  · intro xs ys
    rw [← signOf_eq, signOf_seqCmp]
    exact Std.LawfulEqCmp.compare_eq_iff_eq

/-- A proper prefix comes first. -/
theorem seqCmp_append {cmp : ν → ν → Int32} (h : Orders cmp id) (xs : List ν) {ys : List ν}
    (hne : ys ≠ []) : (seqCmp cmp xs (xs ++ ys)).toInt < 0 := by
  obtain ⟨y, ys, rfl⟩ := List.exists_cons_of_ne_nil hne
  induction xs with
  | nil =>
    show (-1 : Int32).toInt < 0
    decide
  | cons x xs ih =>
    show (if cmp x x ≠ 0 then cmp x x else seqCmp cmp xs (xs ++ y :: ys)).toInt < 0
    rw [if_neg (not_not_intro ((h.zero_iff x x).mpr rfl))]
    exact ih

end Order

/-- The nodes of two chains compare as their values do, and nothing changes. -/
def ComparesTo {ν : Type} (G : Guard Stop Event) (valCmp : ℕ → ℕ → M Int32) (B : ℕ) (s : Touchdb)
    (content : ℕ → ν) (cmp : ν → ν → Int32) (r q : List ListNode) : Prop :=
  ∀ m ∈ r, ∀ n ∈ q, ∀ R : Int32 → Touchdb → Prop,
    R (cmp (content (B + m.blk + ChainNode.val.off)) (content (B + n.blk + ChainNode.val.off))) s →
      wp G (valCmp (B + m.blk + ChainNode.val.off) (B + n.blk + ChainNode.val.off)) R s

/-- The values of a chain. -/
def contents {ν : Type} (B : ℕ) (content : ℕ → ν) (q : List ListNode) : List ν :=
  q.map fun n => content (B + n.blk + ChainNode.val.off)

section Loop
variable {B : ℕ} {s : Touchdb} {a : PoolAlloc} {C D : ℕ} {q r : List ListNode}
variable {G : Guard Stop Event} {valCmp : ℕ → ℕ → M Int32}
variable {ν : Type} {content : ℕ → ν} {cmp : ν → ν → Int32}

/-- The loop from the first nodes of `r` and `q` on. The rounds suffice when they do for `r`. -/
theorem wp_chainCmpLoop {Q : Int32 → Touchdb → Prop} {rounds : ℕ} (h : Heap B s a) (hR : Reads G)
    (hr : Linked (nodeNext B s) (r.map ListNode.blk))
    (hrO : ∀ n ∈ r, Owns a n.blk touchdbChainNodeSize)
    (hq : Linked (nodeNext B s) (q.map ListNode.blk))
    (hqO : ∀ n ∈ q, Owns a n.blk touchdbChainNodeSize)
    (hc : ComparesTo G valCmp B s content cmp r q) (hlen : r.length < rounds)
    (hQ : Q (seqCmp cmp (contents B content r) (contents B content q)) s) :
    wp G (chainCmpLoop valCmp rounds (nodePtr B r.head?) (nodePtr B q.head?)) Q s := by
  induction r generalizing rounds q with
  | nil =>
    obtain ⟨k, rfl⟩ : ∃ k, rounds = k + 1 := ⟨rounds - 1, by omega⟩
    show wp G (chainCmpLoop valCmp (k + 1) NULL _) Q s
    unfold chainCmpLoop
    rw [if_neg (fun hp => hp.1 rfl), if_neg (not_not_intro rfl)]
    cases q with
    | nil =>
      have h0 : nodePtr B ([] : List ListNode).head? = NULL := rfl
      rw [if_neg (not_not_intro h0)]
      exact wp_pure hQ
    | cons n q =>
      have hn : nodePtr B (n :: q).head? ≠ NULL := (hqO n List.mem_cons_self).ptr_ne B
      rw [if_pos hn]
      exact wp_pure hQ
  | cons m r ih =>
    simp only [List.length_cons] at hlen
    obtain ⟨k, rfl⟩ : ∃ k, rounds = k + 1 := ⟨rounds - 1, by omega⟩
    have hm : B + m.blk ≠ NULL := (hrO m List.mem_cons_self).ptr_ne B
    show wp G (chainCmpLoop valCmp (k + 1) (B + m.blk) _) Q s
    unfold chainCmpLoop
    cases q with
    | nil =>
      rw [if_neg (fun hp => hp.2 rfl), if_pos hm]
      exact wp_pure hQ
    | cons n q =>
      have hn : B + n.blk ≠ NULL := (hqO n List.mem_cons_self).ptr_ne B
      show wp G (if B + m.blk ≠ NULL ∧ B + n.blk ≠ NULL then _ else _) Q s
      rw [if_pos ⟨hm, hn⟩]
      simp only [contents, List.map_cons, seqCmp] at hQ
      apply wp_bind
      apply hc m List.mem_cons_self n List.mem_cons_self
      by_cases h0 : cmp (content (B + m.blk + ChainNode.val.off))
          (content (B + n.blk + ChainNode.val.off)) = 0
      · rw [if_neg (not_not_intro h0)] at hQ ⊢
        apply wp_bind
        apply wp_nextOf h hR hr hrO
        apply wp_bind
        apply wp_nextOf h hR hq hqO
        apply ih hr.2 _ hq.2 _ _ (by omega) hQ
        · intro x hx
          exact hrO x (List.mem_cons_of_mem _ hx)
        · intro x hx
          exact hqO x (List.mem_cons_of_mem _ hx)
        · intro x hx y hy
          exact hc x (List.mem_cons_of_mem _ hx) y (List.mem_cons_of_mem _ hy)
      · rw [if_pos h0] at hQ ⊢
        exact wp_pure hQ

/-- Two values that are chains. -/
theorem wp_touchdbChainCmp {Q : Int32 → Touchdb → Prop} (h : Heap B s a) (hR : Reads G)
    (hr : ChainRep B s a C r) (hq : ChainRep B s a D q) (v w : ValArg a)
    (hv : (v.val B s).value = addrOf C) (hw : (w.val B s).value = addrOf D)
    (hc : ComparesTo G valCmp B s content cmp r q)
    (hQ : Q (seqCmp cmp (contents B content r) (contents B content q)) s) :
    wp G (touchdbChainCmp valCmp (v.ptr B) (w.ptr B)) Q s := by
  have hv' : s.field (B + v.blk) ⟨v.off + Val.value.off⟩ = addrOf C :=
    (ValAt.of_field v.owns rfl).value.trans hv
  have hw' : s.field (B + w.blk) ⟨w.off + Val.value.off⟩ = addrOf D :=
    (ValAt.of_field w.owns rfl).value.trans hw
  have hvb := v.owns.bounds
  have hwb := w.owns.bounds
  unfold touchdbChainCmp ValArg.ptr
  apply wp_bind
  apply wp_load_shift (by omega)
  apply wp_loadCell h v.owns (by simp [sizeofVal])
  rw [hv']
  apply wp_bind
  apply wp_ptrOfOwned h hR hr.chain
  apply wp_bind
  apply wp_load_shift (by omega)
  apply wp_loadCell h w.owns (by simp [sizeofVal])
  rw [hw']
  apply wp_bind
  apply wp_ptrOfOwned h hR hq.chain
  apply wp_bind
  apply wp_headerOf h hR hr
  apply wp_bind
  apply wp_headerOf h hR hq
  exact wp_chainCmpLoop h hR hr.next hr.node hq.next hq.node hc hr.length_lt hQ

end Loop

/-- A process whose first pool holds chains, a value that points to each, and a comparison of their
values that is a total order. Chains may share nodes, and `touchdb_val_cmp` may be any program that
leaves the process as it is. -/
structure ChainFamily (ι ν : Type) where
  ptr : ℕ
  db : Touchdb
  alloc : PoolAlloc
  heap : Heap ptr db alloc
  chain : ι → ℕ
  nodes : ι → List ListNode
  rep : ∀ i, ChainRep ptr db alloc (chain i) (nodes i)
  arg : ι → ValArg alloc
  points : ∀ i, ((arg i).val ptr db).value = addrOf (chain i)
  content : ℕ → ν
  cmp : ν → ν → Int32
  orders : Orders cmp id
  valCmp : ℕ → ℕ → M Int32
  compares : ∀ i j, ∀ m ∈ nodes i, ∀ n ∈ nodes j,
    (valCmp (ptr + m.blk + ChainNode.val.off) (ptr + n.blk + ChainNode.val.off)).run db =
      .ok (cmp (content (ptr + m.blk + ChainNode.val.off))
        (content (ptr + n.blk + ChainNode.val.off)), db)

namespace ChainFamily
variable {ι ν : Type}

/-- The pointer to the value that points to a chain. -/
def valPtr (c : ChainFamily ι ν) (i : ι) : ℕ := (c.arg i).ptr c.ptr

def values (c : ChainFamily ι ν) (i : ι) : List ν := contents c.ptr c.content (c.nodes i)

theorem run (c : ChainFamily ι ν) (i j : ι) :
    (touchdbChainCmp c.valCmp (c.valPtr i) (c.valPtr j)).run c.db =
      .ok (seqCmp c.cmp (c.values i) (c.values j), c.db) := by
  apply run_eq (G := anyEvent) _ fun _ h => h
  apply wp_touchdbChainCmp c.heap (fun _ _ _ => trivial) (c.rep i) (c.rep j) _ _ (c.points i)
    (c.points j) _ ⟨rfl, rfl⟩
  intro m hm n hn R hR
  exact wp_of_run (c.compares i j m hm n hn) (fun _ => trivial) hR

end ChainFamily

/-- The comparison of chains ends and is a total order on the sequences of their values, in which a
proper prefix comes before what extends it. -/
theorem touchdbChainCmp_orders {ι ν : Type} (c : ChainFamily ι ν) :
    ∃ r : ι → ι → Int32,
      (∀ i j, (touchdbChainCmp c.valCmp (c.valPtr i) (c.valPtr j)).run c.db = .ok (r i j, c.db)) ∧
      Orders r c.values ∧
      ∀ i j, c.values i <+: c.values j → c.values i ≠ c.values j → (r i j).toInt < 0 := by
  have h := c.orders.seq
  refine ⟨fun i j => seqCmp c.cmp (c.values i) (c.values j), c.run, ?_, ?_⟩
  · constructor
    · intro i j
      exact h.antisymm _ _
    · intro i j k
      exact h.trans _ _ _
    · intro i j
      exact h.zero_iff _ _
  · intro i j hp hne
    obtain ⟨ys, hys⟩ := hp
    show (seqCmp c.cmp (c.values i) (c.values j)).toInt < 0
    rw [← hys] at hne ⊢
    apply seqCmp_append c.orders
    rintro rfl
    exact hne (List.append_nil _).symm

section Instance
variable {B : ℕ} {s : Touchdb} {a : PoolAlloc} {w : TouchdbVal}

/-- A value in a block of its own, and what room is left. -/
theorem Heap.exists_val {ns : List ℕ} (h : Heap B s a) (w : TouchdbVal)
    (hr : a.cur + roomFor (sizeofVal :: ns) ≤ touchdbDefaultPoolSize) :
    ∃ V a' t, Heap B t a' ∧ Frame B s a t a' [] ∧ Owns a' V sizeofVal ∧ t.field (B + V) Val.all = w ∧
      a'.cur + roomFor ns ≤ touchdbDefaultPoolSize := by
  simp only [roomFor, List.map_cons, List.sum_cons] at hr ⊢
  obtain ⟨V, a', t, hV, ht, hF⟩ := h.exists_handed (n := sizeofVal) (by decide) (by decide) (by omega)
  have hO := hV.owns (n := sizeofVal) (by decide)
  have hcur := hV.cur_le
  obtain ⟨ht', hF'⟩ : Heap B (t.write (B + V + Val.all.off) (enc w)) a' ∧
      Frame B t a' (t.write (B + V + Val.all.off) (enc w)) a' [V] := ht.write hO (by simp [sizeofVal])
  refine ⟨V, a', _, ht', ?_, hO, field_write_same _ _ Val.all _, by omega⟩
  apply (hF.trans hF').drop
  intro o ho
  obtain rfl := List.mem_singleton.mp ho
  exact hV.mine

/-- An empty chain and a value that points to it, where there is room. -/
theorem Heap.exists_chain (h : Heap B s a)
    (hr : a.cur + roomFor [sizeofVal, sizeofChain] ≤ touchdbDefaultPoolSize) :
    ∃ V C a' t, Heap B t a' ∧ Frame B s a t a' [] ∧ Owns a' V sizeofVal ∧ ChainRep B t a' C [] ∧
      t.field (B + V) Val.all = ⟨.chain, addrOf C⟩ := by
  simp only [roomFor, List.map_cons, List.map_nil, List.sum_cons, List.sum_nil] at hr
  obtain ⟨V, a₁, t₁, hV, ht₁, hF₁⟩ := h.exists_handed (n := sizeofVal) (by decide) (by decide) (by omega)
  have hO := hV.owns (n := sizeofVal) (by decide)
  have hcur := hV.cur_le
  have hwp : wp anyEvent (touchdbChainNew (B + V)) (fun _ t => ∃ C a', Handed a₁ sizeofChain C a' ∧
      Heap B t a' ∧ Frame B t₁ a₁ t a' [V] ∧ ChainRep B t a' C [] ∧
      t.field (B + V) Val.all = ⟨.chain, addrOf C⟩) t₁ := by
    apply wp_touchdbChainNew (Work.start (T := [V]) ht₁) (fun _ => trivial) (.one (by omega))
      (.inl (List.mem_singleton_self V)) hO
    intro C a' t hC hw hF hrep hval
    exact ⟨C, a', hC, hw.heap, hF, hrep, hval⟩
  obtain ⟨_, t, _, -, -, C, a', hC, ht, hF, hrep, hval⟩ := wp_ends hwp fun _ h => h
  refine ⟨V, C, a', t, ht, ?_, hC.keep hO, hrep, hval⟩
  apply (hF₁.trans hF).drop
  intro o ho
  obtain rfl := List.mem_singleton.mp ho
  exact hV.mine

theorem ItemRep.plain_eq {w' : {w : TouchdbVal // w.type ≠ .str}} {l : List ℕ}
    (h : ItemRep B s a (.plain w') w l) : w = w'.1 := by
  cases h
  rfl

/-- The order of the numbers, as results of a comparison. -/
def natCmp (x y : ℕ) : Int32 := if x < y then -1 else if y < x then 1 else 0

theorem toInt_natCmp (x y : ℕ) :
    (natCmp x y).toInt = if x < y then -1 else if y < x then 1 else 0 := by
  unfold natCmp
  split_ifs <;> rfl

theorem natCmp_orders : Orders natCmp id where
  antisymm x y := by
    rw [toInt_natCmp, toInt_natCmp]
    split_ifs <;> first | rfl | omega
  trans x y z h1 h2 := by
    rw [toInt_natCmp] at *
    split_ifs at * <;> omega
  zero_iff x y := by
    rw [← toInt_eq_zero, toInt_natCmp]
    rcases lt_trichotomy x y with h | rfl | h
    · simp [h, h.ne]
    · simp
    · simp [h.not_gt, h, h.ne']

end Instance

/-- An empty chain and one with a number, of which the comparison of the source says what the
numbers say. -/
theorem exists_family : ∃ c : ChainFamily Bool ℕ, c.values false = [] ∧ (c.values true).length = 1 := by
  obtain ⟨c, -, hitems, hroom⟩ := exists_stock (f := .page) [zeroInt] [sizeofVal, sizeofVal, sizeofChain]
    (by decide)
  obtain ⟨V, a₁, t₁, ht₁, hF₁, hV, hval, hroom₁⟩ :=
    c.stocked.heap.exists_val ⟨.chain, addrOf c.chain⟩ hroom
  obtain ⟨V', D, a', t, ht, hF, hV', hD, hval'⟩ := ht₁.exists_chain hroom₁
  have hst := (c.stocked.frameNew ht₁ hF₁).frameNew ht hF
  have hC := hst.rep.toChainRep
  have hVt : t.field (c.ptr + V) Val.all = ⟨.chain, addrOf c.chain⟩ :=
    (hF.field (by simp) hV (by decide)).trans hval
  have hint : ∀ n ∈ c.cells.map StockCell.node, n.val.type = .int := by
    intro n hn
    obtain ⟨z, hz, rfl⟩ := List.mem_map.mp hn
    have hzi : z.item = zeroInt := by
      have hmem : z.item ∈ c.items := List.mem_map_of_mem hz
      rw [hitems] at hmem
      exact List.mem_singleton.mp hmem
    have hi := hst.items z hz
    rw [hzi] at hi
    rw [hi.plain_eq]
  obtain ⟨content, hcontent⟩ : ∃ f : ℕ → ℕ, f = fun p => (t.field p Val.all).value.offset.toNat := ⟨_, rfl⟩
  refine ⟨⟨c.ptr, t, a', ht, fun i => if i then c.chain else D,
    fun i => if i then c.cells.map StockCell.node else [], ?_,
    fun i => if i then ⟨V, 0, hF.owns (by simp) hV⟩ else ⟨V', 0, hV'⟩, ?_, content, natCmp, natCmp_orders,
    touchdbValCmp fun p q => natCmp (content p) (content q), ?_⟩, rfl, ?_⟩
  · rintro (_ | _)
    · exact hD
    · exact hC
  · rintro (_ | _)
    · exact congrArg TouchdbVal.value hval'
    · exact congrArg TouchdbVal.value hVt
  · rintro (_ | _) (_ | _) m hm n hn
    · cases hm
    · cases hm
    · cases hn
    · have hm' := hC.node m hm
      have hn' := hC.node n hn
      have hwp : wp anyEvent (touchdbValCmp (fun p q => natCmp (content p) (content q))
          (c.ptr + m.blk + ChainNode.val.off) (c.ptr + n.blk + ChainNode.val.off))
          (fun r u => r = natCmp (content (c.ptr + m.blk + ChainNode.val.off))
            (content (c.ptr + n.blk + ChainNode.val.off)) ∧ u = t) t :=
        wp_touchdbValCmp ht (.of_field (hm'.mono (by decide)) (hC.val m hm))
          (.of_field (hn'.mono (by decide)) (hC.val n hn)) ((hint m hm).trans (hint n hn).symm) ⟨rfl, rfl⟩
      exact run_eq (G := anyEvent) hwp fun _ h => h
  · show ((c.cells.map StockCell.node).map _).length = 1
    rw [List.length_map, List.length_map]
    simpa [StockState.items] using congrArg List.length hitems

/-- The empty chain comes before the one with a number. -/
theorem touchdbChainCmp_orders_two : ∃ (c : ChainFamily Bool ℕ) (r : Int32),
    c.values false = [] ∧ (c.values true).length = 1 ∧
    (touchdbChainCmp c.valCmp (c.valPtr false) (c.valPtr true)).run c.db = .ok (r, c.db) ∧ r.toInt < 0 := by
  obtain ⟨c, hnil, hone⟩ := exists_family
  obtain ⟨r, hrun, -, hprefix⟩ := touchdbChainCmp_orders c
  refine ⟨c, r false true, hnil, hone, hrun _ _, hprefix _ _ ?_ ?_⟩
  · rw [hnil]
    exact List.nil_prefix
  · intro he
    rw [← he, hnil] at hone
    cases hone

end TouchDb
