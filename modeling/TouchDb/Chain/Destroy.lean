import TouchDb.Chain.Watched
import TouchDb.Chain.Lookup

/-! A chain is destroyed block by block, each once and none of them read afterwards. -/
namespace TouchDb
open Prog Layout

/-- What releasing the block at `o` shows: the release, and a read of its header. -/
def freeEvents (B o : ℕ) : List HeapEvent :=
  [.free (B + o), .read (B + o - blkHdrSize + FreeBlkHdr.idx.off) (size Int32)]

/-- What destroying the value of the node at `N` shows, from its blocks. -/
def valEvents (B N : ℕ) : List ℕ → List HeapEvent
  | [S, D] =>
    [.read (B + N + ChainNode.val.off + Val.value.off) 8, .read (B + S + Str.data.off) 8] ++
      (freeEvents B D ++ .read (B + N + ChainNode.val.off + Val.value.off) 8 :: freeEvents B S)
  | _ => []

/-- What destroying a node shows. -/
def nodeEvents (B N : ℕ) (l : List ℕ) : List HeapEvent :=
  (.read (B + N + ChainNode.val.off + Val.type.off) 4 :: valEvents B N l) ++ freeEvents B N

/-- The blocks of a node and its value. -/
def StockCell.owned (z : StockCell) : List ℕ := z.node.blk :: z.blocks

/-- What one round of the loop shows. -/
def roundEvents (B : ℕ) (z : StockCell) : List HeapEvent :=
  .read (B + z.node.blk + ChainNode.next.off) 8 :: nodeEvents B z.node.blk z.blocks

section Emit
variable {α β : Type} {B : ℕ} {s t : Touchdb} {a a' : PoolAlloc} {o n k : ℕ}
variable {l : List HeapEvent} {x : Item} {w : TouchdbVal} {bs : List ℕ} {m : Option ListNode}

theorem emits_silent {c : M α} {f : α → WatchM β} {Q : β → Touchdb → Prop}
    (h : wp anyEvent c (fun v t => Emits (f v) t l Q) s) : Emits (silent c >>= f) s l Q :=
  (Emits.silent h fun _ h => h).bind fun _ _ h => h

theorem emits_load [Layout α] {e : Field α} {f : α → WatchM β} {Q : β → Touchdb → Prop} (h : Heap B s a)
    (ho : Owns a o n) (hk : k + e.off + size α ≤ n)
    (hQ : Emits (f (s.field (B + o) ⟨k + e.off⟩)) s l Q) :
    Emits (watchLoad (B + o + k) e >>= f) s (.read (B + o + k + e.off) (size α) :: l) Q := by
  have hb := ho.bounds
  have hload : (load (B + o + k) e).run s = .ok (s.field (B + o) ⟨k + e.off⟩, s) := by
    apply run_eq (G := anyEvent) _ fun _ h => h
    apply wp_load_shift (by omega)
    exact wp_loadCell h ho hk ⟨rfl, rfl⟩
  have hwatch : Emits (watchLoad (B + o + k) e) s [.read (B + o + k + e.off) (size α)]
      fun v u => Emits (f v) u l Q := by
    apply (Emits.say (Q := fun _ u => s = u) rfl).bind
    rintro _ _ rfl
    exact Emits.silent_run hload hQ
  exact hwatch.bind fun _ _ h => h

/-- A release in the last place. -/
theorem emits_free {Q : Unit → Touchdb → Prop} (h : Heap B s a) (ho : Owns a o n)
    (hQ : ∀ a' t, Freed a o a' → Heap B t a' → Frame B s a t a' [o] → Q () t) :
    Emits (Watched.touchdbFree (addrOf o)) s (freeEvents B o) Q := by
  have hb := ho.bounds
  have hsz := poolSize_lt
  obtain ⟨_, t, _, hc, -, hq⟩ := wp_ends (G := anyEvent) (wp_touchdbFree h ho (fun _ _ => trivial)
    fun a' t hf ht hF _ => hQ a' t hf ht hF) fun _ h => h
  have hj : (poolAt 0).run s = .ok (0, s) := run_ok (if_pos ⟨by decide, by decide⟩)
  have hp : (ptrOf 0 (addrOf o).offset).run s = .ok (B + o, s) := by
    apply run_eq (G := anyEvent) _ fun _ h => h
    have hoff : (addrOf o).offset.toNat = o := addrOf_offset (by omega)
    apply wp_ptrOf h.toPoolMapped (by omega)
    rw [hoff, h.base_eq]
    exact ⟨rfl, rfl⟩
  have hrun := run_ok hc
  unfold TouchDb.touchdbFree at hrun
  rw [run_bind, show (addrOf o).poolIdx = 0 from rfl, hj] at hrun
  dsimp only at hrun
  rw [run_bind, hp] at hrun
  apply (Emits.silent_run hj ⟨rfl, rfl⟩).bind (P := fun j u => j = 0 ∧ s = u)
  rintro _ _ ⟨rfl, rfl⟩
  apply (Emits.silent_run hp ⟨rfl, rfl⟩).bind (P := fun p v => p = B + o ∧ s = v)
  rintro _ _ ⟨rfl, rfl⟩
  show Emits _ s (freeEvents B o ++ []) Q
  apply (Emits.say (Q := fun _ v => s = v) rfl).bind
  rintro _ _ rfl
  exact Emits.silent_run hrun hq

/-- A release before what follows. -/
theorem emits_freeThen {f : Unit → WatchM β} {Q : β → Touchdb → Prop} (h : Heap B s a)
    (ho : Owns a o n)
    (hQ : ∀ a' t, Freed a o a' → Heap B t a' → Frame B s a t a' [o] → Emits (f ()) t l Q) :
    Emits (Watched.touchdbFree (addrOf o) >>= f) s (freeEvents B o ++ l) Q :=
  (emits_free h ho hQ).bind fun _ _ h => h

/-- The destruction of a value: a string releases its characters, then its struct. -/
theorem emits_valDestroy {N : ℕ} {Q : Unit → Touchdb → Prop} (h : Heap B s a)
    (hN : Owns a N touchdbChainNodeSize) (hv : s.field (B + N) ChainNode.val = w)
    (hx : ItemRep B s a x w bs) (hNb : N ∉ bs)
    (hQ : ∀ a' t, Heap B t a' → Frame B s a t a' bs → (∀ o, Used a' o ↔ Used a o ∧ o ∉ bs) →
      Q () t) :
    Emits (Watched.touchdbValDestroy (B + N + ChainNode.val.off)) s
      (.read (B + N + ChainNode.val.off + Val.type.off) 4 :: valEvents B N bs) Q := by
  have hat : ValAt B s a N ChainNode.val.off w := .of_field (hN.mono (by decide)) hv
  unfold Watched.touchdbValDestroy
  apply emits_load h hN (by decide)
  rw [hat.type]
  cases hx with
  | plain w =>
    rw [if_neg w.2]
    exact Emits.pure (hQ a s h (.refl B s a _) (by simp))
  | @str S D v hr =>
    simp only [List.mem_cons, List.not_mem_nil, or_false, not_or] at hNb
    rw [if_pos rfl]
    apply emits_load h hN (by decide)
    rw [hat.value]
    apply emits_silent
    apply wp_ptrOfOwned h (fun _ _ _ => trivial) hr.str
    apply emits_load (k := 0) h hr.str (by decide)
    rw [show s.field (B + S) ⟨0 + Str.data.off⟩ = addrOf D from hr.data]
    apply emits_freeThen h (hr.chars.mono (Nat.le_refl _))
    intro a₁ t₁ hD h₁ hF₁
    have hN₁ := hD.keep hN hNb.2
    apply emits_load h₁ hN₁ (by decide)
    rw [hF₁.field (by simpa using hNb.2) hN (by decide), hat.value]
    apply emits_free h₁ (hD.keep hr.str hr.ne)
    intro a₂ t₂ hS h₂ hF₂
    apply hQ a₂ t₂ h₂
    · apply (hF₁.trans hF₂).drop
      intro o ho
      refine .inl ?_
      simp only [List.cons_append, List.nil_append, List.mem_cons, List.not_mem_nil, or_false] at ho ⊢
      exact ho.symm
    · intro o
      rw [hS.used_iff, hD.used_iff]
      simp only [List.mem_cons, List.not_mem_nil, or_false, not_or]
      tauto

/-- The destruction of a node. -/
theorem emits_nodeDestroy {N : ℕ} {Q : Unit → Touchdb → Prop} (h : Heap B s a)
    (hN : Owns a N touchdbChainNodeSize) (hv : s.field (B + N) ChainNode.val = w)
    (hx : ItemRep B s a x w bs) (hNb : N ∉ bs)
    (hQ : ∀ a' t, Heap B t a' → Frame B s a t a' (N :: bs) →
      (∀ o, Used a' o ↔ Used a o ∧ o ∉ N :: bs) → Q () t) :
    Emits (Watched.touchdbChainNodeDestroy (B + N)) s (nodeEvents B N bs) Q := by
  unfold Watched.touchdbChainNodeDestroy
  rw [if_pos (hN.ptr_ne B)]
  apply (emits_valDestroy h hN hv hx hNb fun a₁ t₁ h₁ hF₁ hU₁ => ⟨a₁, h₁, hF₁, hU₁⟩).bind
    (P := fun _ t => ∃ a', Heap B t a' ∧ Frame B s a t a' bs ∧ ∀ o, Used a' o ↔ Used a o ∧ o ∉ bs)
  rintro _ t₁ ⟨a₁, h₁, hF₁, hU₁⟩
  have hN₁ := hF₁.owns hNb hN
  have hb := hN₁.bounds
  apply emits_silent
  apply wp_touchdbAddrOf h₁ (by omega)
  apply emits_free h₁ hN₁
  intro a₂ t₂ hf h₂ hF₂
  apply hQ a₂ t₂ h₂
  · apply (hF₁.trans hF₂).drop
    intro o ho
    refine .inl ?_
    simpa [or_comm] using ho
  · intro o
    rw [hf.used_iff, hU₁, List.mem_cons]
    tauto

theorem emits_followTo {e : Field TouchdbAddr} {f : ℕ → WatchM β} {Q : β → Touchdb → Prop}
    (h : Heap B s a) (ho : Owns a o n) (he : e.off + 8 ≤ n)
    (hm : ∀ x ∈ m, Owns a x.blk touchdbChainNodeSize)
    (hl : linkOf (s.field (B + o) e) = m.map ListNode.blk) (hQ : Emits (f (nodePtr B m)) s l Q) :
    Emits (Watched.followLink (B + o) e >>= f) s (.read (B + o + e.off) 8 :: l) Q := by
  have hfollow : Emits (Watched.followLink (B + o) e) s [.read (B + o + e.off) 8]
      fun p u => Emits (f p) u l Q := by
    unfold Watched.followLink
    rw [if_neg (ho.ptr_ne B)]
    apply emits_load (k := 0) h ho (by simpa using he)
    simp only [Nat.zero_add]
    cases m with
    | none =>
      rw [if_pos (linkOf_eq_none.mp hl)]
      exact Emits.pure hQ
    | some x =>
      have hne : (s.field (B + o) e).offset ≠ NIL := by
        intro h0
        rw [linkOf_eq_none.mpr h0] at hl
        cases hl
      rw [if_neg hne, linkOf_eq_some hl (hm x rfl).lt]
      apply Emits.silent (G := anyEvent) _ fun _ h => h
      exact wp_ptrOfOwned h (fun _ _ _ => trivial) (hm x rfl) hQ
  exact hfollow.bind fun _ _ h => h

end Emit

/-- What is left of a chain while it is destroyed: the nodes from some point on, with their values. -/
structure Rest (B : ℕ) (s : Touchdb) (a : PoolAlloc) (zs : List StockCell) : Prop where
  heap : Heap B s a
  next : Linked (nodeNext B s) ((zs.map StockCell.node).map ListNode.blk)
  node : ∀ z ∈ zs, Owns a z.node.blk touchdbChainNodeSize
  val : ∀ z ∈ zs, s.field (B + z.node.blk) ChainNode.val = z.node.val
  items : ∀ z ∈ zs, ItemRep B s a z.item z.node.val z.blocks
  apart : (zs.flatMap StockCell.owned).Nodup

section Loop
variable {B : ℕ} {s t : Touchdb} {a a' : PoolAlloc} {C : ℕ} {z : StockCell} {zs : List StockCell}
variable {rounds : ℕ}

/-- The blocks of a chain, cell by cell. -/
theorem owned_perm (zs : List StockCell) :
    ((zs.map StockCell.node).map ListNode.blk ++ zs.flatMap StockCell.blocks).Perm
      (zs.flatMap StockCell.owned) := by
  induction zs with
  | nil => exact .nil
  | cons z zs ih =>
    simp only [List.map_cons, List.flatMap_cons, List.cons_append]
    apply List.Perm.cons
    exact (List.perm_append_comm_assoc _ _ _).trans (ih.append_left _)

theorem Stocked.rest (h : Stocked B s a C zs) : Rest B s a zs where
  heap := h.heap
  next := h.rep.next
  node _ hz := h.rep.node _ (List.mem_map_of_mem hz)
  val _ hz := h.rep.val _ (List.mem_map_of_mem hz)
  items := h.items
  apart := (owned_perm zs).nodup_iff.mp (List.nodup_cons.mp h.apart).2

/-- The blocks of the other nodes are not those of the first one. -/
theorem Rest.notMem (h : Rest B s a (z :: zs)) {y : StockCell} (hy : y ∈ zs) {o : ℕ}
    (ho : o ∈ y.owned) : o ∉ z.owned := by
  have hd := h.apart
  rw [List.flatMap_cons, List.nodup_append] at hd
  intro hm
  exact hd.2.2 o hm o (List.mem_flatMap.mpr ⟨y, hy, ho⟩) rfl

/-- A round that releases the first node leaves the others. -/
theorem Rest.tail (h : Rest B s a (z :: zs)) (ht : Heap B t a') (hF : Frame B s a t a' z.owned) :
    Rest B t a' zs := by
  have hnode : ∀ y ∈ zs, y.node.blk ∉ z.owned := fun y hy => h.notMem hy List.mem_cons_self
  have hO : ∀ y ∈ zs, Owns a y.node.blk touchdbChainNodeSize := fun y hy =>
    h.node y (List.mem_cons_of_mem _ hy)
  have hd := h.apart
  rw [List.flatMap_cons] at hd
  constructor
  · exact ht
  · apply h.next.2.congr
    intro o ho
    obtain ⟨y, hy, rfl⟩ : ∃ y ∈ zs, y.node.blk = o := by simpa using ho
    exact congrArg linkOf (hF.field (hnode y hy) (hO y hy) (by decide))
  · intro y hy
    exact hF.owns (hnode y hy) (hO y hy)
  · intro y hy
    rw [hF.field (hnode y hy) (hO y hy) (by decide)]
    exact h.val y (List.mem_cons_of_mem _ hy)
  · intro y hy
    apply (h.items y (List.mem_cons_of_mem _ hy)).frame hF
    intro o ho
    exact h.notMem hy (List.mem_cons_of_mem _ ho)
  · exact hd.of_append_right

/-- The loop releases what is left, node by node. -/
theorem emits_destroyLoop (h : Rest B s a zs) (hlen : zs.length < rounds) :
    Emits (Watched.destroyLoop rounds (nodePtr B (zs.map StockCell.node).head?)) s
      (zs.flatMap (roundEvents B)) fun _ t => ∃ a', Heap B t a' ∧
        ∀ o, Used a' o ↔ Used a o ∧ o ∉ zs.flatMap StockCell.owned := by
  induction zs generalizing s a rounds with
  | nil =>
    obtain ⟨k, rfl⟩ : ∃ k, rounds = k + 1 := ⟨rounds - 1, by omega⟩
    show Emits (Watched.destroyLoop (k + 1) NULL) s [] _
    unfold Watched.destroyLoop
    rw [if_neg (not_not_intro rfl)]
    exact Emits.pure ⟨a, h.heap, by simp⟩
  | cons z zs ih =>
    simp only [List.length_cons] at hlen
    obtain ⟨k, rfl⟩ : ∃ k, rounds = k + 1 := ⟨rounds - 1, by omega⟩
    have hz := h.node z List.mem_cons_self
    have hzb : z.node.blk ∉ z.blocks := by
      have hd := h.apart
      rw [List.flatMap_cons] at hd
      exact (List.nodup_cons.mp hd.of_append_left).1
    have hnext : nodeNext B s z.node.blk = (zs.map StockCell.node).head?.map ListNode.blk := by
      rw [← List.head?_map]
      exact h.next.1
    show Emits (Watched.destroyLoop (k + 1) (B + z.node.blk)) s _ _
    unfold Watched.destroyLoop
    rw [if_pos (hz.ptr_ne B), List.flatMap_cons]
    apply emits_followTo h.heap hz (by decide) _ hnext
    · apply Emits.bind (emits_nodeDestroy h.heap hz (h.val z List.mem_cons_self)
        (h.items z List.mem_cons_self) hzb fun a₁ t₁ h₁ hF hU => ⟨a₁, h.tail h₁ hF, hU⟩)
        (P := fun _ t => ∃ a₁, Rest B t a₁ zs ∧ ∀ o, Used a₁ o ↔ Used a o ∧ o ∉ z.owned)
      rintro _ t₁ ⟨a₁, hrest, hU⟩
      obtain ⟨_, t, hrun, a', ht, hU'⟩ := ih hrest (show zs.length < k by omega)
      refine ⟨_, t, hrun, a', ht, ?_⟩
      intro o
      rw [hU', hU, List.flatMap_cons, List.mem_append, not_or, and_assoc]
    · intro x hx
      obtain ⟨y, hy, rfl⟩ := List.mem_map.mp (List.mem_of_mem_head? hx)
      exact h.node y (List.mem_cons_of_mem _ hy)

end Loop

/-- The later event reads no byte of the block that the earlier one releases. -/
def Fresh (B : ℕ) (a : PoolAlloc) (e e' : HeapEvent) : Prop :=
  ∀ o c p n, e = .free (B + o) → e' = .read p n → a.payload o = some c → p + n ≤ B + o ∨ B + o + c ≤ p

/-- The event is about the block at `o`: its release, or a read of its header or its payload. -/
def About (B : ℕ) (a : PoolAlloc) (o : ℕ) : HeapEvent → Prop
  | .read p n => ∃ c, a.payload o = some c ∧ B + o ≤ p + blkHdrSize ∧ p + n ≤ B + o + c
  | .free p => p = B + o

section Fresh
variable {B : ℕ} {s : Touchdb} {a : PoolAlloc} {C o o' p n : ℕ} {z : StockCell} {zs : List StockCell}
variable {e e' : HeapEvent}

/-- Two blocks in use do not meet, with their headers. -/
theorem payload_apart {c c' : ℕ} (h : a.payload o = some c) (h' : a.payload o' = some c')
    (hne : o ≠ o') : o + c + blkHdrSize ≤ o' ∨ o' + c' + blkHdrSize ≤ o := by
  obtain ⟨d, hl, rfl, rfl⟩ := (Segregated.payload_eq_some blkHdrSize_pos).mp h
  obtain ⟨d', hl', rfl, rfl⟩ := (Segregated.payload_eq_some blkHdrSize_pos).mp h'
  have hdd : d ≠ d' := fun he => hne (by rw [he])
  have h1 := Segregated.disjoint hl.1 hl'.1 hdd
  omega

theorem fresh_read : Fresh B a (.read p n) e' := by
  intro _ _ _ _ he
  cases he

theorem Fresh.of_about (h : About B a o e) (h' : About B a o' e') (hne : o ≠ o') : Fresh B a e e' := by
  rintro x c p n rfl rfl hc
  obtain rfl : x = o := by simpa [About] using h
  obtain ⟨c', hc', h1, h2⟩ := h'
  have h3 := payload_apart hc hc' hne
  omega

/-- The header of a block is not part of it. -/
theorem fresh_header (ho : Owns a o n) : Fresh B a (.free (B + o))
    (.read (B + o - blkHdrSize + FreeBlkHdr.idx.off) (size Int32)) := by
  have hb := ho.bounds
  rintro x c p n hx hp -
  obtain rfl : x = o := by simpa using hx.symm
  cases hp
  left
  simp only [blkHdrSize, size_int32] at hb ⊢
  omega

theorem about_read {k m : ℕ} (ho : Owns a o n) (hk : k + m ≤ n) : About B a o (.read (B + o + k) m) := by
  obtain ⟨c, hc, hle⟩ := ho
  refine ⟨c, hc, ?_, ?_⟩
  · omega
  · omega

theorem about_header (ho : Owns a o n) :
    About B a o (.read (B + o - blkHdrSize + FreeBlkHdr.idx.off) (size Int32)) := by
  have hb := ho.bounds
  obtain ⟨c, hc, -⟩ := ho
  simp only [blkHdrSize] at hb
  refine ⟨c, hc, ?_, ?_⟩
  · simp only [blkHdrSize]
    omega
  · simp only [blkHdrSize, size_int32]
    omega

theorem about_freeEvents (ho : Owns a o n) : ∀ e ∈ freeEvents B o, About B a o e := by
  intro e he
  simp only [freeEvents, List.mem_cons, List.not_mem_nil, or_false] at he
  rcases he with rfl | rfl
  · rfl
  · exact about_header ho

/-- A round is about the blocks of its node. -/
theorem about_round (hz : Owns a z.node.blk touchdbChainNodeSize)
    (hx : ItemRep B s a z.item z.node.val z.blocks) :
    ∀ e ∈ roundEvents B z, ∃ o ∈ z.owned, About B a o e := by
  have hread {k m : ℕ} (hk : k + m ≤ touchdbChainNodeSize) :
      ∃ o ∈ z.owned, About B a o (.read (B + z.node.blk + k) m) :=
    ⟨_, List.mem_cons_self, about_read hz hk⟩
  intro e he
  simp only [roundEvents, nodeEvents, List.mem_cons, List.mem_append] at he
  rcases he with rfl | (rfl | he) | he
  · exact hread (by decide)
  · exact hread (k := 16) (by decide)
  · revert he
    unfold StockCell.owned at hread ⊢
    generalize z.blocks = l at hx hread
    generalize z.item = x at hx
    generalize z.node.val = w at hx
    cases hx with
    | plain w =>
      intro he
      cases he
    | @str S D v hr =>
      intro he
      simp only [valEvents, List.mem_cons, List.mem_append, List.not_mem_nil, or_false] at he
      rcases he with (rfl | rfl) | he | rfl | he
      · exact hread (k := 20) (by decide)
      · exact ⟨S, by simp, about_read hr.str (by decide)⟩
      · exact ⟨D, by simp, about_freeEvents hr.chars e he⟩
      · exact hread (k := 20) (by decide)
      · exact ⟨S, by simp, about_freeEvents hr.str e he⟩
  · exact ⟨_, List.mem_cons_self, about_freeEvents hz e he⟩

theorem pairwise_read {l : List HeapEvent} (h : l.Pairwise (Fresh B a)) :
    (.read p n :: l).Pairwise (Fresh B a) :=
  List.pairwise_cons.mpr ⟨fun _ _ => fresh_read, h⟩

/-- After a release come events about other blocks only. -/
theorem pairwise_free {l : List HeapEvent} (ho : Owns a o n) (h : l.Pairwise (Fresh B a))
    (hl : ∀ e ∈ l, ∃ o' ≠ o, About B a o' e) : (freeEvents B o ++ l).Pairwise (Fresh B a) := by
  apply List.pairwise_cons.mpr
  constructor
  · intro e he
    rcases List.mem_cons.mp he with rfl | he
    · exact fresh_header ho
    · obtain ⟨o', hne, ha⟩ := hl e he
      exact Fresh.of_about (o := o) rfl ha hne.symm
  · exact pairwise_read h

/-- No read of a round comes after the release of what it reads. -/
theorem fresh_round (hz : Owns a z.node.blk touchdbChainNodeSize)
    (hx : ItemRep B s a z.item z.node.val z.blocks) (hnd : z.owned.Nodup) :
    (roundEvents B z).Pairwise (Fresh B a) := by
  have hfree : (freeEvents B z.node.blk ++ []).Pairwise (Fresh B a) :=
    pairwise_free hz .nil (by simp)
  unfold roundEvents nodeEvents
  unfold StockCell.owned at hnd
  generalize z.blocks = l at hx hnd ⊢
  generalize z.item = x at hx
  generalize z.node.val = w at hx
  cases hx with
  | plain w => exact pairwise_read (pairwise_read (by simpa [valEvents] using hfree))
  | @str S D v hr =>
    simp only [List.nodup_cons, List.mem_cons, List.not_mem_nil, or_false, not_or] at hnd
    have hN : ∀ e ∈ freeEvents B z.node.blk ++ [], About B a z.node.blk e := by
      intro e he
      exact about_freeEvents hz e (by simpa using he)
    simp only [valEvents, List.append_assoc, List.cons_append, List.nil_append]
    rw [← List.append_nil (freeEvents B z.node.blk)]
    apply pairwise_read
    apply pairwise_read
    apply pairwise_read
    apply pairwise_read
    apply pairwise_free hr.chars
    · apply pairwise_read
      apply pairwise_free hr.str hfree
      intro e he
      exact ⟨_, hnd.1.1, hN e he⟩
    · intro e he
      rcases List.mem_cons.mp he with rfl | he
      · exact ⟨_, hnd.1.2, about_read hz (k := 20) (by decide)⟩
      · rcases List.mem_append.mp he with he | he
        · exact ⟨S, hnd.2.1, about_freeEvents hr.str e he⟩
        · exact ⟨_, hnd.1.2, hN e he⟩

/-- What a round releases: the blocks of its node. -/
theorem freed_round (hx : ItemRep B s a z.item z.node.val z.blocks) :
    ((roundEvents B z).filterMap HeapEvent.freed).Perm (z.owned.map fun o => B + o) := by
  unfold roundEvents nodeEvents StockCell.owned
  generalize z.blocks = l at hx ⊢
  generalize z.item = x at hx
  generalize z.node.val = w at hx
  cases hx with
  | plain w => exact .refl _
  | @str S D v hr =>
    show [B + D, B + S, B + z.node.blk].Perm [B + z.node.blk, B + S, B + D]
    exact (List.reverse_perm [B + z.node.blk, B + S, B + D])

theorem Rest.freed (h : Rest B s a zs) :
    ((zs.flatMap (roundEvents B)).filterMap HeapEvent.freed).Perm
      ((zs.flatMap StockCell.owned).map fun o => B + o) := by
  have hitems := h.items
  clear h
  induction zs with
  | nil => exact .nil
  | cons z zs ih =>
    rw [List.flatMap_cons, List.flatMap_cons, List.filterMap_append, List.map_append]
    apply (freed_round (hitems z List.mem_cons_self)).append
    exact ih fun y hy => hitems y (List.mem_cons_of_mem _ hy)

theorem Rest.fresh (h : Rest B s a zs) : (zs.flatMap (roundEvents B)).Pairwise (Fresh B a) := by
  have hd := List.nodup_flatMap.mp h.apart
  rw [List.pairwise_flatMap]
  constructor
  · intro z hz
    exact fresh_round (h.node z hz) (h.items z hz) (hd.1 z hz)
  · apply hd.2.imp_of_mem
    intro y z hy hz hyz e he e' he'
    obtain ⟨o, ho, ha⟩ := about_round (h.node y hy) (h.items y hy) e he
    obtain ⟨o', ho', ha'⟩ := about_round (h.node z hz) (h.items z hz) e' he'
    apply Fresh.of_about ha ha'
    rintro rfl
    exact hyz ho ho'

end Fresh

/-- What the destruction of a chain leaves, and what it has shown on the way. -/
structure Destroyed (c : StockState) (t : Touchdb) (l : List HeapEvent) : Prop where
  run : (touchdbChainDestory c.toChain.chainPtr).run c.db = .ok ((), t)
  shown : Watched.touchdbChainDestory c.toChain.chainPtr c.db = .ok ((), t, l)
  nodup : (l.filterMap HeapEvent.freed).Nodup
  freed : ∀ p, p ∈ l.filterMap HeapEvent.freed ↔ ∃ z ∈ c.cells, ∃ o ∈ z.owned, p = c.ptr + o
  fresh : l.Pairwise (Fresh c.ptr c.alloc)
  used : ∃ a', Heap c.ptr t a' ∧
    ∀ o, Used a' o ↔ Used c.alloc o ∧ ∀ z ∈ c.cells, o ∉ z.owned

/-- The destruction of a chain ends. It releases every block of the nodes and of their values once
and no other block, reads nothing of a block after its release, and leaves the pool with the other
blocks in use. -/
theorem touchdbChainDestory_destroyed (c : StockState) : ∃ t l, Destroyed c t l := by
  have hrest := c.stocked.rest
  have hC := c.stocked.rep.toChainRep
  have hlen : c.cells.length < walkRounds := by simpa using hC.length_lt
  have hhead : linkOf (c.db.field (c.ptr + c.chain) Chain.header) =
      (c.cells.map StockCell.node).head?.map ListNode.blk := by
    rw [← List.head?_map]
    exact hC.header
  have hemits : Emits (Watched.touchdbChainDestory c.toChain.chainPtr) c.db
      (.read (c.ptr + c.chain + Chain.header.off) 8 :: c.cells.flatMap (roundEvents c.ptr))
      fun _ t => ∃ a', Heap c.ptr t a' ∧
        ∀ o, Used a' o ↔ Used c.alloc o ∧ o ∉ c.cells.flatMap StockCell.owned := by
    apply emits_followTo c.stocked.heap hC.chain (by decide) _ hhead
    · exact emits_destroyLoop hrest hlen
    · intro x hx
      exact hC.node x (List.mem_of_mem_head? hx)
  obtain ⟨_, t, hshown, a', ht, hU⟩ := hemits
  have hfreed := hrest.freed
  refine ⟨t, _, ?_, hshown, ?_, ?_, pairwise_read hrest.fresh, a', ht, ?_⟩
  · rw [← agrees_chainDestory]
    exact run_ok hshown
  · apply hfreed.nodup_iff.mpr
    apply hrest.apart.map
    exact fun _ _ h => Nat.add_left_cancel h
  · intro p
    show p ∈ (c.cells.flatMap (roundEvents c.ptr)).filterMap HeapEvent.freed ↔ _
    rw [hfreed.mem_iff, List.mem_map]
    constructor
    · rintro ⟨o, ho, rfl⟩
      obtain ⟨z, hz, ho⟩ := List.mem_flatMap.mp ho
      exact ⟨z, hz, o, ho, rfl⟩
    · rintro ⟨z, hz, o, ho, rfl⟩
      exact ⟨o, List.mem_flatMap.mpr ⟨z, hz, ho⟩, rfl⟩
  · intro o
    rw [hU, List.mem_flatMap]
    simp only [not_exists, not_and]

end TouchDb
