import TouchDb.Pool.Rep

/-! `touchdb_pool_malloc` and `touchdb_pool_free` refine the abstract allocator. -/
namespace TouchDb
open Prog Layout

variable {s t : Touchdb} {j i : ℕ} {a : PoolAlloc} {G : Guard Stop Event}

/-- A write inside one header leaves the other headers alone. -/
theorem hdr_write_ne {α : Type} [Layout α] {f : Field α} {b c : SegBlock} {k : ℕ}
    {ws : List UInt8} (hb : b ∈ a.blocks) (hc : c ∈ a.blocks) (hne : c ≠ b)
    (hk : k + ws.length ≤ blkHdrSize) (hf : f.off + size α ≤ blkHdrSize) (base : ℕ) :
    (s.write (base + b.off + k) ws).field (base + c.off) f = s.field (base + c.off) f := by
  apply field_write_disjoint
  rcases Segregated.disjoint hc hb hne with h | h
  · exact .inl (by omega)
  · exact .inr (by omega)

theorem links_eq {bs : List SegBlock} {x : ℕ} (hd : HdrOnly s t j bs)
    (hn : t.field (s.base j + x) FreeBlkHdr.nextOffset =
      s.field (s.base j + x) FreeBlkHdr.nextOffset)
    (hp : t.field (s.base j + x) FreeBlkHdr.prevOffset =
      s.field (s.base j + x) FreeBlkHdr.prevOffset) :
    nextBlk t j x = nextBlk s j x ∧ prevBlk t j x = prevBlk s j x := by
  simp only [nextBlk, prevBlk, hd.base_eq, hn, hp, and_self]

theorem ListRep.congr {list : TouchdbFreeBlkList} {q : List ℕ} (h : ListRep s j list q)
    (hn : ∀ b ∈ q, nextBlk t j b = nextBlk s j b) (hp : ∀ b ∈ q, prevBlk t j b = prevBlk s j b) :
    ListRep t j list q where
  head := h.head
  tail := h.tail
  size := h.size
  next := h.next.congr hn
  prev := h.prev.congr fun b hb => hp b (List.mem_reverse.mp hb)

/-- Relinking the list of one class: the other classes keep their lists and links. -/
theorem PoolRep.relink {a' : PoolAlloc} (h : PoolRep s j a) (hd : HdrOnly s t j a.blocks)
    (hb : a'.blocks = a.blocks) (hc : a'.cur = a.cur) (hq : ∀ k ≠ i, a'.queue k = a.queue k)
    (hcur : (t.poolList j).curOffset = (s.poolList j).curOffset)
    (hidx : ∀ b ∈ a.blocks, t.field (s.base j + b.off) FreeBlkHdr.idx =
      s.field (s.base j + b.off) FreeBlkHdr.idx)
    (hlist : ∀ k ≠ i, (t.poolList j).freeBlkList k = (s.poolList j).freeBlkList k)
    (hother : ∀ k ≠ i, ∀ x ∈ a.queue k, nextBlk t j x = nextBlk s j x ∧ prevBlk t j x = prevBlk s j x)
    (hi : ListRep t j ((t.poolList j).freeBlkList i) (a'.queue i)) : PoolRep t j a' where
  toPoolMapped := hd.mapped h.toPoolMapped
  cur := by rw [hcur, hc]; exact h.cur
  cls_lt b hb' := h.cls_lt b (hb ▸ hb')
  hdr b hb' := by
    rw [hd.base_eq, hidx b (hb ▸ hb')]
    exact h.hdr b (hb ▸ hb')
  lists k hk := by
    by_cases hki : k = i
    · subst hki
      exact hi
    · rw [hlist k hki, hq k hki]
      exact (h.lists k hk).congr (fun x hx => (hother k hki x hx).1) fun x hx =>
        (hother k hki x hx).2

theorem Segregated.blk_bounds {b : SegBlock} (hb : b ∈ a.blocks) :
    1 ≤ b.off ∧ b.off + blkHdrSize + blkCap b.cls ≤ touchdbDefaultPoolSize := by
  have h1 := Segregated.bounds hb
  have h2 := a.fits
  omega

theorem queue_bounds {x : ℕ} (hx : x ∈ a.queue i) :
    1 ≤ x ∧ x + blkHdrSize + blkCap i ≤ touchdbDefaultPoolSize :=
  Segregated.blk_bounds (a.queued i x hx)

theorem wp_loadHdr {α : Type} [Layout α] {f : Field α} {Q : α → Touchdb → Prop} {b : SegBlock}
    {bs : List SegBlock} (hm : PoolMapped s j) (hd : HdrOnly s t j bs) (hb : b ∈ a.blocks)
    (hf : f.off + size α ≤ blkHdrSize) (h : Q (t.field (s.base j + b.off) f) t) :
    wp G (load (s.base j + b.off) f) Q t := by
  have h1 := Segregated.blk_bounds hb
  have h2 := hm.base_pos
  have h3 := hd.base_eq
  exact wp_load (by omega) ((hd.mapped hm).mapped (by omega) (by omega)) h

theorem wp_storeHdr {α : Type} [Layout α] {f : Field α} {v : α} {Q : Unit → Touchdb → Prop}
    {b : SegBlock} {bs : List SegBlock} (hm : PoolMapped s j) (hd : HdrOnly s t j bs) (hb : b ∈ bs)
    (hbound : b.off + blkHdrSize ≤ touchdbDefaultPoolSize) (hf : f.off + size α ≤ blkHdrSize)
    (hG : ∀ e, HdrEvent s j bs e → G.emits e)
    (h : HdrOnly s (t.write (s.base j + b.off + f.off) (enc v)) j bs →
      Q () (t.write (s.base j + b.off + f.off) (enc v))) :
    wp G (store (s.base j + b.off) f v) Q t := by
  have h1 := hm.base_pos
  have h2 := hd.base_eq
  have h3 : HdrOnly s (t.write (s.base j + b.off + f.off) (enc v)) j bs := by
    rw [← h2]
    exact hd.trans (HdrOnly.write hb (by simpa using hf))
  exact wp_store (by omega) ((hd.mapped hm).mapped (by omega) (by omega))
    (hG _ ⟨h3, b, hb, by omega, by omega⟩) (h h3)

/-- An assignment to the record of a free list. -/
theorem wp_setList_hdr {f : TouchdbFreeBlkList → TouchdbFreeBlkList} {Q : Unit → Touchdb → Prop}
    {bs : List SegBlock} (hd : HdrOnly s t j bs) (hG : ∀ e, HdrEvent s j bs e → G.emits e)
    (h : HdrOnly s (t.setPool j fun p => p.setList i f) j bs →
      Q () (t.setPool j fun p => p.setList i f)) : wp G (setList j i f) Q t := by
  have h3 : HdrOnly s (t.setPool j fun p => p.setList i f) j bs :=
    hd.trans (HdrOnly.setPool fun p => ⟨rfl, rfl, rfl⟩)
  exact wp_setList (hG _ h3) (h h3)

/-- The front block leaves its list: it was the only node. -/
theorem wp_reuse_single {x : ℕ} (h : PoolRep s j a) (hi : i < touchdbPoolFreeListCount)
    (hq : a.queue i = [x]) (hG : ∀ e, HdrEvent s j a.blocks e → G.emits e) :
    wp G (poolMallocReuse j i) (fun p t => p = s.base j + x + blkHdrSize ∧
      PoolRep t j (a.pop i [] x hq) ∧ HdrOnly s t j a.blocks) s := by
  have hxq : x ∈ a.queue i := by simp [hq]
  have hx := a.queued i x hxq
  have hl := h.lists i hi
  have hbd := queue_bounds hxq
  have hsz := poolSize_lt
  rw [hq] at hl
  obtain ⟨hh0, hhx⟩ := offLink_eq_some hl.head
  have hnx : s.field (s.base j + x) FreeBlkHdr.nextOffset = NIL :=
    offLink_eq_none.mp (by simpa [nextBlk] using hl.next)
  have hd₀ : HdrOnly s s j a.blocks := HdrOnly.rfl'
  unfold poolMallocReuse
  refine wp_bind (wp_getList (wp_bind (wp_ptrOf h.toPoolMapped (by omega) ?_)))
  rw [hhx]
  refine wp_bind (wp_loadHdr h.toPoolMapped hd₀ hx (by decide) ?_)
  rw [hnx, if_neg (by simp)]
  refine wp_bind (wp_setList_hdr hd₀ hG fun hd₁ => ?_)
  refine wp_bind (wp_loadHdr h.toPoolMapped hd₁ hx (by decide) ?_)
  rw [setPool_field, hnx]
  refine wp_bind (wp_setList_hdr hd₁ hG fun hd₂ => ?_)
  refine wp_bind (wp_setList_hdr hd₂ hG fun hd₃ => wp_pure ⟨rfl, ?_, hd₃⟩)
  refine h.relink (i := i) hd₃ rfl rfl (fun k hk => ?_) (by simp) (fun b _ => rfl) (fun k hk => ?_)
    (fun k _ x _ => ?_) ?_
  · simp [Segregated.pop, hk]
  · simp [setList_freeBlkList_ne, hk]
  · simp only [nextBlk, prevBlk, hd₃.base_eq, setPool_field, and_self]
  · simp only [setPool_poolList, setList_freeBlkList, Segregated.pop, Function.update_self]
    exact ⟨rfl, rfl, by simp [hl.size], trivial, trivial⟩

/-- The front block leaves its list: the node after it becomes the header node. -/
theorem wp_reuse_many {x y : ℕ} {q : List ℕ} (h : PoolRep s j a)
    (hi : i < touchdbPoolFreeListCount) (hq : a.queue i = x :: y :: q)
    (hG : ∀ e, HdrEvent s j a.blocks e → G.emits e) :
    wp G (poolMallocReuse j i) (fun p t => p = s.base j + x + blkHdrSize ∧
      PoolRep t j (a.pop i (y :: q) x hq) ∧ HdrOnly s t j a.blocks) s := by
  have hxq : x ∈ a.queue i := by simp [hq]
  have hyq : y ∈ a.queue i := by simp [hq]
  have hx := a.queued i x hxq
  have hy := a.queued i y hyq
  have hl := h.lists i hi
  have hbx := queue_bounds hxq
  have hby := queue_bounds hyq
  have hsz := poolSize_lt
  have hnd := a.nodup i
  rw [hq] at hl hnd
  obtain ⟨hxn, hnd⟩ := List.nodup_cons.mp hnd
  have hxy : (⟨x, i⟩ : SegBlock) ≠ ⟨y, i⟩ := by
    rintro ⟨⟩
    exact hxn (by simp)
  obtain ⟨-, hhx⟩ := offLink_eq_some hl.head
  obtain ⟨hn0, hny⟩ := offLink_eq_some hl.next.1
  have hd₀ : HdrOnly s s j a.blocks := HdrOnly.rfl'
  unfold poolMallocReuse
  refine wp_bind (wp_getList (wp_bind (wp_ptrOf h.toPoolMapped (by omega) ?_)))
  rw [hhx]
  refine wp_bind (wp_loadHdr h.toPoolMapped hd₀ hx (by decide) ?_)
  rw [if_pos hn0]
  refine wp_bind (wp_bind (wp_ptrOf h.toPoolMapped (by rw [hny]; omega) ?_))
  rw [hny]
  refine wp_storeHdr h.toPoolMapped hd₀ hy (by change y + _ ≤ _; omega) (by decide) hG
    fun hd₁ => ?_
  set t₁ := s.write (s.base j + y + FreeBlkHdr.prevOffset.off) (enc NIL) with ht₁
  have hne {α : Type} [Layout α] {f : Field α} {c : SegBlock} (hc : c ∈ a.blocks)
      (hcy : c ≠ ⟨y, i⟩) (hf : f.off + size α ≤ blkHdrSize) :
      t₁.field (s.base j + c.off) f = s.field (s.base j + c.off) f :=
    hdr_write_ne hy hc hcy (by decide) hf (s.base j)
  refine wp_bind (wp_loadHdr h.toPoolMapped hd₁ hx (by decide) ?_)
  rw [hne hx hxy (by decide)]
  refine wp_bind (wp_setList_hdr hd₁ hG fun hd₂ => ?_)
  refine wp_bind (wp_setList_hdr hd₂ hG fun hd₃ => wp_pure ⟨rfl, ?_, hd₃⟩)
  set t₃ := Touchdb.setPool (Touchdb.setPool t₁ j _) j _ with ht₃
  have hfield {α : Type} [Layout α] (p : ℕ) (f : Field α) : t₃.field p f = t₁.field p f := rfl
  have hlinks (c : SegBlock) (hc : c ∈ a.blocks) (hcy : c ≠ ⟨y, i⟩) :
      nextBlk t₃ j c.off = nextBlk s j c.off ∧ prevBlk t₃ j c.off = prevBlk s j c.off :=
    links_eq hd₃ (hne hc hcy (by decide)) (hne hc hcy (by decide))
  have hynext : nextBlk t₃ j y = nextBlk s j y := by
    simp only [nextBlk, hd₃.base_eq, hfield]
    rw [ht₁, field_write_disjoint (.inl (by simp))]
  have hyprev : prevBlk t₃ j y = none := by
    simp only [prevBlk, hd₃.base_eq, hfield]
    rw [ht₁, field_write_same]
    rfl
  have hmem (z : ℕ) (hz : z ∈ y :: q) : (⟨z, i⟩ : SegBlock) ∈ a.blocks :=
    a.queued i z (by simp [hq, List.mem_cons.mp hz])
  refine h.relink (i := i) hd₃ rfl rfl (fun k hk => ?_) ?_ (fun b hb => ?_) (fun k hk => ?_)
    (fun k hk z hz => hlinks ⟨z, k⟩ (a.queued k z hz) fun hc => hk (congrArg SegBlock.cls hc)) ?_
  · simp [Segregated.pop, hk]
  · simp [ht₃, ht₁]
  · by_cases hby' : b = ⟨y, i⟩
    · subst hby'
      rw [hfield, ht₁]
      exact field_write_disjoint (.inr (by simp))
    · rw [hfield]
      exact hne hb hby' (by decide)
  · simp [ht₃, ht₁, setList_freeBlkList_ne, hk]
  · simp only [ht₃, ht₁, setPool_poolList, setList_freeBlkList, Segregated.pop,
      Function.update_self]
    refine ⟨hl.next.1, hl.tail, by simp [hl.size], ?_, ?_⟩
    · refine Linked.congr hl.next.2 fun z hz => ?_
      by_cases hzy : z = y
      · subst hzy
        exact hynext
      · exact (hlinks ⟨z, i⟩ (hmem z hz) (by simpa using hzy)).1
    · have hp : Linked (prevBlk s j) ((y :: q).reverse ++ [x]) := by simpa using hl.prev
      refine Linked.dropLast hp (List.nodup_reverse.mpr hnd) (fun z hz => ?_) fun z hz hzl => ?_
      · obtain rfl : y = z := by simpa using hz
        exact hyprev
      · have hzy : z ≠ y := by
          rintro rfl
          simp at hzl
        exact (hlinks ⟨z, i⟩ (hmem z (List.mem_reverse.mp hz)) (by simpa using hzy)).2

theorem blkSize_eq (i : ℕ) :
    (Int32.ofNat blkHdrSize + ((Int32.ofNat i + 1) <<< 3)).toUInt32 =
      UInt32.ofNat (blkHdrSize + blkCap i) := by
  have h1 : Int32.ofNat i + 1 = Int32.ofNat (i + 1) := by simp
  rw [h1, Words.ofNat_shiftLeft_three, ← Int32.ofNat_add, Int32.toUInt32_ofNat']
  rfl

theorem blkCap_le (hi : i < touchdbPoolFreeListCount) : blkCap i ≤ 2 ^ 20 := by
  unfold blkCap touchdbPoolFreeListCount at *
  omega

/-- The new end of the used space is computed without overflow. -/
theorem curOffset_add (h : PoolRep s j a) (hi : i < touchdbPoolFreeListCount) :
    ((s.poolList j).curOffset + UInt32.ofNat (blkHdrSize + blkCap i)).toNat =
      a.cur + (blkHdrSize + blkCap i) := by
  have h1 := blkCap_le hi
  have h2 := a.fits
  have h3 := poolSize_lt
  have h4 : blkHdrSize = 16 := rfl
  rw [UInt32.toNat_add, h.cur, Words.toNat_ofNat (by omega)]
  exact Nat.mod_eq_of_lt (by omega)

theorem wp_carve_full (h : PoolRep s j a) (hi : i < touchdbPoolFreeListCount)
    (hc : ¬ a.cur + (blkHdrSize + blkCap i) ≤ touchdbDefaultPoolSize) :
    wp G (poolMallocCarve j (Int32.ofNat i)) (fun p t => p = NULL ∧ t = s) s := by
  have hsz := poolSize_lt
  unfold poolMallocCarve
  refine wp_bind (wp_getPool ?_)
  have hlt : (s.poolList j).size.toUInt32 < (s.poolList j).curOffset +
      UInt32.ofNat (blkHdrSize + blkCap i) := by
    rw [UInt32.lt_iff_toNat_lt, curOffset_add h hi, h.size_eq, Int32.toUInt32_ofNat',
      Words.toNat_ofNat (by omega)]
    omega
  dsimp only
  rw [blkSize_eq, if_pos hlt]
  exact wp_pure ⟨rfl, rfl⟩

theorem wp_carve_room (h : PoolRep s j a) (hi : i < touchdbPoolFreeListCount)
    (hc : a.cur + (blkHdrSize + blkCap i) ≤ touchdbDefaultPoolSize)
    (hG : ∀ e, HdrEvent s j (a.carve i hc).blocks e → G.emits e) :
    wp G (poolMallocCarve j (Int32.ofNat i)) (fun p t => p = s.base j + a.cur + blkHdrSize ∧
      PoolRep t j (a.carve i hc) ∧ HdrOnly s t j (a.carve i hc).blocks) s := by
  have hsz := poolSize_lt
  unfold poolMallocCarve
  refine wp_bind (wp_getPool ?_)
  have hlt : ¬ (s.poolList j).size.toUInt32 < (s.poolList j).curOffset +
      UInt32.ofNat (blkHdrSize + blkCap i) := by
    rw [UInt32.lt_iff_toNat_lt, curOffset_add h hi, h.size_eq, Int32.toUInt32_ofNat',
      Words.toNat_ofNat (by omega)]
    omega
  dsimp only
  rw [blkSize_eq, if_neg hlt]
  refine wp_bind (wp_shmStart h.toPoolMapped ?_)
  rw [h.cur]
  have hb : (⟨a.cur, i⟩ : SegBlock) ∈ (a.carve i hc).blocks := List.mem_cons_self
  refine wp_bind (wp_storeHdr h.toPoolMapped HdrOnly.rfl' hb (by change a.cur + _ ≤ _; omega)
    (by decide) hG fun hd₁ => ?_)
  set t₁ := s.write (s.base j + a.cur + FreeBlkHdr.idx.off) (enc (Int32.ofNat i)) with ht₁
  set t₂ := t₁.setPool j fun p =>
    { p with curOffset := (s.poolList j).curOffset + UInt32.ofNat (blkHdrSize + blkCap i) } with ht₂
  have hd₂ : HdrOnly s t₂ j (a.carve i hc).blocks :=
    hd₁.trans (HdrOnly.setPool fun p => ⟨rfl, rfl, rfl⟩)
  refine wp_bind (wp_assign (hG _ hd₂) (wp_pure ⟨rfl, ?_, hd₂⟩))
  change PoolRep t₂ j _
  have hne {α : Type} [Layout α] {f : Field α} {c : SegBlock} (hcb : c ∈ a.blocks)
      (hf : f.off + size α ≤ blkHdrSize) :
      t₂.field (s.base j + c.off) f = s.field (s.base j + c.off) f := by
    refine hdr_write_ne hb (List.mem_cons_of_mem _ hcb) ?_ (by simp [blkHdrSize]) hf (s.base j)
    rintro rfl
    exact absurd (Segregated.off_lt_cur (by decide) hcb) (by simp)
  refine ⟨hd₂.mapped h.toPoolMapped, ?_, fun b hb => ?_, fun b hb => ?_, fun k hk => ?_⟩
  · rw [ht₂, setPool_poolList]
    exact curOffset_add h hi
  · rcases List.mem_cons.mp hb with rfl | hb
    · exact hi
    · exact h.cls_lt b hb
  · rw [hd₂.base_eq]
    rcases List.mem_cons.mp hb with rfl | hb
    · exact field_write_same s _ _ _
    · rw [hne hb (by decide)]
      exact h.hdr b hb
  · have hl : (t₂.poolList j).freeBlkList k = (s.poolList j).freeBlkList k := by
      simp [ht₂, ht₁]
    rw [hl]
    refine (h.lists k hk).congr (fun x hx => ?_) fun x hx => ?_
    · simp only [nextBlk, hd₂.base_eq]
      rw [hne (a.queued k x hx) (by decide)]
    · simp only [prevBlk, hd₂.base_eq]
      rw [hne (a.queued k x hx) (by decide)]

/-- `touchdb_pool_malloc` answers as the abstract allocator does: the payload of the block
handed out, or `NULL` with nothing changed. -/
def MallocPost (s : Touchdb) (j : ℕ) (a : PoolAlloc) (i p : ℕ) (t : Touchdb) : Prop :=
  match a.malloc i with
  | some (b, a') => p = s.base j + b.off + blkHdrSize ∧ PoolRep t j a' ∧ HdrOnly s t j a'.blocks
  | none => p = NULL ∧ t = s

theorem sizeClass_lt {n : ℕ} (h2 : n ≤ 2 ^ 20) : sizeClass n < touchdbPoolFreeListCount := by
  unfold sizeClass touchdbPoolFreeListCount
  omega

theorem le_blkCap {n : ℕ} (h1 : 1 ≤ n) : n ≤ blkCap (sizeClass n) := by
  unfold sizeClass blkCap
  omega

/-- The list of a class has size zero exactly when its queue is empty. -/
theorem listSize_eq_zero (h : PoolRep s j a) (hi : i < touchdbPoolFreeListCount) :
    ((s.poolList j).freeBlkList i).size = 0 ↔ a.queue i = [] := by
  have h1 := a.queue_length_le i
  have h3 := a.fits
  have h2 := poolSize_lt
  simp only [blkHdrSize] at h1
  rw [(h.lists i hi).size, Words.ofNat_eq_zero (by omega)]
  exact List.length_eq_zero_iff

theorem wp_touchdbPoolMalloc {n : ℕ} (h : PoolRep s j a) (h1 : 1 ≤ n) (h2 : n ≤ 2 ^ 20)
    (hG : ∀ b a', a.malloc (sizeClass n) = some (b, a') →
      ∀ e, HdrEvent s j a'.blocks e → G.emits e) :
    wp G (touchdbPoolMalloc j (UInt32.ofNat n)) (MallocPost s j a (sizeClass n)) s := by
  have hi := sizeClass_lt h2
  have hN : touchdbPoolFreeListCount < 2 ^ 31 := by decide
  unfold touchdbPoolMalloc
  dsimp only
  rw [freeListIdx_eq h1 (by omega)]
  refine wp_bind (wp_getPool ?_)
  have hle : ¬ (s.poolList j).freeBlkListCount < Int32.ofNat (sizeClass n) := by
    rw [h.count_eq, Int32.ofNat_lt_iff_lt (by omega) (by omega)]
    omega
  rw [if_neg hle]
  refine wp_bind (wp_freeBlkListAt hi (wp_bind (wp_getList (wp_ite ?_ ?_))))
  · intro hz
    have hq := (listSize_eq_zero h hi).mp hz
    by_cases hc : a.cur + (blkHdrSize + blkCap (sizeClass n)) ≤ touchdbDefaultPoolSize
    · have hm := Segregated.malloc_of_room hq hc
      refine wp_mono (wp_carve_room h hi hc (hG _ _ hm)) fun p t hp => ?_
      simpa only [MallocPost, hm] using hp
    · refine wp_mono (wp_carve_full h hi hc) fun p t hp => ?_
      simpa only [MallocPost, Segregated.malloc_of_full hq hc] using hp
  · intro hz
    obtain ⟨x, q, hq⟩ := List.exists_cons_of_ne_nil fun hq => hz ((listSize_eq_zero h hi).mpr hq)
    have hm := Segregated.malloc_of_cons hq
    have hG' : ∀ e, HdrEvent s j (a.pop (sizeClass n) q x hq).blocks e → G.emits e := hG _ _ hm
    cases q with
    | nil =>
      refine wp_mono (wp_reuse_single h hi hq hG') fun p t hp => ?_
      simp only [MallocPost, hm]
      exact hp
    | cons y q =>
      refine wp_mono (wp_reuse_many h hi hq hG') fun p t hp => ?_
      simp only [MallocPost, hm]
      exact hp

/-- A block joins an empty list. -/
theorem wp_free_empty {b : SegBlock} (h : PoolRep s j a) (hb : a.Live b)
    (hi : b.cls < touchdbPoolFreeListCount) (hq : a.queue b.cls = [])
    (hG : ∀ e, HdrEvent s j a.blocks e → G.emits e) :
    wp G (poolFreeLink j b.cls (s.base j + b.off)) (fun _ t =>
      PoolRep t j (a.push b hb) ∧ HdrOnly s t j a.blocks) s := by
  have hbd := Segregated.blk_bounds hb.1
  have hsz := poolSize_lt
  have hl := h.lists b.cls hi
  have hz := (listSize_eq_zero h hi).mpr hq
  have hd₀ : HdrOnly s s j a.blocks := HdrOnly.rfl'
  unfold poolFreeLink
  refine wp_bind (wp_getList ?_)
  rw [if_pos hz]
  refine wp_bind (wp_bind (wp_storeHdr h.toPoolMapped hd₀ hb.1 (by omega) (by decide) hG
    fun hd₁ => ?_))
  rw [← hd₁.base_eq]
  refine wp_bind (wp_ptrOffsetOf (hd₁.mapped h.toPoolMapped) ?_)
  rw [hd₁.base_eq]
  refine wp_bind (wp_setList_hdr hd₁ hG fun hd₂ => wp_setList_hdr hd₂ hG fun hd₃ => ?_)
  refine wp_bind (wp_storeHdr h.toPoolMapped hd₃ hb.1 (by omega) (by decide) hG fun hd₄ => ?_)
  refine wp_setList_hdr hd₄ hG fun hd₅ => ⟨?_, hd₅⟩
  set t₁ := s.write (s.base j + b.off + FreeBlkHdr.prevOffset.off) (enc NIL) with ht₁
  set t₃ := Touchdb.setPool (Touchdb.setPool t₁ j _) j _ with ht₃
  set t₄ := t₃.write (s.base j + b.off + FreeBlkHdr.nextOffset.off) (enc NIL) with ht₄
  set t₅ := Touchdb.setPool t₄ j _ with ht₅
  have hfield {α : Type} [Layout α] (p : ℕ) (f : Field α) : t₅.field p f = t₄.field p f := rfl
  have hfield₃ {α : Type} [Layout α] (p : ℕ) (f : Field α) : t₃.field p f = t₁.field p f := rfl
  have hne {α : Type} [Layout α] {f : Field α} {c : SegBlock} (hc : c ∈ a.blocks) (hcb : c ≠ b)
      (hf : f.off + size α ≤ blkHdrSize) :
      t₅.field (s.base j + c.off) f = s.field (s.base j + c.off) f := by
    rw [hfield, ht₄, hdr_write_ne hb.1 hc hcb (by decide) hf (s.base j), hfield₃, ht₁,
      hdr_write_ne hb.1 hc hcb (by decide) hf (s.base j)]
  have hnext : nextBlk t₅ j b.off = none := by
    simp only [nextBlk, hd₅.base_eq, hfield]
    rw [ht₄, field_write_same]
    rfl
  have hprev : prevBlk t₅ j b.off = none := by
    simp only [prevBlk, hd₅.base_eq, hfield]
    rw [ht₄, field_write_disjoint (.inr (by simp)), hfield₃, ht₁, field_write_same]
    rfl
  refine h.relink (i := b.cls) hd₅ rfl rfl (fun k hk => ?_) (by simp [ht₅, ht₄, ht₃, ht₁])
    (fun c hc => ?_) (fun k hk => ?_) (fun k hk x hx => ?_) ?_
  · simp [Segregated.push, hk]
  · by_cases hcb : c = b
    · subst hcb
      rw [hfield, ht₄, field_write_disjoint (.inr (by simp)), hfield₃, ht₁,
        field_write_disjoint (.inr (by simp))]
    · exact hne hc hcb (by decide)
  · simp [ht₅, ht₄, ht₃, ht₁, setList_freeBlkList_ne, hk]
  · have hcb : (⟨x, k⟩ : SegBlock) ≠ b := fun hc => hk (congrArg SegBlock.cls hc)
    have hc := a.queued k x hx
    exact links_eq hd₅ (hne (c := ⟨x, k⟩) hc hcb (by decide)) (hne (c := ⟨x, k⟩) hc hcb (by decide))
  · have ho := offLink_ofNat (b := b.off) (by omega) (by omega)
    simp only [ht₅, ht₄, ht₃, ht₁, setPool_poolList, write_poolList, setList_freeBlkList,
      Segregated.push, Function.update_self, hq]
    refine ⟨ho, ho, by simp [hz], ?_, ?_⟩
    · exact Linked.singleton.mpr hnext
    · exact Linked.singleton.mpr hprev

/-- A block joins the end of a list that has nodes. -/
theorem wp_free_nonempty {b : SegBlock} (h : PoolRep s j a) (hb : a.Live b)
    (hi : b.cls < touchdbPoolFreeListCount) (hq : a.queue b.cls ≠ [])
    (hG : ∀ e, HdrEvent s j a.blocks e → G.emits e) :
    wp G (poolFreeLink j b.cls (s.base j + b.off)) (fun _ t =>
      PoolRep t j (a.push b hb) ∧ HdrOnly s t j a.blocks) s := by
  have hbd := Segregated.blk_bounds hb.1
  have hsz := poolSize_lt
  have hl := h.lists b.cls hi
  have hz : ((s.poolList j).freeBlkList b.cls).size ≠ 0 :=
    fun hz => hq ((listSize_eq_zero h hi).mp hz)
  obtain ⟨y, hy⟩ : ∃ y, (a.queue b.cls).getLast? = some y :=
    ⟨_, List.getLast?_eq_some_getLast hq⟩
  have hyq : y ∈ a.queue b.cls := List.mem_of_getLast? hy
  have hyb := a.queued b.cls y hyq
  have hyne : (⟨y, b.cls⟩ : SegBlock) ≠ b := by
    intro hc
    have hyo : y = b.off := congrArg SegBlock.off hc
    exact hb.2 (hyo ▸ hyq)
  have hby := queue_bounds hyq
  obtain ⟨-, hty⟩ := offLink_eq_some (hl.tail.trans hy)
  have hd₀ : HdrOnly s s j a.blocks := HdrOnly.rfl'
  unfold poolFreeLink
  refine wp_bind (wp_getList ?_)
  rw [if_neg hz]
  refine wp_bind (wp_bind (wp_ptrOf h.toPoolMapped (by omega) ?_))
  rw [hty]
  refine wp_bind (wp_storeHdr h.toPoolMapped hd₀ hb.1 (by omega) (by decide) hG fun hd₁ => ?_)
  rw [← hd₁.base_eq]
  refine wp_bind (wp_ptrOffsetOf (hd₁.mapped h.toPoolMapped) ?_)
  rw [hd₁.base_eq]
  refine wp_bind (wp_storeHdr h.toPoolMapped hd₁ hyb (by change y + _ ≤ _; omega) (by decide) hG
    fun hd₂ => wp_setList_hdr hd₂ hG fun hd₃ => ?_)
  refine wp_bind (wp_storeHdr h.toPoolMapped hd₃ hb.1 (by omega) (by decide) hG fun hd₄ => ?_)
  refine wp_setList_hdr hd₄ hG fun hd₅ => ⟨?_, hd₅⟩
  set w := ((s.poolList j).freeBlkList b.cls).tailOffset with hw
  set t₁ := s.write (s.base j + b.off + FreeBlkHdr.prevOffset.off) (enc w) with ht₁
  set t₂ := t₁.write (s.base j + y + FreeBlkHdr.nextOffset.off) (enc (UInt32.ofNat b.off)) with ht₂
  set t₃ := Touchdb.setPool t₂ j _ with ht₃
  set t₄ := t₃.write (s.base j + b.off + FreeBlkHdr.nextOffset.off) (enc NIL) with ht₄
  set t₅ := Touchdb.setPool t₄ j _ with ht₅
  have hfield {α : Type} [Layout α] (p : ℕ) (f : Field α) : t₅.field p f = t₄.field p f := rfl
  have hfield₃ {α : Type} [Layout α] (p : ℕ) (f : Field α) : t₃.field p f = t₂.field p f := rfl
  -- the freed block, the old tail, and everything else
  have hne {α : Type} [Layout α] {f : Field α} {c : SegBlock} (hc : c ∈ a.blocks) (hcb : c ≠ b)
      (hcy : c ≠ ⟨y, b.cls⟩) (hf : f.off + size α ≤ blkHdrSize) :
      t₅.field (s.base j + c.off) f = s.field (s.base j + c.off) f := by
    rw [hfield, ht₄, hdr_write_ne hb.1 hc hcb (by decide) hf (s.base j), hfield₃, ht₂,
      hdr_write_ne hyb hc hcy (by simp [blkHdrSize]) hf (s.base j), ht₁,
      hdr_write_ne hb.1 hc hcb (by simp [blkHdrSize]) hf (s.base j)]
  have hyf {α : Type} [Layout α] {f : Field α} (hf : f.off + size α ≤ blkHdrSize)
      (h4 : 4 ≤ f.off) : t₅.field (s.base j + y) f = s.field (s.base j + y) f := by
    rw [hfield, ht₄, hdr_write_ne hb.1 hyb hyne (by decide) hf (s.base j), hfield₃, ht₂,
      field_write_disjoint (.inr (by simp; omega)), ht₁,
      hdr_write_ne hb.1 hyb hyne (by simp [blkHdrSize]) hf (s.base j)]
  have hbf {α : Type} [Layout α] {f : Field α} (hf : f.off + size α ≤ blkHdrSize)
      (h4 : 4 ≤ f.off) : t₅.field (s.base j + b.off) f = t₁.field (s.base j + b.off) f := by
    rw [hfield, ht₄, field_write_disjoint (.inr (by simp; omega)), hfield₃, ht₂,
      hdr_write_ne hyb hb.1 hyne.symm (by simp [blkHdrSize]) hf (s.base j)]
  have hynext : nextBlk t₅ j y = some b.off := by
    simp only [nextBlk, hd₅.base_eq, hfield]
    rw [ht₄, hdr_write_ne hb.1 hyb hyne (by decide) (by decide) (s.base j), hfield₃, ht₂,
      field_write_same]
    exact offLink_ofNat (by omega) (by omega)
  have hyprev : prevBlk t₅ j y = prevBlk s j y := by
    simp only [prevBlk, hd₅.base_eq]
    rw [hyf (by decide) (by decide)]
  have hbnext : nextBlk t₅ j b.off = none := by
    simp only [nextBlk, hd₅.base_eq, hfield]
    rw [ht₄, field_write_same]
    rfl
  have hbprev : prevBlk t₅ j b.off = some y := by
    simp only [prevBlk, hd₅.base_eq]
    rw [hbf (by decide) (by decide), ht₁, field_write_same, hl.tail]
    exact hy
  have hlinks (k x : ℕ) (hx : x ∈ a.queue k) (hxy : (⟨x, k⟩ : SegBlock) ≠ ⟨y, b.cls⟩) :
      nextBlk t₅ j x = nextBlk s j x ∧ prevBlk t₅ j x = prevBlk s j x := by
    have hxb : (⟨x, k⟩ : SegBlock) ≠ b := by
      rintro rfl
      exact hb.2 hx
    have hc := a.queued k x hx
    exact links_eq hd₅ (hne (c := ⟨x, k⟩) hc hxb hxy (by decide))
      (hne (c := ⟨x, k⟩) hc hxb hxy (by decide))
  refine h.relink (i := b.cls) hd₅ rfl rfl (fun k hk => ?_) (by simp [ht₅, ht₄, ht₃, ht₂, ht₁])
    (fun c hc => ?_) (fun k hk => ?_)
    (fun k hk x hx => hlinks k x hx fun hc => hk (congrArg SegBlock.cls hc)) ?_
  · simp [Segregated.push, hk]
  · by_cases hcb : c = b
    · subst hcb
      rw [hbf (by decide) (by decide), ht₁]
      exact field_write_disjoint (.inr (by simp))
    · by_cases hcy : c = ⟨y, b.cls⟩
      · subst hcy
        exact hyf (by decide) (by decide)
      · exact hne hc hcb hcy (by decide)
  · simp [ht₅, ht₄, ht₃, ht₂, ht₁, setList_freeBlkList_ne, hk]
  · simp only [ht₅, ht₄, ht₃, ht₂, ht₁, setPool_poolList, write_poolList, setList_freeBlkList,
      Segregated.push, Function.update_self]
    refine ⟨?_, ?_, by simp [hl.size], ?_, ?_⟩
    · rw [List.head?_append_of_ne_nil _ hq]
      exact hl.head
    · rw [List.getLast?_append_cons]
      exact offLink_ofNat (by omega) (by omega)
    · refine hl.next.snoc (a.nodup _) hbnext (fun z hz => ?_) fun z hz hzl => ?_
      · obtain rfl : y = z := by simpa using hy.symm.trans hz
        exact hynext
      · refine (hlinks b.cls z hz ?_).1
        rintro ⟨⟩
        exact hzl hy
    · rw [List.reverse_append, List.reverse_singleton, List.singleton_append]
      refine ⟨?_, hl.prev.congr fun z hz => ?_⟩
      · rw [List.head?_reverse, hy]
        exact hbprev
      · by_cases hzy : z = y
        · subst hzy
          exact hyprev
        · exact (hlinks b.cls z (List.mem_reverse.mp hz) (by simpa using hzy)).2

theorem wp_touchdbPoolFree {b : SegBlock} (h : PoolRep s j a) (hb : a.Live b)
    (hG : ∀ e, HdrEvent s j a.blocks e → G.emits e) :
    wp G (touchdbPoolFree j (s.base j + b.off + blkHdrSize)) (fun _ t =>
      PoolRep t j (a.free b) ∧ HdrOnly s t j a.blocks) s := by
  have hi := h.cls_lt b hb.1
  have hN : touchdbPoolFreeListCount < 2 ^ 31 := by decide
  have hd₀ : HdrOnly s s j a.blocks := HdrOnly.rfl'
  rw [Segregated.free_of_live hb]
  unfold touchdbPoolFree
  dsimp only
  rw [Nat.add_sub_cancel]
  refine wp_bind (wp_loadHdr h.toPoolMapped hd₀ hb.1 (by decide) ?_)
  rw [h.hdr b hb.1]
  refine wp_bind (wp_getPool ?_)
  have hno : ¬ (Int32.ofNat b.cls < 0 ∨ (s.poolList j).freeBlkListCount < Int32.ofNat b.cls) := by
    rw [h.count_eq, Int32.ofNat_lt_iff_lt (by omega) (by omega), Int32.lt_iff_toInt_lt,
      Int32.toInt_ofNat_of_lt (by omega), Int32.toInt_zero]
    omega
  rw [if_neg hno]
  refine wp_bind (wp_freeBlkListAt hi ?_)
  by_cases hq : a.queue b.cls = []
  · exact wp_free_empty h hb hi hq hG
  · exact wp_free_nonempty h hb hi hq hG

end TouchDb
