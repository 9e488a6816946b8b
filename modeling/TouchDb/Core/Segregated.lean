import TouchDb.Core.Tiling
import Mathlib.Data.List.InsertIdx
import Mathlib.Data.List.Nodup
import Mathlib.Logic.Function.Basic

/-! An abstract segregated-fit allocator: blocks are carved one after the other from a
bounded space, and the free blocks of each size class wait in a first-in first-out queue. -/

structure SegBlock where
  off : ℕ
  cls : ℕ
  deriving DecidableEq

/-- The space starts at `start` and ends at `limit`; a block of class `i` holds `hdr` bytes
of header and `cap i` bytes of payload. The last block carved comes first. -/
structure Segregated (start limit hdr : ℕ) (cap : ℕ → ℕ) where
  cur : ℕ
  blocks : List SegBlock
  queue : ℕ → List ℕ
  tiles : Tiles SegBlock.off (fun b => hdr + cap b.cls) start blocks cur
  fits : cur ≤ limit
  queued : ∀ i, ∀ b ∈ queue i, ⟨b, i⟩ ∈ blocks
  nodup : ∀ i, (queue i).Nodup

namespace Segregated
variable {start limit hdr : ℕ} {cap : ℕ → ℕ}

/-- Nothing is carved yet. -/
def fresh (h : start ≤ limit) : Segregated start limit hdr cap where
  cur := start
  blocks := []
  queue _ := []
  tiles := rfl
  fits := h
  queued := by simp
  nodup := by simp

variable (a : Segregated start limit hdr cap)

/-- A carved block that waits in no queue. -/
def Live (b : SegBlock) : Prop := b ∈ a.blocks ∧ b.off ∉ a.queue b.cls

instance (b : SegBlock) : Decidable (a.Live b) := by
  unfold Live
  infer_instance

/-- The next block of class `i` is taken out of its queue. -/
def pop (i : ℕ) (q : List ℕ) (b : ℕ) (h : a.queue i = b :: q) : Segregated start limit hdr cap where
  cur := a.cur
  blocks := a.blocks
  queue := Function.update a.queue i q
  tiles := a.tiles
  fits := a.fits
  queued := by
    intro k c hc
    by_cases hk : k = i
    · subst hk
      rw [Function.update_self] at hc
      exact a.queued k c (by simp [h, hc])
    · rw [Function.update_of_ne hk] at hc
      exact a.queued k c hc
  nodup := by
    intro k
    by_cases hk : k = i
    · subst hk
      rw [Function.update_self]
      have hn := a.nodup k
      rw [h] at hn
      exact (List.nodup_cons.mp hn).2
    · rw [Function.update_of_ne hk]
      exact a.nodup k

/-- A new block of class `i` is carved at the end of the used space. -/
def carve (i : ℕ) (h : a.cur + (hdr + cap i) ≤ limit) : Segregated start limit hdr cap where
  cur := a.cur + (hdr + cap i)
  blocks := ⟨a.cur, i⟩ :: a.blocks
  queue := a.queue
  tiles := ⟨rfl, a.tiles⟩
  fits := h
  queued k b hb := List.mem_cons_of_mem _ (a.queued k b hb)
  nodup := a.nodup

/-- A block comes from the front of its queue, or else is carved if there is room. -/
def malloc (i : ℕ) : Option (SegBlock × Segregated start limit hdr cap) :=
  match h : a.queue i with
  | b :: q => some (⟨b, i⟩, a.pop i q b h)
  | [] =>
    if h : a.cur + (hdr + cap i) ≤ limit then some (⟨a.cur, i⟩, a.carve i h) else none

/-- A live block goes to the end of its queue. -/
def push (b : SegBlock) (h : a.Live b) : Segregated start limit hdr cap where
  cur := a.cur
  blocks := a.blocks
  queue := Function.update a.queue b.cls (a.queue b.cls ++ [b.off])
  tiles := a.tiles
  fits := a.fits
  queued := by
    intro k c hc
    by_cases hk : k = b.cls
    · subst hk
      rw [Function.update_self] at hc
      rcases List.mem_append.mp hc with hc | hc
      · exact a.queued _ c hc
      · rw [List.mem_singleton.mp hc]
        exact h.1
    · rw [Function.update_of_ne hk] at hc
      exact a.queued k c hc
  nodup := by
    intro k
    by_cases hk : k = b.cls
    · subst hk
      rw [Function.update_self]
      exact List.nodup_append.mpr ⟨a.nodup _, by simp, by
        rintro c hc d hd rfl
        exact h.2 (List.mem_singleton.mp hd ▸ hc)⟩
    · rw [Function.update_of_ne hk]
      exact a.nodup k

/-- Freeing what is not live is not an operation of the allocator. -/
def free (b : SegBlock) : Segregated start limit hdr cap :=
  if h : a.Live b then a.push b h else a

variable {a} {i : ℕ} {b c : SegBlock} {a' : Segregated start limit hdr cap}

theorem malloc_of_cons {q : List ℕ} {x : ℕ} (h : a.queue i = x :: q) :
    a.malloc i = some (⟨x, i⟩, a.pop i q x h) := by
  unfold malloc
  split
  · rename_i y q' h'
    obtain ⟨rfl, rfl⟩ : x = y ∧ q = q' := by simpa [h] using h'
    rfl
  · rename_i h'
    simp [h] at h'

theorem malloc_of_nil (h : a.queue i = []) :
    a.malloc i = if hc : a.cur + (hdr + cap i) ≤ limit then some (⟨a.cur, i⟩, a.carve i hc)
      else none := by
  unfold malloc
  split
  · rename_i y q' h'
    simp [h] at h'
  · rfl

theorem malloc_of_room (h : a.queue i = []) (hc : a.cur + (hdr + cap i) ≤ limit) :
    a.malloc i = some (⟨a.cur, i⟩, a.carve i hc) := by
  rw [malloc_of_nil h, dif_pos hc]

theorem malloc_of_full (h : a.queue i = []) (hc : ¬ a.cur + (hdr + cap i) ≤ limit) :
    a.malloc i = none := by
  rw [malloc_of_nil h, dif_neg hc]

theorem malloc_eq_none :
    a.malloc i = none ↔ a.queue i = [] ∧ ¬ a.cur + (hdr + cap i) ≤ limit := by
  by_cases hq : a.queue i = []
  · rw [malloc_of_nil hq]
    simp [hq]
  · obtain ⟨x, q, hx⟩ := List.exists_cons_of_ne_nil hq
    simp [malloc_of_cons hx, hq]

/-- The two ways an allocation succeeds. -/
theorem malloc_cases (h : a.malloc i = some (b, a')) :
    (∃ q x, ∃ hq : a.queue i = x :: q, b = ⟨x, i⟩ ∧ a' = a.pop i q x hq) ∨
    (a.queue i = [] ∧ ∃ hc : a.cur + (hdr + cap i) ≤ limit, b = ⟨a.cur, i⟩ ∧ a' = a.carve i hc) := by
  by_cases hq : a.queue i = []
  · rw [malloc_of_nil hq] at h
    split_ifs at h with hc
    obtain ⟨rfl, rfl⟩ : ⟨a.cur, i⟩ = b ∧ a.carve i hc = a' := by simpa using h
    exact .inr ⟨hq, hc, rfl, rfl⟩
  · obtain ⟨x, q, hq⟩ := List.exists_cons_of_ne_nil hq
    rw [malloc_of_cons hq] at h
    obtain ⟨rfl, rfl⟩ : ⟨x, i⟩ = b ∧ a.pop i q x hq = a' := by simpa using h
    exact .inl ⟨q, x, hq, rfl, rfl⟩

theorem eq_of_off (hh : 0 < hdr) (hb : b ∈ a.blocks) (hc : c ∈ a.blocks) (he : b.off = c.off) :
    b = c :=
  a.tiles.eq_of_lo (fun _ => by omega) hb hc he

theorem disjoint (hb : b ∈ a.blocks) (hc : c ∈ a.blocks) (hne : b ≠ c) :
    b.off + (hdr + cap b.cls) ≤ c.off ∨ c.off + (hdr + cap c.cls) ≤ b.off :=
  (a.tiles.disjoint hb hc).resolve_left hne

theorem bounds (hb : b ∈ a.blocks) : start ≤ b.off ∧ b.off + (hdr + cap b.cls) ≤ a.cur :=
  a.tiles.mem_bounds hb

theorem off_lt_cur (hh : 0 < hdr) (hb : b ∈ a.blocks) : b.off < a.cur := by
  have h := bounds hb
  omega

theorem malloc_cls (h : a.malloc i = some (b, a')) : b.cls = i := by
  rcases malloc_cases h with ⟨q, x, hq, rfl, -⟩ | ⟨hq, hc, rfl, -⟩ <;> rfl

theorem malloc_mem (h : a.malloc i = some (b, a')) : b ∈ a'.blocks := by
  rcases malloc_cases h with ⟨q, x, hq, rfl, rfl⟩ | ⟨hq, hc, rfl, rfl⟩
  · exact a.queued i x (by simp [hq])
  · exact List.mem_cons_self

theorem malloc_blocks (h : a.malloc i = some (b, a')) :
    ∀ c, c ∈ a'.blocks ↔ c = b ∨ c ∈ a.blocks := by
  intro c
  rcases malloc_cases h with ⟨q, x, hq, rfl, rfl⟩ | ⟨hq, hc, rfl, rfl⟩
  · have hx : (⟨x, i⟩ : SegBlock) ∈ a.blocks := a.queued i x (by simp [hq])
    constructor
    · exact .inr
    · rintro (rfl | h)
      · exact hx
      · exact h
  · exact List.mem_cons

/-- The block handed out was not live, and is the only one that becomes so. -/
theorem malloc_live (hh : 0 < hdr) (h : a.malloc i = some (b, a')) :
    ¬ a.Live b ∧ a'.Live b ∧ ∀ c, c ≠ b → (a'.Live c ↔ a.Live c) := by
  rcases malloc_cases h with ⟨q, x, hq, rfl, rfl⟩ | ⟨hq, hc, rfl, rfl⟩
  · have hx : (⟨x, i⟩ : SegBlock) ∈ a.blocks := a.queued i x (by simp [hq])
    have hn := a.nodup i
    rw [hq] at hn
    refine ⟨fun hl => hl.2 (by simp [hq]), ⟨hx, ?_⟩, fun c hne => ?_⟩
    · simpa [pop] using (List.nodup_cons.mp hn).1
    · by_cases hi : c.cls = i
      · subst hi
        simp only [Live, pop, Function.update_self, hq, List.mem_cons, not_or]
        refine and_congr_right fun hcm => ⟨fun h' => ⟨fun he => hne ?_, h'⟩, fun h' => h'.2⟩
        exact eq_of_off hh hcm hx he
      · simp only [Live, pop, Function.update_of_ne hi]
  · refine ⟨fun hl => ?_, ⟨List.mem_cons_self, by simp [carve, hq]⟩, fun c hne => ?_⟩
    · have h1 := off_lt_cur hh hl.1
      simp at h1
    · simp [Live, carve, hne]

theorem free_of_live (h : a.Live b) : a.free b = a.push b h := dif_pos h

theorem free_blocks : (a.free b).blocks = a.blocks := by
  unfold free
  split_ifs <;> rfl

/-- The block given back is the only one that is not live any more. -/
theorem free_live (hh : 0 < hdr) (h : a.Live b) :
    ¬ (a.free b).Live b ∧ ∀ c, c ≠ b → ((a.free b).Live c ↔ a.Live c) := by
  rw [free_of_live h]
  refine ⟨fun hl => hl.2 (by simp [push]), fun c hne => ?_⟩
  by_cases hi : c.cls = b.cls
  · simp only [Live, push, hi, Function.update_self, List.mem_append, List.mem_singleton, not_or]
    refine and_congr_right fun hcm => ⟨fun h' => h'.1, fun h' => ⟨h', fun he => hne ?_⟩⟩
    exact eq_of_off hh hcm h.1 he
  · simp only [Live, push, Function.update_of_ne hi]

/-- A queue is no longer than the space carved allows. -/
theorem queue_length_le (a : Segregated start limit hdr cap) (i : ℕ) :
    start + hdr * (a.queue i).length ≤ a.cur := by
  have hn : ((a.queue i).map fun x => (⟨x, i⟩ : SegBlock)).Nodup :=
    (a.nodup i).map fun x y hxy => by simpa using hxy
  have hs : ((a.queue i).map fun x => (⟨x, i⟩ : SegBlock)) ⊆ a.blocks := by
    intro b hb
    obtain ⟨x, hx, rfl⟩ := List.mem_map.mp hb
    exact a.queued i x hx
  have hle : (a.queue i).length ≤ a.blocks.length := by
    simpa using hn.length_le_of_subset hs
  have ht := a.tiles.length_le (k := hdr) fun b => by omega
  have hm := Nat.mul_le_mul_left hdr hle
  omega

/-- A carved block is live or waits in the queue of its class. -/
theorem live_or_queued (hb : b ∈ a.blocks) : a.Live b ∨ b.off ∈ a.queue b.cls := by
  by_cases h : b.off ∈ a.queue b.cls
  · exact .inr h
  · exact .inl ⟨hb, h⟩

/-- The free blocks, class by class. -/
def freeBlocks (a : Segregated start limit hdr cap) (N : ℕ) : List SegBlock :=
  (List.range N).flatMap fun i => (a.queue i).map fun x => ⟨x, i⟩

theorem mem_freeBlocks {N : ℕ} : b ∈ a.freeBlocks N ↔ b.cls < N ∧ b.off ∈ a.queue b.cls := by
  unfold freeBlocks
  rw [List.mem_flatMap]
  constructor
  · rintro ⟨i, hi, hb⟩
    obtain ⟨x, hx, rfl⟩ := List.mem_map.mp hb
    exact ⟨List.mem_range.mp hi, hx⟩
  · rintro ⟨hc, hb⟩
    exact ⟨b.cls, List.mem_range.mpr hc, List.mem_map_of_mem hb⟩

theorem freeBlocks_nodup (a : Segregated start limit hdr cap) (N : ℕ) : (a.freeBlocks N).Nodup := by
  refine List.nodup_flatMap.mpr ⟨fun i _ => (a.nodup i).map fun x y hxy => by simpa using hxy, ?_⟩
  refine List.nodup_range.pairwise_of_forall_ne fun i _ j _ hij b hi hj => hij ?_
  obtain ⟨x, -, rfl⟩ := List.mem_map.mp hi
  obtain ⟨y, -, hy⟩ := List.mem_map.mp hj
  exact (congrArg SegBlock.cls hy).symm

/-- The space that was carved: the live blocks `l`, and those that wait. -/
theorem cur_eq (hh : 0 < hdr) {N : ℕ} {l : List SegBlock} (hN : ∀ b ∈ a.blocks, b.cls < N) (hl : l.Nodup)
    (hlive : ∀ b, b ∈ l ↔ a.Live b) :
    a.cur = start + (l.map fun b => hdr + cap b.cls).sum +
      ((List.range N).map fun i => (a.queue i).length * (hdr + cap i)).sum := by
  have hperm : a.blocks.Perm (l ++ a.freeBlocks N) := by
    refine (List.perm_ext_iff_of_nodup (a.tiles.nodup fun _ => by omega) ?_).mpr fun b => ?_
    · refine hl.append (a.freeBlocks_nodup N) fun b hb hf => ?_
      exact ((hlive b).mp hb).2 (mem_freeBlocks.mp hf).2
    · rw [List.mem_append, hlive, mem_freeBlocks]
      constructor
      · exact fun hb => (live_or_queued hb).imp_right fun hq => ⟨hN b hb, hq⟩
      · rintro (hb | ⟨-, hb⟩)
        · exact hb.1
        · exact a.queued b.cls b.off hb
  have hfree (is : List ℕ) : ((is.flatMap fun i => (a.queue i).map fun x => (⟨x, i⟩ : SegBlock)).map fun b =>
      hdr + cap b.cls).sum = (is.map fun i => (a.queue i).length * (hdr + cap i)).sum := by
    induction is with
    | nil => rfl
    | cons i is ih =>
      simp only [List.flatMap_cons, List.map_append, List.sum_append_nat, List.map_cons, List.sum_cons, ih]
      simp [Function.comp_def]
  have hsum := (hperm.map fun b => hdr + cap b.cls).sum_nat
  rw [List.map_append, List.sum_append_nat, freeBlocks, hfree] at hsum
  rw [a.tiles.eq_sum, hsum, Nat.add_assoc]

/-! Clients know a block by where its payload starts. -/
section Payload

/-- The capacity of the live block whose payload starts at `o`. -/
def payload (a : Segregated start limit hdr cap) (o : ℕ) : Option ℕ :=
  (a.blocks.find? fun b => decide (b.off + hdr = o ∧ a.Live b)).map fun b => cap b.cls

variable {o o' n n' : ℕ}

theorem payload_eq_some (hh : 0 < hdr) :
    a.payload o = some n ↔ ∃ b, a.Live b ∧ b.off + hdr = o ∧ cap b.cls = n := by
  unfold payload
  rw [Option.map_eq_some_iff]
  constructor
  · rintro ⟨b, hb, hn⟩
    have h := List.find?_some hb
    obtain ⟨ho, hl⟩ : b.off + hdr = o ∧ a.Live b := by simpa using h
    exact ⟨b, hl, ho, hn⟩
  · rintro ⟨b, hl, ho, hn⟩
    rcases hf : a.blocks.find? fun b => decide (b.off + hdr = o ∧ a.Live b) with _ | d
    · have h := List.find?_eq_none.mp hf b hl.1
      simp [ho, hl] at h
    · have h := List.find?_some hf
      obtain ⟨ho', hl'⟩ : d.off + hdr = o ∧ a.Live d := by simpa using h
      obtain rfl : d = b := eq_of_off hh hl'.1 hl.1 (by omega)
      exact ⟨d, hf, hn⟩

theorem payload_of_live (hh : 0 < hdr) (h : a.Live b) : a.payload (b.off + hdr) = some (cap b.cls) :=
  (payload_eq_some hh).mpr ⟨b, h, rfl, rfl⟩

/-- Two allocators with the same live blocks have the same payloads. -/
theorem payload_congr (hh : 0 < hdr) (h : ∀ b, b.off + hdr = o → (a'.Live b ↔ a.Live b)) :
    a'.payload o = a.payload o := by
  refine Option.ext fun n => ?_
  rw [payload_eq_some hh, payload_eq_some hh]
  refine exists_congr fun b => ⟨?_, ?_⟩
  · rintro ⟨hl, ho, hn⟩
    exact ⟨(h b ho).mp hl, ho, hn⟩
  · rintro ⟨hl, ho, hn⟩
    exact ⟨(h b ho).mpr hl, ho, hn⟩

theorem payload_bounds (hh : 0 < hdr) (h : a.payload o = some n) :
    start + hdr ≤ o ∧ o + n ≤ a.cur := by
  obtain ⟨b, hl, rfl, rfl⟩ := (payload_eq_some hh).mp h
  have hb := bounds hl.1
  omega

/-- A payload does not meet the header of any block. -/
theorem payload_hdr (hh : 0 < hdr) (h : a.payload o = some n) (hb : b ∈ a.blocks) :
    o + n ≤ b.off ∨ b.off + hdr ≤ o := by
  obtain ⟨d, hl, rfl, rfl⟩ := (payload_eq_some hh).mp h
  by_cases hdb : d = b
  · exact .inr (hdb ▸ Nat.le_refl _)
  · rcases disjoint hl.1 hb hdb with h1 | h1
    · exact .inl (by omega)
    · exact .inr (by omega)

theorem payload_disjoint (hh : 0 < hdr) (h : a.payload o = some n) (h' : a.payload o' = some n')
    (hne : o ≠ o') : o + n ≤ o' ∨ o' + n' ≤ o := by
  obtain ⟨d, hl, rfl, rfl⟩ := (payload_eq_some hh).mp h
  obtain ⟨d', hl', rfl, rfl⟩ := (payload_eq_some hh).mp h'
  have hdd : d ≠ d' := fun he => hne (by rw [he])
  rcases disjoint hl.1 hl'.1 hdd with h1 | h1
  · exact .inl (by omega)
  · exact .inr (by omega)

theorem malloc_payload (hh : 0 < hdr) (h : a.malloc i = some (b, a')) :
    a.payload (b.off + hdr) = none ∧
      a'.payload = Function.update a.payload (b.off + hdr) (some (cap i)) := by
  obtain ⟨hn, hl, hk⟩ := malloc_live hh h
  have hb := malloc_mem h
  refine ⟨?_, funext fun o => ?_⟩
  · rw [Option.eq_none_iff_forall_ne_some]
    intro n hp
    obtain ⟨d, hd, ho, -⟩ := (payload_eq_some hh).mp hp
    have hdb : d = b := eq_of_off hh ((malloc_blocks h d).mpr (.inr hd.1)) hb (by omega)
    exact hn (hdb ▸ hd)
  · by_cases ho : o = b.off + hdr
    · rw [ho, Function.update_self, payload_of_live hh hl, malloc_cls h]
    · rw [Function.update_of_ne ho]
      exact payload_congr hh fun d hd => hk d fun hdb => ho (by rw [← hd, hdb])

theorem free_payload (hh : 0 < hdr) (h : a.Live b) :
    (a.free b).payload = Function.update a.payload (b.off + hdr) none := by
  obtain ⟨hn, hk⟩ := free_live hh h
  funext o
  by_cases ho : o = b.off + hdr
  · rw [ho, Function.update_self, Option.eq_none_iff_forall_ne_some]
    intro n hp
    obtain ⟨d, hd, ho, -⟩ := (payload_eq_some hh).mp hp
    have hdb : d = b := eq_of_off hh hd.1 (by rw [free_blocks]; exact h.1) (by omega)
    exact hn (hdb ▸ hd)
  · rw [Function.update_of_ne ho]
    exact payload_congr hh fun d hd => hk d fun hdb => ho (by rw [← hd, hdb])

end Payload

end Segregated

/-- The allocator together with what its clients hold: exactly the live blocks, each one
with the size that was asked for. -/
structure Clients (start limit hdr : ℕ) (cap : ℕ → ℕ) where
  alloc : Segregated start limit hdr cap
  held : List (SegBlock × ℕ)
  hdr_pos : 0 < hdr
  live : ∀ b, alloc.Live b ↔ b ∈ held.map Prod.fst
  nodup : (held.map Prod.fst).Nodup
  room : ∀ x ∈ held, x.2 ≤ cap x.1.cls

namespace Clients
variable {start limit hdr : ℕ} {cap : ℕ → ℕ}

def fresh (h : start ≤ limit) (hh : 0 < hdr) : Clients start limit hdr cap where
  alloc := .fresh h
  held := []
  hdr_pos := hh
  live := by simp [Segregated.Live, Segregated.fresh]
  nodup := List.nodup_nil
  room := by simp

variable (c : Clients start limit hdr cap)

/-- A client asks for `n` bytes of class `i`; a request that fails changes nothing. -/
def malloc (i n : ℕ) (hn : n ≤ cap i) : Clients start limit hdr cap :=
  match h : c.alloc.malloc i with
  | none => c
  | some (b, a') =>
    { alloc := a'
      held := c.held ++ [(b, n)]
      hdr_pos := c.hdr_pos
      live := by
        intro d
        obtain ⟨-, hb, hd⟩ := Segregated.malloc_live c.hdr_pos h
        by_cases hdb : d = b
        · simp [hdb, hb]
        · rw [hd d hdb, c.live d]
          simp [hdb]
      nodup := by
        obtain ⟨hb, -, -⟩ := Segregated.malloc_live c.hdr_pos h
        rw [List.map_append, List.nodup_append]
        refine ⟨c.nodup, by simp, ?_⟩
        rintro x hx y hy rfl
        obtain rfl : x = b := by simpa using hy
        exact hb ((c.live _).mpr hx)
      room := by
        intro x hx
        rcases List.mem_append.mp hx with hx | hx
        · exact c.room x hx
        · obtain rfl : x = (b, n) := by simpa using hx
          rw [Segregated.malloc_cls h]
          exact hn }

/-- The client gives back the block at place `k` of what is held. -/
def free (k : ℕ) : Clients start limit hdr cap :=
  if h : k < c.held.length then
    have hl : c.alloc.Live c.held[k].1 := (c.live _).mpr (List.mem_map_of_mem (List.getElem_mem h))
    { alloc := c.alloc.push c.held[k].1 hl
      held := c.held.eraseIdx k
      hdr_pos := c.hdr_pos
      live := by
        intro d
        have hf := Segregated.free_live c.hdr_pos hl
        rw [Segregated.free_of_live hl] at hf
        have hk : k < (c.held.map Prod.fst).length := by simpa using h
        have he : (c.held.eraseIdx k).map Prod.fst = (c.held.map Prod.fst).erase c.held[k].1 := by
          rw [← List.eraseIdx_map, ← c.nodup.erase_getElem k hk]
          simp
        rw [he, c.nodup.mem_erase_iff]
        by_cases hd : d = c.held[k].1
        · simp only [hd, hf.1, ne_eq, not_true_eq_false, false_and]
        · rw [hf.2 d hd, c.live d]
          exact (and_iff_right hd).symm
      nodup := by
        rw [← List.eraseIdx_map]
        exact c.nodup.eraseIdx k
      room x hx := c.room x (List.mem_of_mem_eraseIdx hx) }
  else c

variable {c} {i n k : ℕ} {hn : n ≤ cap i}

theorem malloc_none (h : c.alloc.malloc i = none) : c.malloc i n hn = c := by
  unfold malloc
  split
  · rfl
  · rename_i h'
    rw [h] at h'
    cases h'

theorem malloc_some (hn : n ≤ cap i) {b : SegBlock} {a' : Segregated start limit hdr cap}
    (h : c.alloc.malloc i = some (b, a')) :
    (c.malloc i n hn).alloc = a' ∧ (c.malloc i n hn).held = c.held ++ [(b, n)] := by
  unfold malloc
  split
  · rename_i h'
    rw [h] at h'
    cases h'
  · rename_i h'
    rw [h] at h'
    cases h'
    exact ⟨rfl, rfl⟩

theorem free_none (h : ¬ k < c.held.length) : c.free k = c := dif_neg h

theorem free_some (h : k < c.held.length) :
    c.alloc.Live c.held[k].1 ∧ (c.free k).alloc = c.alloc.free c.held[k].1 ∧
      (c.free k).held = c.held.eraseIdx k := by
  have hl : c.alloc.Live c.held[k].1 := (c.live _).mpr (List.mem_map_of_mem (List.getElem_mem h))
  refine ⟨hl, ?_, ?_⟩
  · rw [Segregated.free_of_live hl]
    simp only [free, dif_pos h]
  · simp only [free, dif_pos h]

theorem live_of_mem {x : SegBlock × ℕ} (h : x ∈ c.held) : c.alloc.Live x.1 :=
  (c.live _).mpr (List.mem_map_of_mem h)

end Clients
