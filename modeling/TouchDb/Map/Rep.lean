import TouchDb.Map.Model
import TouchDb.Str.Rules
import TouchDb.Core.Linked
import Mathlib.Data.Int.Order.Basic

/-! How a heap represents the hash index, and what the searches in it find. -/
namespace TouchDb
open Prog Layout

structure MapNode where
  blk : ℕ
  key : CStr
  keyBlk : ℕ
  deriving DecidableEq

/-- The index of a store: the block of its bucket table, the number of bits of a bucket
number, and its entries, oldest first. -/
structure Index where
  tbl : ℕ
  bits : ℕ
  entries : List MapNode
  bits_le : bits ≤ 30
  keys : (entries.map MapNode.key).Nodup
  apart : (tbl :: (entries.map MapNode.blk ++ entries.map MapNode.keyBlk)).Nodup

namespace Index

def count (ix : Index) : ℕ := 2 ^ ix.bits

def blocks (ix : Index) : List ℕ :=
  ix.tbl :: (ix.entries.map MapNode.blk ++ ix.entries.map MapNode.keyBlk)

def bucketOf (ix : Index) (k : CStr) : ℕ := ((hash (hashCode k)).toInt % ix.count).toNat

def bucket (ix : Index) (i : ℕ) : List MapNode := ix.entries.filter fun e => ix.bucketOf e.key = i

def find (ix : Index) (k : CStr) : Option MapNode := ix.entries.find? fun e => e.key = k

variable {ix : Index} {e : MapNode} {k : CStr} {i : ℕ}

theorem count_pos (ix : Index) : 0 < ix.count := Nat.two_pow_pos ix.bits

theorem count_le (ix : Index) : ix.count ≤ 2 ^ 30 := Nat.pow_le_pow_right (by decide) ix.bits_le

theorem bucketOf_lt (ix : Index) (k : CStr) : ix.bucketOf k < ix.count := by
  have h : (0 : ℤ) < ix.count := Int.natCast_pos.mpr ix.count_pos
  have h1 := Int.emod_lt_of_pos (hash (hashCode k)).toInt h
  have h2 := Int.emod_nonneg (hash (hashCode k)).toInt h.ne'
  unfold bucketOf
  omega

theorem mem_bucket : e ∈ ix.bucket i ↔ e ∈ ix.entries ∧ ix.bucketOf e.key = i := by
  simp [bucket]

theorem find_eq_some : ix.find k = some e ↔ e ∈ ix.entries ∧ e.key = k := by
  constructor
  · intro h
    exact ⟨List.mem_of_find?_eq_some h, by simpa using List.find?_some h⟩
  · rintro ⟨he, rfl⟩
    unfold find
    rcases hf : ix.entries.find? fun d => d.key = e.key with _ | d
    · have h := List.find?_eq_none.mp hf e he
      simp at h
    · have h1 := List.mem_of_find?_eq_some hf
      have h2 : d.key = e.key := by simpa using List.find?_some hf
      rw [hf, List.inj_on_of_nodup_map ix.keys h1 he h2]

theorem find_eq_none : ix.find k = none ↔ k ∉ ix.entries.map MapNode.key := by
  unfold find
  simp [List.find?_eq_none]

theorem find_append {ix' : Index} {m : MapNode} (hm : ix'.entries = ix.entries ++ [m]) (j : CStr)
    (hj : j ≠ m.key) : ix'.find j = ix.find j := by
  unfold find
  rw [hm, List.find?_append]
  simp [Ne.symm hj]

theorem find_append_self {ix' : Index} {m : MapNode} (hm : ix'.entries = ix.entries ++ [m]) :
    ix'.find m.key = some m :=
  find_eq_some.mpr ⟨by rw [hm]; simp, rfl⟩

/-- A key is looked for only among the entries of its bucket. -/
theorem find_bucket (ix : Index) (k : CStr) :
    (ix.bucket (ix.bucketOf k)).find? (fun e => e.key = k) = ix.find k := by
  unfold bucket find
  rw [List.find?_filter]
  congr 1
  funext e
  by_cases h : e.key = k
  · simp [h]
  · simp [h]

theorem blk_mem (h : e ∈ ix.entries) : e.blk ∈ ix.blocks := by
  simp only [blocks, List.mem_cons, List.mem_append]
  exact .inr (.inl (List.mem_map_of_mem h))

theorem keyBlk_mem (h : e ∈ ix.entries) : e.keyBlk ∈ ix.blocks := by
  simp only [blocks, List.mem_cons, List.mem_append]
  exact .inr (.inr (List.mem_map_of_mem h))

theorem tbl_mem (ix : Index) : ix.tbl ∈ ix.blocks := List.mem_cons_self

theorem blk_ne_tbl (h : e ∈ ix.entries) : e.blk ≠ ix.tbl := by
  intro he
  have h1 := (List.nodup_cons.mp ix.apart).1
  exact h1 (he ▸ List.mem_append_left _ (List.mem_map_of_mem h))

theorem blks_nodup (ix : Index) : (ix.entries.map MapNode.blk).Nodup :=
  (List.nodup_append.mp (List.nodup_cons.mp ix.apart).2).1

theorem bucket_nodup (ix : Index) (i : ℕ) : ((ix.bucket i).map MapNode.blk).Nodup :=
  ix.blks_nodup.sublist (List.Sublist.map _ List.filter_sublist)

/-- A new entry, whose key and blocks are not in the index yet, joins the end. -/
def insert (ix : Index) (e : MapNode) (hk : e.key ∉ ix.entries.map MapNode.key)
    (hb : e.blk ∉ ix.blocks) (hkb : e.keyBlk ∉ ix.blocks) (hne : e.blk ≠ e.keyBlk) : Index where
  tbl := ix.tbl
  bits := ix.bits
  entries := ix.entries ++ [e]
  bits_le := ix.bits_le
  keys := by
    rw [List.map_append, List.nodup_append]
    exact ⟨ix.keys, by simp, by
      rintro x hx y hy rfl
      rw [List.mem_singleton.mp hy] at hx
      exact hk hx⟩
  apart := by
    have h := ix.apart
    simp only [blocks, List.mem_cons, List.mem_append, not_or] at hb hkb
    simp only [List.nodup_cons, List.mem_append, List.nodup_append, List.map_append,
      List.map_cons, List.map_nil, List.mem_singleton, not_or] at h ⊢
    obtain ⟨⟨h1, h2⟩, h3, h4, h5⟩ := h
    refine ⟨⟨⟨h1, fun hc => hb.1 hc.symm⟩, h2, fun hc => hkb.1 hc.symm⟩, ⟨h3, by simp, ?_⟩,
      ⟨h4, by simp, ?_⟩, ?_⟩
    · rintro x hx y rfl rfl
      exact hb.2.1 hx
    · rintro x hx y rfl rfl
      exact hkb.2.2 hx
    · rintro x hx y hy rfl
      rcases hx with hx | rfl <;> rcases hy with hy | hy
      · exact h5 x hx x hy rfl
      · exact hkb.2.1 (hy ▸ hx)
      · exact hb.2.2 hy
      · exact hne hy

theorem bucket_insert (hk : e.key ∉ ix.entries.map MapNode.key) (hb : e.blk ∉ ix.blocks)
    (hkb : e.keyBlk ∉ ix.blocks) (hne : e.blk ≠ e.keyBlk) (i : ℕ) :
    (ix.insert e hk hb hkb hne).bucket i =
      ix.bucket i ++ if ix.bucketOf e.key = i then [e] else [] := by
  change (ix.entries ++ [e]).filter (fun d => ix.bucketOf d.key = i) = _
  rw [List.filter_append]
  by_cases h : ix.bucketOf e.key = i
  · simp [h, bucket]
  · simp [h, bucket]

end Index

/-- A field of the `i`-th bucket of the table. -/
def bulkField {α : Type} (i : ℕ) (f : Field α) : Field α := ⟨sizeofMapBulk * i + f.off⟩

/-- The value address of an entry. -/
def valueField : Field TouchdbAddr := ⟨MapEntry.val.off + Val.value.off⟩

def nextOf (B : ℕ) (s : Touchdb) (o : ℕ) : Option ℕ := linkOf (s.field (B + o) MapEntry.next)

def prevOf (B : ℕ) (s : Touchdb) (o : ℕ) : Option ℕ := linkOf (s.field (B + o) MapEntry.prev)

/-- Bucket `i` is a list of the entry blocks `q`, linked both ways. -/
structure BucketRep (B : ℕ) (s : Touchdb) (tbl i : ℕ) (q : List ℕ) : Prop where
  header : linkOf (s.field (B + tbl) (bulkField i MapBulk.header)) = q.head?
  tail : linkOf (s.field (B + tbl) (bulkField i MapBulk.tail)) = q.getLast?
  size : s.field (B + tbl) (bulkField i MapBulk.size) = Int32.ofNat q.length
  next : Linked (nextOf B s) q
  prev : Linked (prevOf B s) q.reverse
  empty : q = [] → s.field (B + tbl) (bulkField i MapBulk.header) = nullAddr

structure EntryRep (B : ℕ) (s : Touchdb) (a : PoolAlloc) (e : MapNode) : Prop where
  blk : Owns a e.blk mapEntrySize
  keyBlk : Owns a e.keyBlk (e.key.strlen + 1)
  hash : s.field (B + e.blk) MapEntry.hash = hash (hashCode e.key)
  key : s.field (B + e.blk) MapEntry.key = addrOf e.keyBlk
  holds : s.holds (B + e.keyBlk) e.key
  /-- the value need not be in use, but its address is one of the pool -/
  value : ∃ o, 0 < o ∧ o ≤ touchdbDefaultPoolSize ∧ s.field (B + e.blk) valueField = addrOf o

/-- The map of `s` is the index `ix`. -/
structure MapRep (B : ℕ) (s : Touchdb) (a : PoolAlloc) (ix : Index) : Prop where
  table : Owns a ix.tbl (sizeofMapBulk * ix.count)
  bulkList : s.map.bulkList = addrOf ix.tbl
  count : s.map.bulkListCount = Int32.ofNat ix.count
  size : s.map.size = Int32.ofNat ix.entries.length
  entry : ∀ e ∈ ix.entries, EntryRep B s a e
  bucket : ∀ i < ix.count, BucketRep B s ix.tbl i ((ix.bucket i).map MapNode.blk)

section Frame
variable {B : ℕ} {s t : Touchdb} {a a' : PoolAlloc} {T : List ℕ} {ix : Index} {e : MapNode}
variable {tbl i : ℕ} {q : List ℕ}

theorem bulkField_le {α : Type} [Layout α] {f : Field α} {n : ℕ} (hi : i < n)
    (hf : f.off + size α ≤ sizeofMapBulk) : (bulkField i f).off + size α ≤ sizeofMapBulk * n := by
  have h := Nat.mul_le_mul_left sizeofMapBulk hi
  simp only [bulkField, Nat.succ_eq_add_one, Nat.mul_add, Nat.mul_one] at *
  omega

theorem BucketRep.congr (h : BucketRep B s tbl i q)
    (ht : ∀ {α : Type} [Layout α] (f : Field α), f.off + Layout.size α ≤ sizeofMapBulk →
      t.field (B + tbl) (bulkField i f) = s.field (B + tbl) (bulkField i f))
    (hn : ∀ o ∈ q, nextOf B t o = nextOf B s o) (hp : ∀ o ∈ q, prevOf B t o = prevOf B s o) :
    BucketRep B t tbl i q where
  header := by rw [ht _ (by decide)]; exact h.header
  tail := by rw [ht _ (by decide)]; exact h.tail
  size := by rw [ht _ (by decide)]; exact h.size
  next := h.next.congr hn
  prev := h.prev.congr fun o ho => hp o (List.mem_reverse.mp ho)
  empty hq := by rw [ht _ (by decide)]; exact h.empty hq

theorem EntryRep.frame (h : EntryRep B s a e) (hF : Frame B s a t a' T) (hb : e.blk ∉ T)
    (hk : e.keyBlk ∉ T) : EntryRep B t a' e where
  blk := hF.owns hb h.blk
  keyBlk := hF.owns hk h.keyBlk
  hash := by rw [hF.field hb h.blk (by decide)]; exact h.hash
  key := by rw [hF.field hb h.blk (by decide)]; exact h.key
  holds := hF.holds hk h.keyBlk h.holds
  value := by rw [hF.field hb h.blk (by decide)]; exact h.value

theorem MapRep.owns (h : MapRep B s a ix) {o : ℕ} (ho : o ∈ ix.blocks) : Owns a o 0 := by
  simp only [Index.blocks, List.mem_cons, List.mem_append, List.mem_map] at ho
  rcases ho with rfl | ⟨e, he, rfl⟩ | ⟨e, he, rfl⟩
  · exact h.table.mono (Nat.zero_le _)
  · exact (h.entry e he).blk.mono (Nat.zero_le _)
  · exact (h.entry e he).keyBlk.mono (Nat.zero_le _)

theorem MapRep.frame (h : MapRep B s a ix) (hF : Frame B s a t a' T)
    (hT : ∀ o ∈ ix.blocks, o ∉ T) (h0 : mapRecord ∉ T) : MapRep B t a' ix where
  table := hF.owns (hT _ ix.tbl_mem) h.table
  bulkList := by rw [hF.map h0]; exact h.bulkList
  count := by rw [hF.map h0]; exact h.count
  size := by rw [hF.map h0]; exact h.size
  entry e he := (h.entry e he).frame hF (hT _ (Index.blk_mem he)) (hT _ (Index.keyBlk_mem he))
  bucket i hi := by
    have hq {o : ℕ} (ho : o ∈ (ix.bucket i).map MapNode.blk) {f : Field TouchdbAddr}
        (hf : f.off + 8 ≤ mapEntrySize) : t.field (B + o) f = s.field (B + o) f := by
      obtain ⟨e, he, rfl⟩ := List.mem_map.mp ho
      obtain ⟨he, -⟩ := Index.mem_bucket.mp he
      exact hF.field (hT _ (Index.blk_mem he)) (h.entry e he).blk hf
    refine (h.bucket i hi).congr (fun f hf => ?_) (fun o ho => ?_) fun o ho => ?_
    · exact hF.field (hT _ ix.tbl_mem) h.table (bulkField_le hi hf)
    · rw [nextOf, hq ho (by decide)]; rfl
    · rw [prevOf, hq ho (by decide)]; rfl

theorem MapRep.count_toInt (h : MapRep B s a ix) : s.map.bulkListCount.toInt = ix.count := by
  have hle := ix.count_le
  rw [h.count]
  exact Int32.toInt_ofNat_of_lt (by omega)

/-- The entries of an index are fewer than the rounds of a walk. -/
theorem MapRep.length_lt (h : MapRep B s a ix) : ix.entries.length < walkRounds := by
  have hl := Owns.length_lt ix.blks_nodup fun o ho => by
    obtain ⟨e, he, rfl⟩ := List.mem_map.mp ho
    exact h.owns (Index.blk_mem he)
  simpa using hl

theorem MapRep.bucket_length_lt (h : MapRep B s a ix) (i : ℕ) :
    ((ix.bucket i).map MapNode.blk).length < 2 ^ 31 := by
  have h1 : (ix.bucket i).length ≤ ix.entries.length := List.length_filter_le _ _
  have h2 := h.length_lt
  have h3 := poolSize_lt
  simp only [List.length_map, walkRounds] at *
  omega

end Frame

end TouchDb
