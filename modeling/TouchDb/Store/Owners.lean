import TouchDb.Store.Puts

/-! Who owns the blocks of a store: the index and the values of its entries, read off memory. -/
namespace TouchDb
open Prog Layout

/-- The two calls that store a string under a key. -/
inductive Api where
  | put | putStr
  deriving DecidableEq

def Api.op : Api → Text → Text → MapOp
  | put => .put
  | putStr => .putStr

/-- A place that refers to a block: the map, or part of the entry at `E`. -/
inductive Owner where
  | table
  | entry (E : ℕ)
  | key (E : ℕ)
  | value (E : ℕ)
  /-- the characters of a `touchdb_str_t` -/
  | chars (E : ℕ)
  deriving DecidableEq

/-- The block that an address names, in `s`. -/
def Owner.block (s : Touchdb) : Owner → Option ℕ
  | table => linkOf s.map.bulkList
  | entry E => some E
  | key E => linkOf (s.field (s.base 0 + E) MapEntry.key)
  | value E => linkOf (s.field (s.base 0 + E) valueField)
  | chars E => linkOf (s.field
      (s.base 0 + (s.field (s.base 0 + E) valueField).offset.toNat) Str.data)

/-- Some bucket, walked from its header, meets the entry at `E`. -/
def InIndex (s : Touchdb) (E : ℕ) : Prop :=
  ∃ i < s.map.bulkListCount.toInt.toNat, Linked.Reaches (nextOf (s.base 0) s)
    (linkOf (s.field (s.base 0 + s.map.bulkList.offset.toNat) (bulkField i MapBulk.header))) E

/-- The key of the entry at `E`. -/
def KeyIs (s : Touchdb) (E : ℕ) (k : CStr) : Prop :=
  s.holds (s.base 0 + (s.field (s.base 0 + E) MapEntry.key).offset.toNat) k

/-- The owners that the index leads to, where `api` tells by which call each key is written. -/
def Reachable (s : Touchdb) (api : CStr → Api) : Owner → Prop
  | .table => True
  | .entry E | .key E | .value E => InIndex s E
  | .chars E => InIndex s E ∧ ∃ k, api k = .putStr ∧ KeyIs s E k

/-- The blocks in use are those that the index leads to, each by one owner. -/
structure NoLeak (s : Touchdb) (api : CStr → Api) : Prop where
  exact : ∀ o, Allocated s o 0 ↔ ∃ w, Reachable s api w ∧ w.block s = some o
  single : ∀ o w w', Reachable s api w → Reachable s api w' → w.block s = some o →
    w'.block s = some o → w = w'

section
variable {B : ℕ} {s u : Touchdb} {a a' : PoolAlloc} {ix ix' : Index} {e d : MapNode}
variable {api : CStr → Api} {k v x : CStr} {o p E K : ℕ} {l : List ℕ}

/-- The blocks of the value of an entry. -/
inductive ValHeld (B : ℕ) (s : Touchdb) (a : PoolAlloc) (e : MapNode) : Api → List ℕ → Prop
  | put {V : ℕ} (val : s.field (B + e.blk) MapEntry.val = ⟨.str, addrOf V⟩) (own : Owns a V 0) :
    ValHeld B s a e .put [V]
  | putStr {S D : ℕ} (val : s.field (B + e.blk) MapEntry.val = ⟨.str, addrOf S⟩)
    (str : Owns a S sizeofStr) (data : s.field (B + S) Str.data = addrOf D) (chars : Owns a D 0) :
    ValHeld B s a e .putStr [S, D]

theorem ValHeld.owns {c : Api} (h : ValHeld B s a e c l) (ho : o ∈ l) : Owns a o 0 := by
  cases h with
  | put val own =>
    rw [List.mem_singleton.mp ho]
    exact own
  | putStr val str data chars =>
    simp only [List.mem_cons, List.not_mem_nil, or_false] at ho
    rcases ho with rfl | rfl
    · exact str.mono (Nat.zero_le _)
    · exact chars

theorem ValHeld.frame {T : List ℕ} {c : Api} (h : ValHeld B s a e c l)
    (hv : u.field (B + e.blk) MapEntry.val = s.field (B + e.blk) MapEntry.val)
    (hF : Frame B s a u a' T) (hT : ∀ o ∈ l, o ∉ T) : ValHeld B u a' e c l := by
  cases h with
  | put val own => exact .put (hv.trans val) (hF.owns (hT _ (by simp)) own)
  | putStr val str data chars =>
    refine .putStr (hv.trans val) (hF.owns (hT _ (by simp)) str) ?_
      (hF.owns (hT _ (by simp)) chars)
    rw [hF.field (hT _ (by simp)) str (by decide)]
    exact data

/-- The value of an entry refers to the first of its blocks. -/
theorem valueField_eq {w : TouchdbVal} (h : s.field (B + e.blk) MapEntry.val = w) :
    s.field (B + e.blk) valueField = w.value := (val_parts h).2

theorem MapRep.inIndex_iff (hh : Heap B s a) (h : MapRep B s a ix) :
    InIndex s E ↔ ∃ e ∈ ix.entries, e.blk = E := by
  have hoff : s.map.bulkList.offset.toNat = ix.tbl := by
    rw [h.bulkList]
    exact addrOf_offset h.table.lt
  unfold InIndex
  rw [hh.base_eq, hoff, h.count_toInt, Int.toNat_natCast]
  have hr (i : ℕ) (hi : i < ix.count) : Linked.Reaches (nextOf B s)
      (linkOf (s.field (B + ix.tbl) (bulkField i MapBulk.header))) E ↔
        E ∈ (ix.bucket i).map MapNode.blk := by
    rw [(h.bucket i hi).header]
    exact Linked.reaches_iff (h.bucket i hi).next
  constructor
  · rintro ⟨i, hi, hE⟩
    obtain ⟨e, he, rfl⟩ := List.mem_map.mp ((hr i hi).mp hE)
    exact ⟨e, (Index.mem_bucket.mp he).1, rfl⟩
  · rintro ⟨e, he, rfl⟩
    exact ⟨ix.bucketOf e.key, ix.bucketOf_lt _, (hr _ (ix.bucketOf_lt _)).mpr
      (List.mem_map_of_mem (Index.mem_bucket.mpr ⟨he, rfl⟩))⟩

/-- The blocks of an entry are those of its owners. -/
theorem MapRep.block_key (hh : Heap B s a) (h : MapRep B s a ix) (he : e ∈ ix.entries) :
    (Owner.key e.blk).block s = some e.keyBlk := by
  have hO := (h.entry e he).keyBlk
  have hb := hO.bounds
  show linkOf (s.field (s.base 0 + e.blk) MapEntry.key) = _
  rw [hh.base_eq, (h.entry e he).key]
  exact linkOf_addrOf hO.lt (by omega)

theorem MapRep.block_table (h : MapRep B s a ix) : Owner.table.block s = some ix.tbl := by
  have hb := h.table.bounds
  show linkOf s.map.bulkList = _
  rw [h.bulkList]
  exact linkOf_addrOf h.table.lt (by omega)

theorem block_value (hh : Heap B s a) {w : TouchdbValType}
    (hv : s.field (B + e.blk) MapEntry.val = ⟨w, addrOf o⟩) (h0 : 0 < o) (hlt : o < 2 ^ 32) :
    (Owner.value e.blk).block s = some o := by
  show linkOf (s.field (s.base 0 + e.blk) valueField) = _
  rw [hh.base_eq, valueField_eq hv]
  exact linkOf_addrOf hlt h0

theorem MapRep.keyIs_iff (hh : Heap B s a) (h : MapRep B s a ix) (he : e ∈ ix.entries) :
    KeyIs s e.blk k ↔ e.key = k := by
  have hr := h.entry e he
  unfold KeyIs
  rw [hh.base_eq, hr.key, addrOf_offset hr.keyBlk.lt]
  constructor
  · intro hk
    exact holds_inj hr.holds hk
  · rintro rfl
    exact hr.holds

/-- The owners in an entry that lead to the blocks of its value. -/
def valOwners (E : ℕ) : Api → List Owner
  | .put => [.value E]
  | .putStr => [.value E, .chars E]

theorem ValHeld.blocks (hh : Heap B s a) {c : Api} (h : ValHeld B s a e c l) :
    (valOwners e.blk c).map (·.block s) = l.map some := by
  cases h with
  | @put V val own =>
    have hb := own.bounds
    simp only [valOwners, List.map_cons, List.map_nil]
    rw [block_value hh val (by omega) own.lt]
  | @putStr S D val str data chars =>
    have hb := str.bounds
    have hd := chars.bounds
    have hc : (Owner.chars e.blk).block s = some D := by
      show linkOf (s.field
        (s.base 0 + (s.field (s.base 0 + e.blk) valueField).offset.toNat) Str.data) = _
      rw [hh.base_eq, valueField_eq val, addrOf_offset str.lt, data]
      exact linkOf_addrOf chars.lt (by omega)
    simp only [valOwners, List.map_cons, List.map_nil]
    rw [block_value hh val (by omega) str.lt, hc]

/-- The owners that an index leads to. -/
def Index.owners (ix : Index) (api : CStr → Api) : List Owner :=
  .table :: (ix.entries.map (fun e => .entry e.blk) ++ ix.entries.map (fun e => .key e.blk)) ++
    ix.entries.flatMap fun e => valOwners e.blk (api e.key)

theorem mem_valOwners {c : Api} {w : Owner} :
    w ∈ valOwners E c ↔ w = .value E ∨ c = .putStr ∧ w = .chars E := by
  cases c <;> simp [valOwners]

theorem MapRep.reachable_iff (hh : Heap B s a) (h : MapRep B s a ix) {w : Owner} :
    Reachable s api w ↔ w ∈ ix.owners api := by
  unfold Index.owners
  simp only [List.mem_cons, List.mem_append, List.mem_map, List.mem_flatMap, mem_valOwners]
  cases w with
  | table => simp [Reachable]
  | entry E =>
    show InIndex s E ↔ _
    rw [h.inIndex_iff hh]
    simp
  | key E =>
    show InIndex s E ↔ _
    rw [h.inIndex_iff hh]
    simp
  | value E =>
    show InIndex s E ↔ _
    rw [h.inIndex_iff hh]
    simp [eq_comm]
  | chars E =>
    show InIndex s E ∧ (∃ k, api k = .putStr ∧ KeyIs s E k) ↔ _
    rw [h.inIndex_iff hh]
    simp only [reduceCtorEq, and_false, exists_false, or_false, false_or, Owner.chars.injEq]
    constructor
    · rintro ⟨⟨e, he, rfl⟩, k, hk, hkey⟩
      rw [h.keyIs_iff hh he] at hkey
      exact ⟨e, he, by rw [hkey]; exact hk, rfl⟩
    · rintro ⟨e, he, hc, rfl⟩
      exact ⟨⟨e, he, rfl⟩, e.key, hc, (h.keyIs_iff hh he).mpr rfl⟩

end

end TouchDb
