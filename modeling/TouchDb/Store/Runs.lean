import TouchDb.Store.PutStr
import TouchDb.Map.Lookup
import TouchDb.Heap.Allocated
import Mathlib.Algebra.Order.BigOperators.Group.List

/-! Runs of puts on a new store: the index invariant holds in every state they reach. -/
namespace TouchDb
open Prog Layout

theorem PlainVal.inPool (w : PlainVal) : InPool w.val.value := ⟨w.offset, w.pos, w.le, rfl⟩

/-- The operations that store a value under a key: `touchdb_map_put`, and `touchdb_map_put2`
of a string or of another value. -/
inductive MapOp where
  | put (k v : Text)
  | putStr (k v : Text)
  | putVal (k : Text) (w : PlainVal)

namespace MapOp

def key : MapOp → CStr
  | put k _ => k.1
  | putStr k _ => k.1
  | putVal k _ => k.1

def run : MapOp → M Unit
  | put k v => do
    let _ ← touchdbPut k.1 v.1
  | putStr k v => do
    let _ ← touchdbPutStr k.1 v.1
  | putVal k w => TouchDb.putVal k.1 w.val

/-- The sizes that the operation asks for, where its key is new. -/
def sizes : MapOp → List ℕ
  | put k v => [mapEntrySize, k.1.strlen + 1, v.1.strlen + 1]
  | putStr k v => [sizeofVal, sizeofStr, v.1.strlen + 1, mapEntrySize, k.1.strlen + 1]
  | putVal k _ => [sizeofVal, mapEntrySize, k.1.strlen + 1]

def step (op : MapOp) (s : Touchdb) : Except Stop Touchdb := op.run.next s

/-- The entry at `E` holds what the operation stores; `bs` are the blocks of its string. -/
def Placed (B : ℕ) (s : Touchdb) (a : PoolAlloc) (E : ℕ) (bs : List ℕ) : MapOp → Prop
  | put _ v => ∃ V, bs = [V] ∧ s.field (B + E) MapEntry.val = ⟨.str, addrOf V⟩ ∧
      Owns a V (v.1.strlen + 1) ∧ s.holds (B + V) v.1
  | putStr _ v => ∃ S D, bs = [S, D] ∧ s.field (B + E) MapEntry.val = ⟨.str, addrOf S⟩ ∧
      StrRep B s a S D v.1
  | putVal _ w => bs = [] ∧ s.field (B + E) MapEntry.val = w.val

end MapOp

/-- The state after the operations, from the state that `start` leaves. -/
def runFrom (start : M Unit) (s₀ : Touchdb) (ops : List MapOp) : Except Stop Touchdb := do
  let s ← start.next s₀
  Run.exec MapOp.step ops s

/-- A run on a new store. -/
def runNew (f : NewFiles) (ops : List MapOp) : Except Stop Touchdb :=
  runFrom (touchdbNew f.ptr) f.db ops

section Step
variable {B : ℕ} {s t u : Touchdb} {a a' a₁ : PoolAlloc} {ix ix' : Index} {e : MapNode}
variable {G : Guard Stop Event}

theorem ValLets.of_all (hG : ∀ e, G.emits e) {blk : ℕ} : ValLets G B s a blk :=
  ⟨fun e _ _ => hG e, fun _ _ _ => hG _⟩

/-- Fewer requests than the pool has room for. -/
theorem Serves.of_sublist {ns ms : List ℕ} (h : G.stops .noBlock ∨
    a.cur + roomFor ms ≤ touchdbDefaultPoolSize) (hs : ns.Sublist ms) : Serves G a ns := by
  rcases h with h | h
  · exact .of_stops h a ns
  · have hle : roomFor ns ≤ roomFor ms := (hs.map _).sum_le_sum fun _ _ => Nat.zero_le _
    exact .of_room (by omega)

/-- Every put inserts an entry or overwrites the value of one. -/
theorem MapOp.wp_run {op : MapOp} {R : Touchdb → Prop} (h : Heap B s a) (hm : MapRep B s a ix)
    (hG : ∀ e, G.emits e)
    (hr : G.stops .noBlock ∨ a.cur + roomFor op.sizes ≤ touchdbDefaultPoolSize)
    (hins : ix.find op.key = none → ∀ E K u a' ix' bs, Inserted B s a ix op.key E K u a' ix' →
      op.Placed B u a' E bs → (∀ o ∈ bs, o ∉ ix'.blocks ∧ a.payload o = none) →
      a'.cur ≤ a.cur + roomFor op.sizes → R u)
    (hover : ∀ e w u a', ix.find op.key = some e → Overwritten B s a ix e.blk w [] u a' →
      a'.cur ≤ a.cur + roomFor op.sizes → R u) :
    wp G op.run (fun _ => R) s := by
  have hread : Reads G := fun _ _ _ => hG _
  have hroom (n : ℕ) (ns : List ℕ) : roomFor (n :: ns) = n + 24 + roomFor ns := rfl
  rcases hfind : ix.find op.key with _ | e
  · cases op with
    | put k v =>
      refine wp_bind (wp_touchdbMapPut_insert h hm (.of_all hG) (.of_sublist hr (.refl _)) k.2 v.2
        hfind fun E K V a₁ a₂ a' u ix' hE hK hV hi hval hh => wp_pure (hins hfind E K u a' ix' [V] hi
          ⟨V, rfl, hval, hV.owns (by omega), hh⟩ ?_ ?_))
      · rw [List.forall_mem_singleton]
        exact ⟨hi.value_notMem hm hE hK hV, hE.fresh_of (hK.fresh_of hV.fresh)⟩
      · have h1 := hE.cur_le
        have h2 := hK.cur_le
        have h3 := hV.cur_le
        simp only [MapOp.sizes, hroom]
        omega
    | putStr k v =>
      refine wp_bind (wp_touchdbPutStr_created h hm (.of_all hG) (.of_sublist hr (.refl _)) k.2 v.2
        hfind fun E K S D u a' ix' hi hval hrep hS hD hc hnew _ _ => wp_pure
          (hins hfind E K u a' ix' [S, D] hi ⟨S, D, rfl, hval, hrep⟩ (fun o ho => ⟨?_, ?_⟩) hc))
      · rcases List.mem_pair.mp ho with rfl | rfl
        · exact hS
        · exact hD
      · exact not_not.mp (hnew.2 o (List.mem_cons_of_mem _ (List.mem_cons_of_mem _ ho)))
    | putVal k w =>
      exact wp_putVal_insert h hm (.of_all hG) (.of_sublist hr (.refl _)) k.2 w.inPool hfind
        fun E K u a' ix' hi hval hc => hins hfind E K u a' ix' [] hi ⟨rfl, hval⟩ (by simp) hc
  · have he := (Index.find_eq_some.mp hfind).1
    cases op with
    | put k v =>
      have hle : v.1.strlen + 1 + 24 ≤ roomFor (MapOp.put k v).sizes := by
        simp only [MapOp.sizes, hroom]
        omega
      have hr' : Serves G a [v.1.strlen + 1] := .of_sublist hr (by simp [MapOp.sizes])
      refine wp_bind (wp_touchdbMapPut_found h hm hread hfind ?_)
      by_cases ht : (s.field (B + e.blk) MapEntry.val).type = .str
      · refine wp_mapPutOverwrite_str h hm he (.of_all hG) hr' v.2 ht
          fun V a₁ a' u hV hF ho _ => wp_pure (hover e _ u a' hfind ho ?_)
        have h1 := hV.cur_le
        rw [hF.cur_eq]
        omega
      · refine wp_mapPutOverwrite_other h hm he (.of_all hG) hr' v.2 ht
          fun V a' u hV ho _ => wp_pure (hover e _ u a' hfind ho ?_)
        have h1 := hV.cur_le
        omega
    | putStr k v =>
      have hs : [sizeofVal, sizeofStr, v.1.strlen + 1].Sublist (MapOp.putStr k v).sizes :=
        (List.sublist_append_left _ [mapEntrySize, k.1.strlen + 1])
      refine wp_bind (wp_touchdbPutStr_overwrite h hm (.of_all hG) (.of_sublist hr hs) v.2 hfind
        fun S u a' ho _ _ _ hc => wp_pure (hover e _ u a' hfind ho ?_))
      simp only [MapOp.sizes, hroom] at hc ⊢
      omega
    | putVal k w =>
      refine wp_putVal_overwrite h hm (.of_all hG) (.of_sublist hr (by simp [MapOp.sizes]))
        w.inPool w.type_ne hfind fun u a' ho hc => hover e _ u a' hfind ho ?_
      simp only [MapOp.sizes, hroom] at hc ⊢
      omega

end Step

/-- The space that the blocks of a run take at most. -/
def opsRoom (ops : List MapOp) : ℕ := (ops.map fun op => roomFor op.sizes).sum

/-- The store holds an index of the keys put so far; `c` is what was used before. -/
structure StoreInv (B c : ℕ) (ops : List MapOp) (s : Touchdb) (a : PoolAlloc) (ix : Index) :
    Prop where
  heap : Heap B s a
  rep : MapRep B s a ix
  keys : ∀ k, k ∈ ix.entries.map MapNode.key ↔ ∃ op ∈ ops, op.key = k
  cur : a.cur ≤ c + opsRoom ops

section Runs
variable {B c : ℕ} {s : Touchdb} {a : PoolAlloc} {ix : Index} {pre ops : List MapOp} {op : MapOp}
variable {A : Stop → Prop}

theorem opsRoom_append (xs ys : List MapOp) : opsRoom (xs ++ ys) = opsRoom xs + opsRoom ys := by
  simp [opsRoom]

theorem StoreInv.step (h : StoreInv B c pre s a ix)
    (hA : A .noBlock ∨ c + opsRoom (pre ++ [op]) ≤ touchdbDefaultPoolSize) :
    Run.Post A (op.step s) fun t => ∃ a ix, StoreInv B c (pre ++ [op]) t a ix := by
  have hone : opsRoom [op] = roomFor op.sizes := by simp [opsRoom]
  have hcur := h.cur
  rw [opsRoom_append, hone] at hA
  refine .of_wp (P := fun _ t => ∃ a ix, StoreInv B c (pre ++ [op]) t a ix)
    (G := ⟨A, fun _ => True⟩) (MapOp.wp_run h.heap h.rep (fun _ => trivial) ?_
    (fun _ E K u a' ix' _ hi _ _ hc => ?_) fun e w u a' hf ho hc => ?_) (fun _ h => h) fun _ t ht => ht
  · exact hA.imp id fun hle => by omega
  · refine ⟨a', ix', hi.heap, hi.rep, fun k => ?_, by rw [opsRoom_append, hone]; omega⟩
    rw [hi.entries, List.map_append, List.mem_append, h.keys k]
    simp only [List.map_cons, List.map_nil, List.mem_singleton, List.mem_append]
    constructor
    · rintro (⟨o, ho, rfl⟩ | rfl)
      · exact ⟨o, .inl ho, rfl⟩
      · exact ⟨op, .inr rfl, rfl⟩
    · rintro ⟨o, ho | rfl, rfl⟩
      · exact .inl ⟨o, ho, rfl⟩
      · exact .inr rfl
  · refine ⟨a', ix, ho.heap, ho.rep, fun k => ?_, by rw [opsRoom_append, hone]; omega⟩
    obtain ⟨he, hek⟩ := Index.find_eq_some.mp hf
    rw [h.keys k]
    simp only [List.mem_append, List.mem_singleton]
    constructor
    · rintro ⟨o, ho, rfl⟩
      exact ⟨o, .inl ho, rfl⟩
    · rintro ⟨o, ho | rfl, rfl⟩
      · exact ⟨o, ho, rfl⟩
      · exact (h.keys _).mp (hek ▸ List.mem_map_of_mem he)

/-- Puts after `pre` keep the invariant; a run that has room for its blocks does not stop. -/
theorem StoreInv.run (h : StoreInv B c pre s a ix)
    (hA : A .noBlock ∨ c + opsRoom (pre ++ ops) ≤ touchdbDefaultPoolSize) :
    Run.Post A (Run.exec MapOp.step ops s) fun t => ∃ a ix, StoreInv B c (pre ++ ops) t a ix := by
  induction ops generalizing pre s a ix with
  | nil => exact ⟨a, ix, by simpa using h⟩
  | cons op ops ih =>
    have hsplit : pre ++ op :: ops = (pre ++ [op]) ++ ops := by simp
    rw [hsplit] at hA ⊢
    have h1 : Run.Post A (op.step s) fun t => ∃ a ix, StoreInv B c (pre ++ [op]) t a ix :=
      h.step (hA.imp id fun hle => by
        rw [opsRoom_append] at hle
        omega)
    simp only [Run.exec]
    rcases hs : op.step s with e | t
    · rwa [hs] at h1
    · rw [hs] at h1
      obtain ⟨a', ix', ht⟩ := h1
      exact ih ht hA

theorem runFrom_inv {start : M Unit} {s₀ : Touchdb}
    (hA : A .noBlock ∨ c + opsRoom ops ≤ touchdbDefaultPoolSize)
    (h : Run.Post A (start.next s₀) fun t => ∃ a ix, StoreInv B c [] t a ix) :
    Run.Post A (runFrom start s₀ ops) fun s => ∃ a ix, StoreInv B c ops s a ix := by
  unfold runFrom
  rcases hs : start.next s₀ with e | s
  · rwa [hs] at h
  · rw [hs] at h
    obtain ⟨a, ix, h⟩ := h
    exact h.run hA

/-- What a new store has used: the table of its index. -/
def newRoom : ℕ := 1 + roomFor [2 ^ 10 * sizeofMapBulk]

theorem touchdbNew_inv (f : NewFiles)
    (hA : A .noBlock ∨ newRoom ≤ touchdbDefaultPoolSize) :
    Run.Post A ((touchdbNew f.ptr).next f.db) fun t => ∃ a ix, StoreInv f.ptr newRoom [] t a ix := by
  refine .of_wp (G := ⟨A, fun _ => True⟩) (P := fun _ t => ∃ a ix, StoreInv f.ptr newRoom [] t a ix)
    (wp_touchdbNew (fun _ => trivial) ?_ fun tbl a u htbl hu hm => ?_) (fun _ h => h) fun _ _ h => h
  · exact .of_sublist (hA.imp id fun h => h) (.refl _)
  · exact ⟨a, _, hu, hm, by simp [Index.empty], htbl.cur_le⟩

/-- A run on a new store keeps the index invariant, and stops only for want of a block. -/
theorem runNew_inv (f : NewFiles) (ops : List MapOp) :
    Run.Post (fun e => e = .noBlock) (runNew f ops) fun s =>
      ∃ a ix, StoreInv f.ptr newRoom ops s a ix :=
  runFrom_inv (.inl rfl) (touchdbNew_inv f (.inl rfl))

/-- A run whose blocks fit into the first pool ends. -/
theorem runNew_ends (f : NewFiles) (ops : List MapOp)
    (h : newRoom + opsRoom ops ≤ touchdbDefaultPoolSize) :
    ∃ s, runNew f ops = .ok s ∧ ∃ a ix, StoreInv f.ptr newRoom ops s a ix := by
  have hp := runFrom_inv (A := fun _ => False) (.inr h)
    (touchdbNew_inv f (.inr (Nat.le_trans (Nat.le_add_right _ _) h)))
  change Run.Post _ (runNew f ops) _ at hp
  rcases hr : runNew f ops with e | s
  · rw [hr] at hp
    exact hp.elim
  · exact ⟨s, rfl, hp.ok hr⟩

end Runs

end TouchDb
