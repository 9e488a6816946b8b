import TouchDb.Store.Keyed
import TouchDb.Chain.Steps
import Mathlib.Data.List.Flatten

/-! The lists of a store: which chain the index has under each key, and what a stretch does to
chains and index together. -/
namespace TouchDb
open Prog Layout

/-- The lists of a store, by their keys. -/
abbrev KeyedChains := List (Σ _ : Text, ChainCells)

def KeyedChains.cells (ls : KeyedChains) : List ChainCells := ls.map Sigma.snd

/-- The index refers to the chains `ls` under their keys, and to no others; `val` is the value of an
entry. -/
structure Named (val : MapNode → TouchdbVal) (ix : Index) (ls : KeyedChains) : Prop where
  distinct : ls.NodupKeys
  entry : ∀ y ∈ ls, ∃ e, ix.find y.1.1 = some e ∧ val e = ⟨.chain, addrOf y.2.blk⟩
  listed : ∀ (k : CStr) (e : MapNode), ix.find k = some e → (val e).type = .chain → ∃ y ∈ ls, y.1.1 = k

section Names
variable {val val' : MapNode → TouchdbVal} {ix ix' : Index} {ls ls' : KeyedChains} {k : Text}
variable {n : MapNode} {x : ChainCells}

namespace Named

theorem perm (h : Named val ix ls) (hp : ls.Perm ls') : Named val ix ls' where
  distinct := (List.perm_nodupKeys hp).mp h.distinct
  entry y hy := h.entry y (hp.mem_iff.mpr hy)
  listed j e he ht := by
    obtain ⟨y, hy, hk⟩ := h.listed j e he ht
    exact ⟨y, hp.mem_iff.mp hy, hk⟩

theorem congr (h : Named val ix ls) (hval : ∀ e ∈ ix.entries, val' e = val e) : Named val' ix ls where
  distinct := h.distinct
  entry y hy := by
    obtain ⟨e, he, hv⟩ := h.entry y hy
    exact ⟨e, he, (hval e (Index.find_eq_some.mp he).1).trans hv⟩
  listed j e he ht := h.listed j e he (by rwa [← hval e (Index.find_eq_some.mp he).1])

/-- The chain at the front has other cells. -/
theorem cells (h : Named val ix (⟨k, x⟩ :: ls)) {y : ChainCells} (hy : y.blk = x.blk) :
    Named val ix (⟨k, y⟩ :: ls) where
  distinct := by
    have h1 := h.distinct
    rw [List.nodupKeys_cons] at h1 ⊢
    exact h1
  entry z hz := by
    rcases List.mem_cons.mp hz with rfl | hz
    · rw [hy]
      exact h.entry _ List.mem_cons_self
    · exact h.entry z (List.mem_cons_of_mem _ hz)
  listed j e he ht := by
    obtain ⟨z, hz, rfl⟩ := h.listed j e he ht
    rcases List.mem_cons.mp hz with rfl | hz
    · exact ⟨_, List.mem_cons_self, rfl⟩
    · exact ⟨z, List.mem_cons_of_mem _ hz, rfl⟩

/-- What is under a key where there is no list. -/
theorem type_ne (h : Named val ix ls) (hk : k ∉ ls.keys) {e : MapNode} (he : ix.find k.1 = some e) :
    (val e).type ≠ .chain := by
  intro ht
  obtain ⟨y, hy, hyk⟩ := h.listed k.1 e he ht
  exact hk (Subtype.ext hyk ▸ List.mem_keys_of_mem hy)

theorem mem_kerase (h : Named val ix ls) {y : Σ _ : Text, ChainCells} :
    y ∈ ls.kerase k ↔ y ∈ ls ∧ y.1 ≠ k := by
  constructor
  · intro hy
    have hsub : (ls.kerase k).Sublist ls := List.kerase_sublist k ls
    refine ⟨hsub.subset hy, fun hk => ?_⟩
    have h1 : y.1 ∈ (ls.kerase k).keys := List.mem_keys_of_mem hy
    rw [hk] at h1
    exact List.notMem_keys_kerase k h.distinct h1
  · rintro ⟨hy, hk⟩
    have h1 := (List.mem_dlookup_iff h.distinct).mpr hy
    exact List.of_mem_dlookup (by rwa [List.dlookup_kerase_ne hk])

/-- A put of a value that is no chain: the list under its key is gone. -/
theorem put (h : Named val ix ls) (hother : ∀ j ≠ k.1, ix'.find j = ix.find j)
    (hval : ∀ e ∈ ix.entries, e.key ≠ k.1 → val' e = val e) (hk : ix'.find k.1 = some n)
    (ht : (val' n).type ≠ .chain) : Named val' ix' (ls.kerase k) where
  distinct := h.distinct.kerase k
  entry y hy := by
    obtain ⟨hy, hne⟩ := h.mem_kerase.mp hy
    obtain ⟨e, he, hv⟩ := h.entry y hy
    have hne' : y.1.1 ≠ k.1 := fun hc => hne (Subtype.ext hc)
    obtain ⟨hm, hkey⟩ := Index.find_eq_some.mp he
    exact ⟨e, (hother _ hne').trans he, (hval e hm (hkey ▸ hne')).trans hv⟩
  listed j e he hc := by
    by_cases hj : j = k.1
    · subst hj
      obtain rfl : n = e := Option.some.inj (hk.symm.trans he)
      exact absurd hc ht
    · rw [hother j hj] at he
      obtain ⟨hm, hkey⟩ := Index.find_eq_some.mp he
      rw [hval e hm (hkey ▸ hj)] at hc
      obtain ⟨y, hy, rfl⟩ := h.listed j e he hc
      exact ⟨y, h.mem_kerase.mpr ⟨hy, fun h0 => hj (congrArg Subtype.val h0)⟩, rfl⟩

/-- A put of a chain, where there is no list. -/
theorem putChain (h : Named val ix ls) (hother : ∀ j ≠ k.1, ix'.find j = ix.find j)
    (hval : ∀ e ∈ ix.entries, e.key ≠ k.1 → val' e = val e) (hk : ix'.find k.1 = some n)
    (hn : val' n = ⟨.chain, addrOf x.blk⟩) (hno : k ∉ ls.keys) : Named val' ix' (⟨k, x⟩ :: ls) where
  distinct := List.nodupKeys_cons.mpr ⟨hno, h.distinct⟩
  entry y hy := by
    rcases List.mem_cons.mp hy with rfl | hy
    · exact ⟨n, hk, hn⟩
    · obtain ⟨e, he, hv⟩ := h.entry y hy
      have hne : y.1.1 ≠ k.1 := fun hc => hno (Subtype.ext hc ▸ List.mem_keys_of_mem hy)
      obtain ⟨hm, hkey⟩ := Index.find_eq_some.mp he
      exact ⟨e, (hother _ hne).trans he, (hval e hm (hkey ▸ hne)).trans hv⟩
  listed j e he hc := by
    by_cases hj : j = k.1
    · exact ⟨_, List.mem_cons_self, hj.symm⟩
    · rw [hother j hj] at he
      obtain ⟨hm, hkey⟩ := Index.find_eq_some.mp he
      rw [hval e hm (hkey ▸ hj)] at hc
      obtain ⟨y, hy, rfl⟩ := h.listed j e he hc
      exact ⟨y, List.mem_cons_of_mem _ hy, rfl⟩

end Named

/-- The index has, under the keys of `at'`, the strings at these places. -/
def Texts (val : MapNode → TouchdbVal) (ix : Index) (ss : List StrCell) (at' : Text → Option ℕ) : Prop :=
  ∀ k, ∀ i ∈ at' k, ∃ e z, ix.find k.1 = some e ∧ ss[i]? = some z ∧ val e = ⟨.str, addrOf z.blk⟩

namespace Texts
variable {ss ss' : List StrCell} {at' : Text → Option ℕ} {i : ℕ} {z : StrCell}

theorem congr (h : Texts val ix ss at') (hval : ∀ e ∈ ix.entries, val' e = val e) (hs : Grown ss ss') :
    Texts val' ix ss' at' := by
  intro k i hi
  obtain ⟨e, z, he, hz, hv⟩ := h k i hi
  obtain ⟨z', hz', hb⟩ := hs i z hz
  exact ⟨e, z', he, hz', by rw [hval e (Index.find_eq_some.mp he).1, hv, hb]⟩

/-- A put under a key: what is under the others. -/
theorem put (h : Texts val ix ss at') (hother : ∀ j ≠ k.1, ix'.find j = ix.find j)
    (hval : ∀ e ∈ ix.entries, e.key ≠ k.1 → val' e = val e) (hs : Grown ss ss') :
    Texts val' ix' ss' (Function.update at' k none) := by
  intro j i hi
  by_cases hj : j = k
  · rw [hj, Function.update_self] at hi
    cases hi
  · rw [Function.update_of_ne hj] at hi
    obtain ⟨e, z, he, hz, hv⟩ := h j i hi
    obtain ⟨z', hz', hb⟩ := hs i z hz
    have hne : j.1 ≠ k.1 := fun hc => hj (Subtype.ext hc)
    obtain ⟨hm, hkey⟩ := Index.find_eq_some.mp he
    exact ⟨e, z', (hother _ hne).trans he, hz', by rw [hval e hm (hkey ▸ hne), hv, hb]⟩

theorem forget (h : Texts val ix ss at') (k : Text) : Texts val ix ss (Function.update at' k none) :=
  h.put (fun _ _ => rfl) (fun _ _ _ => rfl) (.refl ss)

/-- A put of a string. -/
theorem putStr (h : Texts val ix ss (Function.update at' k none)) (hk : ix.find k.1 = some n)
    (hz : ss[i]? = some z) (hn : val n = ⟨.str, addrOf z.blk⟩) :
    Texts val ix ss (Function.update at' k (some i)) := by
  intro j l hl
  by_cases hj : j = k
  · subst hj
    rw [Function.update_self] at hl
    obtain rfl := Option.some.inj hl
    exact ⟨n, z, hk, hz, hn⟩
  · rw [Function.update_of_ne hj] at hl
    exact h j l (by rwa [Function.update_of_ne hj])

end Texts

end Names

section Strings
variable {B : ℕ} {s t : Touchdb} {a a' : PoolAlloc} {T : List ℕ} {z : StrCell} {ss : List StrCell}
variable {ts : List (Option Text)} {i : ℕ} {v : Text} {o : Option Text}

/-- The string is in use and reads `o`; or it is not in use any more. -/
structure StrCell.Says (B : ℕ) (s : Touchdb) (a : PoolAlloc) (z : StrCell) (o : Option Text) : Prop where
  live : z.live = o.isSome
  rep : ∀ v ∈ o, StrRep B s a z.blk z.chars v.1
  len : ∀ v ∈ o, s.field (B + z.blk) Str.len = UInt32.ofNat (v.1.strlen + 1)

/-- What the strings say. -/
abbrev Say (B : ℕ) (s : Touchdb) (a : PoolAlloc) : List StrCell → List (Option Text) → Prop :=
  List.Forall₂ (StrCell.Says B s a)

theorem StrCell.Says.frame (h : z.Says B s a o) (hF : Frame B s a t a' T) (hT : ∀ o ∈ z.blocks, o ∉ T) :
    z.Says B t a' o := by
  cases o with
  | none => exact ⟨h.live, by simp, by simp⟩
  | some v =>
    have hv := h.rep v rfl
    have hb : z.blocks = [z.blk, z.chars] := if_pos h.live
    rw [hb] at hT
    have hS := hT z.blk (by simp)
    refine ⟨h.live, fun w hw => ?_, fun w hw => ?_⟩
    · exact (h.rep w hw).frame hF hS (hT z.chars (by simp))
    · rw [hF.field hS hv.str (by decide)]
      exact h.len w hw

namespace Say

theorem frame (h : Say B s a ss ts) (hF : Frame B s a t a' T)
    (hT : ∀ o ∈ ss.flatMap StrCell.blocks, o ∉ T) : Say B t a' ss ts := by
  induction h with
  | nil => exact .nil
  | cons hz _ ih =>
    simp only [List.flatMap_cons, List.mem_append] at hT
    exact .cons (hz.frame hF fun o ho => hT o (.inl ho)) (ih fun o ho => hT o (.inr ho))

theorem append (h : Say B s a ss ts) (hz : z.Says B s a o) : Say B s a (ss ++ [z]) (ts ++ [o]) :=
  List.rel_append h (.cons hz .nil)

/-- The string at a place. -/
theorem at_place (h : Say B s a ss ts) (hz : ss[i]? = some z) : ∃ o, ts[i]? = some o ∧ z.Says B s a o := by
  induction h generalizing i with
  | nil => simp at hz
  | cons hw _ ih =>
    cases i with
    | zero =>
      obtain rfl := Option.some.inj hz
      exact ⟨_, rfl, hw⟩
    | succ i => exact ih hz

/-- The string at a place is released. -/
theorem release (h : Say B s a ss ts) (hi : ss[i]? = some z) :
    Say B s a (ss.set i { z with live := false }) (ts.set i none) := by
  induction h generalizing i with
  | nil => simp at hi
  | cons hw hrest ih =>
    cases i with
    | zero => exact .cons ⟨rfl, by simp, by simp⟩ hrest
    | succ i => exact .cons hw (ih hi)

end Say

end Strings

section Family
variable {L : Prop} {B : ℕ} {s t u : Touchdb} {a a' a₁ : PoolAlloc} {T : List ℕ} {ix ix' : Index}
variable {cs cs' : List ChainCells} {vs : List ValCell} {ss : List StrCell}

theorem familyBlocks_sublist (hc : cs'.Sublist cs) :
    (familyBlocks cs' vs ss).Sublist (familyBlocks cs vs ss) :=
  ((hc.flatMap _).append (.refl _)).append (.refl _)

/-- Some of the chains are left. -/
theorem FamilyRep.sublist (h : FamilyRep L B s a cs vs ss) (hc : cs'.Sublist cs) :
    FamilyRep L B s a cs' vs ss where
  heap := h.heap
  chains x hx := h.chains x (hc.subset hx)
  vals := h.vals
  strs := h.strs
  apart := h.apart.sublist (familyBlocks_sublist hc)

/-- A stretch that touches a family leaves an index with other blocks alone. -/
theorem FamilyRep.index_frame (h : FamilyRep L B s a cs vs ss) (hm : MapRep B s a ix)
    (hap : ∀ o ∈ ix.blocks, o ∉ familyBlocks cs vs ss) (hF : Frame B s a t a' T)
    (hT : ∀ o ∈ T, Mine a (familyBlocks cs vs ss) o) :
    MapRep B t a' ix ∧ ∀ e ∈ ix.entries,
      t.field (B + e.blk) MapEntry.val = s.field (B + e.blk) MapEntry.val := by
  have hTb : ∀ o ∈ ix.blocks, o ∉ T := by
    intro o ho hc
    rcases hT o hc with hf | ⟨-, hn⟩
    · exact hap o ho hf
    · exact (hm.owns ho).ne_none hn
  refine ⟨hm.frame hF hTb fun hc => ?_, fun e he => hF.val (hm.entry e he).blk (hTb _ (Index.blk_mem he))⟩
  rcases hT _ hc with hf | ⟨hn, -⟩
  · have hb := (h.owns hf).bounds
    simp only [mapRecord] at hb
    omega
  · exact hn rfl

/-- The index and the lists, with the values and the strings of a client. -/
structure KeyedRep (B : ℕ) (s : Touchdb) (a : PoolAlloc) (ix : Index) (ls : KeyedChains)
    (vs : List ValCell) (ss : List StrCell) : Prop where
  family : FamilyRep False B s a ls.cells vs ss
  index : MapRep B s a ix
  apart : ∀ o ∈ ix.blocks, o ∉ familyBlocks ls.cells vs ss
  named : Named (fun e => s.field (B + e.blk) MapEntry.val) ix ls

namespace KeyedRep
variable {ls ls' : KeyedChains} {vs' : List ValCell} {ss' : List StrCell} {k : Text} {e : MapNode}
  {x : ChainCells}

theorem perm (h : KeyedRep B s a ix ls vs ss) (hp : ls.Perm ls') : KeyedRep B s a ix ls' vs ss where
  family := h.family.perm (hp.map _) (.refl _)
  index := h.index
  apart o ho hc := h.apart o ho
    ((familyBlocks_perm (hp.map Sigma.snd) (.refl vs)).mem_iff.mpr hc)
  named := h.named.perm hp

/-- A list is taken to the front. -/
theorem front (h : KeyedRep B s a ix ls vs ss) (hx : x ∈ ls.dlookup k) :
    ∃ ls', ls.Perm (⟨k, x⟩ :: ls') ∧ KeyedRep B s a ix (⟨k, x⟩ :: ls') vs ss := by
  obtain ⟨i, hi, hix⟩ := List.getElem_of_mem (List.of_mem_dlookup hx)
  have hp := (List.getElem_cons_eraseIdx_perm hi).symm
  rw [hix] at hp
  exact ⟨_, hp, h.perm hp⟩

/-- A stretch that changes the family, and leaves the index alone. -/
theorem step (h : KeyedRep B s a ix ls vs ss) (hF : Frame B s a t a' T)
    (hT : ∀ o ∈ T, Mine a (familyBlocks ls.cells vs ss) o)
    (hf : FamilyRep False B t a' ls'.cells vs' ss')
    (hnew : ∀ o ∈ familyBlocks ls'.cells vs' ss', o ∈ familyBlocks ls.cells vs ss ∨ ¬ Used a o)
    (hnames : ∀ val, Named val ix ls → Named val ix ls') : KeyedRep B t a' ix ls' vs' ss' := by
  obtain ⟨hm, hval⟩ := h.family.index_frame h.index h.apart hF hT
  refine ⟨hf, hm, fun o ho hc => ?_, hnames _ (h.named.congr hval)⟩
  rcases hnew o hc with hc | hc
  · exact h.apart o ho hc
  · exact hc (h.index.owns ho).used

/-- What the store has under a key: a list, or none. The bucket must not be empty. -/
theorem wp_getChain {G : Guard Stop Event} {Q : ℕ → Touchdb → Prop} (h : KeyedRep B s a ix ls vs ss)
    (hG : Reads G) (hne : ix.bucket (ix.bucketOf k.1) ≠ [])
    (hsome : ∀ x ∈ ls.dlookup k, Q (B + x.blk) s) (hnone : k ∉ ls.keys → Q NULL s) :
    wp G (getChain k.1) Q s := by
  have hh := h.family.heap
  have hB := hh.base_pos'
  unfold getChain
  rcases hfind : ix.find k.1 with _ | e
  · refine wp_bind (wp_touchdbMapGet2_absent hh h.index hG hne hfind ?_)
    rw [if_neg (by simp)]
    refine wp_pure (hnone fun hk => ?_)
    obtain ⟨x, hx⟩ := List.exists_of_mem_keys hk
    obtain ⟨e, he, -⟩ := h.named.entry _ hx
    rw [hfind] at he
    cases he
  · have hrep := h.index.entry e (Index.find_eq_some.mp hfind).1
    refine wp_bind (wp_touchdbMapGet2_found hh h.index hG hfind ?_)
    rw [if_pos (by simp only [NULL]; omega)]
    refine wp_bind (wp_load_shift (by omega) (wp_loadCell hh hrep.blk (by decide) ?_))
    rw [(val_parts rfl).1]
    by_cases hk : k ∈ ls.keys
    · obtain ⟨x, hx⟩ := List.exists_of_mem_keys hk
      obtain ⟨d, hd, hv⟩ := h.named.entry _ hx
      obtain rfl : e = d := Option.some.inj (hfind.symm.trans hd)
      have hxO := (h.family.chains x (List.mem_map_of_mem hx)).chain.chain
      rw [if_pos (congrArg TouchdbVal.type hv)]
      refine wp_bind (wp_load_shift (by omega) (wp_loadCell hh hrep.blk (by decide) ?_))
      rw [(val_parts hv).2]
      refine wp_bind (wp_ptrOfOwned hh hG hxO ?_)
      rw [if_pos (hxO.ptr_ne B)]
      exact wp_pure (hsome x ((List.mem_dlookup_iff h.named.distinct).mpr hx))
    · rw [if_neg (h.named.type_ne hk hfind)]
      exact wp_pure (hnone hk)

end KeyedRep

/-- A value is put under the key `k`, in the entry `n`. None of the blocks `l` is touched. -/
structure KeyPut (B : ℕ) (s : Touchdb) (a : PoolAlloc) (ix : Index) (l : List ℕ) (k : Text) (n : MapNode)
    (u : Touchdb) (a' : PoolAlloc) (ix' : Index) : Prop where
  heap : Heap B u a'
  frame : ∃ T, Frame B s a u a' T ∧ ∀ o ∈ l, o ∉ T
  rep : MapRep B u a' ix'
  bits : ix'.bits = ix.bits
  blocks : ∀ o ∈ ix'.blocks, o ∈ ix.blocks ∨ ¬ Used a o
  other : ∀ j ≠ k.1, ix'.find j = ix.find j
  vals : ∀ e ∈ ix.entries, e.key ≠ k.1 →
    u.field (B + e.blk) MapEntry.val = s.field (B + e.blk) MapEntry.val
  find : ix'.find k.1 = some n
  keys : ∀ c, c ∈ ix'.entries.map MapNode.key ↔ c ∈ ix.entries.map MapNode.key ∨ c = k.1

namespace KeyPut
variable {ls : KeyedChains} {k : Text} {n e : MapNode} {l : List ℕ} {E K : ℕ} {w : TouchdbVal}

theorem of_inserted (hi : Inserted B s a ix k.1 E K u a' ix') (hl : ∀ o ∈ l, Owns a o 0)
    (hap : ∀ o ∈ l, o ∉ ix.blocks) : KeyPut B s a ix l k ⟨E, k.1, K⟩ u a' ix' where
  heap := hi.heap
  frame := ⟨_, hi.frame, fun o ho => (hl o ho).notMem_linked (hap o ho)⟩
  rep := hi.rep
  bits := hi.bits
  blocks o ho := by
    by_cases hE : o = E
    · exact .inr (hE ▸ fun hu => hu hi.blk_fresh)
    by_cases hK : o = K
    · exact .inr (hK ▸ fun hu => hu hi.keyBlk_fresh)
    by_contra hn
    exact hi.notMem_blocks (fun hm => hn (.inl hm)) hE hK ho
  other j hj := Index.find_append hi.entries j hj
  vals d hd _ := hi.vals d hd
  find := Index.find_append_self hi.entries
  keys c := by
    rw [hi.entries, List.map_append, List.mem_append]
    simp

theorem of_overwritten (hk : ix.find k.1 = some e) (hm : MapRep B s a ix)
    (ho : Overwritten B s a ix e.blk w [] u a') (hap : ∀ o ∈ l, o ∉ ix.blocks) :
    KeyPut B s a ix l k e u a' ix where
  heap := ho.heap
  frame := ⟨_, ho.frame, fun o hl hc => by
    obtain rfl := List.mem_singleton.mp hc
    exact hap _ hl (Index.blk_mem (Index.find_eq_some.mp hk).1)⟩
  rep := ho.rep
  bits := rfl
  blocks _ ho := .inl ho
  other _ _ := rfl
  vals d hd hdk := by
    obtain ⟨he, hek⟩ := Index.find_eq_some.mp hk
    refine ho.frame.val (hm.entry d hd).blk fun hc => ?_
    have hblk : d.blk = e.blk := List.mem_singleton.mp hc
    exact hdk (hek ▸ congrArg MapNode.key (List.inj_on_of_nodup_map ix.blks_nodup hd he hblk))
  find := hk
  keys c := by
    obtain ⟨he, hek⟩ := Index.find_eq_some.mp hk
    constructor
    · exact .inl
    · rintro (hc | rfl)
      · exact hc
      · exact hek ▸ List.mem_map_of_mem he

/-- The value is no chain: the list under the key, if any, is left behind. -/
theorem rep_erase (hp : KeyPut B s a ix (familyBlocks ls.cells vs ss) k n u a' ix')
    (h : KeyedRep B s a ix ls vs ss) (ht : (u.field (B + n.blk) MapEntry.val).type ≠ .chain) :
    KeyedRep B u a' ix' (ls.kerase k) vs ss := by
  have hsub : (KeyedChains.cells (ls.kerase k)).Sublist ls.cells := (List.kerase_sublist k ls).map _
  obtain ⟨T, hF, hT⟩ := hp.frame
  refine ⟨(h.family.frame hp.heap hF hT).sublist hsub, hp.rep, fun o ho hc => ?_,
    h.named.put hp.other hp.vals hp.find ht⟩
  have hc' : o ∈ familyBlocks ls.cells vs ss := (familyBlocks_sublist hsub).subset hc
  rcases hp.blocks o ho with ho | ho
  · exact h.apart o ho hc'
  · exact h.family.fresh ho hc'

theorem say {ts : List (Option Text)} (hp : KeyPut B s a ix (familyBlocks ls.cells vs ss) k n u a' ix')
    (h : Say B s a ss ts) : Say B u a' ss ts := by
  obtain ⟨T, hF, hT⟩ := hp.frame
  exact h.frame hF fun o ho => hT o (mem_familyBlocks.mpr (.inr (.inr (List.mem_flatMap.mp ho))))

end KeyPut

/-- A string that is not the client's joins the others. -/
theorem FamilyRep.addStrCell {L : Prop} {z : StrCell} (h : FamilyRep L B s a cs vs ss)
    (hz : ∀ o ∈ z.blocks, o ∉ familyBlocks cs vs ss) (hr : z.Rep B s a) (hn : z.blocks.Nodup) :
    FamilyRep L B s a cs vs (ss ++ [z]) := by
  have hs : Grown ss (ss ++ [z]) := fun i y hy =>
    ⟨y, by rw [List.getElem?_append_left (List.getElem?_eq_some_iff.mp hy).1, hy], rfl⟩
  refine ⟨h.heap, fun x hx => ?_, fun v hv => ?_, fun y hy => ?_, ?_⟩
  · exact (h.chains x hx).frame (.refl B s a []) (by simp) hs
  · exact (h.vals v hv).frame (.refl B s a []) (by simp) hs
  · rcases List.mem_append.mp hy with hy | hy
    · exact h.strs y hy
    · obtain rfl := List.mem_singleton.mp hy
      exact hr
  · refine nodup_of_count h.apart hn hz fun o => ?_
    simp only [familyBlocks, List.flatMap_append, List.flatMap_cons, List.flatMap_nil, List.count_append,
      List.count_nil]
    omega

end Family

end TouchDb
