import TouchDb.Chain.Client

/-! A family of chains, with the values and the strings that a client has built. Every block
belongs to one chain, to one value or to one string that is in use. -/
namespace TouchDb
open Prog Layout

/-- A node, with the kind of its value. -/
structure Cell where
  node : ListNode
  kind : ValKind

/-- A string: its struct, its characters, and whether they are in use. -/
structure StrCell where
  blk : ℕ
  chars : ℕ
  live : Bool

def StrCell.blocks (z : StrCell) : List ℕ := if z.live then [z.blk, z.chars] else []

def StrCell.Rep (B : ℕ) (s : Touchdb) (a : PoolAlloc) (z : StrCell) : Prop :=
  z.live → ∃ v, StrRep B s a z.blk z.chars v

/-- The struct `w` is a value of the kind `k`. -/
def IsVal (ss : List StrCell) (w : TouchdbVal) : ValKind → Prop
  | .plain => w.type ≠ .str
  | .str i => ∃ z, ss[i]? = some z ∧ w = ⟨.str, addrOf z.blk⟩

/-- Strings are added and released, but none moves. -/
def Grown (ss ss' : List StrCell) : Prop :=
  ∀ (i : ℕ) (z : StrCell), ss[i]? = some z → ∃ z', ss'[i]? = some z' ∧ z'.blk = z.blk

structure ChainCells where
  blk : ℕ
  cells : List Cell

namespace ChainCells

def nodes (x : ChainCells) : List ListNode := x.cells.map Cell.node

def vals (x : ChainCells) : List TouchdbVal := x.nodes.map ListNode.val

def kinds (x : ChainCells) : List ValKind := x.cells.map Cell.kind

def blocks (x : ChainCells) : List ℕ := x.blk :: x.nodes.map ListNode.blk

/-- The chain and its values; where `L` holds, the `prev` links are right as well. -/
structure Rep (L : Prop) (B : ℕ) (s : Touchdb) (a : PoolAlloc) (ss : List StrCell) (x : ChainCells) :
    Prop where
  chain : ChainRep B s a x.blk x.nodes
  kinds : ∀ y ∈ x.cells, IsVal ss y.node.val y.kind
  prev : L → Linked (nodePrev B s) (x.nodes.map ListNode.blk).reverse

end ChainCells

/-- A value that the client has. -/
structure ValCell where
  blk : ℕ
  kind : ValKind

structure ValCell.Rep (B : ℕ) (s : Touchdb) (a : PoolAlloc) (ss : List StrCell) (v : ValCell) :
    Prop where
  owns : Owns a v.blk sizeofVal
  kind : IsVal ss (s.field (B + v.blk) Val.all) v.kind

/-- The blocks of a family. -/
def familyBlocks (cs : List ChainCells) (vs : List ValCell) (ss : List StrCell) : List ℕ :=
  cs.flatMap ChainCells.blocks ++ vs.map ValCell.blk ++ ss.flatMap StrCell.blocks

structure FamilyRep (L : Prop) (B : ℕ) (s : Touchdb) (a : PoolAlloc) (cs : List ChainCells)
    (vs : List ValCell) (ss : List StrCell) : Prop where
  heap : Heap B s a
  chains : ∀ x ∈ cs, x.Rep L B s a ss
  vals : ∀ v ∈ vs, v.Rep B s a ss
  strs : ∀ z ∈ ss, z.Rep B s a
  apart : (familyBlocks cs vs ss).Nodup

/-- A list that holds no element more often than two lists without repetitions do. -/
theorem nodup_of_count {l old fresh : List ℕ} (h : old.Nodup) (hf : fresh.Nodup)
    (hd : ∀ o ∈ fresh, o ∉ old) (hc : ∀ o, l.count o ≤ fresh.count o + old.count o) : l.Nodup := by
  rw [List.nodup_iff_count_le_one]
  intro o
  have h1 := hc o
  have h2 := List.nodup_iff_count_le_one.mp h o
  have h3 := List.nodup_iff_count_le_one.mp hf o
  by_cases ho : o ∈ fresh
  · rw [List.count_eq_zero_of_not_mem (hd o ho)] at h1
    omega
  · rw [List.count_eq_zero_of_not_mem ho] at h1
    omega

section
variable {L : Prop} {B : ℕ} {s t : Touchdb} {a a' : PoolAlloc} {T : List ℕ} {k : ValKind}
variable {w : TouchdbVal} {l : List ℕ} {x : ChainCells} {v : ValCell} {z : StrCell} {o : ℕ}
variable {cs cs' : List ChainCells} {vs vs' : List ValCell} {ss ss' : List StrCell}

theorem Grown.refl (ss : List StrCell) : Grown ss ss := fun _ z hz => ⟨z, hz, rfl⟩

theorem IsVal.mono (h : IsVal ss w k) (hs : Grown ss ss') : IsVal ss' w k := by
  cases k with
  | plain => exact h
  | str i =>
    obtain ⟨z, hz, rfl⟩ := h
    obtain ⟨z', hz', hb⟩ := hs i z hz
    exact ⟨z', hz', by rw [hb]⟩

theorem StrCell.Rep.frame (h : z.Rep B s a) (hF : Frame B s a t a' T)
    (hT : ∀ o ∈ z.blocks, o ∉ T) : z.Rep B t a' := by
  intro hl
  obtain ⟨v, hv⟩ := h hl
  have hb : z.blocks = [z.blk, z.chars] := if_pos hl
  rw [hb] at hT
  exact ⟨v, hv.frame hF (hT _ (by simp)) (hT _ (by simp))⟩

theorem StrCell.Rep.owned (h : z.Rep B s a) (ho : o ∈ z.blocks) : Owns a o 0 := by
  unfold blocks at ho
  split_ifs at ho with hl
  · obtain ⟨v, hv⟩ := h hl
    simp only [List.mem_cons, List.not_mem_nil, or_false] at ho
    rcases ho with rfl | rfl
    · exact hv.str.mono (Nat.zero_le _)
    · exact hv.chars.mono (Nat.zero_le _)
  · cases ho

namespace ChainCells

theorem node_mem {n : ListNode} (hn : n ∈ x.nodes) : n.blk ∈ x.blocks :=
  List.mem_cons_of_mem _ (List.mem_map_of_mem hn)

theorem Rep.owned (h : x.Rep L B s a ss) (ho : o ∈ x.blocks) : Owns a o 0 := by
  rcases List.mem_cons.mp ho with rfl | ho
  · exact h.chain.chain.mono (Nat.zero_le _)
  · obtain ⟨n, hn, rfl⟩ := List.mem_map.mp ho
    exact (h.chain.node n hn).mono (Nat.zero_le _)

theorem Rep.frame (h : x.Rep L B s a ss) (hF : Frame B s a t a' T) (hT : ∀ o ∈ x.blocks, o ∉ T)
    (hs : Grown ss ss') : x.Rep L B t a' ss' where
  chain := h.chain.frame hF (hT _ List.mem_cons_self) fun n hn => hT _ (node_mem hn)
  kinds y hy := (h.kinds y hy).mono hs
  prev hL := (h.prev hL).congr fun o ho => by
    obtain ⟨n, hn, rfl⟩ := List.mem_map.mp (List.mem_reverse.mp ho)
    exact congrArg linkOf (hF.field (hT _ (node_mem hn)) (h.chain.node n hn) (by decide))

end ChainCells

theorem ValCell.Rep.frame (h : v.Rep B s a ss) (hF : Frame B s a t a' T) (hT : v.blk ∉ T)
    (hs : Grown ss ss') : v.Rep B t a' ss' where
  owns := hF.owns hT h.owns
  kind := by
    rw [hF.field hT h.owns (by decide)]
    exact h.kind.mono hs

theorem mem_familyBlocks : o ∈ familyBlocks cs vs ss ↔
    (∃ x ∈ cs, o ∈ x.blocks) ∨ (∃ v ∈ vs, o = v.blk) ∨ ∃ z ∈ ss, o ∈ z.blocks := by
  simp [familyBlocks, List.mem_flatMap, eq_comm]

theorem familyBlocks_perm (hc : cs.Perm cs') (hv : vs.Perm vs') :
    (familyBlocks cs vs ss).Perm (familyBlocks cs' vs' ss) :=
  ((hc.flatMap_right _).append (hv.map _)).append (.refl _)

namespace FamilyRep

theorem perm (h : FamilyRep L B s a cs vs ss) (hc : cs.Perm cs') (hv : vs.Perm vs') :
    FamilyRep L B s a cs' vs' ss where
  heap := h.heap
  chains x hx := h.chains x (hc.mem_iff.mpr hx)
  vals v hv' := h.vals v (hv.mem_iff.mpr hv')
  strs := h.strs
  apart := (familyBlocks_perm hc hv).nodup_iff.mp h.apart

theorem owns (h : FamilyRep L B s a cs vs ss) (ho : o ∈ familyBlocks cs vs ss) : Owns a o 0 := by
  rcases mem_familyBlocks.mp ho with ⟨x, hx, ho⟩ | ⟨v, hv, rfl⟩ | ⟨z, hz, ho⟩
  · exact (h.chains x hx).owned ho
  · exact (h.vals v hv).owns.mono (Nat.zero_le _)
  · exact (h.strs z hz).owned ho

/-- What was not in use belongs to nobody. -/
theorem fresh (h : FamilyRep L B s a cs vs ss) (ho : ¬ Used a o) : o ∉ familyBlocks cs vs ss :=
  fun hc => ho (h.owns hc).used

/-- What a stretch does not touch is there afterwards. -/
theorem frame (h : FamilyRep L B s a cs vs ss) (ht : Heap B t a') (hF : Frame B s a t a' T)
    (hT : ∀ o ∈ familyBlocks cs vs ss, o ∉ T) : FamilyRep L B t a' cs vs ss where
  heap := ht
  chains x hx := (h.chains x hx).frame hF
    (fun o ho => hT o (mem_familyBlocks.mpr (.inl ⟨x, hx, ho⟩))) (.refl ss)
  vals v hv := (h.vals v hv).frame hF (hT _ (mem_familyBlocks.mpr (.inr (.inl ⟨v, hv, rfl⟩))))
    (.refl ss)
  strs z hz := (h.strs z hz).frame hF fun o ho =>
    hT o (mem_familyBlocks.mpr (.inr (.inr ⟨z, hz, ho⟩)))
  apart := h.apart

/-- A new chain. -/
theorem addChain {C : ℕ} (h : FamilyRep L B s a cs vs ss) (ht : Heap B t a')
    (hF : Frame B s a t a' [C]) (hC : ¬ Used a C) (hr : ChainRep B t a' C []) :
    FamilyRep L B t a' (⟨C, []⟩ :: cs) vs ss := by
  have hout := h.fresh hC
  have h' := h.frame ht hF fun o ho hc => by
    obtain rfl : o = C := by simpa using hc
    exact hout ho
  refine ⟨ht, fun x hx => ?_, h'.vals, h'.strs, List.nodup_cons.mpr ⟨hout, h.apart⟩⟩
  rcases List.mem_cons.mp hx with rfl | hx
  · exact ⟨hr, by simp, fun _ => trivial⟩
  · exact h'.chains x hx

/-- A new value. -/
theorem addVal (h : FamilyRep L B s a cs vs ss) (hv : v.blk ∉ familyBlocks cs vs ss)
    (hr : v.Rep B s a ss) : FamilyRep L B s a cs (v :: vs) ss := by
  refine ⟨h.heap, h.chains, fun u hu => ?_, h.strs, ?_⟩
  · rcases List.mem_cons.mp hu with rfl | hu
    · exact hr
    · exact h.vals u hu
  · refine nodup_of_count h.apart (List.nodup_singleton v.blk) (fun o ho => ?_) fun o => ?_
    · obtain rfl := List.mem_singleton.mp ho
      exact hv
    · simp only [familyBlocks, List.map_cons, List.count_append, List.count_cons, List.count_nil]
      omega

/-- A new string, at the end of the list of strings. -/
theorem addStr (h : FamilyRep L B s a cs vs ss) (ht : Heap B t a') (hF : Frame B s a t a' [])
    (hz : ∀ o ∈ z.blocks, ¬ Used a o) (hr : z.Rep B t a') (hn : z.blocks.Nodup) :
    FamilyRep L B t a' cs vs (ss ++ [z]) := by
  have h' := h.frame ht hF (by simp)
  have hs : Grown ss (ss ++ [z]) := fun i y hy => ⟨y, by rw [List.getElem?_append_left (List.getElem?_eq_some_iff.mp hy).1, hy], rfl⟩
  refine ⟨ht, fun x hx => ?_, fun v hv => ?_, fun y hy => ?_, ?_⟩
  · exact (h.chains x hx).frame hF (by simp) hs
  · exact (h.vals v hv).frame hF (by simp) hs
  · rcases List.mem_append.mp hy with hy | hy
    · exact h'.strs y hy
    · obtain rfl := List.mem_singleton.mp hy
      exact hr
  · refine nodup_of_count h.apart hn (fun o ho => h.fresh (hz o ho)) fun o => ?_
    simp only [familyBlocks, List.flatMap_append, List.flatMap_cons, List.flatMap_nil, List.count_append,
      List.count_nil]
    omega

/-- The client releases the struct of a value. -/
theorem dropVal (h : FamilyRep L B s a cs (v :: vs) ss) (ht : Heap B t a')
    (hF : Frame B s a t a' [v.blk]) : FamilyRep L B t a' cs vs ss := by
  have hap : (v.blk :: familyBlocks cs vs ss).Nodup :=
    nodup_of_count h.apart List.nodup_nil (by simp) fun o => by
      simp only [familyBlocks, List.map_cons, List.count_append, List.count_cons, List.count_nil]
      omega
  have h₀ : FamilyRep L B s a cs vs ss := ⟨h.heap, h.chains,
    fun u hu => h.vals u (List.mem_cons_of_mem _ hu), h.strs, (List.nodup_cons.mp hap).2⟩
  refine h₀.frame ht hF fun o ho hc => ?_
  obtain rfl : o = v.blk := by simpa using hc
  exact (List.nodup_cons.mp hap).1 ho

/-- The other parts of a family across a stretch that touches a chain. -/
theorem apart_chain (h : FamilyRep L B s a (x :: cs) vs ss) :
    (x.blocks ++ familyBlocks cs vs ss).Nodup := by
  have h1 := h.apart
  rwa [familyBlocks, List.flatMap_cons, List.append_assoc, List.append_assoc, ← List.append_assoc
    (cs.flatMap _)] at h1

theorem chains_nodup (h : FamilyRep L B s a cs vs ss) : (cs.map ChainCells.blk).Nodup := by
  have hblocks := (List.nodup_append.mp (List.nodup_append.mp h.apart).1).1
  refine List.pairwise_map.mpr ((List.nodup_flatMap.mp hblocks).2.imp fun hd heq => ?_)
  exact hd List.mem_cons_self (heq ▸ List.mem_cons_self)

theorem tail (h : FamilyRep L B s a (x :: cs) vs ss) : FamilyRep L B s a cs vs ss where
  heap := h.heap
  chains y hy := h.chains y (List.mem_cons_of_mem _ hy)
  vals := h.vals
  strs := h.strs
  apart := (List.nodup_append.mp h.apart_chain).2.1

/-- A value of the client goes to a new node. -/
theorem push {N : ℕ} {w : TouchdbVal} (h : FamilyRep L B s a (x :: cs) vs ss) (hw : IsVal ss w k)
    (hp : Pushed B s a x.blk x.nodes w N t a') :
    FamilyRep L B t a' (⟨x.blk, x.cells ++ [⟨⟨N, w⟩, k⟩]⟩ :: cs) vs ss := by
  have hx := h.chains x List.mem_cons_self
  have hap := List.nodup_append.mp h.apart_chain
  have h' := h.tail.frame hp.heap hp.frame fun o ho hc => hap.2.2 o hc o ho rfl
  have hn : ChainCells.nodes ⟨x.blk, x.cells ++ [⟨⟨N, w⟩, k⟩]⟩ = x.nodes ++ [⟨N, w⟩] := by
    simp [ChainCells.nodes]
  refine ⟨hp.heap, fun y hy => ?_, h'.vals, h'.strs, ?_⟩
  · rcases List.mem_cons.mp hy with rfl | hy
    · refine ⟨by rw [hn]; exact hp.rep, fun y hy => ?_, fun hL => ?_⟩
      · rcases List.mem_append.mp hy with hy | hy
        · exact hx.kinds y hy
        · obtain rfl := List.mem_singleton.mp hy
          exact hw
      · rw [hn, List.map_append, List.reverse_append]
        refine ⟨hp.prev.trans List.head?_reverse.symm, (hx.prev hL).congr fun o ho => ?_⟩
        obtain ⟨n, hn, rfl⟩ := List.mem_map.mp (List.mem_reverse.mp ho)
        exact hp.prevs n hn
    · exact h'.chains y hy
  · refine nodup_of_count h.apart (List.nodup_singleton N) (fun o ho => ?_) fun o => ?_
    · obtain rfl := List.mem_singleton.mp ho
      exact h.fresh hp.handed.not_used
    · simp only [familyBlocks, ChainCells.blocks, hn, List.flatMap_cons, List.map_append, List.map_cons,
        List.map_nil, List.count_append, List.count_cons, List.count_nil]
      omega

/-- The first value comes out, or the only one; the strings `ss'` are left. -/
theorem pull {y : Cell} {ys : List Cell} {C R : ℕ} (h : FamilyRep L B s a (⟨C, y :: ys⟩ :: cs) vs ss)
    (hp : Pulled B s a C y.node l R t a') (hr : ChainRep B t a' C (ys.map Cell.node))
    (hL : L → ys = []) (hs : Grown ss ss') (hlive : ∀ z ∈ ss', z.live → z ∈ ss)
    (hb : (ss.flatMap StrCell.blocks).Perm (l ++ ss'.flatMap StrCell.blocks)) :
    FamilyRep L B t a' (⟨C, ys⟩ :: cs) (⟨R, y.kind⟩ :: vs) ss' := by
  have hx := h.chains _ List.mem_cons_self
  have hcount (o : ℕ) := List.perm_iff_count.mp hb o
  simp only [List.count_append] at hcount
  -- the blocks that the pull touches, and the others
  have hperm : (familyBlocks (⟨C, y :: ys⟩ :: cs) vs ss).Perm
      ((C :: y.node.blk :: l) ++ ((ys.map Cell.node).map ListNode.blk ++ familyBlocks cs vs ss')) := by
    refine List.perm_iff_count.mpr fun o => ?_
    have h1 := hcount o
    simp only [familyBlocks, ChainCells.blocks, ChainCells.nodes, List.flatMap_cons, List.map_cons,
      List.count_append, List.count_cons]
    omega
  have hap := List.nodup_append.mp (hperm.nodup_iff.mp h.apart)
  have hrest {o : ℕ} (ho : o ∈ familyBlocks cs vs ss') : o ∉ C :: y.node.blk :: l := fun hc =>
    hap.2.2 o hc o (List.mem_append_right _ ho) rfl
  refine ⟨hp.heap, fun z hz => ?_, fun v hv => ?_, fun z hz hl => ?_, ?_⟩
  · rcases List.mem_cons.mp hz with rfl | hz
    · refine ⟨hr, fun z hz => (hx.kinds z (List.mem_cons_of_mem _ hz)).mono hs, fun hl => ?_⟩
      rw [hL hl]
      trivial
    · exact (h.chains z (List.mem_cons_of_mem _ hz)).frame hp.frame
        (fun o ho => hrest (mem_familyBlocks.mpr (.inl ⟨z, hz, ho⟩))) hs
  · rcases List.mem_cons.mp hv with rfl | hv
    · refine ⟨hp.result, ?_⟩
      rw [hp.val]
      exact (hx.kinds y List.mem_cons_self).mono hs
    · exact (h.vals v hv).frame hp.frame
        (hrest (mem_familyBlocks.mpr (.inr (.inl ⟨v, hv, rfl⟩)))) hs
  · exact (h.strs z (hlive z hz hl)).frame hp.frame
      (fun o ho => hrest (mem_familyBlocks.mpr (.inr (.inr ⟨z, hz, ho⟩)))) hl
  · refine nodup_of_count h.apart (List.nodup_singleton R) (fun o ho => ?_) fun o => ?_
    · obtain rfl := List.mem_singleton.mp ho
      exact h.fresh hp.fresh
    · have h1 := hcount o
      simp only [familyBlocks, ChainCells.blocks, ChainCells.nodes, List.flatMap_cons, List.map_cons,
        List.count_append, List.count_cons, List.count_nil]
      omega

/-- The blocks of a string that is released. -/
theorem release {i : ℕ} (hz : ss[i]? = some z) (hl : z.live = true) :
    Grown ss (ss.set i { z with live := false }) ∧
      (∀ y ∈ ss.set i { z with live := false }, y.live → y ∈ ss) ∧
      (ss.flatMap StrCell.blocks).Perm
        ([z.blk, z.chars] ++ (ss.set i { z with live := false }).flatMap StrCell.blocks) := by
  obtain ⟨hlt, rfl⟩ := List.getElem?_eq_some_iff.mp hz
  refine ⟨fun j y hy => ?_, fun y hy hl => ?_, ?_⟩
  · by_cases hj : i = j
    · subst hj
      obtain rfl : ss[i] = y := Option.some.inj (hz.symm.trans hy)
      exact ⟨_, List.getElem?_set_self hlt, rfl⟩
    · exact ⟨y, by rw [List.getElem?_set_ne hj, hy], rfl⟩
  · rcases List.mem_or_eq_of_mem_set hy with hy | rfl
    · exact hy
    · cases hl
  · have h1 := (List.getElem_cons_eraseIdx_perm hlt).symm.flatMap_right StrCell.blocks
    have h2 := (List.set_perm_cons_eraseIdx hlt { ss[i] with live := false }).flatMap_right
      StrCell.blocks
    rw [List.flatMap_cons] at h1 h2
    have hb : StrCell.blocks ss[i] = [ss[i].blk, ss[i].chars] := if_pos hl
    rw [hb] at h1
    exact h1.trans (h2.symm.append_left _)

end FamilyRep

end

end TouchDb
