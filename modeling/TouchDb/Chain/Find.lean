import TouchDb.Chain.Doubly

/-! The searches of a chain by content, over any comparison. -/
namespace TouchDb
open Prog Layout

/-- `touchdb_val_cmp` with a result for every two pointers. -/
def assigned (res : ℕ → ℕ → Int32) : ℕ → ℕ → M Int32 := fun p q => pure (res p q)

/-- The nodes of `r` compare with the value at `v` as `res` says, and nothing changes. -/
def Compares (G : Guard Stop Event) (valCmp : ℕ → ℕ → M Int32) (B : ℕ) (s : Touchdb) (v : ℕ)
    (r : List ListNode) (res : ListNode → Int32) : Prop :=
  ∀ n ∈ r, ∀ R : Int32 → Touchdb → Prop, R (res n) s →
    wp G (valCmp (B + n.blk + ChainNode.val.off) v) R s

/-- The result of the comparison is that of equal values. -/
def isMatch (res : ListNode → Int32) (n : ListNode) : Bool := decide (res n = 0)

/-- A position as the searches return it, -1 where there is none. -/
def idxOf (k : ℕ) : Option ℕ → Int32
  | none => -1
  | some i => Int32.ofNat (k + i)

section
variable {B : ℕ} {s : Touchdb} {a : PoolAlloc} {C k v : ℕ} {q r : List ListNode} {n : ListNode}
variable {G : Guard Stop Event} {valCmp : ℕ → ℕ → M Int32} {res : ListNode → Int32}

theorem compares_assigned (f : ℕ → ℕ → Int32) :
    Compares G (assigned f) B s v r fun n => f (B + n.blk + ChainNode.val.off) v :=
  fun _ _ _ h => wp_pure h

theorem Compares.tail (h : Compares G valCmp B s v (n :: r) res) : Compares G valCmp B s v r res :=
  fun m hm => h m (List.mem_cons_of_mem _ hm)

/-- The node after the first one of a stretch. -/
theorem wp_nextOf {Q : ℕ → Touchdb → Prop} (h : Heap B s a) (hR : Reads G)
    (hl : Linked (nodeNext B s) ((n :: r).map ListNode.blk))
    (hO : ∀ m ∈ n :: r, Owns a m.blk touchdbChainNodeSize) (hQ : Q (nodePtr B r.head?) s) :
    wp G (nextNode (B + n.blk)) Q s := by
  apply wp_followTo h hR (hO n List.mem_cons_self) (by decide) _ _ hQ
  · intro m hm
    exact hO m (List.mem_cons_of_mem _ (List.mem_of_mem_head? hm))
  · rw [← List.head?_map]
    exact hl.1

theorem wp_headerOf {Q : ℕ → Touchdb → Prop} (h : Heap B s a) (hR : Reads G) (hC : ChainRep B s a C q)
    (hQ : Q (nodePtr B q.head?) s) : wp G (chainHeader (B + C)) Q s := by
  apply wp_followTo h hR hC.chain (by decide) _ _ hQ
  · intro m hm
    exact hC.node m (List.mem_of_mem_head? hm)
  · rw [← List.head?_map]
    exact hC.header

/-- The loop from the first node of `r` on. -/
theorem wp_chainNodeLoop {Q : ℕ → Touchdb → Prop} {rounds : ℕ} (h : Heap B s a) (hR : Reads G)
    (hl : Linked (nodeNext B s) (r.map ListNode.blk))
    (hO : ∀ n ∈ r, Owns a n.blk touchdbChainNodeSize) (hc : Compares G valCmp B s v r res)
    (hlen : r.length < rounds) (hQ : Q (nodePtr B (r.find? (isMatch res))) s) :
    wp G (chainNodeLoop valCmp v rounds (nodePtr B r.head?)) Q s := by
  induction r generalizing rounds with
  | nil =>
    obtain ⟨m, rfl⟩ : ∃ m, rounds = m + 1 := ⟨rounds - 1, by omega⟩
    show wp G (chainNodeLoop valCmp v (m + 1) NULL) Q s
    unfold chainNodeLoop
    rw [if_neg (not_not_intro rfl)]
    exact wp_pure hQ
  | cons n r ih =>
    simp only [List.length_cons] at hlen
    obtain ⟨m, rfl⟩ : ∃ m, rounds = m + 1 := ⟨rounds - 1, by omega⟩
    have hn := hO n List.mem_cons_self
    show wp G (chainNodeLoop valCmp v (m + 1) (B + n.blk)) Q s
    unfold chainNodeLoop
    rw [if_pos (hn.ptr_ne B)]
    apply wp_bind
    apply hc n List.mem_cons_self
    rw [List.find?_cons] at hQ
    by_cases h0 : res n = 0
    · rw [if_pos h0]
      simp only [isMatch, h0, decide_true] at hQ
      exact wp_pure hQ
    · rw [if_neg h0]
      simp only [isMatch, h0, decide_false] at hQ
      apply wp_bind
      apply wp_nextOf h hR hl hO
      apply ih hl.2 _ hc.tail (by omega) hQ
      intro m hm
      exact hO m (List.mem_cons_of_mem _ hm)

/-- The first node that compares equal. -/
theorem wp_touchdbChainNode {Q : ℕ → Touchdb → Prop} (h : Heap B s a) (hR : Reads G)
    (hC : ChainRep B s a C q) (hc : Compares G valCmp B s v q res)
    (hQ : Q (nodePtr B (q.find? (isMatch res))) s) :
    wp G (touchdbChainNode valCmp (B + C) v) Q s := by
  unfold touchdbChainNode
  apply wp_bind
  apply wp_headerOf h hR hC
  exact wp_chainNodeLoop h hR hC.next hC.node hc hC.length_lt hQ

theorem wp_touchdbChainContains {Q : Bool → Touchdb → Prop} (h : Heap B s a) (hR : Reads G)
    (hC : ChainRep B s a C q) (hc : Compares G valCmp B s v q res)
    (hQ : Q (q.any (isMatch res)) s) : wp G (touchdbChainContains valCmp (B + C) v) Q s := by
  unfold touchdbChainContains
  apply wp_bind
  apply wp_touchdbChainNode h hR hC hc
  apply wp_pure
  have hO : ∀ n ∈ q.find? (isMatch res), Owns a n.blk touchdbChainNodeSize := by
    intro n hn
    exact hC.node n (List.mem_of_find?_eq_some hn)
  have heq : decide (nodePtr B (q.find? (isMatch res)) ≠ NULL) = q.any (isMatch res) := by
    rw [Bool.eq_iff_iff, decide_eq_true_iff, nodePtr_ne hO, List.find?_isSome, List.any_eq_true]
  rw [heq]
  exact hQ

/-- The loop from the first node of `r` on, after `k` steps. -/
theorem wp_indexOfLoop {Q : Int32 → Touchdb → Prop} {rounds : ℕ} (h : Heap B s a) (hR : Reads G)
    (hl : Linked (nodeNext B s) (r.map ListNode.blk))
    (hO : ∀ n ∈ r, Owns a n.blk touchdbChainNodeSize) (hc : Compares G valCmp B s v r res)
    (hlen : r.length < rounds) (hQ : Q (idxOf k (r.findIdx? (isMatch res))) s) :
    wp G (indexOfLoop valCmp v rounds (Int32.ofNat k) (nodePtr B r.head?)) Q s := by
  induction r generalizing rounds k with
  | nil =>
    obtain ⟨m, rfl⟩ : ∃ m, rounds = m + 1 := ⟨rounds - 1, by omega⟩
    show wp G (indexOfLoop valCmp v (m + 1) (Int32.ofNat k) NULL) Q s
    unfold indexOfLoop
    rw [if_neg (not_not_intro rfl)]
    exact wp_pure hQ
  | cons n r ih =>
    simp only [List.length_cons] at hlen
    obtain ⟨m, rfl⟩ : ∃ m, rounds = m + 1 := ⟨rounds - 1, by omega⟩
    have hn := hO n List.mem_cons_self
    show wp G (indexOfLoop valCmp v (m + 1) (Int32.ofNat k) (B + n.blk)) Q s
    unfold indexOfLoop
    rw [if_pos (hn.ptr_ne B)]
    apply wp_bind
    apply hc n List.mem_cons_self
    rw [List.findIdx?_cons] at hQ
    by_cases h0 : res n = 0
    · rw [if_pos h0]
      simp only [isMatch, h0, decide_true] at hQ
      exact wp_pure hQ
    · rw [if_neg h0]
      have hsucc : Int32.ofNat k + 1 = Int32.ofNat (k + 1) := (Int32.ofNat_add _ _).symm
      apply wp_bind
      apply wp_nextOf h hR hl hO
      rw [hsucc]
      apply ih hl.2 (fun m hm => hO m (List.mem_cons_of_mem _ hm)) hc.tail (by omega)
      have hidx (j : Option ℕ) : idxOf (k + 1) j = idxOf k (j.map fun i => i + 1) := by
        cases j with
        | none => rfl
        | some i => simp only [idxOf, Option.map_some, Nat.add_assoc, Nat.add_comm 1 i]
      rw [hidx]
      simpa [isMatch, h0] using hQ

/-- The least position, counted from zero, of a node that compares equal. -/
theorem wp_touchdbChainIndexOf {Q : Int32 → Touchdb → Prop} (h : Heap B s a) (hR : Reads G)
    (hC : ChainRep B s a C q) (hc : Compares G valCmp B s v q res)
    (hQ : Q (idxOf 0 (q.findIdx? (isMatch res))) s) :
    wp G (touchdbChainIndexOf valCmp (B + C) v) Q s := by
  unfold touchdbChainIndexOf
  apply wp_bind
  apply wp_headerOf h hR hC
  exact wp_indexOfLoop (k := 0) h hR hC.next hC.node hc hC.length_lt hQ

end

/-- The results of the comparison for the nodes of a chain. -/
def ChainState.results (c : ChainState) (res : ℕ → ℕ → Int32) (v : ℕ) (n : ListNode) : Int32 :=
  res (c.ptr + n.blk + ChainNode.val.off) v

theorem ChainState.compares (c : ChainState) {G : Guard Stop Event} (res : ℕ → ℕ → Int32) (v : ℕ) :
    Compares G (assigned res) c.ptr c.db v c.nodes (c.results res v) := compares_assigned res

end TouchDb
