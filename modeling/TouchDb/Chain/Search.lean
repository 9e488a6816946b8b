import TouchDb.Chain.Rep
import TouchDb.Core.Deques

/-! `touchdb_chain_node_idx` and `touchdb_chain_size`: the reads of a chain. -/
namespace TouchDb
open Prog Layout

/-- The pointer to the value of a node, `NULL` where there is none. -/
def valPtr (B : ℕ) : Option ListNode → ℕ
  | none => NULL
  | some n => B + n.blk + ChainNode.val.off

section
variable {B : ℕ} {s : Touchdb} {a : PoolAlloc} {C k : ℕ} {q r : List ListNode} {n : ListNode}
variable {G : Guard Stop Event} {idx : Int32}

/-- The loop from the first node of `r` on, after `k` steps. -/
theorem wp_nodeIdxLoop {Q : ℕ × Int32 → Touchdb → Prop} {rounds p : ℕ} (h : Heap B s a) (hR : Reads G)
    (hi : -2 ^ 31 < idx.toInt) (hl : Linked (nodeNext B s) (r.map ListNode.blk))
    (hO : ∀ n ∈ r, Owns a n.blk touchdbChainNodeSize) (hk : k + r.length < 2 ^ 31)
    (hlen : r.length < rounds) (hp : p = ((r.head?.map fun n => B + n.blk)).getD NULL)
    (hQ : ∀ p j, (if p ≠ NULL ∧ j = idx - 1 then p + ChainNode.val.off else NULL) =
      valPtr B (Deques.nth r (idx.toInt - k)) → Q (p, j) s) :
    wp G (nodeIdxLoop idx rounds p (Int32.ofNat k)) Q s := by
  have hsub : (idx - 1).toInt = idx.toInt - 1 := Words.toInt_sub_one hi
  have hki : (Int32.ofNat k).toInt = k := Int32.toInt_ofNat_of_lt (by omega)
  obtain ⟨rounds, rfl⟩ : ∃ m, rounds = m + 1 := ⟨rounds - 1, by omega⟩
  induction r generalizing k rounds p with
  | nil =>
    obtain rfl : p = NULL := hp
    unfold nodeIdxLoop
    rw [if_neg (by simp)]
    refine wp_pure (hQ _ _ ?_)
    rw [if_neg (by simp)]
    simp [Deques.nth, valPtr]
  | cons n r ih =>
    have hn := hO n List.mem_cons_self
    obtain rfl : p = B + n.blk := hp
    have hnp := hn.ptr_ne B
    unfold nodeIdxLoop
    by_cases hlt : Int32.ofNat k < idx - 1
    · have hlt' : (k : ℤ) < idx.toInt - 1 := by
        rw [← hki, ← hsub]
        exact Int32.lt_iff_toInt_lt.mp hlt
      rw [if_pos ⟨hnp, hlt⟩]
      have hsucc : Int32.ofNat k + 1 = Int32.ofNat (k + 1) := (Int32.ofNat_add _ _).symm
      have hnth : Deques.nth (n :: r) (idx.toInt - k) = Deques.nth r (idx.toInt - (k + 1 : ℕ)) := by
        unfold Deques.nth
        rw [if_pos (by omega), if_pos (by omega)]
        obtain ⟨m, hm⟩ : ∃ m : ℕ, idx.toInt - k - 1 = m + 1 := ⟨(idx.toInt - k - 2).toNat, by omega⟩
        rw [hm, show idx.toInt - (k + 1 : ℕ) - 1 = m by push_cast; omega]
        simp
      rw [hnth] at hQ
      simp only [List.length_cons] at hk hlen
      obtain ⟨rounds, rfl⟩ : ∃ m, rounds = m + 1 := ⟨rounds - 1, by omega⟩
      have hgo {p' : ℕ} (hp' : p' = ((r.head?.map fun n => B + n.blk)).getD NULL) :
          wp G (nodeIdxLoop idx (rounds + 1) p' (Int32.ofNat k + 1)) Q s := by
        rw [hsucc]
        exact ih hl.2 (fun m hm => hO m (List.mem_cons_of_mem _ hm)) (by omega) hp' hQ
          (Int32.toInt_ofNat_of_lt (by omega)) rounds (by omega)
      cases r with
      | nil => exact wp_bind (wp_followLink_nil h hn (by decide) hl.1 (hgo rfl))
      | cons m r =>
        have hm := hO m (by simp)
        refine wp_bind (wp_followLink h hR hn (by decide) hm ?_ (hgo rfl))
        exact linkOf_eq_some hl.1 hm.lt
    · have hge : idx.toInt - 1 ≤ (k : ℤ) := by
        rw [← hki, ← hsub]
        exact Int.not_lt.mp fun hc => hlt (Int32.lt_iff_toInt_lt.mpr hc)
      rw [if_neg fun hc => hlt hc.2]
      refine wp_pure (hQ _ _ ?_)
      have heq : Int32.ofNat k = idx - 1 ↔ (k : ℤ) = idx.toInt - 1 := by
        rw [← Int32.toInt_inj, hki, hsub]
      by_cases hk0 : (k : ℤ) = idx.toInt - 1
      · rw [if_pos ⟨hnp, heq.mpr hk0⟩, show idx.toInt - k = 1 by omega]
        rfl
      · rw [if_neg fun hc => hk0 (heq.mp hc.2)]
        unfold Deques.nth
        rw [if_neg (by omega)]
        rfl

/-- An index below the smallest `int` plus one would overflow. -/
theorem wp_touchdbChainNodeIdx {Q : ℕ → Touchdb → Prop} (h : Heap B s a) (hR : Reads G)
    (hC : ChainRep B s a C q) (hi : -2 ^ 31 < idx.toInt)
    (hQ : Q (valPtr B (Deques.nth q idx.toInt)) s) :
    wp G (touchdbChainNodeIdx (B + C) idx) Q s := by
  have hlt := hC.length_lt_word
  have hloop {p : ℕ} {k : ℕ × Int32 → M ℕ} (hp : p = ((q.head?.map fun n => B + n.blk)).getD NULL)
      (hk : ∀ n i, (if n ≠ NULL ∧ i = idx - 1 then n + ChainNode.val.off else NULL) =
        valPtr B (Deques.nth q idx.toInt) → wp G (k (n, i)) Q s) :
      wp G (nodeIdxLoop idx walkRounds p 0 >>= k) Q s := by
    apply wp_bind
    apply wp_nodeIdxLoop (k := 0) h hR hi hC.next hC.node (by omega) hC.length_lt hp
    intro n i hni
    rw [Nat.cast_zero, Int.sub_zero] at hni
    exact hk n i hni
  have hend (n : ℕ) (i : Int32) (hni : (if n ≠ NULL ∧ i = idx - 1 then n + ChainNode.val.off else NULL) =
      valPtr B (Deques.nth q idx.toInt)) :
      wp G (if n ≠ NULL ∧ i = idx - 1 then return n + ChainNode.val.off else return NULL) Q s := by
    rw [← hni] at hQ
    split_ifs at hQ ⊢ with hc
    · exact wp_pure hQ
    · exact wp_pure hQ
  unfold touchdbChainNodeIdx
  cases q with
  | nil => exact wp_bind (wp_followLink_nil h hC.chain (by decide) hC.header (hloop rfl hend))
  | cons n q =>
    exact wp_bind (wp_followLink h hR hC.chain (by decide) (hC.node n List.mem_cons_self)
      hC.header_cons (hloop rfl hend))

theorem wp_touchdbChainSize {Q : Int32 → Touchdb → Prop} (h : Heap B s a) (hC : ChainRep B s a C q)
    (hQ : Q (Int32.ofNat q.length) s) : wp G (touchdbChainSize (B + C)) Q s := by
  refine wp_loadCell h hC.chain (by decide) ?_
  rw [hC.size]
  exact hQ

end

end TouchDb
