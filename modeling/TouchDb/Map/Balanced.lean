import TouchDb.Map.Buckets
import TouchDb.Core.Mixing

/-! How the hash codes spread over the buckets. -/
namespace TouchDb

/-- The two lines of `hash` mix the bits of a word, one after the other. -/
theorem hash_mix (h : Int32) : (hash h).toBitVec = Mixing.mix 7 4 (Mixing.mix 20 12 h.toBitVec) := by
  have hassoc (x : BitVec 32) : x ^^^ x.sshiftRight 7 ^^^ x.sshiftRight 4 = Mixing.mix 7 4 x := by
    unfold Mixing.mix
    exact BitVec.xor_assoc _ _ _
  exact hassoc (Mixing.mix 20 12 h.toBitVec)

theorem hash_injective : Function.Injective hash := by
  intro c d h
  have h' := congrArg Int32.toBitVec h
  rw [hash_mix, hash_mix] at h'
  have h1 := Mixing.mix_injective (by decide) (by decide) h'
  have h2 := Mixing.mix_injective (by decide) (by decide) h1
  exact Int32.toBitVec_inj.mp h2

/-- Every word is the hash of one code. -/
theorem hash_bijective : Function.Bijective fun c : Int32 => (hash c).toBitVec := by
  have hword (c d : Int32) (h : c.toBitVec = d.toBitVec) : c = d := Int32.toBitVec_inj.mp h
  apply And.intro
  · intro c d h
    exact hash_injective (hword _ _ h)
  · intro y
    have hfin : Finite (BitVec 32) := Finite.of_equiv _ BitVec.equivFin.toEquiv.symm
    have hinj : Function.Injective fun x : BitVec 32 => (hash (Int32.ofBitVec x)).toBitVec := by
      intro x z h
      have h1 := congrArg Int32.toBitVec (hash_injective (hword _ _ h))
      exact h1
    obtain ⟨x, hx⟩ := Finite.surjective_of_injective hinj y
    exact ⟨Int32.ofBitVec x, hx⟩

/-- In an index of `2 ^ n` buckets each bucket takes the same number of the hash codes. -/
theorem buckets_balanced {capacity : Int32} (h : 0 ≤ capacity.toInt) (s : Touchdb) :
    ∃ t l n, mapInitCount capacity s = .ok ((), t, l) ∧ t.map.bulkListCount.toInt = 2 ^ n ∧
      ∀ i < 2 ^ n, Set.ncard {c : Int32 | (indexFor t.map (hash c)).toInt = (i : ℕ)} = 2 ^ (32 - n) := by
  obtain ⟨n, hn, -, -, hrun⟩ := mapInitCount_run (s := s) h
  refine ⟨_, _, n, hrun, Touchdb.withCount_toInt hn, ?_⟩
  intro i hi
  have hset : {c : Int32 | (indexFor (s.withCount n).map (hash c)).toInt = (i : ℕ)} =
      Set.preimage (fun c : Int32 => (hash c).toBitVec) {x | x.toNat % 2 ^ n = i} := by
    ext c
    simp only [Set.mem_preimage, Set.mem_ofPred_eq]
    rw [indexFor_toInt hn, Touchdb.withCount_toInt hn, Words.toInt_emod _ (by omega)]
    exact Int.ofNat_inj
  rw [hset, Set.ncard_preimage_of_injective_subset_range hash_bijective.injective]
  · exact Mixing.ncard_residue (by omega) hi
  · rw [hash_bijective.surjective.range_eq]
    exact Set.subset_univ _

theorem buckets_balanced_hundred :
    ∃ t l n, mapInitCount 100 Touchdb.zero = .ok ((), t, l) ∧ t.map.bulkListCount.toInt = 2 ^ n ∧
      ∀ i < 2 ^ n, Set.ncard {c : Int32 | (indexFor t.map (hash c)).toInt = (i : ℕ)} = 2 ^ (32 - n) :=
  buckets_balanced (by decide) Touchdb.zero

end TouchDb
