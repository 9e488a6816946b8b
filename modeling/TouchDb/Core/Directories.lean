import Mathlib.Data.List.DropRight
import Mathlib.Tactic.Common

/-! Directories and the names on the way to them: which paths from the root lead to the same directory,
whatever the file system. -/

/-- How names are read: some stay where they are, and one leads up. -/
structure PathNames (ν : Type) where
  stays : ν → Bool
  up : ν
  up_moves : stays up = false

/-- The directories of a file system and what each has under a name. Because of links this can be any
directory; but what leads up from the root leads back to it. -/
structure FileTree {ν : Type} (N : PathNames ν) where
  Dir : Type
  root : Dir
  lookup : Dir → ν → Option Dir
  root_up : lookup root N.up = some root

/-- One name after the other. -/
def FileTree.walk {ν : Type} {N : PathNames ν} (F : FileTree N) : F.Dir → List ν → Option F.Dir
  | d, [] => some d
  | d, n :: ns => if N.stays n then walk F d ns else (F.lookup d n).bind fun e => walk F e ns

namespace PathNames
variable {ν : Type} (N : PathNames ν) {F : FileTree N} {d : F.Dir} {ns ms : List ν} {n m : ν}

/-- From the root of every file system both paths lead to the same directory, or to none. -/
def Same (ns ms : List ν) : Prop := ∀ F : FileTree N, F.walk F.root ns = F.walk F.root ms

/-- The names that count. -/
def moves (ns : List ν) : List ν := ns.filter fun n => !N.stays n

variable {N}

theorem moves_cons : N.moves (n :: ns) = if N.stays n then N.moves ns else n :: N.moves ns := by
  unfold moves
  rw [List.filter_cons]
  cases N.stays n <;> rfl

theorem walk_moves : F.walk d (N.moves ns) = F.walk d ns := by
  induction ns generalizing d with
  | nil => rfl
  | cons n ns ih =>
    rw [moves_cons, FileTree.walk]
    by_cases hn : N.stays n = true
    · rw [if_pos hn, if_pos hn]
      exact ih
    · rw [if_neg hn, if_neg hn, FileTree.walk, if_neg hn]
      exact congrArg _ (funext fun e => ih)

variable [DecidableEq ν]

variable (N) in
/-- The names that count, without those that lead up from the root. -/
def reduce (ns : List ν) : List ν := (N.moves ns).dropWhile fun n => n = N.up

theorem walk_dropWhile : F.walk F.root (ns.dropWhile fun n => n = N.up) = F.walk F.root ns := by
  induction ns with
  | nil => rfl
  | cons n ns ih =>
    rw [List.dropWhile_cons]
    split_ifs with hn
    · obtain rfl : n = N.up := by simpa using hn
      rw [ih, FileTree.walk, if_neg (by simp [N.up_moves]), F.root_up]
      rfl
    · rfl

theorem walk_reduce : F.walk F.root (N.reduce ns) = F.walk F.root ns := by
  rw [reduce, walk_dropWhile, walk_moves]

theorem reduce_append : N.reduce (ns ++ ms) =
    if N.reduce ns = [] then N.reduce ms else N.reduce ns ++ N.moves ms := by
  unfold reduce moves
  rw [List.filter_append, List.dropWhile_append]
  simp only [List.isEmpty_iff]

theorem reduce_cons : N.reduce (n :: ns) =
    if N.stays n then N.reduce ns else if n = N.up then N.reduce ns else n :: N.moves ns := by
  unfold reduce
  rw [moves_cons]
  by_cases hn : N.stays n = true
  · rw [if_pos hn, if_pos hn]
  · rw [if_neg hn, if_neg hn, List.dropWhile_cons]
    simp only [decide_eq_true_eq]

theorem reduce_eq_nil : N.reduce ns = [] ↔ ∀ n ∈ ns, N.stays n = true ∨ n = N.up := by
  unfold reduce moves
  simp only [List.dropWhile_eq_nil_iff, List.mem_filter, decide_eq_true_eq]
  constructor
  · intro h n hn
    by_cases hs : N.stays n = true
    · exact .inl hs
    · exact .inr (h n ⟨hn, by simp [hs]⟩)
  · rintro h n ⟨hn, hs⟩
    exact (h n hn).resolve_left (by simpa using hs)

theorem length_reduce_le : (N.reduce ns).length ≤ (N.moves ns).length :=
  List.length_dropWhile_le _ _

/-- A file system in which only the root's way up is not a way further down. -/
def free (N : PathNames ν) : FileTree N where
  Dir := List ν
  root := []
  lookup d n := if d = [] ∧ n = N.up then some [] else some (d ++ [n])
  root_up := if_pos ⟨rfl, rfl⟩

theorem walk_free_of_ne {d : N.free.Dir} (hd : d ≠ N.free.root) :
    N.free.walk d ns = some (List.append d (N.moves ns)) := by
  induction ns generalizing d with
  | nil => exact congrArg some (List.append_nil d).symm
  | cons n ns ih =>
    rw [moves_cons, FileTree.walk]
    by_cases hn : N.stays n = true
    · rw [if_pos hn, if_pos hn]
      exact ih hd
    · have hl : N.free.lookup d n = some (List.append d [n]) := if_neg fun h => hd h.1
      have hne : List.append d [n] ≠ [] := List.append_ne_nil_of_right_ne_nil d (List.cons_ne_nil n [])
      rw [if_neg hn, if_neg hn, hl]
      exact (ih hne).trans (congrArg some (List.append_assoc d [n] _))

theorem walk_free : N.free.walk N.free.root ns = some (N.reduce ns) := by
  induction ns with
  | nil => rfl
  | cons n ns ih =>
    rw [FileTree.walk, reduce_cons]
    by_cases hs : N.stays n = true
    · rw [if_pos hs, if_pos hs]
      exact ih
    · rw [if_neg hs, if_neg hs]
      by_cases hn : n = N.up
      · rw [if_pos hn, hn, N.free.root_up]
        exact ih
      · have hl : N.free.lookup N.free.root n = some [n] := if_neg fun h => hn h.2
        rw [if_neg hn, hl]
        exact walk_free_of_ne (List.cons_ne_nil n [])

/-- Two paths lead to the same directory if the names that count are the same. -/
theorem same_iff : N.Same ns ms ↔ N.reduce ns = N.reduce ms := by
  constructor
  · intro h
    have hfree := h N.free
    rw [walk_free, walk_free] at hfree
    exact Option.some.inj hfree
  · intro h F
    rw [← walk_reduce, h, walk_reduce]

/-- Another name on the way leads elsewhere, unless it led up from the root and now stays. -/
theorem reduce_replace {l : List ν} (hn : N.stays n = false) (hne : n ≠ m) :
    N.reduce (l ++ n :: ns) = N.reduce (l ++ m :: ns) ↔
      N.reduce l = [] ∧ n = N.up ∧ N.stays m = true := by
  have hlen := @length_reduce_le _ N ns _
  have hn' : ¬ N.stays n = true := by simp [hn]
  rw [reduce_append, reduce_append]
  by_cases hl : N.reduce l = []
  · rw [if_pos hl, if_pos hl, reduce_cons, reduce_cons, if_neg hn']
    constructor
    · intro h
      by_cases hu : n = N.up
      · refine ⟨hl, hu, ?_⟩
        by_contra hm
        rw [if_pos hu, if_neg hm, if_neg (fun he => hne (hu.trans he.symm))] at h
        have hlong := congrArg List.length h
        rw [List.length_cons] at hlong
        omega
      · exfalso
        rw [if_neg hu] at h
        have hlong := congrArg List.length h
        rw [List.length_cons] at hlong
        split_ifs at h hlong
        · omega
        · omega
        · exact hne (List.cons.inj h).1
    · rintro ⟨-, hu, hm⟩
      rw [if_pos hu, if_pos hm]
  · rw [if_neg hl, if_neg hl, moves_cons, moves_cons, if_neg hn']
    constructor
    · intro h
      exfalso
      have h' := List.append_cancel_left h
      have hlong := congrArg List.length h'
      rw [List.length_cons] at hlong
      split_ifs at h' hlong
      · omega
      · exact hne (List.cons.inj h').1
    · exact fun h => absurd h.1 hl

end PathNames
