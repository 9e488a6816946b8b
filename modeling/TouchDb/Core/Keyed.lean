import TouchDb.Core.Deques
import Mathlib.Data.List.DropRight
import Mathlib.Data.List.Sigma

/-! Tables of queues: under a key there is a queue or none. What such a table is asked, and what
it answers. -/

namespace KeyedQueues
variable {κ ν β γ : Type}

/-- A question, with its answer. -/
inductive Act (κ ν : Type) where
  | clear (k : κ)
  | push (k : κ) (v : ν)
  | pop (k : κ) (r : Option ν)
  | nth (k : κ) (i : ℤ) (r : Option ν)
  | length (k : κ) (n : ℤ)

section Tables
variable [DecidableEq κ]

/-- What each act leaves of the table, and the one answer it may have. A push makes a queue where
there is none, and `clear` takes one away. -/
inductive Step : (κ → Option (List ν)) → Act κ ν → (κ → Option (List ν)) → Prop
  | clear (q : κ → Option (List ν)) (k : κ) : Step q (.clear k) (Function.update q k none)
  | push (q : κ → Option (List ν)) (k : κ) (v : ν) :
      Step q (.push k v) (Function.update q k (some ((q k).getD [] ++ [v])))
  | pop (q : κ → Option (List ν)) (k : κ) :
      Step q (.pop k ((q k).bind List.head?)) (Function.update q k ((q k).map List.tail))
  | nth (q : κ → Option (List ν)) (k : κ) (i : ℤ) :
      Step q (.nth k i ((q k).bind fun l => Deques.nth l i)) q
  | length (q : κ → Option (List ν)) (k : κ) :
      Step q (.length k (((q k).map fun l => (l.length : ℤ)).getD (-1))) q

/-- The histories of a table without queues, and what each leaves. -/
inductive Accepts : List (Act κ ν) → (κ → Option (List ν)) → Prop
  | nil : Accepts [] fun _ => none
  | snoc {l : List (Act κ ν)} {q q' : κ → Option (List ν)} {x : Act κ ν} :
      Accepts l q → Step q x q' → Accepts (l ++ [x]) q'

/-- The elements pushed under `k`, oldest first. -/
def pushed (k : κ) (l : List (Act κ ν)) : List ν := l.filterMap fun
  | .push j v => if j = k then some v else none
  | _ => none

def popped (k : κ) (l : List (Act κ ν)) : List ν := l.filterMap fun
  | .pop j r => if j = k then r else none
  | _ => none

def Act.clears (k : κ) : Act κ ν → Bool
  | .clear j => decide (j = k)
  | _ => false

/-- What has happened since the queue under `k` was last taken away. -/
def since (k : κ) (l : List (Act κ ν)) : List (Act κ ν) := l.rtakeWhile fun x => !x.clears k

variable {l : List (Act κ ν)} {q : κ → Option (List ν)} {x : Act κ ν} {k j : κ}

theorem pushed_snoc : pushed k (l ++ [x]) = pushed k l ++ pushed k [x] := List.filterMap_append

theorem popped_snoc : popped k (l ++ [x]) = popped k l ++ popped k [x] := List.filterMap_append

theorem since_snoc (h : x.clears k = false) : since k (l ++ [x]) = since k l ++ [x] :=
  List.rtakeWhile_concat_pos _ _ _ (by rw [h]; rfl)

theorem since_clear : since k (l ++ [.clear k]) = [] :=
  List.rtakeWhile_concat_neg _ _ _ (by simp [Act.clears])

/-- Elements leave in the order in which they came: what was pushed since the last `clear` has
been popped in its turn, or waits. -/
theorem Accepts.order (h : Accepts l q) (k : κ) :
    pushed k (since k l) = popped k (since k l) ++ (q k).getD [] := by
  induction h with
  | nil => rfl
  | @snoc l q q' x _ hs ih =>
    cases hs with
    | clear j =>
      by_cases hj : j = k
      · subst hj
        rw [since_clear, Function.update_self]
        rfl
      · rw [since_snoc (by simp [Act.clears, hj]), pushed_snoc, popped_snoc, ih,
          Function.update_of_ne (Ne.symm hj)]
        simp [pushed, popped]
    | push j v =>
      rw [since_snoc rfl, pushed_snoc, popped_snoc, ih]
      by_cases hj : j = k
      · subst hj
        simp [pushed, popped]
      · simp [pushed, popped, hj, Function.update_of_ne (Ne.symm hj)]
    | pop j =>
      rw [since_snoc rfl, pushed_snoc, popped_snoc, ih]
      by_cases hj : j = k
      · subst hj
        rcases hq : q j with _ | _ | ⟨v, r⟩ <;> simp [pushed, popped]
      · simp [pushed, popped, hj, Function.update_of_ne (Ne.symm hj)]
    | nth j i =>
      rw [since_snoc rfl, pushed_snoc, popped_snoc, ih]
      simp [pushed, popped]
    | length j =>
      rw [since_snoc rfl, pushed_snoc, popped_snoc, ih]
      simp [pushed, popped]

end Tables

/-! Tables that are given by a list of keys with what is under them. -/
section Lists
variable [DecidableEq κ] {f : β → γ} {l l' : List (Σ _ : κ, β)} {k j : κ} {x y : β}

def table (f : β → γ) (l : List (Σ _ : κ, β)) (k : κ) : Option γ := (l.dlookup k).map f

theorem table_cons : table f (⟨k, x⟩ :: l) = Function.update (table f l) k (some (f x)) := by
  funext j
  unfold table
  by_cases hj : j = k
  · subst hj
    rw [List.dlookup_cons_eq, Function.update_self]
    rfl
  · rw [List.dlookup_cons_ne l (⟨k, x⟩ : Σ _ : κ, β) hj, Function.update_of_ne hj]

/-- Something else is put under a key. -/
theorem table_set : Function.update (table f (⟨k, x⟩ :: l)) k (some (f y)) = table f (⟨k, y⟩ :: l) := by
  rw [table_cons, table_cons, Function.update_idem]

theorem table_erase (h : l.NodupKeys) : table f (l.kerase k) = Function.update (table f l) k none := by
  funext j
  unfold table
  by_cases hj : j = k
  · subst hj
    rw [List.dlookup_kerase _ h, Function.update_self]
    rfl
  · rw [List.dlookup_kerase_ne hj, Function.update_of_ne hj]

theorem table_perm (h : l.NodupKeys) (hp : l.Perm l') : table f l = table f l' := by
  funext j
  unfold table
  rw [List.perm_dlookup j h hp]

end Lists

end KeyedQueues
