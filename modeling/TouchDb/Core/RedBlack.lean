import Mathlib.Order.Basic
import Mathlib.Data.List.Nodup
import Mathlib.Data.List.Pairwise
import Mathlib.Data.Nat.Log
import Mathlib.Tactic.NormNum
import Mathlib.Tactic.Common
import Mathlib.Order.Lattice

/-! Red-black trees, taken apart at a place: a subtree and the path above it, the nearest
ancestor first. -/

inductive RbColor where
  | red | black
  deriving DecidableEq

inductive RbTree (α : Type) where
  | nil
  | node (c : RbColor) (l : RbTree α) (x : α) (r : RbTree α)

inductive Side where
  | left | right
  deriving DecidableEq

namespace Side

def other : Side → Side
  | left => right
  | right => left

@[simp] theorem other_other (d : Side) : d.other.other = d := by cases d <;> rfl

end Side

namespace RbTree
open RbColor
variable {α : Type}

/-- A `nil` counts as black. -/
def color : RbTree α → RbColor
  | nil => black
  | node c _ _ _ => c

def toList : RbTree α → List α
  | nil => []
  | node _ l x r => l.toList ++ x :: r.toList

def blacken : RbTree α → RbTree α
  | nil => nil
  | node _ l x r => node black l x r

/-- No red node has a red child, and every path to a `nil` meets `n` black nodes. -/
inductive Balanced : RbTree α → ℕ → Prop
  | nil : Balanced nil 0
  | red {l x r n} (hl : Balanced l n) (hr : Balanced r n) (cl : l.color = black)
      (cr : r.color = black) : Balanced (node red l x r) n
  | black {l x r n} (hl : Balanced l n) (hr : Balanced r n) : Balanced (node black l x r) (n + 1)

/-- A red-black tree: balanced, with a black root. -/
def Valid (t : RbTree α) : Prop := t.color = black ∧ ∃ n, t.Balanced n

section Balanced
variable {l r t : RbTree α} {x : α} {n m : ℕ} {c : RbColor}

theorem color_ne_black : c ≠ black ↔ c = red := by cases c <;> simp

theorem exists_red (h : t.color ≠ black) : ∃ l x r, t = node red l x r := by
  cases t with
  | nil => exact absurd rfl h
  | node c l x r =>
    obtain rfl : c = RbColor.red := color_ne_black.mp h
    exact ⟨l, x, r, rfl⟩

/-- A single label is the root. -/
theorem toList_eq_singleton {y : α} (h : (node c l x r).toList = [y]) : l = nil ∧ x = y ∧ r = nil := by
  have hnil {t : RbTree α} (ht : t.toList = []) : t = nil := by
    cases t with
    | nil => rfl
    | node c l x r => simp [toList] at ht
  rw [toList, List.append_eq_singleton_iff] at h
  rcases h with ⟨hl, hr⟩ | ⟨-, hr⟩
  · obtain ⟨hx, hr'⟩ := List.cons.inj hr
    exact ⟨hnil hl, hx, hnil hr'⟩
  · cases hr

@[simp] theorem color_blacken (t : RbTree α) : t.blacken.color = black := by cases t <;> rfl

@[simp] theorem toList_blacken (t : RbTree α) : t.blacken.toList = t.toList := by cases t <;> rfl

theorem blacken_of_black (h : t.color = black) : t.blacken = t := by
  cases t with
  | nil => rfl
  | node c l x r =>
    obtain rfl : c = RbColor.black := h
    rfl

theorem Balanced.blacken (h : t.Balanced n) : ∃ m, t.blacken.Balanced m := by
  cases h with
  | nil => exact ⟨0, .nil⟩
  | red hl hr _ _ => exact ⟨_, .black hl hr⟩
  | black hl hr => exact ⟨_, .black hl hr⟩

/-- A red subtree that is made black is one higher. -/
theorem Balanced.blacken_red (h : t.Balanced n) (hc : t.color = RbColor.red) :
    t.blacken.Balanced (n + 1) := by
  cases h with
  | nil => cases hc
  | red hl hr _ _ => exact .black hl hr
  | black hl hr => cases hc

theorem Balanced.red_iff : (node .red l x r).Balanced n ↔
    l.Balanced n ∧ r.Balanced n ∧ l.color = RbColor.black ∧ r.color = RbColor.black := by
  constructor
  · intro h
    cases h with
    | red hl hr cl cr => exact ⟨hl, hr, cl, cr⟩
  · rintro ⟨hl, hr, cl, cr⟩
    exact .red hl hr cl cr

theorem Balanced.black_iff : (node .black l x r).Balanced n ↔
    ∃ m, n = m + 1 ∧ l.Balanced m ∧ r.Balanced m := by
  constructor
  · intro h
    cases h with
    | black hl hr => exact ⟨_, rfl, hl, hr⟩
  · rintro ⟨m, rfl, hl, hr⟩
    exact .black hl hr

/-- The height of a tree is one number. -/
theorem Balanced.unique (h : t.Balanced n) (h' : t.Balanced m) : n = m := by
  induction t generalizing n m with
  | nil =>
    cases h
    cases h'
    rfl
  | node c l x r ihl ihr =>
    cases c with
    | red => exact ihl (Balanced.red_iff.mp h).1 (Balanced.red_iff.mp h').1
    | black =>
      obtain ⟨i, rfl, hl, -⟩ := Balanced.black_iff.mp h
      obtain ⟨j, rfl, hl', -⟩ := Balanced.black_iff.mp h'
      rw [ihl hl hl']

theorem Balanced.ne_nil (h : t.Balanced (n + 1)) : ∃ c l x r, t = node c l x r := by
  cases t with
  | nil => cases h
  | node c l x r => exact ⟨c, l, x, r, rfl⟩

end Balanced

section Map
variable {β : Type} (f : α → β)

def map : RbTree α → RbTree β
  | nil => nil
  | node c l x r => node c (l.map) (f x) (r.map)

@[simp] theorem color_map (t : RbTree α) : (t.map f).color = t.color := by cases t <;> rfl

@[simp] theorem toList_map (t : RbTree α) : (t.map f).toList = t.toList.map f := by
  induction t with
  | nil => rfl
  | node c l x r ihl ihr => simp only [map, toList, ihl, ihr, List.map_append, List.map_cons]

theorem map_eq_nil {t : RbTree α} : t.map f = nil ↔ t = nil := by cases t <;> simp [map]

theorem map_eq_node {t : RbTree α} {c : RbColor} {l r : RbTree β} {x : β} :
    t.map f = node c l x r ↔
      ∃ l' y r', t = node c l' y r' ∧ l'.map f = l ∧ f y = x ∧ r'.map f = r := by
  cases t with
  | nil => simp [map]
  | node d l' y r' =>
    simp only [map, node.injEq]
    constructor
    · rintro ⟨rfl, hl, hx, hr⟩
      exact ⟨l', y, r', ⟨rfl, rfl, rfl, rfl⟩, hl, hx, hr⟩
    · rintro ⟨_, _, _, ⟨rfl, rfl, rfl, rfl⟩, hl, hx, hr⟩
      exact ⟨rfl, hl, hx, hr⟩

theorem balanced_map {t : RbTree α} {n : ℕ} : (t.map f).Balanced n ↔ t.Balanced n := by
  induction t generalizing n with
  | nil =>
    constructor
    · intro h
      cases h
      exact .nil
    · intro h
      cases h
      exact .nil
  | node c l x r ihl ihr =>
    cases c with
    | red => simp only [map, Balanced.red_iff, ihl, ihr, color_map]
    | black => simp only [map, Balanced.black_iff, ihl, ihr]

theorem valid_map {t : RbTree α} : (t.map f).Valid ↔ t.Valid := by
  simp only [Valid, color_map, balanced_map]

/-- A tree with other labels in the same places. -/
theorem exists_map {t : RbTree β} {ys : List α} (h : ys.map f = t.toList) :
    ∃ u : RbTree α, u.map f = t ∧ u.toList = ys := by
  induction t generalizing ys with
  | nil => exact ⟨nil, rfl, (List.map_eq_nil_iff.mp h).symm⟩
  | node c l x r ihl ihr =>
    obtain ⟨y₁, y₂, rfl, h₁, h₂⟩ := List.map_eq_append_iff.mp h
    obtain ⟨y, y₃, rfl, rfl, h₃⟩ := List.map_eq_cons_iff.mp h₂
    obtain ⟨l', rfl, rfl⟩ := ihl h₁
    obtain ⟨r', rfl, rfl⟩ := ihr h₃
    exact ⟨node c l' y r', rfl, rfl⟩

end Map

/-- A step of a path: the node above the place, on which side of it the place is, and the
subtree on its other side. -/
structure Crumb (α : Type) where
  side : Side
  color : RbColor
  label : α
  sibling : RbTree α

abbrev Path (α : Type) := List (Crumb α)

def Crumb.fill (f : Crumb α) (t : RbTree α) : RbTree α :=
  match f.side with
  | .left => node f.color t f.label f.sibling
  | .right => node f.color f.sibling f.label t

def fill : Path α → RbTree α → RbTree α
  | [], t => t
  | f :: p, t => fill p (f.fill t)

/-- What stands before the place, in order. -/
def Path.before : Path α → List α
  | [] => []
  | f :: p => match f.side with
    | .left => Path.before p
    | .right => Path.before p ++ (f.sibling.toList ++ [f.label])

def Path.after : Path α → List α
  | [] => []
  | f :: p => match f.side with
    | .left => f.label :: f.sibling.toList ++ Path.after p
    | .right => Path.after p

/-- The color of the node above the place. -/
def Path.color : Path α → RbColor
  | [] => black
  | f :: _ => f.color

/-- The step to the sibling of the place where `t` is. -/
def Crumb.turn (f : Crumb α) (t : RbTree α) : Crumb α := ⟨f.side.other, f.color, f.label, t⟩

section Paths
variable {f : Crumb α} {p q : Path α} {t u : RbTree α} {n m : ℕ}

@[simp] theorem fill_nil (t : RbTree α) : fill [] t = t := rfl

theorem fill_cons (f : Crumb α) (p : Path α) (t : RbTree α) : fill (f :: p) t = fill p (f.fill t) :=
  rfl

theorem fill_append (p q : Path α) (t : RbTree α) : fill (p ++ q) t = fill q (fill p t) := by
  induction p generalizing t with
  | nil => rfl
  | cons f p ih => exact ih _

theorem Crumb.fill_turn (f : Crumb α) (t : RbTree α) : (f.turn t).fill f.sibling = f.fill t := by
  rcases f with ⟨⟨⟩, c, x, s⟩ <;> rfl

theorem fill_turn (f : Crumb α) (p : Path α) (t : RbTree α) :
    fill (f.turn t :: p) f.sibling = fill (f :: p) t := by
  rw [fill_cons, fill_cons, Crumb.fill_turn]

@[simp] theorem Crumb.color_fill (f : Crumb α) (t : RbTree α) : (f.fill t).color = f.color := by
  rcases f with ⟨⟨⟩, c, x, s⟩ <;> rfl

/-- The color of the root depends on the color at the place only. -/
theorem color_fill_congr (p : Path α) (h : u.color = t.color) : (fill p u).color = (fill p t).color := by
  induction p generalizing t u with
  | nil => exact h
  | cons f p ih =>
    apply ih
    rw [Crumb.color_fill, Crumb.color_fill]

/-- The labels, in order: what stands before the place, the subtree, what stands after. -/
theorem toList_fill (p : Path α) (t : RbTree α) :
    (fill p t).toList = p.before ++ t.toList ++ p.after := by
  induction p generalizing t with
  | nil => simp [Path.before, Path.after]
  | cons f p ih =>
    rw [fill_cons, ih]
    rcases f with ⟨⟨⟩, c, x, s⟩
    · simp [Crumb.fill, toList, Path.before, Path.after]
    · simp [Crumb.fill, toList, Path.before, Path.after]

/-- Only the labels of the subtree count. -/
theorem toList_fill_congr (p : Path α) (h : u.toList = t.toList) :
    (fill p u).toList = (fill p t).toList := by
  rw [toList_fill, toList_fill, h]

/-- Every label is at the end of a path. -/
theorem exists_fill {x : α} (h : x ∈ t.toList) : ∃ p c l r, t = fill p (node c l x r) := by
  induction t with
  | nil => exact absurd h List.not_mem_nil
  | node c l y r ihl ihr =>
    simp only [toList, List.mem_append, List.mem_cons] at h
    rcases h with h | rfl | h
    · obtain ⟨p, d, a, b, rfl⟩ := ihl h
      exact ⟨p ++ [⟨.left, c, y, r⟩], d, a, b, by rw [fill_append]; rfl⟩
    · exact ⟨[], c, l, r, rfl⟩
    · obtain ⟨p, d, a, b, rfl⟩ := ihr h
      exact ⟨p ++ [⟨.right, c, y, l⟩], d, a, b, by rw [fill_append]; rfl⟩

/-- A tree of height `n` fits in the place, if its root is black or the node above is. -/
inductive Fits : Path α → ℕ → Prop
  | top (n : ℕ) : Fits [] n
  | red {f : Crumb α} {p n} (hf : f.color = red) (hs : f.sibling.Balanced n)
      (cs : f.sibling.color = black) (hp : Fits p n) (hne : p ≠ []) (cp : p.color = black) :
      Fits (f :: p) n
  | black {f : Crumb α} {p n} (hf : f.color = black) (hs : f.sibling.Balanced n)
      (hp : Fits p (n + 1)) : Fits (f :: p) n

/-- A root of this color may stand at the place. -/
def Allows (p : Path α) (c : RbColor) : Prop := c = red → p ≠ [] ∧ p.color = black

theorem allows_black (p : Path α) : Allows p black := fun h => nomatch h

theorem Fits.sibling (h : Fits (f :: p) n) : f.sibling.Balanced n := by
  cases h with
  | red hf hs cs hp hne cp => exact hs
  | black hf hs hp => exact hs

/-- The subtree at the node above is balanced, and the rest of the path fits it. -/
theorem Fits.up (h : Fits (f :: p) n) (ht : t.Balanced n) (hc : Allows (f :: p) t.color) :
    ∃ m, Fits p m ∧ (f.fill t).Balanced m ∧ Allows p (f.fill t).color := by
  cases h with
  | red hf hs cs hp hne cp =>
    have ct : t.color = RbColor.black := by
      by_contra h
      have h1 := (hc (color_ne_black.mp h)).2
      rw [show Path.color (f :: p) = f.color from rfl, hf] at h1
      cases h1
    refine ⟨n, hp, ?_, fun _ => ⟨hne, cp⟩⟩
    rcases f with ⟨⟨⟩, c, x, s⟩
    · obtain rfl : c = RbColor.red := hf
      exact .red ht hs ct cs
    · obtain rfl : c = RbColor.red := hf
      exact .red hs ht cs ct
  | black hf hs hp =>
    refine ⟨n + 1, hp, ?_, ?_⟩
    · rcases f with ⟨⟨⟩, c, x, s⟩
      · obtain rfl : c = RbColor.black := hf
        exact .black ht hs
      · obtain rfl : c = RbColor.black := hf
        exact .black hs ht
    · rw [Crumb.color_fill, hf]
      exact allows_black p

/-- Another sibling of the same height, with a black root. -/
theorem Fits.swap {s s' : Side} {c : RbColor} {x x' : α} {v : RbTree α}
    (h : Fits (⟨s, c, x, t⟩ :: p) n) (hv : v.Balanced n) (cv : v.color = RbColor.black) :
    Fits (⟨s', c, x', v⟩ :: p) n := by
  cases h with
  | red hf hs cs hp hne cp => exact .red hf hv cv hp hne cp
  | black hf hs hp => exact .black hf hv hp

/-- Below a red sibling stands a black node. -/
theorem Fits.of_red (h : Fits (f :: p) n) (hs : f.sibling.color = RbColor.red) :
    f.color = RbColor.black ∧ Fits p (n + 1) := by
  cases h with
  | red hf _ cs _ _ _ =>
    rw [hs] at cs
    cases cs
  | black hf _ hp => exact ⟨hf, hp⟩

theorem Fits.valid (h : Fits p n) (ht : t.Balanced n) (hc : Allows p t.color) : (fill p t).Valid := by
  induction p generalizing t n with
  | nil =>
    refine ⟨?_, n, ht⟩
    by_contra hne
    exact (hc (color_ne_black.mp hne)).1 rfl
  | cons f p ih =>
    obtain ⟨m, hp, hb, ha⟩ := h.up ht hc
    exact ih hp hb ha

theorem Fits.of_fill (h : fill p t |>.Valid) : ∃ n, Fits p n ∧ t.Balanced n ∧ Allows p t.color := by
  induction p generalizing t with
  | nil =>
    obtain ⟨hc, n, hn⟩ := h
    refine ⟨n, .top n, hn, fun hr => ?_⟩
    rw [show t.color = RbColor.black from hc] at hr
    cases hr
  | cons f p ih =>
    obtain ⟨m, hp, hb, ha⟩ := ih h
    rcases f with ⟨d, c, x, s⟩
    cases c with
    | red =>
      obtain ⟨hne, cp⟩ := ha (by cases d <;> rfl)
      have hb' : s.Balanced m ∧ t.Balanced m ∧ s.color = RbColor.black ∧
          t.color = RbColor.black := by
        cases d with
        | left =>
          obtain ⟨h1, h2, h3, h4⟩ := Balanced.red_iff.mp hb
          exact ⟨h2, h1, h4, h3⟩
        | right => exact Balanced.red_iff.mp hb
      refine ⟨m, .red rfl hb'.1 hb'.2.2.1 hp hne cp, hb'.2.1, ?_⟩
      rw [hb'.2.2.2]
      exact allows_black _
    | black =>
      have hb' : ∃ k, m = k + 1 ∧ s.Balanced k ∧ t.Balanced k := by
        cases d with
        | left =>
          obtain ⟨k, hk, h1, h2⟩ := Balanced.black_iff.mp hb
          exact ⟨k, hk, h2, h1⟩
        | right => exact Balanced.black_iff.mp hb
      obtain ⟨k, rfl, hs, ht⟩ := hb'
      exact ⟨k, .black rfl hs hp, ht, fun _ => ⟨List.cons_ne_nil _ _, rfl⟩⟩

end Paths

/-! Removal. -/
section Remove
variable {p q : Path α} {t l r v : RbTree α} {x y : α} {c d : RbColor} {n : ℕ}

/-- Down the left children, as far as they go. -/
def descend : RbTree α → Path α → Path α × RbTree α
  | nil, q => (q, nil)
  | node c nil x r, q => (q, node c nil x r)
  | node c (node c' l y m) x r, q => descend (node c' l y m) (⟨.left, c, x, r⟩ :: q)

theorem fill_descend (t : RbTree α) (q : Path α) : fill (descend t q).1 (descend t q).2 = fill q t := by
  induction t generalizing q with
  | nil => rfl
  | node c l x r ihl ihr =>
    cases l with
    | nil => rfl
    | node c' l y m => exact ihl _

theorem descend_append (t : RbTree α) (q p : Path α) :
    descend t (q ++ p) = ((descend t q).1 ++ p, (descend t q).2) := by
  induction t generalizing q with
  | nil => rfl
  | node c l x r ihl ihr =>
    cases l with
    | nil => rfl
    | node c' l y m => exact ihl (_ :: q)

theorem descend_node (c : RbColor) (l : RbTree α) (x : α) (r : RbTree α) (q : Path α) :
    ∃ d y v, (descend (node c l x r) q).2 = node d nil y v := by
  induction l generalizing c x r q with
  | nil => exact ⟨c, x, r, rfl⟩
  | node c' l y m ihl ihm => exact ihl c' y m _

/-- Nothing stands before a place that is reached to the left only. -/
theorem before_descend (t : RbTree α) (q : Path α) : (descend t q).1.before = q.before := by
  induction t generalizing q with
  | nil => rfl
  | node c l x r ihl ihr =>
    cases l with
    | nil => rfl
    | node c' l' y m => exact ihl (⟨.left, c, x, r⟩ :: q)

/-- The labels along a path do not count. -/
theorem Fits.relabel {s : Side} (h : Fits (q ++ ⟨s, c, x, t⟩ :: p) n) (y : α) :
    Fits (q ++ ⟨s, c, y, t⟩ :: p) n := by
  induction q generalizing n with
  | nil =>
    cases h with
    | red hf hs cs hp hne cp => exact .red hf hs cs hp hne cp
    | black hf hs hp => exact .black hf hs hp
  | cons f q ih =>
    cases h with
    | red hf hs cs hp hne cp =>
      apply Fits.red hf hs cs (ih hp)
      · simp
      · cases q with
        | nil => exact cp
        | cons g q => exact cp
    | black hf hs hp => exact .black hf hs (ih hp)

/-- What is left where a node was taken out: the place, the subtree that stays there, the color
that the place has lost, and whether that node was a right child that moved up to its parent. -/
structure Gap (α : Type) where
  path : Path α
  sub : RbTree α
  color : RbColor
  direct : Bool

/-- The node between `l` and `r` goes. Where it has two children, the next node takes its place, and
is missing below. -/
def gap (p : Path α) (c : RbColor) (l r : RbTree α) : Gap α :=
  match l, r with
  | nil, r => ⟨p, r, c, false⟩
  | l, nil => ⟨p, l, c, false⟩
  | l, r =>
    match descend r [] with
    | (q, nil) => ⟨q, nil, c, true⟩
    | (q, node d _ y v) => ⟨q ++ ⟨.right, c, y, l⟩ :: p, v, d, q.isEmpty⟩

theorem gap_cases (p : Path α) (c : RbColor) (l r : RbTree α) :
    (∃ v, (l = nil ∧ v = r ∨ l ≠ nil ∧ r = nil ∧ v = l) ∧ gap p c l r = ⟨p, v, c, false⟩) ∨
      ∃ q d y v, l ≠ nil ∧ r ≠ nil ∧ descend r [] = (q, node d nil y v) ∧
        gap p c l r = ⟨q ++ ⟨.right, c, y, l⟩ :: p, v, d, q.isEmpty⟩ := by
  cases l with
  | nil => exact .inl ⟨r, .inl ⟨rfl, rfl⟩, rfl⟩
  | node cl l₁ xl l₂ =>
    cases r with
    | nil => exact .inl ⟨_, .inr ⟨by simp, rfl, rfl⟩, rfl⟩
    | node cr r₁ xr r₂ =>
      obtain ⟨d, y, v, h⟩ := descend_node cr r₁ xr r₂ []
      have hd : descend (node cr r₁ xr r₂) [] = ((descend (node cr r₁ xr r₂) []).1, node d nil y v) :=
        Prod.ext rfl h
      refine .inr ⟨_, d, y, v, by simp, by simp, hd, ?_⟩
      unfold gap
      dsimp only
      rw [hd]

/-- The node below which the next node stands, in the whole tree. -/
theorem fill_next (hd : descend r [] = (q, node d nil y v)) (p : Path α) (c : RbColor) (l : RbTree α)
    (x : α) : fill (q ++ ⟨.right, c, x, l⟩ :: p) (node d nil y v) = fill p (node c l x r) := by
  have h1 := fill_descend r []
  rw [hd] at h1
  rw [fill_append, h1]
  rfl

theorem toList_next (hd : descend r [] = (q, node d nil y v)) :
    r.toList = y :: (v.toList ++ q.after) ∧ q.before = [] := by
  have hb := before_descend r []
  have ht := fill_descend r []
  rw [hd] at hb ht
  have hq : q.before = [] := hb
  refine ⟨?_, hq⟩
  rw [← fill_nil r, ← ht, toList_fill, hq]
  rfl

theorem toList_gap (p : Path α) (c : RbColor) (l r : RbTree α) :
    (fill (gap p c l r).path (gap p c l r).sub).toList = p.before ++ (l.toList ++ r.toList) ++ p.after := by
  rcases gap_cases p c l r with ⟨v, hv, hg⟩ | ⟨q, d, y, v, -, -, hd, hg⟩
  · rw [hg, toList_fill]
    rcases hv with ⟨rfl, rfl⟩ | ⟨-, rfl, rfl⟩ <;> simp [toList]
  · obtain ⟨hr, hq⟩ := toList_next hd
    have h1 : (fill q v).toList = v.toList ++ q.after := by
      rw [toList_fill, hq, List.nil_append]
    rw [hg, fill_append, fill_cons, toList_fill, hr]
    simp [Crumb.fill, toList, h1]

theorem gap_sublist (p : Path α) (c : RbColor) (l : RbTree α) (x : α) (r : RbTree α) :
    (fill (gap p c l r).path (gap p c l r).sub).toList.Sublist (fill p (node c l x r)).toList := by
  rw [toList_gap, toList_fill]
  exact (((List.sublist_cons_self x _).append_left _).append_left _).append_right _

/-- A tree without one of its nodes is in order, or short of one black node at the gap. -/
theorem gap_fits {p : Path α} {l r : RbTree α} {x : α} (h : (fill p (node c l x r)).Valid) :
    (gap p c l r).color = RbColor.red ∧ (fill (gap p c l r).path (gap p c l r).sub).Valid ∨
      ∃ n, (gap p c l r).color = RbColor.black ∧ Fits (gap p c l r).path (n + 1) ∧
        (gap p c l r).sub.Balanced n := by
  -- one child at most
  have hone {P : Path α} {e : RbColor} {a b v : RbTree α} {z : α}
      {m : ℕ} (hf : Fits P m) (hb : (node e a z b).Balanced m) (hv : v = a ∨ v = b) :
      e = RbColor.red ∧ (fill P v).Valid ∨ ∃ n, e = RbColor.black ∧ Fits P (n + 1) ∧ v.Balanced n := by
    cases e with
    | red =>
      obtain ⟨h1, h2, h3, h4⟩ := Balanced.red_iff.mp hb
      refine .inl ⟨rfl, ?_⟩
      rcases hv with rfl | rfl
      · exact hf.valid h1 (h3 ▸ allows_black P)
      · exact hf.valid h2 (h4 ▸ allows_black P)
    | black =>
      obtain ⟨n, rfl, h1, h2⟩ := Balanced.black_iff.mp hb
      refine .inr ⟨n, rfl, hf, ?_⟩
      rcases hv with rfl | rfl
      · exact h1
      · exact h2
  rcases gap_cases p c l r with ⟨v, hv, hg⟩ | ⟨q, d, y, v, -, -, hd, hg⟩
  · rw [hg]
    obtain ⟨m, hf, hb, -⟩ := Fits.of_fill h
    exact hone hf hb (by rcases hv with ⟨-, h1⟩ | ⟨-, -, h1⟩ <;> simp [h1])
  · rw [hg]
    rw [← fill_next hd] at h
    obtain ⟨m, hf, hb, -⟩ := Fits.of_fill h
    exact hone (hf.relabel y) hb (.inr rfl)

end Remove

/-- The label at a place does not count. -/
theorem Valid.relabel {p : Path α} {c : RbColor} {l r : RbTree α} {x : α}
    (h : (fill p (node c l x r)).Valid) (y : α) : (fill p (node c l y r)).Valid := by
  obtain ⟨n, hf, hb, ha⟩ := Fits.of_fill h
  have hb' : (node c l y r).Balanced n := by
    cases c with
    | red => exact Balanced.red_iff.mpr (Balanced.red_iff.mp hb)
    | black => exact Balanced.black_iff.mpr (Balanced.black_iff.mp hb)
  exact hf.valid hb' ha

/-- A label and those before and after it. -/
theorem toList_fill_perm (p : Path α) (c : RbColor) (l : RbTree α) (x : α) (r : RbTree α) :
    (fill p (node c l x r)).toList.Perm (x :: (p.before ++ (l.toList ++ r.toList) ++ p.after)) := by
  have h1 : (fill p (node c l x r)).toList = (p.before ++ l.toList) ++ x :: (r.toList ++ p.after) := by
    rw [toList_fill]
    simp [toList]
  have h2 : p.before ++ (l.toList ++ r.toList) ++ p.after = (p.before ++ l.toList) ++ (r.toList ++ p.after) := by
    simp
  rw [h1, h2]
  exact List.perm_middle

/-! Search trees. -/
section Search
variable {κ : Type} [LinearOrder κ] (key : α → κ) (k : κ)

/-- The keys increase strictly from left to right. -/
def Sorted (t : RbTree α) : Prop := (t.toList.map key).Pairwise (· < ·)

/-- The place of the key `k`: down from `t` until the key or a `nil` is met. -/
def locate : RbTree α → Path α → Path α × RbTree α
  | nil, p => (p, nil)
  | node c l x r, p =>
    if key x < k then locate r (⟨.right, c, x, l⟩ :: p)
    else if k < key x then locate l (⟨.left, c, x, r⟩ :: p)
    else (p, node c l x r)

/-- The place lies between the smaller and the greater keys. -/
def Path.Around (p : Path α) : Prop := (∀ x ∈ p.before, key x < k) ∧ ∀ x ∈ p.after, k < key x

variable {key k} {t : RbTree α} {p : Path α} {x : α} {c : RbColor} {l r : RbTree α}

theorem locate_fill (t : RbTree α) (p : Path α) :
    fill (locate key k t p).1 (locate key k t p).2 = fill p t := by
  induction t generalizing p with
  | nil => rfl
  | node c l x r ihl ihr =>
    unfold locate
    split_ifs with h1 h2
    · exact ihr _
    · exact ihl _
    · rfl

theorem locate_node (h : (locate key k t p).2 = node c l x r) : key x = k := by
  induction t generalizing p with
  | nil => cases h
  | node c' l' y r' ihl ihr =>
    unfold locate at h
    split_ifs at h with h1 h2
    · exact ihr h
    · exact ihl h
    · cases h
      exact le_antisymm (not_lt.mp h2) (not_lt.mp h1)

theorem Sorted.parts (h : Sorted key (fill p (node c l x r))) :
    (∀ y ∈ p.before ++ l.toList, key y < key x) ∧ ∀ y ∈ r.toList ++ p.after, key x < key y := by
  unfold Sorted at h
  rw [toList_fill] at h
  simp only [toList, List.map_append, List.map_cons, List.pairwise_append, List.pairwise_cons,
    List.mem_append, List.mem_map, List.mem_cons] at h
  obtain ⟨⟨-, ⟨-, ⟨hr, -⟩, hl⟩, hb⟩, -, ha⟩ := h
  constructor
  · intro y hy
    rcases List.mem_append.mp hy with hy | hy
    · exact hb _ ⟨y, hy, rfl⟩ _ (.inr (.inl rfl))
    · exact hl _ ⟨y, hy, rfl⟩ _ (.inl rfl)
  · intro y hy
    rcases List.mem_append.mp hy with hy | hy
    · exact hr _ ⟨y, hy, rfl⟩
    · exact ha _ (.inr (.inr (.inl rfl))) _ ⟨y, hy, rfl⟩

/-- Without the key of a node, all other nodes are left. -/
theorem Sorted.filter_ne (h : Sorted key (fill p (node c l x r))) {f : α → Bool}
    (hf : ∀ y, f y = true ↔ key y ≠ key x) :
    (fill p (node c l x r)).toList.filter f = p.before ++ (l.toList ++ r.toList) ++ p.after := by
  obtain ⟨hlow, hhigh⟩ := h.parts
  have hl {ys : List α} (hy : ∀ y ∈ ys, y ∈ p.before ++ l.toList) : ys.filter f = ys :=
    List.filter_eq_self.mpr fun y h1 => (hf y).mpr (hlow y (hy y h1)).ne
  have hr {ys : List α} (hy : ∀ y ∈ ys, y ∈ r.toList ++ p.after) : ys.filter f = ys :=
    List.filter_eq_self.mpr fun y h1 => (hf y).mpr (hhigh y (hy y h1)).ne'
  have hx : ¬ f x = true := mt (hf x).mp (by simp)
  rw [toList_fill, List.filter_append, List.filter_append, toList, List.filter_append,
    List.filter_cons_of_neg hx, hl fun _ => List.mem_append_left _,
    hl fun _ => List.mem_append_right _, hr fun _ => List.mem_append_left _,
    hr fun _ => List.mem_append_right _]

/-- What is done to the label with the key of a node is done to this node only. -/
theorem Sorted.map_eq {β : Type} (h : Sorted key (fill p (node c l x r))) {f g : α → β} {y : α} (hy : g y = f x)
    (hfg : ∀ z, key z ≠ key x → f z = g z) :
    (fill p (node c l y r)).toList.map g = (fill p (node c l x r)).toList.map f := by
  obtain ⟨hlow, hhigh⟩ := h.parts
  have hbefore {zs : List α} (hz : ∀ z ∈ zs, z ∈ p.before ++ l.toList) : zs.map g = zs.map f :=
    List.map_congr_left fun z h1 => (hfg z (hlow z (hz z h1)).ne).symm
  have hafter {zs : List α} (hz : ∀ z ∈ zs, z ∈ r.toList ++ p.after) : zs.map g = zs.map f :=
    List.map_congr_left fun z h1 => (hfg z (hhigh z (hz z h1)).ne').symm
  simp only [toList_fill, toList, List.map_append, List.map_cons, hy,
    hbefore fun _ => List.mem_append_left _, hbefore fun _ => List.mem_append_right _,
    hafter fun _ => List.mem_append_left _, hafter fun _ => List.mem_append_right _]

theorem Sorted.sublist {u : RbTree α} (h : Sorted key t) (hs : u.toList.Sublist t.toList) :
    Sorted key u := List.Pairwise.sublist (hs.map key) h

/-- A key stands at one place only. -/
theorem Sorted.inj (h : Sorted key t) {y : α} (hx : x ∈ t.toList) (hy : y ∈ t.toList)
    (he : key x = key y) : x = y :=
  List.inj_on_of_nodup_map (List.Pairwise.imp ne_of_lt h) hx hy he

theorem locate_around (hs : Sorted key (fill p t)) (hp : p.Around key k) :
    (locate key k t p).1.Around key k := by
  induction t generalizing p with
  | nil => exact hp
  | node c l x r ihl ihr =>
    obtain ⟨hlow, hhigh⟩ := hs.parts
    unfold locate
    split_ifs with h1 h2
    · apply ihr hs
      refine ⟨fun y hy => ?_, hp.2⟩
      simp only [Path.before, List.mem_append, List.mem_singleton] at hy
      rcases hy with hy | hy | rfl
      · exact hp.1 y hy
      · exact (hlow y (List.mem_append_right _ hy)).trans h1
      · exact h1
    · apply ihl hs
      refine ⟨hp.1, fun y hy => ?_⟩
      simp only [Path.after, List.cons_append, List.mem_cons, List.mem_append] at hy
      rcases hy with rfl | hy | hy
      · exact h2
      · exact h2.trans (hhigh y (List.mem_append_left _ hy))
      · exact hp.2 y hy
    · exact hp

/-- Where the search of a whole tree ends that does not find the key. -/
theorem locate_nil_eq (hs : Sorted key t) (h : locate key k t [] = (p, nil)) :
    fill p nil = t ∧ p.Around key k := by
  have htree := @locate_fill _ _ _ key k t []
  have haround : (locate key k t []).1.Around key k :=
    locate_around hs ⟨by simp [Path.before], by simp [Path.after]⟩
  rw [h] at htree haround
  exact ⟨htree, haround⟩

theorem locate_node_eq (h : locate key k t [] = (p, node c l x r)) :
    fill p (node c l x r) = t ∧ key x = k := by
  constructor
  · have htree := @locate_fill _ _ _ key k t []
    rwa [h] at htree
  · apply locate_node (p := []) (t := t)
    rw [h]

/-- A search that ends at a `nil` has not missed the key. -/
theorem notMem_of_around (hp : p.Around key k) : k ∉ (fill p nil).toList.map key := by
  rw [toList_fill]
  intro h
  obtain ⟨x, hx, rfl⟩ := List.mem_map.mp h
  simp only [toList, List.append_nil, List.mem_append] at hx
  rcases hx with hx | hx
  · exact lt_irrefl _ (hp.1 x hx)
  · exact lt_irrefl _ (hp.2 x hx)

/-- The key is put at its place. -/
theorem Sorted.attach (h : Sorted key (fill p nil)) (hp : p.Around key (key x)) :
    Sorted key (fill p (node c nil x nil)) := by
  unfold Sorted at *
  rw [toList_fill] at *
  simp only [toList, List.append_nil, List.nil_append, List.map_append, List.pairwise_append,
    List.map_cons, List.map_nil, List.mem_map, List.mem_append, List.pairwise_singleton,
    List.mem_singleton] at *
  obtain ⟨hb, ha, hba⟩ := h
  refine ⟨⟨hb, trivial, ?_⟩, ha, ?_⟩
  · rintro _ ⟨y, hy, rfl⟩ _ ⟨z, rfl, rfl⟩
    exact hp.1 y hy
  · rintro _ (⟨y, hy, rfl⟩ | ⟨z, rfl, rfl⟩) _ ⟨w, hw, rfl⟩
    · exact hba _ ⟨y, hy, rfl⟩ _ ⟨w, hw, rfl⟩
    · exact hp.2 w hw

end Search

/-! Depth. -/
section Depth
variable {t : RbTree α} {n : ℕ}

/-- The nodes on the longest path. -/
def depth : RbTree α → ℕ
  | nil => 0
  | node _ l _ r => max l.depth r.depth + 1

theorem depth_le_length (t : RbTree α) : t.depth ≤ t.toList.length := by
  induction t with
  | nil => exact le_rfl
  | node c l x r ihl ihr =>
    simp only [depth, toList, List.length_append, List.length_cons]
    omega

/-- With `n` black nodes on every path a tree has no fewer nodes than a full one of that depth. -/
theorem Balanced.pow_le (h : t.Balanced n) : 2 ^ n ≤ t.toList.length + 1 := by
  induction h with
  | nil => exact le_rfl
  | red hl hr cl cr ihl ihr =>
    simp only [toList, List.length_append, List.length_cons]
    omega
  | black hl hr ihl ihr =>
    rw [pow_succ]
    simp only [toList, List.length_append, List.length_cons]
    omega

/-- On a path no two red nodes follow each other. -/
theorem Balanced.depth_le (h : t.Balanced n) :
    t.depth ≤ 2 * n + 1 ∧ (t.color = RbColor.black → t.depth ≤ 2 * n) := by
  induction h with
  | nil => exact ⟨Nat.zero_le _, fun _ => le_rfl⟩
  | red hl hr cl cr ihl ihr =>
    have h1 := ihl.2 cl
    have h2 := ihr.2 cr
    refine ⟨?_, fun h => by cases h⟩
    unfold depth
    omega
  | black hl hr ihl ihr =>
    unfold depth
    omega

/-- A red-black tree is no deeper than twice the logarithm of its size. -/
theorem Valid.depth_le (h : t.Valid) : t.depth ≤ 2 * Nat.log 2 (t.toList.length + 1) := by
  obtain ⟨hc, n, hn⟩ := h
  have h1 := hn.depth_le.2 hc
  have h2 : n ≤ Nat.log 2 (t.toList.length + 1) := Nat.le_log_of_pow_le (by decide) hn.pow_le
  omega

end Depth

end RbTree
