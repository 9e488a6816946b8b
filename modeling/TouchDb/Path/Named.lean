import TouchDb.Path.Model

/-! Which directory the path of `make_sure_dir` names. -/
namespace TouchDb

/-- `.` and the empty name stay, and `..` leads up. -/
def pathNames : PathNames (List UInt8) where
  stays n := n = [] || n = [dot]
  up := [dot, dot]
  up_moves := by decide

def components (p : List UInt8) : List (List UInt8) := p.splitOn slash

/-- In every file system the paths from the root lead to the same directory. -/
def SameDirectory (p q : List UInt8) : Prop := pathNames.Same (components p) (components q)

/-- The path leads to the root, because it has no other names than `.` and `..`. -/
def AtRoot (p : List UInt8) : Prop := pathNames.reduce (components p) = []

/-- What `dat_path` names: a path from the root, or one from the working directory. -/
def named (cwd datPath : CStr) : List UInt8 :=
  if datPath.first = slash then datPath.chars else cwd.chars ++ slash :: datPath.chars

/-- A call whose path fits in the buffer, with a `/` and the terminator behind it. -/
structure PathCall where
  cwd : CStr
  datPath : CStr
  absolute : cwd.first = slash
  fits : (named cwd datPath).length + 2 ≤ pathSize

/-- The end of `make_sure_dir`, where the directory is made if need be. -/
def made (sys : Sys) (path : CStr) : Except PathStop CStr :=
  if sys.access path then .ok path else if sys.mkdir path then .ok path else .error .exit

/-- The character at the end is looked at. -/
def slashed (path : CStr) : CStr := if path.last = slash then path else slashStr

section Components
variable {p q : List UInt8} {c : UInt8}

theorem sameDirectory_iff : SameDirectory p q ↔
    pathNames.reduce (components p) = pathNames.reduce (components q) := PathNames.same_iff

theorem components_append (p q : List UInt8) :
    components (p ++ slash :: q) = components p ++ components q := List.splitOn_append_cons_self p q

theorem components_slash (p : List UInt8) : components (slash :: p) = [] :: components p :=
  components_append [] p

theorem components_cons (hc : c ≠ slash) : ∃ n ns, components p = n :: ns ∧
    components (c :: p) = (c :: n) :: ns := by
  obtain ⟨n, ns, hp⟩ := List.exists_cons_of_ne_nil (List.splitOn_ne_nil slash p)
  refine ⟨n, ns, hp, ?_⟩
  unfold components
  rw [List.splitOn_cons_eq_if_modifyHead, if_neg (by simpa using hc), hp]
  rfl

theorem sameDirectory_root : SameDirectory slashStr.chars p ↔ AtRoot p := by
  have hroot : pathNames.reduce (components slashStr.chars) = [] := by
    rw [show slashStr.chars = slash :: [] from rfl, components_slash]
    exact PathNames.reduce_eq_nil.mpr (by simp [components, pathNames])
  rw [sameDirectory_iff, hroot]
  exact eq_comm

end Components

/-! The path that a call leaves. -/
namespace PathCall
variable (c : PathCall)

/-- The characters of `dat_path` that are skipped. -/
def skipped : ℕ := if c.datPath.first = dot then 2 else 0

/-- The working directory with the rest of `dat_path` behind it. -/
def joined : CStr := (c.cwd.append slashStr).append (c.datPath.drop c.skipped)

/-- The string that is left in the buffer, if `dat_path` is not read beyond its end. -/
def left : Option CStr :=
  if c.datPath.first = slash then some (slashed c.datPath)
  else if c.skipped ≤ c.datPath.strlen then some (slashed c.joined) else none

variable {c} {sys : Sys}

theorem strcpyPath_ok {s : CStr} (h : s.strlen + 1 ≤ pathSize) : strcpyPath s = .ok s := if_pos h

/-- The rest of the function. -/
theorem made_slashed (path : CStr) : (do
    let path ← (if path.last ≠ slash then strcpyPath slashStr else return path)
    if sys.access path then return path
    else if sys.mkdir path then return path
    else throw .exit) = made sys (slashed path) := by
  unfold slashed
  by_cases h : path.last = slash
  · rw [if_neg (by simpa using h), if_pos h]
    rfl
  · rw [if_pos h, if_neg h, strcpyPath_ok (by decide)]
    rfl

theorem makeSureDir_left (hs : sys.cwd = some c.cwd) : makeSureDir sys c.datPath =
    match c.left with
    | some path => made sys path
    | none => .error .read := by
  have hfits := c.fits
  unfold makeSureDir left
  by_cases ha : c.datPath.first = slash
  · rw [named, if_pos ha] at hfits
    have hd : c.datPath.strlen + 1 ≤ pathSize := by
      unfold CStr.strlen
      omega
    rw [if_neg (by simpa using ha), if_pos ha, strcpyPath_ok hd]
    exact made_slashed c.datPath
  · rw [named, if_neg ha, List.length_append, List.length_cons] at hfits
    have hget : getcwd sys 1024 = .ok c.cwd := by
      unfold getcwd
      rw [hs]
      apply if_pos
      unfold CStr.strlen pathSize at *
      omega
    have hcat : strcatPath c.cwd slashStr = .ok (c.cwd.append slashStr) := by
      apply strcpyPath_ok
      unfold CStr.strlen CStr.append slashStr
      rw [List.length_append, List.length_singleton]
      omega
    rw [if_pos ha, if_neg ha, hget]
    show (strcatPath c.cwd slashStr >>= fun path => c.datPath.suffixFrom c.skipped >>= fun tmp =>
      strcatPath path tmp) >>= _ = _
    rw [hcat]
    by_cases hn : c.skipped ≤ c.datPath.strlen
    · have htmp : c.datPath.suffixFrom c.skipped = .ok (c.datPath.drop c.skipped) := if_pos hn
      have hjoin : strcatPath (c.cwd.append slashStr) (c.datPath.drop c.skipped) = .ok c.joined := by
        apply strcpyPath_ok
        unfold CStr.strlen CStr.append CStr.drop slashStr
        simp only [List.length_append, List.length_singleton, List.length_drop]
        omega
      rw [if_pos hn]
      show (c.datPath.suffixFrom c.skipped >>= fun tmp => strcatPath (c.cwd.append slashStr) tmp) >>= _ = _
      rw [htmp]
      show strcatPath (c.cwd.append slashStr) (c.datPath.drop c.skipped) >>= _ = _
      rw [hjoin]
      exact made_slashed c.joined
    · have htmp : c.datPath.suffixFrom c.skipped = .error .read := if_neg hn
      rw [if_neg hn]
      show (c.datPath.suffixFrom c.skipped >>= fun tmp => strcatPath (c.cwd.append slashStr) tmp) >>= _ = _
      rw [htmp]
      rfl

variable (c) in
/-- The call leaves a path from the root, with `/` at its end, that leads to the directory named; for want
of that directory alone it may end with `exit(1)`. -/
def NamesDirectory : Prop :=
  ∃ path : CStr, (∀ sys : Sys, sys.cwd = some c.cwd → makeSureDir sys c.datPath = made sys path) ∧
    path.first = slash ∧ path.last = slash ∧ SameDirectory path.chars (named c.cwd c.datPath)

variable (c) in
/-- `dat_path` is empty or ends in `/`, and if it starts with `.` it starts with `./`, or with `../` where
the working directory is the root. Or it leads to the root, and is not `.` alone. -/
def Plain : Prop :=
  (c.datPath.chars = [] ∨ c.datPath.last = slash) ∧
      (c.datPath.first = dot → [dot, slash] <+: c.datPath.chars ∨
        [dot, dot, slash] <+: c.datPath.chars ∧ AtRoot c.cwd.chars) ∨
    c.datPath.chars ≠ [dot] ∧ AtRoot (named c.cwd c.datPath)

theorem first_cons {s : CStr} {x : UInt8} (hx : x ≠ 0) (h : s.first = x) : ∃ l, s.chars = x :: l := by
  unfold CStr.first at h
  cases hl : s.chars with
  | nil =>
    rw [hl] at h
    exact absurd h.symm hx
  | cons y l =>
    rw [hl] at h
    obtain rfl : y = x := h
    exact ⟨l, rfl⟩

theorem first_of_cons {s : CStr} {x : UInt8} {l : List UInt8} (h : s.chars = x :: l) : s.first = x := by
  unfold CStr.first
  rw [h]
  rfl

theorem first_ne_slash {s : CStr} (h : s.first = dot) : s.first ≠ slash := by
  rw [h]
  decide

theorem last_append (s t : CStr) : (s.append t).last = if t.chars = [] then s.last else t.last := by
  unfold CStr.last CStr.append
  rw [List.getLast?_append]
  split_ifs with h
  · rw [h]
    rfl
  · rw [List.getLast?_eq_some_getLast h]
    rfl

theorem slashed_last (path : CStr) : (slashed path).last = slash := by
  unfold slashed
  split_ifs with h
  · exact h
  · rfl

theorem slashed_first {path : CStr} (h : path.first = slash) : (slashed path).first = slash := by
  unfold slashed
  split_ifs
  · exact h
  · rfl

theorem sameDirectory_slashed {path : CStr} {q : List UInt8} : SameDirectory (slashed path).chars q ↔
    if path.last = slash then SameDirectory path.chars q else AtRoot q := by
  unfold slashed
  split_ifs
  · rfl
  · exact sameDirectory_root

theorem joined_chars : c.joined.chars = c.cwd.chars ++ slash :: c.datPath.chars.drop c.skipped :=
  List.append_assoc _ [slash] _

theorem joined_last : c.joined.last = slash ↔
    (c.datPath.drop c.skipped).chars = [] ∨ (c.datPath.drop c.skipped).last = slash := by
  have hs : (c.cwd.append slashStr).last = slash := last_append c.cwd slashStr
  rw [joined, last_append]
  split_ifs with h
  · exact iff_of_true hs (.inl h)
  · simp [h]

theorem joined_first : c.joined.first = slash := by
  obtain ⟨l, hl⟩ := first_cons (by decide) c.absolute
  unfold CStr.first
  rw [joined_chars, hl]
  rfl

/-- Whatever the system says, the string is the one that was computed. -/
theorem namesDirectory_left : c.NamesDirectory ↔
    ∃ path, c.left = some path ∧ SameDirectory path.chars (named c.cwd c.datPath) := by
  have hends {path : CStr} (h : c.left = some path) : path.first = slash ∧ path.last = slash := by
    unfold left at h
    split_ifs at h with h1 h2
    · obtain rfl := Option.some.inj h
      exact ⟨slashed_first h1, slashed_last _⟩
    · obtain rfl := Option.some.inj h
      exact ⟨slashed_first joined_first, slashed_last _⟩
  constructor
  · rintro ⟨path, hrun, -, -, hsame⟩
    refine ⟨path, ?_, hsame⟩
    have hrun' := hrun ⟨some c.cwd, fun _ => true, fun _ => true⟩ rfl
    rw [makeSureDir_left rfl] at hrun'
    cases hl : c.left with
    | none =>
      rw [hl] at hrun'
      cases hrun'
    | some p =>
      rw [hl] at hrun'
      exact congrArg some (Except.ok.inj hrun')
  · rintro ⟨path, hl, hsame⟩
    obtain ⟨h1, h2⟩ := hends hl
    refine ⟨path, fun sys hs => ?_, h1, h2, hsame⟩
    rw [makeSureDir_left hs, hl]

/-- A path from the root. -/
theorem namesDirectory_absolute (ha : c.datPath.first = slash) : c.NamesDirectory ↔ c.Plain := by
  obtain ⟨l, hl⟩ := first_cons (by decide) ha
  have hnamed : named c.cwd c.datPath = c.datPath.chars := if_pos ha
  have hleft : c.left = some (slashed c.datPath) := if_pos ha
  have hd : c.datPath.first ≠ dot := by
    rw [ha]
    decide
  have hdot : c.datPath.chars ≠ [dot] := by
    rw [hl]
    intro h
    exact absurd (List.cons.inj h).1 (by decide)
  have hne : c.datPath.chars ≠ [] := by simp [hl]
  rw [namesDirectory_left, Plain, hleft, hnamed]
  simp only [Option.some.injEq, exists_eq_left', sameDirectory_slashed, hd, hdot, hne, false_or,
    false_implies, and_true, ne_eq, not_false_eq_true, true_and]
  split_ifs with h
  · exact iff_of_true (fun _ => rfl) (.inl h)
  · simp [h]

/-- A path from the working directory. -/
theorem namesDirectory_relative (ha : c.datPath.first ≠ slash) (hn : c.skipped ≤ c.datPath.strlen) :
    c.NamesDirectory ↔
      if (c.datPath.drop c.skipped).chars = [] ∨ (c.datPath.drop c.skipped).last = slash then
        pathNames.reduce (components c.cwd.chars ++ components (c.datPath.chars.drop c.skipped)) =
          pathNames.reduce (components c.cwd.chars ++ components c.datPath.chars)
      else AtRoot (named c.cwd c.datPath) := by
  have hnamed : named c.cwd c.datPath = c.cwd.chars ++ slash :: c.datPath.chars := if_neg ha
  have hleft : c.left = some (slashed c.joined) := by
    rw [left, if_neg ha, if_pos hn]
  rw [namesDirectory_left, hleft]
  simp only [Option.some.injEq, exists_eq_left', sameDirectory_slashed, joined_last]
  rw [sameDirectory_iff, joined_chars, hnamed, components_append, components_append]

/-- The name does not start with a dot. -/
theorem namesDirectory_plain (ha : c.datPath.first ≠ slash) (hd : c.datPath.first ≠ dot) :
    c.NamesDirectory ↔ c.Plain := by
  have hs : c.skipped = 0 := if_neg hd
  have hdot : c.datPath.chars ≠ [dot] := fun h => hd (first_of_cons h)
  have hdrop : c.datPath.drop 0 = c.datPath := rfl
  rw [namesDirectory_relative ha (by omega), hs, hdrop, List.drop_zero, Plain]
  simp only [hd, hdot, false_implies, and_true, ne_eq, not_false_eq_true, true_and]
  split_ifs with h
  · exact iff_of_true trivial (.inl h)
  · simp [h]

/-- A dot alone is read beyond its end. -/
theorem namesDirectory_dot (hc : c.datPath.chars = [dot]) : c.NamesDirectory ↔ c.Plain := by
  have hfirst : c.datPath.first = dot := first_of_cons hc
  have hlast : c.datPath.last ≠ slash := by
    unfold CStr.last
    rw [hc]
    decide
  have hleft : c.left = none := by
    have hlen : ¬ c.skipped ≤ c.datPath.strlen := by
      unfold skipped CStr.strlen
      rw [if_pos hfirst, hc]
      decide
    rw [left, if_neg (first_ne_slash hfirst), if_neg hlen]
  rw [namesDirectory_left, hleft, Plain, hc]
  simp [hlast]

/-- `./` is skipped. -/
theorem reduce_here (C : List (List UInt8)) (e : List UInt8) :
    pathNames.reduce (C ++ components e) = pathNames.reduce (C ++ components (dot :: slash :: e)) := by
  have hcons : components (dot :: slash :: e) = [dot] :: components e := by
    rw [show dot :: slash :: e = [dot] ++ slash :: e from rfl, components_append]
    rfl
  have hstays : pathNames.stays [dot] = true := by decide
  rw [hcons, PathNames.reduce_append, PathNames.reduce_append, PathNames.reduce_cons,
    PathNames.moves_cons, if_pos hstays, if_pos hstays]

/-- Other names lose their first two characters. -/
theorem components_skipped {x : UInt8} (hx : x ≠ slash) (e : List UInt8) :
    ∃ n ns, components e = n :: ns ∧ components (dot :: x :: e) = (dot :: x :: n) :: ns ∧
      (dot :: x :: n = pathNames.up ↔ x = dot ∧ (e = [] ∨ [slash] <+: e)) := by
  obtain ⟨n, ns, he, hxe⟩ := components_cons (p := e) hx
  obtain ⟨_, _, hxe', hdxe⟩ := components_cons (c := dot) (p := x :: e) (by decide)
  obtain ⟨rfl, rfl⟩ := List.cons.inj (hxe.symm.trans hxe')
  have hn : n = [] ↔ e = [] ∨ [slash] <+: e := by
    cases e with
    | nil =>
      obtain ⟨rfl, -⟩ := List.cons.inj (he.symm.trans (show components [] = [[]] from rfl))
      simp
    | cons y e =>
      by_cases hy : y = slash
      · rw [hy, components_slash] at he
        obtain ⟨rfl, -⟩ := List.cons.inj he
        simp [hy]
      · obtain ⟨m, ms, -, hye⟩ := components_cons (p := e) hy
        obtain ⟨rfl, -⟩ := List.cons.inj (he.symm.trans hye)
        simp [hy, eq_comm]
  refine ⟨n, ns, he, hdxe, ?_⟩
  rw [← hn]
  simp [pathNames]

theorem stays_skipped (x : UInt8) (n : List UInt8) : pathNames.stays (dot :: x :: n) = false := by
  simp [pathNames]

/-- The directory is the same only where these were all of `..` and the way went up from the root. -/
theorem reduce_skipped {x : UInt8} (hx : x ≠ slash) (C : List (List UInt8)) (e : List UInt8) :
    pathNames.reduce (C ++ components e) = pathNames.reduce (C ++ components (dot :: x :: e)) ↔
      pathNames.reduce C = [] ∧ x = dot ∧ (e = [] ∨ [slash] <+: e) := by
  obtain ⟨n, ns, he, hdxe, hup⟩ := components_skipped hx e
  have hne : dot :: x :: n ≠ n := by
    intro h
    have hlen := congrArg List.length h
    simp only [List.length_cons] at hlen
    omega
  rw [he, hdxe, eq_comm, PathNames.reduce_replace (stays_skipped x n) hne, ← hup]
  constructor
  · rintro ⟨h1, h2, -⟩
    exact ⟨h1, h2⟩
  · rintro ⟨h1, h2⟩
    have hn : n = [] := by
      have h3 := (List.cons.inj h2).2
      exact (List.cons.inj h3).2
    refine ⟨h1, h2, ?_⟩
    rw [hn]
    decide

/-- Where such a name stands on a path to the root it is `..`. -/
theorem atRoot_skipped {x : UInt8} (hx : x ≠ slash) {cwd e : List UInt8}
    (h : AtRoot (cwd ++ slash :: dot :: x :: e)) : AtRoot cwd ∧ x = dot ∧ (e = [] ∨ [slash] <+: e) := by
  obtain ⟨n, ns, -, hdxe, hup⟩ := components_skipped hx e
  unfold AtRoot at *
  rw [components_append, hdxe, PathNames.reduce_eq_nil] at h
  constructor
  · exact PathNames.reduce_eq_nil.mpr fun m hm => h m (List.mem_append_left _ hm)
  · have hmem := h (dot :: x :: n) (List.mem_append_right _ List.mem_cons_self)
    exact hup.mp (hmem.resolve_left (by simp [stays_skipped]))

/-- What stands behind the two characters that are skipped. -/
theorem namesDirectory_skipped {x : UInt8} {e : List UInt8} (hc : c.datPath.chars = dot :: x :: e) :
    c.NamesDirectory ↔ c.Plain := by
  have hfirst : c.datPath.first = dot := first_of_cons hc
  have ha : c.datPath.first ≠ slash := first_ne_slash hfirst
  have hs : c.skipped = 2 := if_pos hfirst
  have hlen : c.skipped ≤ c.datPath.strlen := by
    unfold CStr.strlen
    rw [hs, hc]
    simp
  have hchars : (c.datPath.drop 2).chars = e := by
    show c.datPath.chars.drop 2 = e
    rw [hc]
    rfl
  have hlast : c.datPath.last = if e = [] then x else (c.datPath.drop 2).last := by
    unfold CStr.last
    rw [hchars, hc]
    cases e with
    | nil => rfl
    | cons y e => simp
  have hnamed : named c.cwd c.datPath = c.cwd.chars ++ slash :: dot :: x :: e := by
    rw [named, if_neg ha, hc]
  have hne : dot :: x :: e ≠ [dot] := by simp
  have hne' : dot :: x :: e ≠ [] := by simp
  rw [namesDirectory_relative ha hlen, hs, show c.datPath.chars.drop 2 = e from hchars, hchars, hc, Plain,
    hc, hnamed]
  simp only [hfirst, hne, hne', true_implies, false_or, ne_eq, not_false_eq_true, true_and]
  by_cases he : e = [] ∨ (c.datPath.drop 2).last = slash
  · rw [if_pos he]
    by_cases hx : x = slash
    · have hend : c.datPath.last = slash := by
        rw [hlast]
        split_ifs with h0
        · exact hx
        · exact he.resolve_left h0
      subst hx
      exact iff_of_true (reduce_here _ _) (.inl ⟨hend, .inl ⟨e, rfl⟩⟩)
    · rw [reduce_skipped hx]
      constructor
      · rintro ⟨h1, rfl, rfl | ⟨e', rfl⟩⟩
        · apply Or.inr
          unfold AtRoot
          rw [components_append, PathNames.reduce_append, if_pos h1]
          rfl
        · have hend : c.datPath.last = slash := by
            rw [hlast, if_neg (by simp)]
            exact he.resolve_left (by simp)
          exact .inl ⟨hend, .inr ⟨⟨e', rfl⟩, h1⟩⟩
      · rintro (⟨-, ⟨e', h⟩ | ⟨⟨e', h⟩, h1⟩⟩ | h)
        · exact absurd (List.cons.inj (List.cons.inj h).2).1.symm hx
        · obtain ⟨hxd, he'⟩ := List.cons.inj (List.cons.inj h).2
          exact ⟨h1, hxd.symm, .inr ⟨e', he'⟩⟩
        · exact atRoot_skipped hx h
  · rw [if_neg he]
    rw [not_or] at he
    have hend : c.datPath.last ≠ slash := by
      rw [hlast, if_neg he.1]
      exact he.2
    simp [hend]

/-- The directory named is the one that is opened exactly for these paths. -/
theorem namesDirectory_iff (c : PathCall) : c.NamesDirectory ↔ c.Plain := by
  by_cases ha : c.datPath.first = slash
  · exact namesDirectory_absolute ha
  · by_cases hd : c.datPath.first = dot
    · obtain ⟨l, hl⟩ := first_cons (by decide) hd
      cases l with
      | nil => exact namesDirectory_dot hl
      | cons x e => exact namesDirectory_skipped hl
    · exact namesDirectory_plain ha hd

/-- The default is the working directory. -/
theorem namesDirectory_default (h : c.datPath = dataPath none) : c.NamesDirectory := by
  have hc : c.datPath.chars = dot :: slash :: [] := by
    rw [h]
    rfl
  apply (namesDirectory_skipped hc).mpr
  rw [Plain, h]
  exact .inl ⟨.inr rfl, fun _ => .inl ⟨[], rfl⟩⟩

/-- A call in the directory `/srv`. -/
def InSrv (c : PathCall) (d : List UInt8) : Prop := c.cwd.chars = [47, 115, 114, 118] ∧ c.datPath.chars = d

/-- `data` becomes `/`, `.data/` becomes `/srv/ata/`, `.` is read beyond its end, and `/tmp/db` becomes
`/`. -/
theorem namesDirectory_fails : ∃ a b c d : PathCall,
    (a.InSrv [100, 97, 116, 97] ∧ ¬ a.NamesDirectory) ∧
    (b.InSrv [46, 100, 97, 116, 97, 47] ∧ ¬ b.NamesDirectory) ∧
    (c.InSrv [46] ∧ ¬ c.NamesDirectory) ∧
    (d.InSrv [47, 116, 109, 112, 47, 100, 98] ∧ ¬ d.NamesDirectory) := by
  refine ⟨⟨⟨[47, 115, 114, 118], by decide⟩, ⟨[100, 97, 116, 97], by decide⟩, rfl, by decide⟩,
    ⟨⟨[47, 115, 114, 118], by decide⟩, ⟨[46, 100, 97, 116, 97, 47], by decide⟩, rfl, by decide⟩,
    ⟨⟨[47, 115, 114, 118], by decide⟩, ⟨[46], by decide⟩, rfl, by decide⟩,
    ⟨⟨[47, 115, 114, 118], by decide⟩, ⟨[47, 116, 109, 112, 47, 100, 98], by decide⟩, rfl, by decide⟩,
    ⟨⟨rfl, rfl⟩, ?_⟩, ⟨⟨rfl, rfl⟩, ?_⟩, ⟨⟨rfl, rfl⟩, ?_⟩, ⟨⟨rfl, rfl⟩, ?_⟩⟩
  · rw [namesDirectory_plain (by decide) (by decide)]
    unfold Plain AtRoot
    decide
  · rw [namesDirectory_skipped rfl]
    unfold Plain AtRoot
    decide
  · rw [namesDirectory_dot rfl]
    unfold Plain AtRoot
    decide
  · rw [namesDirectory_absolute rfl]
    unfold Plain AtRoot
    decide

end PathCall

end TouchDb
