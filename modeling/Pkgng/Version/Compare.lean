import Pkgng.Lib.CStrings

/-!
# Comparing versions

`pkg_version_cmp`.  A pointer into a version string is the string from there on, so that
`v < ve` says that `v` is the longer of the two.
-/

set_option autoImplicit false

namespace Pkgng

open Lib

/-- What `split_version` returns and stores. -/
structure SplitVersion where
  versionstr : List Char
  endname : List Char
  epoch : Nat
  revision : Nat
deriving DecidableEq, Repr

/-- `strtoul(ch + 1, NULL, 10)`, or zero for a null pointer. -/
def numberBehind (ch : Option (List Char)) : Nat := ch.elim 0 fun ch => strtoul ch.tail

def splitVersion (pkgname : List Char) : SplitVersion :=
  let versionstr := (strrchr '-' pkgname).elim pkgname List.tail
  let endversionstr := strrchr '_' versionstr
  let ch := strrchr ',' (endversionstr.elim versionstr List.tail)
  { versionstr := versionstr
    endname := (endversionstr.or ch).getD []
    epoch := numberBehind ch
    revision := numberBehind endversionstr }

structure VersionComponent where
  n : Int := 0
  pl : Int := 0
  a : Int := 0
deriving DecidableEq, Repr

/-- The table of special suffixes and the values of their letters. -/
def stages : List (String × Int) :=
  [("pl", 0), ("alpha", 1), ("beta", 2), ("pre", 16), ("rc", 18)]

/-- The first stage that a string starts with and no letter follows. -/
def findStage (pos : List Char) : Option (String × Int) :=
  stages.find? fun stage =>
    strncaseeq pos stage.1.toList stage.1.length &&
      !((pos.drop stage.1.length).head?.any Char.isAlpha)

/-- The version number: its value, whether it is missing, and what follows it. -/
def componentNumber : List Char → Int × Bool × List Char
  | [] => (-1, true, [])
  | c :: rest =>
      if c.isDigit then (strtollDigits (c :: rest), false, (c :: rest).dropWhile Char.isDigit)
      else if c = '*' then (-2, false, rest.dropWhile (· ≠ '+'))
      else (-1, true, c :: rest)

/-- The letter: its value, whether a patch level may follow, and what follows it. -/
def componentLetter (hasstage : Bool) : List Char → Int × Bool × List Char
  | [] => (0, false, [])
  | c :: rest =>
      if c.isAlpha then
        match if rest.head?.any Char.isAlpha then findStage (c :: rest) else none with
        | some stage =>
            -- A stage behind a number belongs to the next component.
            if hasstage then (stage.2, true, (c :: rest).drop stage.1.length)
            else (0, false, c :: rest)
        | none => ((c.toLower.toNat : Int) - 'a'.toNat + 1, true, rest.dropWhile Char.isAlpha)
      else (0, false, c :: rest)

/-- The patch number. -/
def componentPatch (haspatchlevel : Bool) (pos : List Char) : Int × List Char :=
  if haspatchlevel then
    if pos.head?.any Char.isDigit then (strtollDigits pos, pos.dropWhile Char.isDigit)
    else (-1, pos)
  else (0, pos)

def isSeparator (c : Char) : Bool := !c.isDigit && !c.isAlpha && c ≠ '+' && c ≠ '*'

def getComponent (position : List Char) : VersionComponent × List Char :=
  let (n, hasstage, pos) := componentNumber position
  let (a, haspatchlevel, pos) := componentLetter hasstage pos
  let (pl, pos) := componentPatch haspatchlevel pos
  ({ n := n, pl := pl, a := a }, pos.dropWhile isSeparator)

theorem length_dropWhile_le (p : Char → Bool) (s : List Char) :
    (s.dropWhile p).length ≤ s.length := (List.dropWhile_sublist p).length_le

theorem stage_length_pos {pos : List Char} {stage : String × Int}
    (found : findStage pos = some stage) : 0 < stage.1.length := by
  have member := List.mem_of_find?_eq_some found
  have positive : ∀ entry ∈ stages, 0 < entry.1.length := by decide
  exact positive stage member

theorem length_componentLetter_le (hasstage : Bool) (pos : List Char) :
    (componentLetter hasstage pos).2.2.length ≤ pos.length := by
  cases pos with
  | nil => exact Nat.le_refl 0
  | cons c rest =>
      have letters := length_dropWhile_le Char.isAlpha rest
      simp only [componentLetter]
      split
      · split
        · split
          · simp
          · simp
        · simp only [List.length_cons]
          omega
      · simp

/-- A letter that no number precedes is read. -/
theorem length_componentLetter_lt {c : Char} (rest : List Char) (isLetter : c.isAlpha = true) :
    (componentLetter true (c :: rest)).2.2.length < (c :: rest).length := by
  have letters := length_dropWhile_le Char.isAlpha rest
  simp only [componentLetter, isLetter, if_true]
  split
  · next stage found =>
      have positive : 0 < stage.1.length := by
        split at found
        · exact stage_length_pos found
        · cases found
      simp only [List.length_drop, List.length_cons]
      omega
  · simp only [List.length_cons]
    omega

theorem length_componentPatch_le (haspatchlevel : Bool) (pos : List Char) :
    (componentPatch haspatchlevel pos).2.length ≤ pos.length := by
  have digits := length_dropWhile_le Char.isDigit pos
  unfold componentPatch
  split
  · split
    · exact digits
    · exact Nat.le_refl _
  · exact Nat.le_refl _

/-- What follows the number bounds what follows the component. -/
theorem length_getComponent_le (position : List Char) :
    (getComponent position).2.length ≤
      (componentLetter (componentNumber position).2.1 (componentNumber position).2.2).2.2.length := by
  have patch := length_componentPatch_le
    (componentLetter (componentNumber position).2.1 (componentNumber position).2.2).2.1
    (componentLetter (componentNumber position).2.1 (componentNumber position).2.2).2.2
  exact Nat.le_trans (length_dropWhile_le _ _) patch

/-- Every component but one that would start at a `+` takes a character. -/
theorem length_getComponent_lt {c : Char} (rest : List Char) (notPlus : c ≠ '+') :
    (getComponent (c :: rest)).2.length < (c :: rest).length := by
  have bound := length_getComponent_le (c :: rest)
  by_cases digit : c.isDigit = true
  · have letter := length_componentLetter_le false (rest.dropWhile Char.isDigit)
    have digits := length_dropWhile_le Char.isDigit rest
    simp only [componentNumber, digit, if_true, List.dropWhile_cons] at bound
    simp only [List.length_cons]
    omega
  by_cases star : c = '*'
  · have letter := length_componentLetter_le false (rest.dropWhile (· ≠ '+'))
    have dropped := length_dropWhile_le (· ≠ '+') rest
    have number : componentNumber (c :: rest) = (-2, false, rest.dropWhile (· ≠ '+')) := by
      simp only [componentNumber, if_neg digit, if_pos star]
    simp only [number] at bound
    simp only [List.length_cons]
    omega
  have number : componentNumber (c :: rest) = (-1, true, c :: rest) := by
    simp [componentNumber, digit, star]
  by_cases letter : c.isAlpha = true
  · rw [number] at bound
    exact Nat.lt_of_le_of_lt bound (length_componentLetter_lt rest letter)
  · have separator : isSeparator c = true := by simp [isSeparator, digit, letter, notPlus, star]
    have skipped := length_dropWhile_le isSeparator rest
    have result : (getComponent (c :: rest)).2 = rest.dropWhile isSeparator := by
      simp [getComponent, number, componentLetter, letter, componentPatch, separator]
    rw [result, List.length_cons]
    omega

/-- The component at `v`, unless the string ends there or a `+` blocks it. -/
def readComponent (ve v : List Char) : Option (VersionComponent × List Char) :=
  if ve.length < v.length ∧ v.head? ≠ some '+' then some (getComponent v) else none

/-- The three comparisons of two components. -/
def compareComponents (vc1 vc2 : VersionComponent) : Int :=
  if vc1.n ≠ vc2.n then if vc1.n < vc2.n then -1 else 1
  else if vc1.a ≠ vc2.a then if vc1.a < vc2.a then -1 else 1
  else if vc1.pl ≠ vc2.pl then if vc1.pl < vc2.pl then -1 else 1
  else 0

/-- `if (v < ve) v++`. -/
def advance (ve v : List Char) : List Char := if ve.length < v.length then v.tail else v

theorem length_of_readComponent {ve v rest : List Char} {vc : VersionComponent}
    (read : readComponent ve v = some (vc, rest)) : rest.length < v.length := by
  unfold readComponent at read
  split at read
  · next available =>
      cases v with
      | nil => simp at available
      | cons c v =>
          have shorter := length_getComponent_lt (c := c) v (by simpa using available.2)
          rw [Option.some.inj read] at shorter
          exact shorter
  · cases read

theorem length_rest_le (ve v : List Char) :
    ((readComponent ve v).elim v Prod.snd).length ≤ v.length := by
  cases read : readComponent ve v with
  | none => exact Nat.le_refl _
  | some next => exact Nat.le_of_lt (@length_of_readComponent ve v next.2 next.1 read)

theorem length_rest_lt {ve v : List Char} (read : ¬(readComponent ve v).isNone = true) :
    ((readComponent ve v).elim v Prod.snd).length < v.length := by
  cases next : readComponent ve v with
  | none => simp [next] at read
  | some next' => exact @length_of_readComponent ve v next'.2 next'.1 next

theorem length_advance_le (ve v : List Char) : (advance ve v).length ≤ v.length := by
  unfold advance
  split
  · simp
  · exact Nat.le_refl _

theorem length_advance_lt {ve v : List Char} (more : ve.length < v.length) :
    (advance ve v).length < v.length := by
  rw [advance, if_pos more, List.length_tail]
  omega

/-- The loop over the components. -/
def compareLoop (ve1 ve2 v1 v2 : List Char) : Int :=
  if _more : ve1.length < v1.length ∨ ve2.length < v2.length then
    let next1 := readComponent ve1 v1
    let next2 := readComponent ve2 v2
    if _blocked : next1.isNone = true ∧ next2.isNone = true then
      compareLoop ve1 ve2 (advance ve1 v1) (advance ve2 v2)
    else
      let result := compareComponents (next1.elim {} Prod.fst) (next2.elim {} Prod.fst)
      if result = 0 then compareLoop ve1 ve2 (next1.elim v1 Prod.snd) (next2.elim v2 Prod.snd)
      else result
  else 0
termination_by v1.length + v2.length
decreasing_by
  · have first := length_advance_le ve1 v1
    have second := length_advance_le ve2 v2
    rcases _more with more | more
    · have shorter := length_advance_lt more
      omega
    · have shorter := length_advance_lt more
      omega
  · have first := length_rest_le ve1 v1
    have second := length_rest_le ve2 v2
    rcases not_and_or.mp _blocked with read | read
    · have shorter := length_rest_lt read
      omega
    · have shorter := length_rest_lt read
      omega

/-- The comparison of the versions proper, with the shortcut for equal ones. -/
def compareVersions (s1 s2 : SplitVersion) : Int :=
  let n1 := s1.versionstr.length - s1.endname.length
  let n2 := s2.versionstr.length - s2.endname.length
  if n1 ≠ n2 ∨ strncaseeq s1.versionstr s2.versionstr n1 = false then
    compareLoop s1.endname s2.endname s1.versionstr s2.versionstr
  else 0

/-- `pkg_version_cmp`, on the characters of two strings. -/
def versionCmpChars (pkg1 pkg2 : List Char) : Int :=
  let s1 := splitVersion pkg1
  let s2 := splitVersion pkg2
  if s1.epoch ≠ s2.epoch then if s1.epoch < s2.epoch then -1 else 1
  else
    let result := compareVersions s1 s2
    if result ≠ 0 then result
    else if s1.revision ≠ s2.revision then if s1.revision < s2.revision then -1 else 1
    else 0

def pkgVersionCmp (pkg1 pkg2 : String) : Int := versionCmpChars pkg1.toList pkg2.toList

example : pkgVersionCmp "1.0a_2" "1.0_3,1" = -1 := by decide +kernel

end Pkgng
