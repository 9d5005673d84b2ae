import Mathlib
import Pkgng.Version.Order

/-!
# The shortcut for equal versions

Only the part of a string before its revision and epoch, without regard to case, decides
which components are read, although the cursor may run into the revision.  So the strings
that the shortcut takes for equal have the same components, and `pkg_version_cmp` is one
comparison throughout.
-/

set_option autoImplicit false

namespace Pkgng

open Lib

/-- What follows a version: nothing, a revision or an epoch. -/
def EndsVersion (ve : List Char) : Prop := ∀ c ∈ ve.head?, c = '_' ∨ c = ','

/-- Neither a letter nor a digit comes next. -/
def Quiet (pos : List Char) : Prop := ∀ c ∈ pos.head?, c.isAlpha = false ∧ c.isDigit = false

theorem EndsVersion.quiet {ve : List Char} (ends : EndsVersion ve) : Quiet ve := by
  intro c isHead
  rcases ends c isHead with rfl | rfl <;> decide

/-- Reading the string with `ve` behind it is at `pos`, reading it alone at `short`. -/
def Cut (ve pos short : List Char) : Prop :=
  (short ≠ [] ∧ pos = short ++ ve) ∨ (short = [] ∧ pos.length ≤ ve.length ∧ Quiet pos)

theorem cut_append {ve : List Char} (ends : EndsVersion ve) (short : List Char) :
    Cut ve (short ++ ve) short := by
  cases short with
  | nil => exact Or.inr ⟨rfl, Nat.le_refl _, ends.quiet⟩
  | cons c rest => exact Or.inl ⟨by simp, rfl⟩

theorem head?_any_append {ve : List Char} (quiet : Quiet ve) (q : Char → Bool)
    (stops : ∀ c : Char, c.isAlpha = false ∧ c.isDigit = false → q c = false)
    (short : List Char) : (short ++ ve).head?.any q = short.head?.any q := by
  cases short with
  | cons c rest => rfl
  | nil =>
      cases ve with
      | nil => rfl
      | cons c rest => exact stops c (quiet c rfl)

section Run

variable {q : Char → Bool} (stops : ∀ c : Char, c.isAlpha = false ∧ c.isDigit = false → q c = false)

include stops

theorem dropWhile_of_quiet {pos : List Char} (quiet : Quiet pos) : pos.dropWhile q = pos := by
  cases pos with
  | nil => rfl
  | cons c rest => rw [List.dropWhile_cons_of_neg (by simp [stops c (quiet c rfl)])]

theorem takeWhile_of_quiet {pos : List Char} (quiet : Quiet pos) : pos.takeWhile q = [] := by
  cases pos with
  | nil => rfl
  | cons c rest => rw [List.takeWhile_cons_of_neg (by simp [stops c (quiet c rfl)])]

theorem Cut.dropWhile {ve pos short : List Char} (ends : EndsVersion ve)
    (cut : Cut ve pos short) : Cut ve (pos.dropWhile q) (short.dropWhile q) := by
  rcases cut with ⟨_, rfl⟩ | ⟨rfl, past, quiet⟩
  · rw [List.dropWhile_append]
    split
    · next isEmpty =>
        rw [dropWhile_of_quiet stops ends.quiet, List.isEmpty_iff.mp isEmpty]
        exact cut_append ends []
    · exact cut_append ends _
  · rw [dropWhile_of_quiet stops quiet]
    exact Or.inr ⟨rfl, past, quiet⟩

theorem Cut.takeWhile {ve pos short : List Char} (ends : EndsVersion ve)
    (cut : Cut ve pos short) : pos.takeWhile q = short.takeWhile q := by
  rcases cut with ⟨_, rfl⟩ | ⟨rfl, _, quiet⟩
  · rw [List.takeWhile_append]
    split
    · next whole =>
        rw [takeWhile_of_quiet stops ends.quiet, List.append_nil]
        exact (List.takeWhile_prefix q).eq_of_length whole |>.symm
    · rfl
  · rw [takeWhile_of_quiet stops quiet]
    rfl

end Run

theorem digit_stops (c : Char) (quiet : c.isAlpha = false ∧ c.isDigit = false) :
    c.isDigit = false := quiet.2

theorem alpha_stops (c : Char) (quiet : c.isAlpha = false ∧ c.isDigit = false) :
    c.isAlpha = false := quiet.1

/-! ## What follows the version is not read -/

theorem strtollDigits_cut {ve pos short : List Char} (ends : EndsVersion ve)
    (cut : Cut ve pos short) : strtollDigits pos = strtollDigits short := by
  rw [strtollDigits, strtollDigits, decimal, decimal, cut.takeWhile digit_stops ends]

theorem componentNumber_cut {ve : List Char} (ends : EndsVersion ve) (c : Char)
    (rest : List Char) :
    (componentNumber (c :: rest ++ ve)).1 = (componentNumber (c :: rest)).1 ∧
    (componentNumber (c :: rest ++ ve)).2.1 = (componentNumber (c :: rest)).2.1 ∧
    Cut ve (componentNumber (c :: rest ++ ve)).2.2 (componentNumber (c :: rest)).2.2 := by
  have whole := cut_append ends (c :: rest)
  rw [List.cons_append] at whole ⊢
  unfold componentNumber
  by_cases digit : c.isDigit = true
  · simp only [if_pos digit]
    exact ⟨strtollDigits_cut ends whole, trivial, whole.dropWhile digit_stops ends⟩
  by_cases star : c = '*'
  · simp only [if_neg digit, if_pos star]
    refine ⟨trivial, trivial, ?_⟩
    rw [List.dropWhile_append]
    split
    · next isEmpty =>
        refine Or.inr ⟨List.isEmpty_iff.mp isEmpty, length_dropWhile_le _ _, ?_⟩
        intro d isHead
        have isPlus : d = '+' := by
          have stopped := List.head?_dropWhile_not (fun x => decide (x ≠ '+')) ve
          rw [Option.mem_def.mp isHead] at stopped
          simpa using stopped
        rw [isPlus]
        decide
    · exact cut_append ends _
  · simp only [if_neg digit, if_neg star]
    exact ⟨trivial, trivial, whole⟩

/-- A stage is a word of letters; it does not reach into what follows. -/
theorem strncaseeq_stage {ve short : List Char} (ends : EndsVersion ve) {stage : String × Int}
    (member : stage ∈ stages) :
    strncaseeq (short ++ ve) stage.1.toList stage.1.length =
      strncaseeq short stage.1.toList stage.1.length := by
  have whole : ∀ entry ∈ stages, (entry.1.toList.take entry.1.length).map Char.toLower =
      entry.1.toList ∧ entry.1.toList.length = entry.1.length ∧
        ∀ c ∈ entry.1.toList, c.isAlpha = true := by
    simp [stages]
    decide +kernel
  obtain ⟨name, size, letters⟩ := whole stage member
  unfold strncaseeq
  rw [name]
  by_cases fits : stage.1.length ≤ short.length
  · rw [List.take_append_of_le_length fits]
  · have shortOnly : (short.take stage.1.length).map Char.toLower ≠ stage.1.toList := by
      intro same
      have lengths := congrArg List.length same
      rw [List.length_map, List.length_take, size] at lengths
      omega
    have notLong : ((short ++ ve).take stage.1.length).map Char.toLower ≠ stage.1.toList := by
      intro same
      cases ve with
      | nil =>
          rw [List.append_nil] at same
          exact shortOnly same
      | cons c rest =>
          have inTake : c ∈ (short ++ c :: rest).take stage.1.length := by
            rw [List.take_append, List.mem_append]
            refine Or.inr ?_
            obtain ⟨more, count⟩ : ∃ more, stage.1.length - short.length = more + 1 :=
              ⟨stage.1.length - short.length - 1, by omega⟩
            rw [count]
            exact List.mem_cons_self ..
          have letter := letters c.toLower (same ▸ List.mem_map_of_mem inTake)
          rw [Char.isAlpha_toLower_eq_isAlpha, (ends.quiet c rfl).1] at letter
          cases letter
    rw [decide_eq_false shortOnly, decide_eq_false notLong]

theorem length_of_strncaseeq {short : List Char} {stage : String × Int} (member : stage ∈ stages)
    (starts : strncaseeq short stage.1.toList stage.1.length = true) :
    stage.1.length ≤ short.length := by
  have whole : ∀ entry ∈ stages, entry.1.toList.length = entry.1.length := by decide +kernel
  have lengths := congrArg List.length (of_decide_eq_true starts)
  rw [List.length_map, List.length_map, List.length_take, List.length_take, whole stage member]
    at lengths
  omega

theorem findStage_append {ve short : List Char} (ends : EndsVersion ve) :
    findStage (short ++ ve) = findStage short := by
  unfold findStage
  refine List.find?_congr fun stage member => ?_
  rw [strncaseeq_stage ends member]
  cases starts : strncaseeq short stage.1.toList stage.1.length with
  | false => rfl
  | true =>
      have fits := length_of_strncaseeq member starts
      rw [List.drop_append_of_le_length fits, head?_any_append ends.quiet _ alpha_stops]

theorem componentLetter_cut {ve pos short : List Char} (ends : EndsVersion ve)
    (cut : Cut ve pos short) (hasstage : Bool) :
    (componentLetter hasstage pos).1 = (componentLetter hasstage short).1 ∧
    (componentLetter hasstage pos).2.1 = (componentLetter hasstage short).2.1 ∧
    Cut ve (componentLetter hasstage pos).2.2 (componentLetter hasstage short).2.2 := by
  rcases cut with ⟨nonempty, rfl⟩ | ⟨rfl, past, quiet⟩
  · cases short with
    | nil => exact absurd rfl nonempty
    | cons c rest =>
        have stageOf := @findStage_append ve (c :: rest) ends
        have second := head?_any_append ends.quiet Char.isAlpha alpha_stops rest
        rw [List.cons_append] at stageOf ⊢
        simp only [componentLetter, second, stageOf]
        by_cases letter : c.isAlpha = true
        · simp only [if_pos letter]
          split
          · next stage found =>
              have fits : stage.1.length ≤ (c :: rest).length := by
                split at found
                · have member := List.mem_of_find?_eq_some found
                  have matched := List.find?_some found
                  rw [Bool.and_eq_true] at matched
                  exact length_of_strncaseeq member matched.1
                · cases found
              split
              · refine ⟨rfl, rfl, ?_⟩
                have rests := @List.drop_append_of_le_length _ _ ve _ fits
                rw [List.cons_append] at rests
                simp only [rests]
                exact cut_append ends _
              · exact ⟨rfl, rfl, cut_append ends (c :: rest)⟩
          · exact ⟨rfl, rfl, (cut_append ends rest).dropWhile alpha_stops ends⟩
        · simp only [if_neg letter]
          exact ⟨trivial, trivial, cut_append ends (c :: rest)⟩
  · have letterless : componentLetter hasstage pos = (0, false, pos) := by
      cases pos with
      | nil => rfl
      | cons c rest => simp [componentLetter, (quiet c rfl).1]
    rw [letterless]
    exact ⟨rfl, rfl, Or.inr ⟨rfl, past, quiet⟩⟩

theorem componentPatch_cut {ve pos short : List Char} (ends : EndsVersion ve)
    (cut : Cut ve pos short) (haspatchlevel : Bool) :
    (componentPatch haspatchlevel pos).1 = (componentPatch haspatchlevel short).1 ∧
    Cut ve (componentPatch haspatchlevel pos).2 (componentPatch haspatchlevel short).2 := by
  have digit : pos.head?.any Char.isDigit = short.head?.any Char.isDigit := by
    rcases cut with ⟨_, rfl⟩ | ⟨rfl, _, quiet⟩
    · exact head?_any_append ends.quiet _ digit_stops short
    · cases pos with
      | nil => rfl
      | cons c rest => simp [(quiet c rfl).2]
  unfold componentPatch
  rw [digit]
  split
  · split
    · exact ⟨strtollDigits_cut ends cut, cut.dropWhile digit_stops ends⟩
    · exact ⟨rfl, cut⟩
  · exact ⟨rfl, cut⟩

/-- A component read within the version; the cursor ends there too or behind it. -/
theorem getComponent_append {ve : List Char} (ends : EndsVersion ve) (c : Char)
    (rest : List Char) :
    (getComponent (c :: rest ++ ve)).1 = (getComponent (c :: rest)).1 ∧
    (((getComponent (c :: rest)).2 ≠ [] ∧
        (getComponent (c :: rest ++ ve)).2 = (getComponent (c :: rest)).2 ++ ve) ∨
      ((getComponent (c :: rest)).2 = [] ∧
        (getComponent (c :: rest ++ ve)).2.length ≤ ve.length)) := by
  obtain ⟨number, stage, cut⟩ := componentNumber_cut ends c rest
  obtain ⟨letter, patched, cut⟩ :=
    componentLetter_cut ends cut (componentNumber (c :: rest)).2.1
  obtain ⟨patch, cut⟩ := componentPatch_cut ends cut
    (componentLetter (componentNumber (c :: rest)).2.1 (componentNumber (c :: rest)).2.2).2.1
  simp only [getComponent, number, stage, letter, patched, patch]
  refine ⟨trivial, ?_⟩
  rcases cut with ⟨_, split⟩ | ⟨empty, past, _⟩
  · rw [split, List.dropWhile_append]
    split
    · next isEmpty =>
        exact Or.inr ⟨List.isEmpty_iff.mp isEmpty, length_dropWhile_le _ _⟩
    · next notEmpty =>
        exact Or.inl ⟨fun isEmpty => notEmpty (List.isEmpty_iff.mpr isEmpty), rfl⟩
  · rw [empty]
    exact Or.inr ⟨rfl, Nat.le_trans (length_dropWhile_le _ _) past⟩

theorem readComponent_cons {ve : List Char} {c : Char} (rest : List Char) (notPlus : c ≠ '+') :
    readComponent ve (c :: rest ++ ve) =
      some ((getComponent (c :: rest ++ ve)).1, (getComponent (c :: rest ++ ve)).2) := by
  refine if_pos ⟨?_, ?_⟩
  · simp only [List.length_append, List.length_cons]
    omega
  · simpa using notPlus

theorem readComponent_plus (ve rest : List Char) :
    readComponent ve ('+' :: rest ++ ve) = none :=
  if_neg fun available => available.2 rfl

/-- The components of a version do not depend on what follows it. -/
theorem versionTokens_append {ve : List Char} (ends : EndsVersion ve) (short : List Char) :
    versionTokens ve (short ++ ve) = versionTokens [] short := by
  induction size : short.length using Nat.strongRecOn generalizing short with
  | _ n ih =>
      subst size
      cases short with
      | nil => rw [List.nil_append, versionTokens_nil (by simp), versionTokens_nil (by simp)]
      | cons c rest =>
          by_cases plus : c = '+'
          · subst plus
            have blocked := readComponent_plus [] rest
            rw [List.append_nil] at blocked
            have more : ve.length < ('+' :: rest ++ ve).length := by
              simp only [List.length_append, List.length_cons]
              omega
            have whole : advance ve ('+' :: rest ++ ve) = rest ++ ve := if_pos more
            have alone : advance [] ('+' :: rest) = rest := if_pos (by simp)
            rw [versionTokens_blocked more (readComponent_plus ve rest),
              versionTokens_blocked (by simp) blocked, whole, alone,
              ih rest.length (by simp) rest rfl]
          · have read := @readComponent_cons ve c rest plus
            have readAlone := @readComponent_cons [] c rest plus
            rw [List.append_nil] at readAlone
            obtain ⟨same, rests⟩ := getComponent_append ends c rest
            rw [versionTokens_read read, versionTokens_read readAlone, same]
            congr 1
            rcases rests with ⟨_, split⟩ | ⟨empty, past⟩
            · rw [split]
              exact ih _ (length_getComponent_lt rest plus) _ rfl
            · rw [empty, versionTokens_nil (by omega), versionTokens_nil (by simp)]

/-! ## Case does not count -/

/-- A string in small letters. -/
def lower (s : List Char) : List Char := s.map Char.toLower

theorem isDigit_toLower (c : Char) : c.toLower.isDigit = c.isDigit := by
  by_cases upper : c.isUpper = true
  · have notDigit : c.isDigit = false := by
      cases digit : c.isDigit with
      | false => rfl
      | true =>
          simp only [Char.isDigit, Char.isUpper, Bool.and_eq_true, decide_eq_true_eq,
            UInt32.le_iff_toNat_le] at digit upper
          simp at digit upper
          omega
    have letter : c.toLower.isLower = true := by
      rw [Char.isLower_toLower_eq_isAlpha, Char.isAlpha, upper, Bool.true_or]
    rw [notDigit]
    cases digit : c.toLower.isDigit with
    | false => rfl
    | true =>
        simp only [Char.isDigit, Char.isLower, Bool.and_eq_true, decide_eq_true_eq,
          UInt32.le_iff_toNat_le] at digit letter
        simp at digit letter
        omega
  · rw [Char.toLower_eq_of_not_isUpper upper]

/-- Only letters have a small letter of their own. -/
theorem toLower_eq_iff {c d : Char} (notAlpha : d.isAlpha = false) : c.toLower = d ↔ c = d := by
  constructor
  · intro same
    have letterless : c.isAlpha = false := by
      rw [← Char.isAlpha_toLower_eq_isAlpha, same, notAlpha]
    have notUpper : ¬c.isUpper = true := by
      intro upper
      rw [Char.isAlpha, upper, Bool.true_or] at letterless
      cases letterless
    rwa [Char.toLower_eq_of_not_isUpper notUpper] at same
  · rintro rfl
    have notUpper : ¬c.isUpper = true := by
      intro upper
      rw [Char.isAlpha, upper, Bool.true_or] at notAlpha
      cases notAlpha
    exact Char.toLower_eq_of_not_isUpper notUpper

theorem isSeparator_toLower (c : Char) : isSeparator c.toLower = isSeparator c := by
  simp [isSeparator, isDigit_toLower, toLower_eq_iff]

theorem dropWhile_lower (q : Char → Bool) (same : ∀ c : Char, q c.toLower = q c)
    (s : List Char) : (lower s).dropWhile q = lower (s.dropWhile q) := by
  have agree : q ∘ Char.toLower = q := funext same
  rw [lower, List.dropWhile_map, agree, lower]

theorem head?_any_lower (q : Char → Bool) (same : ∀ c : Char, q c.toLower = q c)
    (s : List Char) : (lower s).head?.any q = s.head?.any q := by
  cases s with
  | nil => rfl
  | cons c rest => exact same c

theorem strtollDigits_lower (s : List Char) : strtollDigits (lower s) = strtollDigits s := by
  have digits : (lower s).takeWhile Char.isDigit = s.takeWhile Char.isDigit := by
    induction s with
    | nil => rfl
    | cons c rest ih =>
        have step : lower (c :: rest) = c.toLower :: lower rest := rfl
        rw [step, List.takeWhile_cons, List.takeWhile_cons, isDigit_toLower, ih]
        split
        · next digit =>
            have notUpper : ¬c.isUpper = true := by
              intro upper
              simp only [Char.isDigit, Char.isUpper, Bool.and_eq_true, decide_eq_true_eq,
                UInt32.le_iff_toNat_le] at digit upper
              simp at digit upper
              omega
            rw [Char.toLower_eq_of_not_isUpper notUpper]
        · rfl
  rw [strtollDigits, strtollDigits, decimal, decimal, digits]

theorem findStage_lower (s : List Char) : findStage (lower s) = findStage s := by
  unfold findStage
  refine List.find?_congr fun stage _ => ?_
  have starts : strncaseeq (lower s) stage.1.toList stage.1.length =
      strncaseeq s stage.1.toList stage.1.length := by
    have twice : Char.toLower ∘ Char.toLower = Char.toLower :=
      funext Char.toLower_toLower_eq_toLower
    rw [strncaseeq, strncaseeq, lower, ← List.map_take, List.map_map, twice]
  have rests : (lower s).drop stage.1.length = lower (s.drop stage.1.length) := by
    rw [lower, lower, List.map_drop]
  rw [starts, rests, head?_any_lower _ Char.isAlpha_toLower_eq_isAlpha]

theorem componentNumber_lower (s : List Char) :
    componentNumber (lower s) =
      ((componentNumber s).1, (componentNumber s).2.1, lower (componentNumber s).2.2) := by
  cases s with
  | nil => rfl
  | cons c rest =>
      have step : lower (c :: rest) = c.toLower :: lower rest := rfl
      have number := strtollDigits_lower (c :: rest)
      have digits := dropWhile_lower _ isDigit_toLower (c :: rest)
      have stars := dropWhile_lower (· ≠ '+') (by simp [toLower_eq_iff]) rest
      rw [step] at number digits ⊢
      simp only [componentNumber, isDigit_toLower, toLower_eq_iff (d := '*') (by decide), number,
        digits, stars]
      split_ifs <;> rfl

theorem componentLetter_lower (hasstage : Bool) (s : List Char) :
    componentLetter hasstage (lower s) = ((componentLetter hasstage s).1,
      (componentLetter hasstage s).2.1, lower (componentLetter hasstage s).2.2) := by
  cases s with
  | nil => rfl
  | cons c rest =>
      have step : lower (c :: rest) = c.toLower :: lower rest := rfl
      have stage := findStage_lower (c :: rest)
      have letters := dropWhile_lower _ Char.isAlpha_toLower_eq_isAlpha rest
      rw [step] at stage ⊢
      simp only [componentLetter, Char.isAlpha_toLower_eq_isAlpha, stage, letters,
        head?_any_lower _ Char.isAlpha_toLower_eq_isAlpha, Char.toLower_toLower_eq_toLower]
      split
      · split
        · split
          · rw [← step, lower, lower, List.map_drop]
          · rfl
        · rfl
      · rfl

theorem componentPatch_lower (haspatchlevel : Bool) (s : List Char) :
    componentPatch haspatchlevel (lower s) =
      ((componentPatch haspatchlevel s).1, lower (componentPatch haspatchlevel s).2) := by
  unfold componentPatch
  rw [head?_any_lower _ isDigit_toLower, strtollDigits_lower, dropWhile_lower _ isDigit_toLower]
  split_ifs <;> rfl

theorem getComponent_lower (s : List Char) :
    getComponent (lower s) = ((getComponent s).1, lower (getComponent s).2) := by
  simp only [getComponent, componentNumber_lower, componentLetter_lower, componentPatch_lower,
    dropWhile_lower _ isSeparator_toLower]

theorem versionTokens_lower (s : List Char) :
    versionTokens [] (lower s) = versionTokens [] s := by
  induction size : s.length using Nat.strongRecOn generalizing s with
  | _ n ih =>
      subst size
      cases s with
      | nil => rfl
      | cons c rest =>
          have step : lower (c :: rest) = c.toLower :: lower rest := rfl
          by_cases plus : c = '+'
          · subst plus
            have plain : ∀ later, readComponent [] ('+' :: later) = none :=
              fun later => if_neg fun available => available.2 rfl
            have behind : ∀ later : List Char, advance [] ('+' :: later) = later :=
              fun later => if_pos (by simp)
            have small : '+'.toLower = '+' := by decide
            rw [step, small, versionTokens_blocked (by simp) (plain _),
              versionTokens_blocked (by simp) (plain _), behind, behind,
              ih rest.length (by simp) rest rfl]
          · have smallPlus : c.toLower ≠ '+' := fun same =>
              plus ((toLower_eq_iff (by decide)).mp same)
            have read := @readComponent_cons [] c rest plus
            have readLower := @readComponent_cons [] c.toLower (lower rest) smallPlus
            rw [List.append_nil] at read readLower
            rw [← step] at readLower
            rw [versionTokens_read read, versionTokens_read readLower, getComponent_lower,
              ih _ (length_getComponent_lt rest plus) _ rfl]

/-! ## The comparison as a whole -/

theorem strrchr_spec {c : Char} {s ch : List Char} (found : strrchr c s = some ch) :
    ∃ front rest, s = front ++ ch ∧ ch = c :: rest := by
  induction s with
  | nil => cases found
  | cons x s ih =>
      rw [strrchr] at found
      cases later : strrchr c s with
      | some other =>
          rw [later, Option.some_or] at found
          cases found
          obtain ⟨front, rest, split, isHead⟩ := ih later
          exact ⟨x :: front, rest, by rw [split]; rfl, isHead⟩
      | none =>
          rw [later, Option.none_or] at found
          split at found
          · next same =>
              cases found
              exact ⟨[], s, rfl, by rw [same]⟩
          · cases found

/-- The version is what stands before its end. -/
theorem splitVersion_spec (pkgname : List Char) :
    ∃ short, (splitVersion pkgname).versionstr = short ++ (splitVersion pkgname).endname ∧
      EndsVersion (splitVersion pkgname).endname := by
  simp only [splitVersion]
  generalize (strrchr '-' pkgname).elim pkgname List.tail = versionstr
  cases underscore : strrchr '_' versionstr with
  | some ch =>
      obtain ⟨front, rest, split, isHead⟩ := strrchr_spec underscore
      refine ⟨front, split, ?_⟩
      rw [isHead]
      intro c isC
      exact Or.inl (Option.some.inj isC).symm
  | none =>
      cases comma : strrchr ',' versionstr with
      | some ch =>
          obtain ⟨front, rest, split, isHead⟩ := strrchr_spec comma
          refine ⟨front, by simpa [comma] using split, ?_⟩
          simp only [Option.elim_none, comma, Option.none_or, Option.getD_some]
          rw [isHead]
          intro c isC
          exact Or.inr (Option.some.inj isC).symm
      | none =>
          refine ⟨versionstr, by simp [comma], ?_⟩
          simp only [Option.elim_none, comma, Option.none_or, Option.getD_none]
          intro c isC
          cases isC

/-- The components of a package's version. -/
def tokensOf (pkgname : List Char) : List VersionToken :=
  versionTokens (splitVersion pkgname).endname (splitVersion pkgname).versionstr

def versionOrder : List Char → List Char → Ordering :=
  compareLex (fun pkg1 pkg2 => compare (splitVersion pkg1).epoch (splitVersion pkg2).epoch)
    (compareLex (fun pkg1 pkg2 => tokenOrder (tokensOf pkg1) (tokensOf pkg2))
      fun pkg1 pkg2 => compare (splitVersion pkg1).revision (splitVersion pkg2).revision)

instance : Std.TransCmp componentOrder := by
  unfold componentOrder
  infer_instance

instance : Std.TransCmp blockOrder := by
  unfold blockOrder
  infer_instance

instance : Std.TransCmp tokenOrder := by
  unfold tokenOrder
  infer_instance

instance : Std.TransCmp versionOrder := by
  unfold versionOrder
  infer_instance

/-- The shortcut skips the loop only where the loop finds no difference. -/
theorem shortcut_eq (pkg1 pkg2 : List Char)
    (sameLength : (splitVersion pkg1).versionstr.length - (splitVersion pkg1).endname.length =
      (splitVersion pkg2).versionstr.length - (splitVersion pkg2).endname.length)
    (sameText : strncaseeq (splitVersion pkg1).versionstr (splitVersion pkg2).versionstr
      ((splitVersion pkg1).versionstr.length - (splitVersion pkg1).endname.length) = true) :
    tokenOrder (tokensOf pkg1) (tokensOf pkg2) = .eq := by
  obtain ⟨short1, split1, ends1⟩ := splitVersion_spec pkg1
  obtain ⟨short2, split2, ends2⟩ := splitVersion_spec pkg2
  have length1 : (splitVersion pkg1).versionstr.length - (splitVersion pkg1).endname.length =
      short1.length := by
    rw [split1, List.length_append]
    omega
  have length2 : (splitVersion pkg2).versionstr.length - (splitVersion pkg2).endname.length =
      short2.length := by
    rw [split2, List.length_append]
    omega
  rw [length1, length2] at sameLength
  rw [length1, split1, split2, strncaseeq, List.take_left' rfl, sameLength,
    List.take_left' rfl, decide_eq_true_eq] at sameText
  have same : tokensOf pkg1 = tokensOf pkg2 :=
    calc
      tokensOf pkg1 = versionTokens [] (lower short1) := by
        rw [tokensOf, split1, versionTokens_append ends1, versionTokens_lower]
      _ = versionTokens [] (lower short2) := congrArg _ sameText
      _ = tokensOf pkg2 := by
        rw [tokensOf, split2, versionTokens_append ends2, versionTokens_lower]
  rw [same]
  exact Std.ReflCmp.compare_self

theorem compareVersions_eq (pkg1 pkg2 : List Char) :
    compareVersions (splitVersion pkg1) (splitVersion pkg2) =
      ordResult (tokenOrder (tokensOf pkg1) (tokensOf pkg2)) := by
  simp only [compareVersions]
  split
  · exact compareLoop_eq _ _ _ _
  · next shortcut =>
      obtain ⟨sameLength, sameText⟩ := not_or.mp shortcut
      rw [shortcut_eq pkg1 pkg2 (not_not.mp sameLength) (by simpa using sameText)]
      rfl

theorem versionCmpChars_eq (pkg1 pkg2 : List Char) :
    versionCmpChars pkg1 pkg2 = ordResult (versionOrder pkg1 pkg2) := by
  simp only [versionCmpChars, compareVersions_eq, versionOrder, compareLex, ordResult_then,
    ordResult_compareNat]
  split_ifs <;> first | rfl | contradiction

theorem versionCmp_lawful : Comparator pkgVersionCmp := by
  have isOrder : pkgVersionCmp = fun pkg1 pkg2 =>
      ordResult (versionOrder pkg1.toList pkg2.toList) :=
    funext fun _ => funext fun _ => versionCmpChars_eq _ _
  rw [isOrder]
  exact comparator_ordResult fun pkg1 pkg2 : String => versionOrder pkg1.toList pkg2.toList

/-- `pkg_version_cmp` is the comparison of a total preorder on all strings. -/
theorem pkgVersionCmp_comparator : Comparator pkgVersionCmp := versionCmp_lawful

end Pkgng
