import Pkgng.Version.Lexemes

/-!
# Rewriting versions

The laws that the comment on `get_component` gives in prose: how a version may be written
differently without any change to its comparisons, and that a star is the smallest component.
-/

set_option autoImplicit false

namespace Pkgng

open Lib

/-! ## Orders of tokens -/

theorem tokenOrder_cons (token : VersionToken) (first second : List VersionToken) :
    tokenOrder (token :: first) (token :: second) = tokenOrder first second := by
  unfold tokenOrder
  cases token with
  | plus =>
      have same : blockOrder [] [] = .eq := Std.ReflCmp.compare_self
      rw [versionBlocks, versionBlocks, padCompare_cons_cons, same, Ordering.eq_then]
  | component vc =>
      obtain ⟨block1, blocks1, split1⟩ := versionBlocks_cons first
      obtain ⟨block2, blocks2, split2⟩ := versionBlocks_cons second
      have same : componentOrder vc vc = .eq := Std.ReflCmp.compare_self
      rw [versionBlocks, versionBlocks, split1, split2, List.modifyHead_cons,
        List.modifyHead_cons, padCompare_cons_cons, padCompare_cons_cons, blockOrder,
        padCompare_cons_cons, same, Ordering.eq_then]

theorem tokenOrder_append (front first second : List VersionToken) :
    tokenOrder (front ++ first) (front ++ second) = tokenOrder first second := by
  induction front with
  | nil => rfl
  | cons token front ih => rw [List.cons_append, List.cons_append, tokenOrder_cons, ih]

/-- A component that is zero at the end does not count. -/
theorem tokenOrder_zero (tokens : List VersionToken) :
    tokenOrder tokens (tokens ++ [.component {}]) = .eq := by
  have same : componentOrder {} {} = .eq := Std.ReflCmp.compare_self
  have appended := tokenOrder_append tokens [] [.component {}]
  rw [List.append_nil] at appended
  rw [appended, tokenOrder, versionBlocks, versionBlocks, versionBlocks, List.modifyHead_cons,
    padCompare_cons_cons, blockOrder, padCompare_nil_cons, same, padCompare_nil_nil,
    padCompare_nil_nil]
  rfl

/-- A component smaller than the one in its place, or than zero where there is none. -/
theorem tokenOrder_lt {vc : VersionComponent} {later1 later2 : List VersionToken}
    (negative : vc.n < 0)
    (less : ∀ other rest, later2 = .component other :: rest → vc.n < other.n) :
    tokenOrder (.component vc :: later1) later2 = .lt := by
  have smaller : ∀ other : VersionComponent, vc.n < other.n → componentOrder vc other = .lt := by
    intro other isLess
    have first : compare vc.n other.n = .lt := compare_lt_iff_lt.mpr isLess
    rw [componentOrder, compareLex, compareOn, first]
    rfl
  obtain ⟨block1, blocks1, split1⟩ := versionBlocks_cons later1
  rw [tokenOrder, versionBlocks, split1, List.modifyHead_cons]
  cases later2 with
  | nil =>
      rw [versionBlocks, padCompare_cons_cons, blockOrder, padCompare_cons_nil,
        smaller {} negative]
      rfl
  | cons token rest =>
      cases token with
      | plus =>
          rw [versionBlocks, padCompare_cons_cons, blockOrder, padCompare_cons_nil,
            smaller {} negative]
          rfl
      | component other =>
          obtain ⟨block2, blocks2, split2⟩ := versionBlocks_cons rest
          rw [versionBlocks, split2, List.modifyHead_cons, padCompare_cons_cons, blockOrder,
            padCompare_cons_cons, smaller other (less other rest rfl)]
          rfl

/-! ## Names, revisions and epochs -/

/-- What may stand around a version: a package's name with its dash in front, and a revision
and an epoch behind. -/
structure VersionFrame where
  name : List Char
  suffix : List Char
  name_ends : name = [] ∨ ∃ front, name = front ++ ['-']
  suffix_dashless : '-' ∉ suffix
  suffix_starts : suffix = [] ∨ (∃ revision, suffix = '_' :: revision ∧ '_' ∉ revision) ∨
    ∃ epoch, suffix = ',' :: epoch ∧ '_' ∉ epoch ∧ ',' ∉ epoch

def VersionFrame.fill (frame : VersionFrame) (version : List Char) : List Char :=
  frame.name ++ (version ++ frame.suffix)

/-- The version does not itself hold what would be taken for a name, a revision or an
epoch. -/
def VersionFrame.Fits (frame : VersionFrame) (version : List Char) : Prop :=
  '-' ∉ version ∧ (frame.suffix.head? ≠ some '_' → '_' ∉ version) ∧
    (frame.suffix = [] → ',' ∉ version)

section Frames

variable (frame : VersionFrame) {version : List Char}

theorem VersionFrame.ends : EndsVersion frame.suffix := by
  intro c isHead
  rcases frame.suffix_starts with none | ⟨revision, starts, _⟩ | ⟨epoch, starts, _⟩
  · rw [none] at isHead
    cases isHead
  · rw [starts] at isHead
    exact Or.inl (Option.some.inj isHead).symm
  · rw [starts] at isHead
    exact Or.inr (Option.some.inj isHead).symm

/-- What stands behind the dash of the name. -/
theorem VersionFrame.versionstr (fits : frame.Fits version) :
    (strrchr '-' (frame.fill version)).elim (frame.fill version) List.tail =
      version ++ frame.suffix := by
  have dashless : strrchr '-' (version ++ frame.suffix) = none := by
    refine strrchr_none fun member => ?_
    rcases List.mem_append.mp member with inVersion | inSuffix
    · exact fits.1 inVersion
    · exact frame.suffix_dashless inSuffix
  rw [VersionFrame.fill, strrchr_append, dashless, Option.none_or]
  rcases frame.name_ends with none | ⟨front, ends⟩
  · rw [none]
    rfl
  · have last : strrchr '-' frame.name = some ['-'] := by
      rw [ends, strrchr_append]
      rfl
    rw [last]
    rfl

theorem VersionFrame.splitVersion_fill (fits : frame.Fits version) :
    splitVersion (frame.fill version) =
      { versionstr := version ++ frame.suffix
        endname := frame.suffix
        epoch := numberBehind (strrchr ',' frame.suffix)
        revision := numberBehind (strrchr '_' frame.suffix) } := by
  rw [splitVersion, frame.versionstr fits]
  obtain ⟨_, noRevision, noEpoch⟩ := fits
  rw [strrchr_append]
  rcases frame.suffix_starts with none | ⟨revision, starts, single⟩ | ⟨epoch, starts, plain, single⟩
  · -- Neither a revision nor an epoch.
    rw [none] at noRevision noEpoch ⊢
    rw [strrchr_none (noRevision (by simp)), List.append_nil]
    simp only [strrchr, Option.map_none, Option.none_or, Option.elim_none,
      strrchr_none (noEpoch rfl), Option.getD_none]
  · have other : strrchr ',' ('_' :: revision) = strrchr ',' revision := by
      rw [strrchr, if_neg (by decide), Option.or_none]
    rw [starts, strrchr_head single, other]
    rfl
  · rw [starts] at noRevision ⊢
    have revisionless : strrchr '_' (',' :: epoch) = none :=
      strrchr_none fun member => (List.mem_cons.mp member).elim (by decide) plain
    rw [revisionless, strrchr_none (noRevision (by decide : some ',' ≠ some '_'))]
    simp only [Option.map_none, Option.none_or, Option.elim_none, strrchr_append,
      strrchr_head single, Option.some_or, Option.getD_some]

theorem VersionFrame.tokensOf_fill (fits : frame.Fits version) :
    tokensOf (frame.fill version) = versionTokens [] version := by
  rw [tokensOf, frame.splitVersion_fill fits]
  exact versionTokens_append frame.ends version

/-- In one frame the versions decide. -/
theorem VersionFrame.versionOrder_fill {other : List Char} (fits : frame.Fits version)
    (fitsOther : frame.Fits other) :
    versionOrder (frame.fill version) (frame.fill other) =
      tokenOrder (versionTokens [] version) (versionTokens [] other) := by
  have equal : ∀ n : Nat, compare n n = .eq := fun n => Std.ReflCmp.compare_self
  rw [versionOrder, compareLex, compareLex, frame.splitVersion_fill fits,
    frame.splitVersion_fill fitsOther, frame.tokensOf_fill fits, frame.tokensOf_fill fitsOther,
    equal, equal, Ordering.eq_then, Ordering.then_eq]

end Frames

theorem lastOccurrence (c : Char) (s : List Char) :
    c ∉ s ∨ ∃ front rest, s = front ++ c :: rest ∧ c ∉ rest := by
  by_cases member : c ∈ s
  · obtain ⟨rest, front, split, absent⟩ :=
      List.eq_append_cons_of_mem (List.mem_reverse.mpr member)
    refine Or.inr ⟨front.reverse, rest.reverse, ?_, by simpa using absent⟩
    rw [← List.reverse_reverse s, split]
    simp
  · exact Or.inl member

/-- Every string is a version in a frame. -/
theorem exists_frame (pkg : List Char) :
    ∃ (frame : VersionFrame) (version : List Char),
      frame.Fits version ∧ frame.fill version = pkg := by
  obtain ⟨name, versionstr, named, isName, dashless⟩ : ∃ name versionstr,
      pkg = name ++ versionstr ∧ (name = [] ∨ ∃ front, name = front ++ ['-']) ∧
        '-' ∉ versionstr := by
    rcases lastOccurrence '-' pkg with absent | ⟨front, rest, split, absent⟩
    · exact ⟨[], pkg, rfl, Or.inl rfl, absent⟩
    · exact ⟨front ++ ['-'], rest, by simp [split], Or.inr ⟨front, rfl⟩, absent⟩
  subst named
  rcases lastOccurrence '_' versionstr with revisionless | ⟨version, revision, split, single⟩
  · rcases lastOccurrence ',' versionstr with epochless | ⟨version, epoch, split, single⟩
    · exact ⟨⟨name, [], isName, List.not_mem_nil, Or.inl rfl⟩, versionstr,
        ⟨dashless, fun _ => revisionless, fun _ => epochless⟩, by simp [VersionFrame.fill]⟩
    · subst split
      simp only [List.mem_append, List.mem_cons, not_or] at dashless revisionless
      exact ⟨⟨name, ',' :: epoch, isName, by simpa using dashless.2,
          Or.inr (Or.inr ⟨epoch, rfl, revisionless.2.2, single⟩)⟩, version,
        ⟨dashless.1, fun _ => revisionless.1, by simp⟩, rfl⟩
  · subst split
    simp only [List.mem_append, List.mem_cons, not_or] at dashless
    exact ⟨⟨name, '_' :: revision, isName, by simpa using dashless.2,
        Or.inr (Or.inl ⟨revision, rfl, single⟩)⟩, version,
      ⟨dashless.1, fun noRevision => absurd rfl noRevision, by simp⟩, rfl⟩

/-! ## What may be written differently -/

/-- The ways in which a version may be written differently. -/
inductive VersionRewrite : List Char → List Char → Prop
  | collapse (front back : List Char) {first second : Char}
      (separator1 : isSeparator first = true) (separator2 : isSeparator second = true) :
      VersionRewrite (front ++ first :: second :: back) (front ++ first :: back)
  | separator (front back : List Char) {old new : Char} (wasSeparator : isSeparator old = true)
      (isSeparator : isSeparator new = true) (ordinary : new ≠ '-' ∧ new ≠ '_' ∧ new ≠ ',') :
      VersionRewrite (front ++ old :: back) (front ++ new :: back)
  | letterCase {version recased : List Char} (same : lower version = lower recased) :
      VersionRewrite version recased
  | zero (front : List Char) {last : Char} (digit : last.isDigit = true) :
      VersionRewrite (front ++ [last]) (front ++ [last, '.', '0'])
  | stage (front word back : List Char) {last : Char} (digit : last.isDigit = true)
      (isStage : wordStage word ≠ none) (whole : ∀ c ∈ back.head?, ¬c.isAlpha = true) :
      VersionRewrite (front ++ last :: (word ++ back)) (front ++ last :: '.' :: (word ++ back))
  | patch (front digits back : List Char) {letter next : Char} (isLetter : letter.isAlpha = true)
      (number : digits ≠ []) (digit : ∀ c ∈ digits, c.isDigit = true)
      (nextLetter : next.isAlpha = true) :
      VersionRewrite (front ++ letter :: (digits ++ next :: back))
        (front ++ letter :: (digits ++ '.' :: next :: back))
  | word (front word back : List Char) {first : Char}
      (letters : ∀ c ∈ first :: word, c.isAlpha = true) (noStage : wordStage (first :: word) = none)
      (starts : ∀ c ∈ front.getLast?, ¬c.isAlpha = true)
      (whole : ∀ c ∈ back.head?, ¬c.isAlpha = true) :
      VersionRewrite (front ++ (first :: word ++ back)) (front ++ first :: back)

/-- A rewritten version fits where the version did. -/
theorem VersionRewrite.keeps {version rewritten : List Char} {mark : Char}
    (rewrite : VersionRewrite version rewritten) (isMark : mark = '-' ∨ mark = '_' ∨ mark = ',')
    (member : mark ∈ rewritten) : mark ∈ version := by
  have notDot : mark ≠ '.' ∧ mark ≠ '0' := by
    rcases isMark with rfl | rfl | rfl <;> decide
  cases rewrite with
  | collapse front back separator1 separator2 =>
      simp only [List.mem_append, List.mem_cons] at member ⊢
      tauto
  | separator front back wasSeparator isSeparator ordinary =>
      simp only [List.mem_append, List.mem_cons] at member ⊢
      rcases member with member | rfl | member
      · exact Or.inl member
      · tauto
      · exact Or.inr (Or.inr member)
  | letterCase same =>
      have small : mark.toLower = mark := by rcases isMark with rfl | rfl | rfl <;> decide
      have found : mark ∈ lower version := by
        rw [same, ← small]
        exact List.mem_map_of_mem member
      obtain ⟨c, inVersion, isMark'⟩ := List.mem_map.mp found
      have unchanged : c = mark := by
        by_cases upper : c.isUpper = true
        · have letter : mark.isAlpha = true := by
            rw [← isMark', Char.isAlpha_toLower_eq_isAlpha, Char.isAlpha, upper, Bool.true_or]
          rcases isMark with rfl | rfl | rfl <;> cases letter
        · rwa [Char.toLower_eq_of_not_isUpper upper] at isMark'
      exact unchanged ▸ inVersion
  | zero front digit =>
      simp only [List.mem_append, List.mem_cons, List.not_mem_nil] at member ⊢
      tauto
  | stage front word back digit isStage whole =>
      simp only [List.mem_append, List.mem_cons] at member ⊢
      tauto
  | patch front digits back isLetter number digit nextLetter =>
      simp only [List.mem_append, List.mem_cons] at member ⊢
      tauto
  | word front word back letters noStage starts whole =>
      simp only [List.mem_append, List.mem_cons] at member ⊢
      tauto

theorem VersionRewrite.fits {frame : VersionFrame} {version rewritten : List Char}
    (rewrite : VersionRewrite version rewritten) (fits : frame.Fits version) :
    frame.Fits rewritten := by
  obtain ⟨dashless, revisionless, epochless⟩ := fits
  refine ⟨?_, ?_, ?_⟩
  · exact fun member => dashless (rewrite.keeps (by simp) member)
  · exact fun noRevision member => revisionless noRevision (rewrite.keeps (by simp) member)
  · exact fun noSuffix member => epochless noSuffix (rewrite.keeps (by simp) member)

/-! ## Contexts -/

/-- Lexemes that the machine reads alike from every state, also with characters in front. -/
inductive Alike : List Lexeme → List Lexeme → Prop
  | same (list : List Lexeme) : Alike list list
  | behind (front : List Lexeme) (kind : CharKind) (text : List Char) {first second : List Lexeme}
      (runs : ∀ text reading, tokenOrder (reader.run reading (⟨kind, text⟩ :: first))
        (reader.run reading (⟨kind, text⟩ :: second)) = .eq)
      (plusses : first.dropWhile (·.kind ≠ .plus) = second.dropWhile (·.kind ≠ .plus)) :
      Alike (front ++ ⟨kind, text⟩ :: first) (front ++ ⟨kind, text⟩ :: second)

namespace Alike

variable {first second : List Lexeme}

theorem run_eq (alike : Alike first second) (reading : Reading) :
    tokenOrder (reader.run reading first) (reader.run reading second) = .eq := by
  cases alike with
  | same => exact Std.ReflCmp.compare_self
  | behind front kind text runs plusses =>
      rw [reader.run_append, reader.run_append, tokenOrder_append]
      exact runs text _

/-- A further character in front joins the first run or stands before it; a star takes
everything up to the same plus. -/
theorem consChar (c : Char) (alike : Alike first second) :
    Alike (consChar c first) (consChar c second) := by
  cases alike with
  | same => exact .same _
  | @behind front kind text first second runs plusses =>
      rcases (kindOf c).joins_or with joins | plus | star
      · rw [consChar_joins joins, consChar_joins joins]
        cases front with
        | nil =>
            rw [List.nil_append, List.nil_append, joinRun, joinRun]
            split
            · next same => exact same ▸ .behind [] _ _ runs plusses
            · exact .behind [_] kind text runs plusses
        | cons run front =>
            rw [List.cons_append, List.cons_append, joinRun, joinRun]
            split
            · exact .behind (_ :: front) kind text runs plusses
            · exact .behind (_ :: _ :: front) kind text runs plusses
      · rw [Pkgng.consChar, Pkgng.consChar, plus]
        exact .behind (_ :: front) kind text runs plusses
      · rw [Pkgng.consChar, Pkgng.consChar, star]
        dsimp only
        rw [List.dropWhile_append, List.dropWhile_append]
        split
        · by_cases isPlus : kind = .plus
          · rw [List.dropWhile_cons_of_neg (by simpa using isPlus),
              List.dropWhile_cons_of_neg (by simpa using isPlus)]
            exact .behind [_] kind text runs plusses
          · rw [List.dropWhile_cons_of_pos (by simpa using isPlus),
              List.dropWhile_cons_of_pos (by simpa using isPlus), plusses]
            exact .same _
        · exact .behind (_ :: front.dropWhile _) kind text runs plusses

theorem foldr (alike : Alike first second) (front : List Char) :
    Alike (front.foldr Pkgng.consChar first) (front.foldr Pkgng.consChar second) := by
  induction front with
  | nil => exact alike
  | cons c front ih => exact ih.consChar c

end Alike

/-- Strings whose lexemes are alike are versions alike, with anything in front. -/
theorem tokenOrder_of_alike {s t : List Char} (alike : Alike (lexemes s) (lexemes t))
    (front : List Char) :
    tokenOrder (versionTokens [] (front ++ s)) (versionTokens [] (front ++ t)) = .eq := by
  rw [versionTokens_eq_run, versionTokens_eq_run, lexemes_append, lexemes_append]
  exact (alike.foldr front).run_eq .start

/-! ## The laws -/

theorem wordStage_letters {word : List Char} (isStage : wordStage word ≠ none) :
    ∀ c ∈ word, c.isAlpha = true := by
  obtain ⟨stage, found⟩ := Option.ne_none_iff_exists'.mp isStage
  obtain ⟨_, _, _, letters⟩ := stage_letters (List.mem_of_find?_eq_some found)
  have same : lower word = stage.1.toList := by
    unfold wordStage at found
    simpa using List.find?_some found
  intro c member
  rw [← Char.isAlpha_toLower_eq_isAlpha]
  refine List.all_eq_true.mp letters c.toLower ?_
  rw [← same]
  exact List.mem_map_of_mem member

/-- A run in front of something that does not belong to it. -/
theorem span_whole {p : Char → Bool} {run back : List Char} (all : ∀ c ∈ run, p c = true)
    (whole : ∀ c ∈ back.head?, ¬p c = true) :
    (run ++ back).takeWhile p = run ∧ (run ++ back).dropWhile p = back := by
  rw [List.takeWhile_append_of_pos all, List.dropWhile_append_of_pos all]
  cases back with
  | nil => exact ⟨List.append_nil _, rfl⟩
  | cons c back =>
      have stops := whole c rfl
      rw [List.takeWhile_cons_of_neg stops, List.dropWhile_cons_of_neg stops, List.append_nil]
      exact ⟨rfl, rfl⟩

theorem lexemes_wholeWord {c : Char} {word back : List Char}
    (letters : ∀ d ∈ c :: word, d.isAlpha = true) (whole : ∀ d ∈ back.head?, ¬d.isAlpha = true) :
    lexemes (c :: word ++ back) = ⟨.letter, c :: word⟩ :: lexemes back := by
  obtain ⟨taken, dropped⟩ := span_whole letters whole
  have run := lexemes_word (letters c (List.mem_cons_self ..)) (word ++ back)
  rw [← List.cons_append, taken, dropped] at run
  exact run

theorem lexemes_wholeNumber {c : Char} {digits back : List Char}
    (digit : ∀ d ∈ c :: digits, d.isDigit = true) (whole : ∀ d ∈ back.head?, ¬d.isDigit = true) :
    lexemes (c :: digits ++ back) = ⟨.digit, c :: digits⟩ :: lexemes back := by
  obtain ⟨taken, dropped⟩ := span_whole digit whole
  have run := lexemes_digits (digit c (List.mem_cons_self ..)) (digits ++ back)
  rw [← List.cons_append, taken, dropped] at run
  exact run

theorem letter_not_digit {c : Char} (letter : c.isAlpha = true) : ¬c.isDigit = true := by
  intro digit
  have kind := (kindOf_digit c).mpr digit
  rw [(kindOf_letter c).mpr letter] at kind
  cases kind

theorem dot_not_digit (rest : List Char) : ∀ d ∈ ('.' :: rest).head?, ¬d.isDigit = true := by
  simp

theorem lexemes_dot {c : Char} (letter : c.isAlpha = true) (s : List Char) :
    lexemes ('.' :: c :: s) = ⟨.separator, []⟩ :: lexemes (c :: s) := by
  have other : ¬isSeparator c = true := by simp [isSeparator, letter]
  rw [lexemes_separators (by decide), List.dropWhile_cons_of_pos (by decide),
    List.dropWhile_cons_of_neg other]

/-- A stage behind a number starts a component, with and without a dot. -/
theorem alike_stage {last : Char} {word back : List Char} (digit : last.isDigit = true)
    (isStage : wordStage word ≠ none) (whole : ∀ c ∈ back.head?, ¬c.isAlpha = true) :
    Alike (lexemes (last :: (word ++ back))) (lexemes (last :: '.' :: (word ++ back))) := by
  cases word with
  | nil => exact absurd rfl isStage
  | cons c word =>
      have letters := wordStage_letters isStage
      have letter := letters c (List.mem_cons_self ..)
      have number : ∀ rest : List Char, (∀ d ∈ rest.head?, ¬d.isDigit = true) →
          lexemes (last :: rest) = ⟨.digit, [last]⟩ :: lexemes rest := fun rest =>
        @lexemes_wholeNumber last [] rest (by simpa using digit)
      rw [number _ (by simpa using letter_not_digit letter), number _ (dot_not_digit _),
        List.cons_append, lexemes_dot letter, ← List.cons_append,
        lexemes_wholeWord letters whole]
      refine .behind [] .digit [last] (fun text reading => ?_) rfl
      have same : reader.run reading (⟨.digit, text⟩ :: ⟨.letter, c :: word⟩ :: lexemes back) =
          reader.run reading
            (⟨.digit, text⟩ :: ⟨.separator, []⟩ :: ⟨.letter, c :: word⟩ :: lexemes back) := by
        cases reading <;>
          simp [run_cons, readingStep, startStep, behindStep, emitStep, isStage]
      rw [same]
      exact Std.ReflCmp.compare_self

/-- So does a letter behind a patch number. -/
theorem alike_patch {letter next : Char} {digits back : List Char}
    (isLetter : letter.isAlpha = true) (number : digits ≠ [])
    (digit : ∀ c ∈ digits, c.isDigit = true) (nextLetter : next.isAlpha = true) :
    Alike (lexemes (letter :: (digits ++ next :: back)))
      (lexemes (letter :: (digits ++ '.' :: next :: back))) := by
  obtain ⟨d, digits, rfl⟩ := List.exists_cons_of_ne_nil number
  have notLetter : ¬d.isAlpha = true := fun isAlpha =>
    letter_not_digit isAlpha (digit d (List.mem_cons_self ..))
  have word : ∀ rest : List Char, (∀ c ∈ rest.head?, ¬c.isAlpha = true) →
      lexemes (letter :: rest) = ⟨.letter, [letter]⟩ :: lexemes rest := fun rest =>
    @lexemes_wholeWord letter [] rest (by simpa using isLetter)
  rw [word _ (by simpa using notLetter), word _ (by simpa using notLetter),
    lexemes_wholeNumber digit (by simpa using letter_not_digit nextLetter),
    lexemes_wholeNumber digit (dot_not_digit _), lexemes_dot nextLetter]
  obtain ⟨text, later, head⟩ := lexemes_head next back
  rw [(kindOf_letter next).mpr nextLetter] at head
  rw [head]
  refine .behind [] .letter [letter] (fun text' reading => ?_) rfl
  have same : reader.run reading
        (⟨.letter, text'⟩ :: ⟨.digit, d :: digits⟩ :: ⟨.letter, text⟩ :: later) =
      reader.run reading (⟨.letter, text'⟩ :: ⟨.digit, d :: digits⟩ :: ⟨.separator, []⟩ ::
        ⟨.letter, text⟩ :: later) := by
    cases reading with
    | number n =>
        by_cases isStage : wordStage text' = none <;>
          simp [run_cons, readingStep, startStep, behindStep, emitStep, isStage]
    | _ => simp [run_cons, readingStep, startStep, behindStep, emitStep]
  rw [same]
  exact Std.ReflCmp.compare_self

/-- Zero is what a component is that is missing. -/
theorem alike_zero {last : Char} (digit : last.isDigit = true) :
    Alike (lexemes [last]) (lexemes [last, '.', '0']) := by
  have number : ∀ rest : List Char, (∀ d ∈ rest.head?, ¬d.isDigit = true) →
      lexemes (last :: rest) = ⟨.digit, [last]⟩ :: lexemes rest := fun rest =>
    @lexemes_wholeNumber last [] rest (by simpa using digit)
  have zero : lexemes ['.', '0'] = [⟨.separator, []⟩, ⟨.digit, ['0']⟩] := by decide
  rw [number [] (by simp), number ['.', '0'] (dot_not_digit _), zero]
  refine .behind [] .digit [last] (fun text reading => ?_) rfl
  have appended : reader.run reading [⟨.digit, text⟩, ⟨.separator, []⟩, ⟨.digit, ['0']⟩] =
      reader.run reading [⟨.digit, text⟩] ++ [.component {}] := by
    have none : strtollDigits ['0'] = 0 := by decide +kernel
    cases reading <;>
      simp [run_cons, run_nil, readingStep, readingFinish, startStep, behindStep, emitStep, none]
  rw [show lexemes [] = [] from rfl, appended]
  exact tokenOrder_zero _

/-- Of a word that is no stage only the first letter counts. -/
theorem run_firstLetter {first : Char} {word : List Char}
    (noStage : wordStage (first :: word) = none) (reading : Reading) (later : List Lexeme) :
    reader.run reading (⟨.letter, first :: word⟩ :: later) =
      reader.run reading (⟨.letter, [first]⟩ :: later) := by
  have single : wordStage [first] = none := by
    cases found : wordStage [first] with
    | none => rfl
    | some stage => exact absurd (wordStage_length found).2 (by simp)
  cases reading <;>
    simp [run_cons, readingStep, startStep, behindStep, emitStep, wordValue, letterValue, noStage,
      single]

/-- Words in front of the same lexemes, behind a character that does not belong to them. -/
theorem alike_word {c first : Char} {word : List Char} (other : ¬c.isAlpha = true)
    (noStage : wordStage (first :: word) = none) (later : List Lexeme) :
    Alike (consChar c (⟨.letter, first :: word⟩ :: later))
      (consChar c (⟨.letter, [first]⟩ :: later)) := by
  have notLetter : CharKind.letter ≠ kindOf c := fun same => other ((kindOf_letter c).mp same.symm)
  have runs : ∀ (kind : CharKind) (text : List Char) (reading : Reading),
      tokenOrder (reader.run reading (⟨kind, text⟩ :: ⟨.letter, first :: word⟩ :: later))
        (reader.run reading (⟨kind, text⟩ :: ⟨.letter, [first]⟩ :: later)) = .eq := by
    intro kind text reading
    have same := run_firstLetter noStage (readingStep reading ⟨kind, text⟩).2 later
    rw [run_cons, same]
    exact Std.ReflCmp.compare_self
  rcases (kindOf c).joins_or with joins | plus | star
  · rw [consChar_joins joins, consChar_joins joins, joinRun, joinRun, if_neg notLetter,
      if_neg notLetter]
    exact .behind [] (kindOf c) _ (runs _) rfl
  · rw [consChar, consChar, plus]
    exact .behind [] .plus _ (runs _) rfl
  · rw [consChar, consChar, star]
    exact .same _

theorem tokenOrder_word {first : Char} {word front back : List Char}
    (letters : ∀ c ∈ first :: word, c.isAlpha = true) (noStage : wordStage (first :: word) = none)
    (starts : ∀ c ∈ front.getLast?, ¬c.isAlpha = true)
    (whole : ∀ c ∈ back.head?, ¬c.isAlpha = true) :
    tokenOrder (versionTokens [] (front ++ (first :: word ++ back)))
      (versionTokens [] (front ++ first :: back)) = .eq := by
  have long := lexemes_wholeWord letters whole
  have short : lexemes (first :: back) = ⟨.letter, [first]⟩ :: lexemes back :=
    @lexemes_wholeWord first [] back (by simpa using letters first (List.mem_cons_self ..)) whole
  rcases List.eq_nil_or_concat front with rfl | ⟨front, c, rfl⟩
  · rw [List.nil_append, List.nil_append, versionTokens_eq_run, versionTokens_eq_run, long, short,
      run_firstLetter noStage]
    exact Std.ReflCmp.compare_self
  · have other : ¬c.isAlpha = true := starts c (by simp)
    rw [List.concat_eq_append, List.append_assoc, List.append_assoc]
    refine @tokenOrder_of_alike (c :: (first :: word ++ back)) (c :: first :: back) ?_ front
    rw [lexemes_cons, lexemes_cons, long, short]
    exact alike_word other noStage (lexemes back)

theorem VersionRewrite.tokenOrder_eq {version rewritten : List Char}
    (rewrite : VersionRewrite version rewritten) :
    tokenOrder (versionTokens [] version) (versionTokens [] rewritten) = .eq := by
  cases rewrite with
  | @collapse front back first second separator1 separator2 =>
      have same : lexemes (first :: second :: back) = lexemes (first :: back) := by
        rw [lexemes_separators separator1, lexemes_separators separator1,
          List.dropWhile_cons_of_pos separator1, List.dropWhile_cons_of_pos separator1,
          List.dropWhile_cons_of_pos separator2]
      exact tokenOrder_of_alike (same ▸ .same _) front
  | @separator front back old new wasSeparator isSeparator ordinary =>
      have same : lexemes (old :: back) = lexemes (new :: back) := by
        rw [lexemes_separators wasSeparator, lexemes_separators isSeparator,
          List.dropWhile_cons_of_pos wasSeparator, List.dropWhile_cons_of_pos isSeparator]
      exact tokenOrder_of_alike (same ▸ .same _) front
  | letterCase same =>
      rw [← versionTokens_lower version, same, versionTokens_lower]
      exact Std.ReflCmp.compare_self
  | zero front digit => exact tokenOrder_of_alike (alike_zero digit) front
  | stage front word back digit isStage whole =>
      exact tokenOrder_of_alike (alike_stage digit isStage whole) front
  | patch front digits back isLetter number digit nextLetter =>
      exact tokenOrder_of_alike (alike_patch isLetter number digit nextLetter) front
  | word front word back letters noStage starts whole =>
      exact tokenOrder_word letters noStage starts whole

/-- Any number of rewriting steps. -/
theorem rewrites_versionOrder {frame : VersionFrame} {version rewritten : List Char}
    (fits : frame.Fits version)
    (rewrites : Relation.ReflTransGen VersionRewrite version rewritten) :
    frame.Fits rewritten ∧
      versionOrder (frame.fill version) (frame.fill rewritten) = .eq := by
  induction rewrites with
  | refl => exact ⟨fits, Std.ReflCmp.compare_self⟩
  | tail _ rewrite ih =>
      obtain ⟨fitsBefore, before⟩ := ih
      have fitsAfter := rewrite.fits fitsBefore
      refine ⟨fitsAfter, ?_⟩
      rw [Std.TransCmp.congr_left before, frame.versionOrder_fill fitsBefore fitsAfter]
      exact rewrite.tokenOrder_eq

/-! ## The star -/

/-- The components and plus signs between two positions of a version. -/
inductive Reads : List Char → List VersionToken → List Char → Prop
  | here (pos : List Char) : Reads pos [] pos
  | component {c : Char} {rest later : List Char} {tokens : List VersionToken} (notPlus : c ≠ '+')
      (reads : Reads (getComponent (c :: rest)).2 tokens later) :
      Reads (c :: rest) (.component (getComponent (c :: rest)).1 :: tokens) later
  | plus {rest later : List Char} {tokens : List VersionToken} (reads : Reads rest tokens later) :
      Reads ('+' :: rest) (.plus :: tokens) later

theorem Reads.versionTokens_eq {pos later : List Char} {tokens : List VersionToken}
    (reads : Reads pos tokens later) :
    versionTokens [] pos = tokens ++ versionTokens [] later := by
  induction reads with
  | here pos => rfl
  | component notPlus reads ih => rw [versionTokens_component _ notPlus, ih, List.cons_append]
  | plus reads ih => rw [versionTokens_plus, ih, List.cons_append]

theorem getComponent_number (pos : List Char) :
    (getComponent pos).1.n = (componentNumber pos).1 := rfl

theorem star_number (rest : List Char) : (getComponent ('*' :: rest)).1.n = -2 := by
  rw [getComponent_number, componentNumber, if_neg (by decide), if_pos rfl]

theorem other_number {c : Char} (rest : List Char) (notStar : c ≠ '*') :
    -1 ≤ (getComponent (c :: rest)).1.n := by
  rw [getComponent_number, componentNumber]
  split
  · dsimp only [strtollDigits]
    omega
  · exact Int.le_refl (-1)

/-- A star is smaller than what stands in its place otherwise. -/
theorem versionOrder_star {frame : VersionFrame} {starred other behind instead : List Char}
    {tokens : List VersionToken} (fits : frame.Fits starred) (fitsOther : frame.Fits other)
    (readsStar : Reads starred tokens ('*' :: behind)) (readsOther : Reads other tokens instead)
    (differs : instead.head? ≠ some '*') :
    versionOrder (frame.fill starred) (frame.fill other) = .lt := by
  rw [frame.versionOrder_fill fits fitsOther, readsStar.versionTokens_eq,
    readsOther.versionTokens_eq, tokenOrder_append, versionTokens_component behind (by decide)]
  refine tokenOrder_lt (by rw [star_number]; decide) fun vc rest split => ?_
  rw [star_number]
  cases instead with
  | nil =>
      rw [versionTokens_nil (by simp)] at split
      cases split
  | cons c later =>
      by_cases plus : c = '+'
      · rw [plus, versionTokens_plus] at split
        cases split
      · rw [versionTokens_component later plus] at split
        cases split
        have number := other_number later fun star => differs (congrArg some star)
        omega

/-- `pkg_version_cmp` does not tell a rewritten version from the version, and takes a star for
the smallest component. -/
theorem versionCmp_rewriting :
    (∀ (frame : VersionFrame) (version rewritten : List Char), frame.Fits version →
      Relation.ReflTransGen VersionRewrite version rewritten → ∀ pkg : List Char,
        versionCmpChars (frame.fill version) pkg = versionCmpChars (frame.fill rewritten) pkg) ∧
    ∀ (frame : VersionFrame) (starred other behind instead : List Char)
      (tokens : List VersionToken), frame.Fits starred → frame.Fits other →
      Reads starred tokens ('*' :: behind) → Reads other tokens instead →
      instead.head? ≠ some '*' →
        versionCmpChars (frame.fill starred) (frame.fill other) = -1 := by
  constructor
  · intro frame version rewritten fits rewrites pkg
    have equal := (rewrites_versionOrder fits rewrites).2
    rw [versionCmpChars_eq, versionCmpChars_eq, Std.TransCmp.congr_left equal]
  · intro frame starred other behind instead tokens fits fitsOther readsStar readsOther differs
    rw [versionCmpChars_eq, versionOrder_star fits fitsOther readsStar readsOther differs]
    rfl

theorem versionCmp_rewriting_dev :
    versionCmpChars ['p', '-', '2', '.', 'd', 'e', 'v', '1', '_', '3'] ['p', '-', '2', '.', 'd'] =
        versionCmpChars ['p', '-', '2', '.', 'd', '1', '_', '3'] ['p', '-', '2', '.', 'd'] ∧
      versionCmpChars ['2', '.', '*'] ['2', 'p', 'l', '1'] = -1 := by
  constructor
  · exact versionCmp_rewriting.1
      ⟨['p', '-'], ['_', '3'], Or.inr ⟨['p'], rfl⟩, by decide,
        Or.inr (Or.inl ⟨['3'], rfl, by decide⟩)⟩
      ['2', '.', 'd', 'e', 'v', '1'] ['2', '.', 'd', '1'] ⟨by decide, by decide, by decide⟩
      (.single (.word ['2', '.'] ['e', 'v'] ['1'] (by simp) (by decide +kernel) (by simp)
        (by simp))) ['p', '-', '2', '.', 'd']
  · have starred : getComponent ['2', '.', '*'] = ({ n := 2 }, ['*']) := by decide +kernel
    have other : getComponent ['2', 'p', 'l', '1'] = ({ n := 2 }, ['p', 'l', '1']) := by
      decide +kernel
    have readsStar := @Reads.component '2' ['.', '*'] _ _ (by decide) (.here _)
    have readsOther := @Reads.component '2' ['p', 'l', '1'] _ _ (by decide) (.here _)
    rw [starred] at readsStar
    rw [other] at readsOther
    exact versionCmp_rewriting.2 ⟨[], [], Or.inl rfl, List.not_mem_nil, Or.inl rfl⟩
      ['2', '.', '*'] ['2', 'p', 'l', '1'] [] ['p', 'l', '1'] [.component { n := 2 }]
      ⟨by decide, by decide, by decide⟩ ⟨by decide, by decide, by decide⟩ readsStar readsOther
      (by decide)

end Pkgng
