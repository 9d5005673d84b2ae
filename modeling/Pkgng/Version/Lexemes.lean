import Pkgng.Lib.Transducer
import Pkgng.Version.Shortcut

/-!
# Versions as sequences of lexemes

`get_component` looks ahead into what follows a component.  Read in two steps its result is
easier to follow: the characters form runs of digits, letters and separators, and a machine
that sees one run after the other emits the components.
-/

set_option autoImplicit false

namespace Pkgng

open Lib

inductive CharKind
  | digit
  | letter
  | separator
  | plus
  | star
deriving DecidableEq

def kindOf (c : Char) : CharKind :=
  if c.isDigit then .digit
  else if c.isAlpha then .letter
  else if c = '+' then .plus
  else if c = '*' then .star
  else .separator

/-- A run of characters of one kind; the text counts for digits and letters only. -/
structure Lexeme where
  kind : CharKind
  text : List Char := []
deriving DecidableEq

/-- The text of a run with a further character in front. -/
def keepChar (c : Char) (text : List Char) : List Char :=
  if kindOf c = .digit ∨ kindOf c = .letter then c :: text else []

/-- A character that joins a run of its kind. -/
def joinRun (c : Char) : List Lexeme → List Lexeme
  | [] => [⟨kindOf c, keepChar c []⟩]
  | run :: later =>
      if run.kind = kindOf c then ⟨kindOf c, keepChar c run.text⟩ :: later
      else ⟨kindOf c, keepChar c []⟩ :: run :: later

/-- A character in front of the lexemes of what follows it.  A star takes everything up to a
plus. -/
def consChar (c : Char) (later : List Lexeme) : List Lexeme :=
  match kindOf c with
  | .plus => ⟨.plus, []⟩ :: later
  | .star => ⟨.star, []⟩ :: later.dropWhile (·.kind ≠ .plus)
  | _ => joinRun c later

def lexemes (s : List Char) : List Lexeme := s.foldr consChar []

theorem lexemes_append (s t : List Char) : lexemes (s ++ t) = s.foldr consChar (lexemes t) :=
  List.foldr_append

/-! ## The machine -/

/-- The stage that a whole word is. -/
def wordStage (word : List Char) : Option (String × Int) :=
  stages.find? fun stage => lower word = stage.1.toList

/-- The value of the first letter. -/
def letterValue (word : List Char) : Int := (word.headD 'a').toLower.toNat - 'a'.toNat + 1

def wordValue (word : List Char) : Int := ((wordStage word).map Prod.snd).getD (letterValue word)

/-- Where a component stands: at its start, behind its number, behind its letter, or behind
its end, where separators are skipped. -/
inductive Reading
  | start
  | number (n : Int)
  | letter (n a : Int)
  | behind

def startStep (run : Lexeme) : List VersionToken × Reading :=
  match run.kind with
  | .digit => ([], .number (strtollDigits run.text))
  | .letter => ([], .letter (-1) (wordValue run.text))
  | .separator => ([.component { n := -1 }], .behind)
  | .star => ([.component { n := -2 }], .behind)
  | .plus => ([.plus], .start)

def behindStep (run : Lexeme) : List VersionToken × Reading :=
  if run.kind = .separator then ([], .behind) else startStep run

/-- The end of a component in front of a lexeme that does not belong to it. -/
def emitStep (vc : VersionComponent) (run : Lexeme) : List VersionToken × Reading :=
  (.component vc :: (behindStep run).1, (behindStep run).2)

def readingStep : Reading → Lexeme → List VersionToken × Reading
  | .start, run => startStep run
  | .behind, run => behindStep run
  | .number n, run =>
      if run.kind = .letter ∧ wordStage run.text = none then ([], .letter n (letterValue run.text))
      else emitStep { n := n } run
  | .letter n a, run =>
      if run.kind = .digit then
        ([.component { n := n, a := a, pl := strtollDigits run.text }], .behind)
      else emitStep { n := n, a := a, pl := -1 } run

def readingFinish : Reading → List VersionToken
  | .start => []
  | .behind => []
  | .number n => [.component { n := n }]
  | .letter n a => [.component { n := n, a := a, pl := -1 }]

def reader : Transducer Reading Lexeme VersionToken := ⟨readingStep, readingFinish⟩

/-! ## Runs of characters -/

theorem kindOf_digit (c : Char) : kindOf c = .digit ↔ c.isDigit = true := by
  unfold kindOf
  split_ifs with digit letter plus star <;> simp [digit]

theorem kindOf_letter (c : Char) : kindOf c = .letter ↔ c.isAlpha = true := by
  have apart : c.isDigit = true → ¬c.isAlpha = true := by
    intro digit letter
    simp only [Char.isAlpha, Char.isUpper, Char.isLower, Char.isDigit, Bool.or_eq_true,
      Bool.and_eq_true, decide_eq_true_eq, UInt32.le_iff_toNat_le] at digit letter
    simp at digit letter
    omega
  unfold kindOf
  split_ifs with digit letter plus star
  · exact iff_of_false (by simp) (apart digit)
  · exact iff_of_true rfl letter
  · exact iff_of_false (by simp) letter
  · exact iff_of_false (by simp) letter
  · exact iff_of_false (by simp) letter

theorem kindOf_plus (c : Char) : kindOf c = .plus ↔ c = '+' := by
  constructor
  · intro kind
    unfold kindOf at kind
    split_ifs at kind with _ _ plus
    exact plus
  · rintro rfl
    decide

theorem kindOf_star (c : Char) : kindOf c = .star ↔ c = '*' := by
  constructor
  · intro kind
    unfold kindOf at kind
    split_ifs at kind with _ _ _ star
    exact star
  · rintro rfl
    decide

theorem kindOf_separator (c : Char) : kindOf c = .separator ↔ isSeparator c = true := by
  unfold kindOf isSeparator
  by_cases digit : c.isDigit = true
  · simp [digit]
  by_cases letter : c.isAlpha = true
  · simp [digit, letter]
  by_cases plus : c = '+'
  · simp [plus]
  by_cases star : c = '*'
  · simp [star]
  · simp [digit, letter, plus, star]

/-- The kinds whose characters join. -/
def CharKind.Joins (kind : CharKind) : Prop := kind ≠ .plus ∧ kind ≠ .star

theorem CharKind.joins_or (kind : CharKind) : kind.Joins ∨ kind = .plus ∨ kind = .star := by
  by_cases plus : kind = .plus
  · exact Or.inr (Or.inl plus)
  · by_cases star : kind = .star
    · exact Or.inr (Or.inr star)
    · exact Or.inl ⟨plus, star⟩

theorem consChar_joins {c : Char} (joins : (kindOf c).Joins) (later : List Lexeme) :
    consChar c later = joinRun c later := by
  unfold consChar
  split
  · next isPlus => exact absurd isPlus joins.1
  · next isStar => exact absurd isStar joins.2
  · rfl

theorem lexemes_cons (c : Char) (s : List Char) : lexemes (c :: s) = consChar c (lexemes s) := rfl

theorem lexemes_head (c : Char) (s : List Char) :
    ∃ text later, lexemes (c :: s) = ⟨kindOf c, text⟩ :: later := by
  rw [lexemes_cons]
  rcases (kindOf c).joins_or with joins | plus | star
  · rw [consChar_joins joins]
    cases lexemes s with
    | nil => exact ⟨_, _, rfl⟩
    | cons run later =>
        rw [joinRun]
        split
        · exact ⟨_, _, rfl⟩
        · exact ⟨_, _, rfl⟩
  · rw [consChar, plus]
    exact ⟨_, _, rfl⟩
  · rw [consChar, star]
    exact ⟨_, _, rfl⟩

/-- The text that a lexeme of a kind keeps of its characters. -/
def keptText (kind : CharKind) (text : List Char) : List Char :=
  if kind = .digit ∨ kind = .letter then text else []

/-- A run is read as one lexeme. -/
theorem lexemes_run {c : Char} (joins : (kindOf c).Joins) (s : List Char) :
    lexemes (c :: s) =
      ⟨kindOf c, keptText (kindOf c) (c :: s.takeWhile (kindOf · = kindOf c))⟩ ::
        lexemes (s.dropWhile (kindOf · = kindOf c)) := by
  induction s generalizing c with
  | nil =>
      rw [lexemes_cons, consChar_joins joins]
      rfl
  | cons d s ih =>
      rw [lexemes_cons, consChar_joins joins]
      by_cases same : kindOf d = kindOf c
      · have run := ih (same.symm ▸ joins)
        rw [same] at run
        rw [run, joinRun, if_pos rfl, List.takeWhile_cons_of_pos (by simpa using same),
          List.dropWhile_cons_of_pos (by simpa using same)]
        congr 2
        unfold keepChar keptText
        split <;> rfl
      · obtain ⟨text, later, head⟩ := lexemes_head d s
        rw [List.takeWhile_cons_of_neg (by simpa using same),
          List.dropWhile_cons_of_neg (by simpa using same), head, joinRun, if_neg same]
        rfl

theorem lexemes_digits {c : Char} (digit : c.isDigit = true) (s : List Char) :
    lexemes (c :: s) = ⟨.digit, (c :: s).takeWhile Char.isDigit⟩ ::
      lexemes ((c :: s).dropWhile Char.isDigit) := by
  have kind := (kindOf_digit c).mpr digit
  have same : (fun d => decide (kindOf d = kindOf c)) = Char.isDigit := by
    funext d
    rw [kind, Bool.eq_iff_iff, decide_eq_true_eq, kindOf_digit]
  have run := lexemes_run (c := c) (by rw [kind]; exact ⟨by decide, by decide⟩) s
  rw [same, kind] at run
  rw [run, List.takeWhile_cons_of_pos digit, List.dropWhile_cons_of_pos digit]
  rfl

theorem lexemes_word {c : Char} (letter : c.isAlpha = true) (s : List Char) :
    lexemes (c :: s) = ⟨.letter, (c :: s).takeWhile Char.isAlpha⟩ ::
      lexemes ((c :: s).dropWhile Char.isAlpha) := by
  have kind := (kindOf_letter c).mpr letter
  have same : (fun d => decide (kindOf d = kindOf c)) = Char.isAlpha := by
    funext d
    rw [kind, Bool.eq_iff_iff, decide_eq_true_eq, kindOf_letter]
  have run := lexemes_run (c := c) (by rw [kind]; exact ⟨by decide, by decide⟩) s
  rw [same, kind] at run
  rw [run, List.takeWhile_cons_of_pos letter, List.dropWhile_cons_of_pos letter]
  rfl

theorem lexemes_separators {c : Char} (separator : isSeparator c = true) (s : List Char) :
    lexemes (c :: s) = ⟨.separator, []⟩ :: lexemes ((c :: s).dropWhile isSeparator) := by
  have kind := (kindOf_separator c).mpr separator
  have same : (fun d => decide (kindOf d = kindOf c)) = isSeparator := by
    funext d
    rw [kind, Bool.eq_iff_iff, decide_eq_true_eq, kindOf_separator]
  have run := lexemes_run (c := c) (by rw [kind]; exact ⟨by decide, by decide⟩) s
  rw [same, kind] at run
  rw [run, List.dropWhile_cons_of_pos separator]
  rfl

theorem lexemes_plus (s : List Char) : lexemes ('+' :: s) = ⟨.plus, []⟩ :: lexemes s := by
  have kind := (kindOf_plus '+').mpr rfl
  rw [lexemes_cons, consChar, kind]

/-- The lexemes from the first plus on. -/
theorem lexemes_toPlus (s : List Char) :
    (lexemes s).dropWhile (·.kind ≠ .plus) = lexemes (s.dropWhile (· ≠ '+')) := by
  induction s with
  | nil => rfl
  | cons c s ih =>
      by_cases plus : c = '+'
      · rw [plus, lexemes_plus, List.dropWhile_cons_of_neg (by simp),
          List.dropWhile_cons_of_neg (by simp), lexemes_plus]
      · have notPlus : kindOf c ≠ .plus := fun kind => plus ((kindOf_plus c).mp kind)
        rw [List.dropWhile_cons_of_pos (by simpa using plus), ← ih, lexemes_cons]
        by_cases star : kindOf c = .star
        · unfold consChar
          rw [star]
          dsimp only
          rw [List.dropWhile_cons_of_pos (by simp)]
          exact List.dropWhile_idempotent ..
        · rw [consChar_joins ⟨notPlus, star⟩]
          cases lexemes s with
          | nil => rw [joinRun, List.dropWhile_cons_of_pos (by simpa using notPlus)]
          | cons run later =>
              rw [joinRun]
              split
              · next same =>
                  rw [List.dropWhile_cons_of_pos (by simpa using notPlus),
                    List.dropWhile_cons_of_pos (by simpa [same] using notPlus)]
              · rw [List.dropWhile_cons_of_pos (by simpa using notPlus)]

theorem lexemes_star (s : List Char) :
    lexemes ('*' :: s) = ⟨.star, []⟩ :: lexemes (s.dropWhile (· ≠ '+')) := by
  have kind := (kindOf_star '*').mpr rfl
  rw [lexemes_cons, consChar, kind]
  dsimp only
  rw [lexemes_toPlus]

/-! ## Stages -/

theorem stage_letters {stage : String × Int} (member : stage ∈ stages) :
    lower stage.1.toList = stage.1.toList ∧ stage.1.toList.length = stage.1.length ∧
      2 ≤ stage.1.length ∧ stage.1.toList.all Char.isAlpha = true := by
  have all : stages.all (fun stage => decide (lower stage.1.toList = stage.1.toList) &&
      decide (stage.1.toList.length = stage.1.length) && decide (2 ≤ stage.1.length) &&
        stage.1.toList.all Char.isAlpha) = true := by decide +kernel
  have holds := List.all_eq_true.mp all stage member
  simp only [Bool.and_eq_true, decide_eq_true_eq] at holds
  exact ⟨holds.1.1.1, holds.1.1.2, holds.1.2, holds.2⟩

theorem length_lower (s : List Char) : (lower s).length = s.length := List.length_map ..

/-- A stage stands at a position if the whole word there is the stage. -/
theorem stage_at_iff {stage : String × Int} (member : stage ∈ stages) (pos : List Char) :
    (strncaseeq pos stage.1.toList stage.1.length &&
        !((pos.drop stage.1.length).head?.any Char.isAlpha)) =
      decide (lower (pos.takeWhile Char.isAlpha) = stage.1.toList) := by
  obtain ⟨small, size, _, letters⟩ := stage_letters member
  rw [Bool.eq_iff_iff, Bool.and_eq_true, decide_eq_true_eq, strncaseeq, decide_eq_true_eq,
    ← size, List.take_length]
  change lower (pos.take _) = lower stage.1.toList ∧ _ ↔ _
  rw [small]
  constructor
  · rintro ⟨starts, ends⟩
    -- The word is the text of the stage, since no letter follows it.
    have fits : (pos.take stage.1.toList.length).length = stage.1.toList.length := by
      rw [← length_lower, starts]
    have inWord : (pos.take stage.1.toList.length).all Char.isAlpha = true := by
      rw [← starts, lower, List.all_map] at letters
      have same : Char.isAlpha ∘ Char.toLower = Char.isAlpha :=
        funext Char.isAlpha_toLower_eq_isAlpha
      rwa [same] at letters
    have word : pos.takeWhile Char.isAlpha = pos.take stage.1.toList.length := by
      conv_lhs => rw [← List.take_append_drop stage.1.toList.length pos]
      rw [List.takeWhile_append_of_pos (List.all_eq_true.mp inWord)]
      cases rest : pos.drop stage.1.toList.length with
      | nil => simp
      | cons c later =>
          rw [rest] at ends
          rw [List.takeWhile_cons_of_neg (by simpa using ends), List.append_nil]
    rw [word, starts]
  · intro word
    have size' : (pos.takeWhile Char.isAlpha).length = stage.1.toList.length := by
      rw [← length_lower, word]
    have taken : pos.take stage.1.toList.length = pos.takeWhile Char.isAlpha := by
      have front := @List.take_left _ (pos.takeWhile Char.isAlpha) (pos.dropWhile Char.isAlpha)
      rwa [List.takeWhile_append_dropWhile, size'] at front
    have left : pos.drop stage.1.toList.length = pos.dropWhile Char.isAlpha := by
      have behind := @List.drop_left _ (pos.takeWhile Char.isAlpha) (pos.dropWhile Char.isAlpha)
      rwa [List.takeWhile_append_dropWhile, size'] at behind
    rw [taken, left]
    refine ⟨word, ?_⟩
    cases rest : pos.dropWhile Char.isAlpha with
    | nil => rfl
    | cons c later =>
        have notLetter := @List.head?_dropWhile_not _ Char.isAlpha pos
        rw [rest] at notLetter
        simpa using notLetter

theorem findStage_eq (pos : List Char) :
    findStage pos = wordStage (pos.takeWhile Char.isAlpha) :=
  List.find?_congr fun _ member => stage_at_iff member pos

theorem wordStage_length {word : List Char} {stage : String × Int}
    (found : wordStage word = some stage) : stage.1.length = word.length ∧ 2 ≤ word.length := by
  obtain ⟨_, size, long, _⟩ := stage_letters (List.mem_of_find?_eq_some found)
  have same : lower word = stage.1.toList := by
    unfold wordStage at found
    simpa using List.find?_some found
  have lengths : word.length = stage.1.length := by rw [← length_lower, same, size]
  exact ⟨lengths.symm, lengths ▸ long⟩

/-- The branch of `get_component` for a letter, as the whole word decides it. -/
theorem stageBranch_eq {c : Char} (rest : List Char) (letter : c.isAlpha = true) :
    (if rest.head?.any Char.isAlpha then findStage (c :: rest) else none) =
      wordStage ((c :: rest).takeWhile Char.isAlpha) := by
  rw [findStage_eq]
  split
  · rfl
  · next noSecond =>
      have word : (c :: rest).takeWhile Char.isAlpha = [c] := by
        rw [List.takeWhile_cons_of_pos letter]
        cases rest with
        | nil => rfl
        | cons d rest => rw [List.takeWhile_cons_of_neg (by simpa using noSecond)]
      rw [word]
      cases found : wordStage [c] with
      | none => rfl
      | some stage => exact absurd (wordStage_length found).2 (by simp)

/-! ## The machine reads what `get_component` reads -/

theorem run_nil (reading : Reading) : reader.run reading [] = readingFinish reading := rfl

theorem run_cons (reading : Reading) (run : Lexeme) (later : List Lexeme) :
    reader.run reading (run :: later) =
      (readingStep reading run).1 ++ reader.run (readingStep reading run).2 later := rfl

/-- Behind a component its separators are skipped. -/
theorem run_behind (s : List Char) :
    reader.run .behind (lexemes s) = reader.run .start (lexemes (s.dropWhile isSeparator)) := by
  have skipped : ∀ t : List Char, (∀ c ∈ t.head?, isSeparator c = false) →
      reader.run .behind (lexemes t) = reader.run .start (lexemes t) := by
    intro t notSeparator
    cases t with
    | nil => rfl
    | cons c t =>
        obtain ⟨text, later, head⟩ := lexemes_head c t
        have other : kindOf c ≠ .separator := by
          rw [ne_eq, kindOf_separator, notSeparator c rfl]
          exact Bool.false_ne_true
        rw [head, run_cons, run_cons, readingStep, readingStep, behindStep, if_neg other]
  by_cases starts : ∃ c rest, s = c :: rest ∧ isSeparator c = true
  · obtain ⟨c, rest, rfl, separator⟩ := starts
    rw [lexemes_separators separator, run_cons, readingStep, behindStep, if_pos rfl]
    refine skipped _ fun d isHead => ?_
    have notSeparator := @List.head?_dropWhile_not _ isSeparator (c :: rest)
    rw [Option.mem_def.mp isHead] at notSeparator
    simpa using notSeparator
  · cases s with
    | nil => rfl
    | cons c rest =>
        have other : ¬isSeparator c = true := fun separator => starts ⟨c, rest, rfl, separator⟩
        rw [List.dropWhile_cons_of_neg other]
        exact skipped _ fun d isHead => by cases isHead; simpa using other

/-- The end of a component. -/
theorem run_emit {reading : Reading} {vc : VersionComponent} {s : List Char}
    (atEnd : readingFinish reading = [.component vc])
    (atHead : ∀ c rest text, s = c :: rest →
      readingStep reading ⟨kindOf c, text⟩ = emitStep vc ⟨kindOf c, text⟩) :
    reader.run reading (lexemes s) = .component vc :: reader.run .behind (lexemes s) := by
  cases s with
  | nil => exact atEnd
  | cons c rest =>
      obtain ⟨text, later, head⟩ := lexemes_head c rest
      rw [head, run_cons, run_cons, atHead c rest text rfl]
      rfl

theorem strtollDigits_takeWhile (s : List Char) :
    strtollDigits (s.takeWhile Char.isDigit) = strtollDigits s := by
  rw [strtollDigits, strtollDigits, decimal, decimal, List.takeWhile_idem]

theorem run_letter (n a : Int) (pos : List Char) :
    reader.run (.letter n a) (lexemes pos) =
      .component { n := n, a := a, pl := (componentPatch true pos).1 } ::
        reader.run .behind (lexemes (componentPatch true pos).2) := by
  have emits : (∀ c rest, pos = c :: rest → ¬c.isDigit = true) →
      reader.run (.letter n a) (lexemes pos) =
        .component { n := n, a := a, pl := -1 } :: reader.run .behind (lexemes pos) := by
    intro noDigit
    refine run_emit rfl fun c rest text isPos => ?_
    have other : kindOf c ≠ .digit := fun kind => noDigit c rest isPos ((kindOf_digit c).mp kind)
    rw [readingStep, if_neg other]
  unfold componentPatch
  rw [if_pos rfl]
  cases pos with
  | nil => exact emits nofun
  | cons c rest =>
      rw [List.head?_cons, Option.any_some]
      by_cases digit : c.isDigit = true
      · rw [if_pos digit, lexemes_digits digit, run_cons, readingStep, if_pos rfl,
          strtollDigits_takeWhile]
        rfl
      · rw [if_neg digit]
        exact emits fun d later same => by cases same; exact digit

/-- What is read behind the letter of a component, given by the parts of `get_component`. -/
def behindLetter (n : Int) (letter : Int × Bool × List Char) : List VersionToken :=
  .component { n := n, a := letter.1, pl := (componentPatch letter.2.1 letter.2.2).1 } ::
    reader.run .behind (lexemes (componentPatch letter.2.1 letter.2.2).2)

theorem run_number (n : Int) (pos : List Char) :
    reader.run (.number n) (lexemes pos) = behindLetter n (componentLetter false pos) := by
  have emits : (∀ c rest, pos = c :: rest → c.isAlpha = true →
        wordStage (pos.takeWhile Char.isAlpha) ≠ none) →
      reader.run (.number n) (lexemes pos) =
        .component { n := n } :: reader.run .behind (lexemes pos) := by
    intro noLetter
    cases pos with
    | nil => rfl
    | cons c rest =>
        by_cases letter : c.isAlpha = true
        · rw [lexemes_word letter, run_cons, run_cons, readingStep, readingStep, if_neg]
          · rfl
          · exact fun both => noLetter c rest rfl letter both.2
        · refine run_emit rfl fun d later text same => ?_
          cases same
          have other : kindOf c ≠ .letter := fun kind => letter ((kindOf_letter c).mp kind)
          rw [readingStep, if_neg fun both => other both.1]
  cases pos with
  | nil => rfl
  | cons c rest =>
      unfold componentLetter
      dsimp only
      by_cases letter : c.isAlpha = true
      · rw [if_pos letter, stageBranch_eq rest letter]
        cases found : wordStage ((c :: rest).takeWhile Char.isAlpha) with
        | some stage => exact emits fun _ _ _ _ => by rw [found]; exact Option.some_ne_none _
        | none =>
            rw [lexemes_word letter, run_cons, readingStep, if_pos ⟨rfl, found⟩,
              List.dropWhile_cons_of_pos letter]
            dsimp only [List.nil_append]
            rw [run_letter, letterValue, List.takeWhile_cons_of_pos letter]
            rfl
      · rw [if_neg letter]
        exact emits fun d later same isLetter => by cases same; exact absurd isLetter letter

theorem run_word {c : Char} (rest : List Char) (letter : c.isAlpha = true) :
    reader.run .start (lexemes (c :: rest)) =
      behindLetter (-1) (componentLetter true (c :: rest)) := by
  rw [lexemes_word letter, run_cons, readingStep, startStep]
  unfold componentLetter
  dsimp only [List.nil_append]
  rw [if_pos letter, stageBranch_eq rest letter, run_letter, wordValue]
  cases found : wordStage ((c :: rest).takeWhile Char.isAlpha) with
  | none =>
      rw [letterValue, List.takeWhile_cons_of_pos letter, List.dropWhile_cons_of_pos letter]
      rfl
  | some stage =>
      have behind := @List.drop_left _ ((c :: rest).takeWhile Char.isAlpha)
        ((c :: rest).dropWhile Char.isAlpha)
      rw [List.takeWhile_append_dropWhile, ← (wordStage_length found).1] at behind
      dsimp only
      rw [if_pos rfl, behind]
      rfl

/-- The parts of `get_component` put together. -/
theorem behindLetter_eq (position : List Char) :
    behindLetter (componentNumber position).1
        (componentLetter (componentNumber position).2.1 (componentNumber position).2.2) =
      .component (getComponent position).1 ::
        reader.run .start (lexemes (getComponent position).2) := by
  rw [behindLetter, run_behind]
  rfl

theorem run_component {c : Char} (rest : List Char) (notPlus : c ≠ '+') :
    reader.run .start (lexemes (c :: rest)) =
      .component (getComponent (c :: rest)).1 ::
        reader.run .start (lexemes (getComponent (c :: rest)).2) := by
  rw [← behindLetter_eq, componentNumber]
  by_cases digit : c.isDigit = true
  · rw [if_pos digit, lexemes_digits digit, run_cons, readingStep, startStep]
    dsimp only [List.nil_append]
    rw [run_number, strtollDigits_takeWhile]
  · rw [if_neg digit]
    by_cases star : c = '*'
    · have noLetter : ∀ c ∈ (rest.dropWhile (· ≠ '+')).head?, c.isAlpha = false := by
        intro d isHead
        have isPlus := @List.head?_dropWhile_not _ (fun c => decide (c ≠ '+')) rest
        rw [Option.mem_def.mp isHead] at isPlus
        simp only [ne_eq, decide_not, Bool.not_eq_false', decide_eq_true_eq] at isPlus
        rw [isPlus]
        rfl
      rw [if_pos star, star, lexemes_star, run_cons]
      dsimp only
      generalize rest.dropWhile (· ≠ '+') = pos at noLetter ⊢
      cases pos with
      | nil => rfl
      | cons d later =>
          have notLetter := noLetter d rfl
          rw [componentLetter, if_neg (by rw [notLetter]; exact Bool.false_ne_true)]
          rfl
    · rw [if_neg star]
      by_cases letter : c.isAlpha = true
      · exact run_word rest letter
      · have separator : isSeparator c = true := by simp [isSeparator, digit, letter, notPlus, star]
        have noLetter : componentLetter true (c :: rest) = (0, false, c :: rest) := by
          rw [componentLetter, if_neg letter]
        dsimp only
        rw [noLetter, behindLetter, componentPatch, if_neg Bool.false_ne_true,
          lexemes_separators separator]
        rfl

theorem versionTokens_component {c : Char} (rest : List Char) (notPlus : c ≠ '+') :
    versionTokens [] (c :: rest) =
      .component (getComponent (c :: rest)).1 :: versionTokens [] (getComponent (c :: rest)).2 := by
  have read := @readComponent_cons [] c rest notPlus
  rw [List.append_nil] at read
  exact versionTokens_read read

theorem versionTokens_plus (rest : List Char) :
    versionTokens [] ('+' :: rest) = .plus :: versionTokens [] rest := by
  have blocked := readComponent_plus [] rest
  rw [List.append_nil] at blocked
  have behind : advance [] ('+' :: rest) = rest := if_pos (Nat.succ_pos _)
  rw [versionTokens_blocked (by simp) blocked, behind]

/-- The components of a version are what the machine emits for its lexemes. -/
theorem versionTokens_eq_run (s : List Char) :
    versionTokens [] s = reader.run .start (lexemes s) := by
  induction size : s.length using Nat.strongRecOn generalizing s with
  | _ n ih =>
      subst size
      cases s with
      | nil => rw [versionTokens_nil (by simp)]; rfl
      | cons c rest =>
          by_cases plus : c = '+'
          · rw [plus, versionTokens_plus, lexemes_plus,
              ih rest.length (Nat.lt_succ_self _) rest rfl]
            rfl
          · rw [versionTokens_component rest plus, run_component rest plus,
              ih _ (length_getComponent_lt rest plus) _ rfl]

end Pkgng
