import Mathlib.Logic.Relation
import Pkgng.Print.Handlers

/-!
# Scanning a format

`pkg_sbuf_vprintf` and `iterate_item` run the same loop over a format, but treat a handler
that returns NULL differently: `process_format_trailer` goes on behind the percent sign,
`process_format_main` at it, where the loop finds the same escape again.
-/

set_option autoImplicit false

namespace Pkgng

open Lib

/-! ## Backslashes -/

def isxdigit (c : Char) : Bool :=
  c.isDigit || ('a' ≤ c && c ≤ 'f') || ('A' ≤ c && c ≤ 'F')

def hexValue (c : Char) : Nat :=
  if c.isDigit then digitValue c
  else if 'a' ≤ c then c.toNat - 'a'.toNat + 10
  else c.toNat - 'A'.toNat + 10

/-- The text and the position after an escape. -/
abbrev Escaped := List Char × List Char

def maybeReadHexByte (sbuf f : List Char) : Escaped :=
  let f := f.tail
  if isxdigit (charAt f) && isxdigit (charAt f.tail) then
    (sbuf ++ [Char.ofNat (hexValue (charAt f) * 16 + hexValue (charAt f.tail))], f.drop 2)
  else (sbuf ++ ['\x5c', 'x'], f)

/-- The loop of `read_oct_byte`, for so many digits more. -/
def octDigits : Nat → Nat → List Char → Nat × List Char
  | _, val, [] => (val, [])
  | 0, val, f => (val, f)
  | more + 1, val, c :: f =>
      if val < 32 ∧ '0' ≤ c ∧ c ≤ '7' then octDigits more (val * 8 + digitValue c) f
      else (val, c :: f)

def readOctByte (sbuf f : List Char) : Escaped :=
  let (val, f) := octDigits 3 0 f
  (sbuf ++ [Char.ofNat val], f)

def processEscape (sbuf f : List Char) : Escaped :=
  let f := f.tail
  match charAt f with
  | 'a' => (sbuf ++ ['\x07'], f.tail)
  | 'b' => (sbuf ++ ['\x08'], f.tail)
  | 'f' => (sbuf ++ ['\x0c'], f.tail)
  | 'n' => (sbuf ++ ['\n'], f.tail)
  | 't' => (sbuf ++ ['\t'], f.tail)
  | 'v' => (sbuf ++ ['\x0b'], f.tail)
  | '\x27' => (sbuf ++ ['\x27'], f.tail)
  | '\x22' => (sbuf ++ ['\x22'], f.tail)
  | '\x5c' => (sbuf ++ ['\x5c'], f.tail)
  | 'x' => maybeReadHexByte sbuf f
  | c => if '0' ≤ c ∧ c ≤ '7' then readOctByte sbuf f else (sbuf ++ ['\x5c'], f)

/-! ## The two loops -/

/-- What the loops carry along: the position, `p`, the buffer, and the number of arguments
taken. -/
structure PrintState where
  f : List Char
  p : PercentEsc := {}
  sbuf : List Char := []
  used : Nat := 0

/-- A loop that runs while the format is not at its end; none without turns left. -/
def scanLoop (turn : PrintState → Option PrintState) : Nat → PrintState → Option PrintState
  | 0, _ => none
  | turns + 1, s => if s.f = [] then some s else (turn s).bind (scanLoop turn turns)

section Loops

variable {D : Type} (env : PrintEnv D)

def processFormatTrailer (iterate : Iterate D) (s : PrintState) (pkg : Argument D) (data : D)
    (count : Nat) (context : Context) : Option PrintState := do
  let (f, p) := parseFormat s.f context s.p
  let argument :=
    if p.fmtCode = .rowCounter then .counter count
    else if p.fmtCode = .literalPercent ∨ p.fmtCode = .unknown then .null
    else if p.fmtCode.fmt.structPkg then pkg
    else .pointer data
  let (ok, sbuf) ← fmtHandler env iterate p.fmtCode s.sbuf argument p
  some { s with f := if ok then f else s.f.drop 1, p := {}, sbuf := sbuf }

/-- A turn of the loop of `iterate_item`. -/
def itemTurn (iterate : Iterate D) (pkg : Argument D) (data : D) (count : Nat)
    (context : Context) (s : PrintState) : Option PrintState :=
  match charAt s.f with
  | '%' => processFormatTrailer env iterate s pkg data count context
  | '\x5c' =>
      let (sbuf, f) := processEscape s.sbuf s.f
      some { s with f := f, sbuf := sbuf }
  | c => some { s with f := s.f.tail, sbuf := s.sbuf ++ [c] }

/-- `iterate_item`, with so many levels of list handlers below it.  Each turn takes a
character, so that the length of the format bounds the turns. -/
def iterateItem : Nat → Iterate D
  | 0, _, _, _, _, _, _ => none
  | levels + 1, sbuf, pkg, format, data, count, context =>
      (scanLoop (itemTurn env (iterateItem levels) pkg data count context) (format.length + 1)
        { f := format, sbuf := sbuf }).map PrintState.sbuf

def processFormatMain (s : PrintState) (p : PercentEsc) (fend : List Char) (data : Argument D) :
    Option PrintState := do
  let (ok, sbuf) ← fmtHandler env (iterateItem env 1) p.fmtCode s.sbuf data p
  some { s with f := if ok then fend else s.f, p := {}, sbuf := sbuf }

/-- A turn of the loop of `pkg_sbuf_vprintf` with the variable arguments `ap`. -/
def mainTurn (ap : Nat → D) (s : PrintState) : Option PrintState :=
  match charAt s.f with
  | '%' =>
      let (fend, p) := parseFormat s.f .pkg s.p
      if p.fmtCode = .literalPercent ∨ p.fmtCode = .unknown then
        processFormatMain env s p fend .null
      else processFormatMain env { s with used := s.used + 1 } p fend (.pointer (ap s.used))
  | '\x5c' =>
      let (sbuf, f) := processEscape s.sbuf s.f
      some { s with f := f, sbuf := sbuf }
  | c => some { s with f := s.f.tail, sbuf := s.sbuf ++ [c] }

/-- A format string ends at its first NUL. -/
def formatStart (format sbuf : List Char) : PrintState :=
  { f := format.takeWhile (· ≠ '\x00'), sbuf := sbuf }

/-- `pkg_sbuf_vprintf`; none where its loop has not ended after so many turns. -/
def pkgSbufVprintf (turns : Nat) (ap : Nat → D) (format sbuf : List Char) :
    Option (List Char) :=
  (scanLoop (mainTurn env ap) turns (formatStart format sbuf)).map PrintState.sbuf

end Loops

/-! ## What is asked of a loop -/

/-- The states in which a loop starts a turn or ends. -/
def Reached (turn : PrintState → Option PrintState) : PrintState → PrintState → Prop :=
  Relation.ReflTransGen fun s s' => s.f ≠ [] ∧ turn s = some s'

/-- At the position stands an escape whose code is unknown or not valid in the context. -/
def UnknownAt (context : Context) (f : List Char) : Prop :=
  charAt f = '%' ∧ (findCode (codeOf f) context FmtCode.all).2 = .unknown

/-- Every turn takes a character at least, an unknown escape is passed through once, and the
loop ends. -/
structure ReadsThrough (turn : PrintState → Option PrintState) (context : Context)
    (start : PrintState) : Prop where
  consumes : ∀ s, Reached turn start s → s.f ≠ [] → ∃ s', turn s = some s' ∧ s'.f <:+ s.f.tail
  errorOnce : ∀ s, Reached turn start s → UnknownAt context s.f →
    ∃ s', turn s = some s' ∧ s'.f = s.f.tail ∧ s'.sbuf = s.sbuf ++ ['%']
  terminates : ∃ turns s', scanLoop turn turns start = some s'

/-- Printing reads the format, and each format of an item or separator, to its end. -/
def PrintsThrough {D : Type} (env : PrintEnv D) (ap : Nat → D) (format sbuf : List Char) : Prop :=
  ReadsThrough (mainTurn env ap) .pkg (formatStart format sbuf) ∧
    ∀ pkg data count context itemFormat sbuf, context ≠ .pkg →
      ReadsThrough (itemTurn env (iterateItem env 0) pkg data count context) context
        { f := itemFormat, sbuf := sbuf }

/-- Reading from the left, behind the modifiers and the width of every escape stands a
character that starts a format code of the top level. -/
inductive KnownFormat : List Char → Prop
  | nil : KnownFormat []
  | percent {f : List Char} (isPercent : charAt f = '%') (known : charAt (codeOf f) ∈ topLevelCodes)
      (rest : KnownFormat (parseFormat f .pkg {}).1) : KnownFormat f
  | backslash {f : List Char} (isBackslash : charAt f = '\x5c')
      (rest : KnownFormat (processEscape [] f).2) : KnownFormat f
  | plain {c : Char} {f : List Char} (notPercent : c ≠ '%') (notBackslash : c ≠ '\x5c')
      (rest : KnownFormat f) : KnownFormat (c :: f)

/-! ## The turns -/

theorem octDigits_suffix (more val : Nat) (f : List Char) : (octDigits more val f).2 <:+ f := by
  induction f generalizing more val with
  | nil => cases more <;> exact List.suffix_refl _
  | cons c f ih =>
      cases more with
      | zero => exact List.suffix_refl _
      | succ more =>
          rw [octDigits]
          split
          · exact (ih _ _).trans (List.suffix_cons c f)
          · exact List.suffix_refl _

/-- An escape takes its backslash at least. -/
theorem processEscape_suffix (sbuf f : List Char) : (processEscape sbuf f).2 <:+ f.tail := by
  have hex : (maybeReadHexByte sbuf f.tail).2 <:+ f.tail := by
    unfold maybeReadHexByte
    dsimp only
    split
    · exact (List.drop_suffix 2 _).trans (List.tail_suffix _)
    · exact List.tail_suffix _
  unfold processEscape
  dsimp only
  split
  case h_10 => exact hex
  case h_11 =>
    split
    · exact octDigits_suffix 3 0 f.tail
    · exact List.suffix_refl _
  all_goals exact List.tail_suffix _

theorem processEscape_position (sbuf f : List Char) :
    (processEscape sbuf f).2 = (processEscape [] f).2 := by
  have hex : (maybeReadHexByte sbuf f.tail).2 = (maybeReadHexByte [] f.tail).2 := by
    unfold maybeReadHexByte
    dsimp only
    split <;> rfl
  unfold processEscape
  dsimp only
  split
  case h_10 => exact hex
  case h_11 => split <;> rfl
  all_goals rfl

theorem scanLoop_ends {turn : PrintState → Option PrintState} {invariant : PrintState → Prop}
    (step : ∀ s, invariant s → s.f ≠ [] → ∃ s', turn s = some s' ∧ s'.f <:+ s.f.tail ∧ invariant s')
    {turns : Nat} {s : PrintState} (holds : invariant s) (enough : s.f.length < turns) :
    ∃ s', scanLoop turn turns s = some s' := by
  induction turns generalizing s with
  | zero => omega
  | succ turns ih =>
      rw [scanLoop]
      split
      · exact ⟨s, rfl⟩
      · next more =>
          obtain ⟨s', turned, suffix, holds'⟩ := step s holds more
          have shorter := suffix.length_le
          have pos := List.length_pos_iff.mpr more
          rw [List.length_tail] at shorter
          rw [turned]
          exact ih holds' (by omega)

/-- A loop reads through if every turn from a state of the invariant does its part. -/
theorem readsThrough_of_invariant {turn : PrintState → Option PrintState} {context : Context}
    {start : PrintState} (invariant : PrintState → Prop) (initially : invariant start)
    (step : ∀ s, invariant s → s.f ≠ [] → ∃ s', turn s = some s' ∧ s'.f <:+ s.f.tail ∧ invariant s')
    (error : ∀ s, invariant s → UnknownAt context s.f →
      ∃ s', turn s = some s' ∧ s'.f = s.f.tail ∧ s'.sbuf = s.sbuf ++ ['%']) :
    ReadsThrough turn context start := by
  have always : ∀ s, Reached turn start s → invariant s := by
    intro s reached
    induction reached with
    | refl => exact initially
    | tail _ turned ih =>
        obtain ⟨s', isNext, _, holds⟩ := step _ ih turned.1
        rw [turned.2] at isNext
        cases isNext
        exact holds
  refine ⟨fun s reached more => ?_, fun s reached => error s (always s reached), ?_⟩
  · obtain ⟨s', turned, suffix, _⟩ := step s (always s reached) more
    exact ⟨s', turned, suffix⟩
  · exact ⟨start.f.length + 1, scanLoop_ends step initially (Nat.lt_succ_self _)⟩

section Turns

variable {D : Type} {env : PrintEnv D} {s : PrintState}

/-- An item's format has no list codes, so its handlers run no loop. -/
theorem fmtHandler_item {iterate : Iterate D} {code : FmtCode} {context : Context}
    {sbuf : List Char} {data : Argument D} {p : PercentEsc} (inItem : context ≠ .pkg)
    (known : code ≠ .unknown) (inContext : context ∈ code.fmt.context) :
    ∃ text, fmtHandler env iterate code sbuf data p = some (true, text) := by
  refine fmtHandler_known known fun itemFmt sepFmt other isList => ?_
  have topLevel : ∀ code : FmtCode, (∃ itemFmt sepFmt other,
      code.fmt.handler = .list itemFmt sepFmt other) → code.fmt.context = [.pkg] := by
    rintro code ⟨itemFmt, sepFmt, other, isList⟩
    cases code <;> first | rfl | cases isList
  rw [topLevel code ⟨itemFmt, sepFmt, other, isList⟩] at inContext
  exact absurd (List.mem_singleton.mp inContext) inItem

theorem processFormatTrailer_spec (iterate : Iterate D) (pkg : Argument D) (data : D)
    (count : Nat) {context : Context} (inItem : context ≠ .pkg) :
    ∃ s', processFormatTrailer env iterate s pkg data count context = some s' ∧
      s'.f <:+ s.f.tail ∧
      ((findCode (codeOf s.f) context FmtCode.all).2 = .unknown →
        s'.f = s.f.tail ∧ s'.sbuf = s.sbuf ++ ['%']) := by
  unfold processFormatTrailer
  have isCode := parseFormat_fmtCode s.f context s.p
  have suffix := parseFormat_suffix s.f context s.p
  generalize parseFormat s.f context s.p = parsed at isCode suffix
  obtain ⟨f, p⟩ := parsed
  dsimp only at isCode suffix ⊢
  by_cases unknown : p.fmtCode = .unknown
  · have printed : ∀ argument, fmtHandler env iterate p.fmtCode s.sbuf argument p =
        some (false, s.sbuf ++ ['%']) := by
      intro argument
      rw [unknown]
      rfl
    rw [printed]
    exact ⟨_, rfl, by simp, fun _ => ⟨by simp, rfl⟩⟩
  · have matched := (findCode_matches (codeOf s.f) context FmtCode.all).resolve_left
      (isCode ▸ unknown)
    rw [← isCode] at matched
    have printed : ∀ argument, ∃ text,
        fmtHandler env iterate p.fmtCode s.sbuf argument p = some (true, text) :=
      fun _ => fmtHandler_item inItem unknown matched.1
    obtain ⟨text, printed⟩ := printed _
    rw [printed]
    exact ⟨_, rfl, suffix, fun isUnknown => absurd (isCode.trans isUnknown) unknown⟩

/-- A turn over the format of an item. -/
theorem itemTurn_spec (iterate : Iterate D) (pkg : Argument D) (data : D) (count : Nat)
    {context : Context} (inItem : context ≠ .pkg) :
    ∃ s', itemTurn env iterate pkg data count context s = some s' ∧ s'.f <:+ s.f.tail ∧
      (UnknownAt context s.f → s'.f = s.f.tail ∧ s'.sbuf = s.sbuf ++ ['%']) := by
  unfold itemTurn
  split
  · obtain ⟨s', turned, suffix, unknown⟩ :=
      @processFormatTrailer_spec D env s iterate pkg data count context inItem
    exact ⟨s', turned, suffix, fun unknownAt => unknown unknownAt.2⟩
  · next isBackslash =>
      refine ⟨_, rfl, processEscape_suffix _ _, fun unknownAt => ?_⟩
      rw [unknownAt.1] at isBackslash
      cases isBackslash
  · next notPercent _ =>
      exact ⟨_, rfl, List.suffix_refl _, fun unknownAt => absurd unknownAt.1 notPercent⟩

/-- Every loop over the format of an item or a separator reads through. -/
theorem iterateItem_readsThrough (iterate : Iterate D) (pkg : Argument D) (data : D) (count : Nat)
    {context : Context} (inItem : context ≠ .pkg) (start : PrintState) :
    ReadsThrough (itemTurn env iterate pkg data count context) context start := by
  refine readsThrough_of_invariant (fun _ => True) trivial (fun s _ _ => ?_) fun s _ unknownAt => ?_
  · obtain ⟨s', turned, suffix, _⟩ :=
      @itemTurn_spec D env s iterate pkg data count context inItem
    exact ⟨s', turned, suffix, trivial⟩
  · obtain ⟨s', turned, _, unknown⟩ :=
      @itemTurn_spec D env s iterate pkg data count context inItem
    exact ⟨s', turned, unknown unknownAt⟩

theorem iterateItem_isSome (levels : Nat) (sbuf : List Char) (pkg : Argument D)
    (format : List Char) (data : D) (count : Nat) {context : Context} (inItem : context ≠ .pkg) :
    ∃ text, iterateItem env (levels + 1) sbuf pkg format data count context = some text := by
  obtain ⟨s', ended⟩ := @scanLoop_ends
    (itemTurn env (iterateItem env levels) pkg data count context) (fun _ => True)
    (fun s _ _ => by
      obtain ⟨s', turned, suffix, _⟩ :=
        @itemTurn_spec D env s (iterateItem env levels) pkg data count context inItem
      exact ⟨s', turned, suffix, trivial⟩)
    (format.length + 1) { f := format, sbuf := sbuf } trivial (Nat.lt_succ_self _)
  exact ⟨s'.sbuf, by rw [iterateItem, ended]; rfl⟩

theorem processFormatMain_known {p : PercentEsc} (known : p.fmtCode ≠ .unknown)
    (fend : List Char) (data : Argument D) :
    ∃ s', processFormatMain env s p fend data = some s' ∧ s'.f = fend ∧ s'.p = {} := by
  have listContext : ∀ code : FmtCode, ∀ itemFmt sepFmt context,
      code.fmt.handler = .list itemFmt sepFmt context → context ≠ .pkg := by
    rintro code itemFmt sepFmt context isList
    cases code <;> cases isList <;> decide
  obtain ⟨text, printed⟩ := @fmtHandler_known D env (iterateItem env 1) s.sbuf data p p.fmtCode
    known fun itemFmt sepFmt context isList sbuf format item count =>
      iterateItem_isSome 0 sbuf data format item count
        (listContext _ itemFmt sepFmt context isList)
  rw [processFormatMain, printed]
  exact ⟨_, rfl, rfl, rfl⟩

/-- A turn at a known escape goes on behind it. -/
theorem mainTurn_known (ap : Nat → D) (clear : s.p = {}) (isPercent : charAt s.f = '%')
    (known : charAt (codeOf s.f) ∈ topLevelCodes) :
    ∃ s', mainTurn env ap s = some s' ∧ s'.f = (parseFormat s.f .pkg {}).1 ∧ s'.p = {} := by
  have isCode := parseFormat_fmtCode s.f .pkg {}
  have known : (parseFormat s.f .pkg {}).2.fmtCode ≠ .unknown := by
    rw [isCode]
    exact (findCode_topLevel _).mpr known
  rw [mainTurn, isPercent, clear]
  dsimp only
  by_cases literal : (parseFormat s.f .pkg {}).2.fmtCode = .literalPercent ∨
      (parseFormat s.f .pkg {}).2.fmtCode = .unknown
  · rw [if_pos literal]
    exact processFormatMain_known known _ _
  · rw [if_neg literal]
    exact processFormatMain_known known _ _

/-- A turn at an unknown escape stays there. -/
theorem mainTurn_unknown (ap : Nat → D) (unknownAt : UnknownAt .pkg s.f) :
    ∃ s', mainTurn env ap s = some s' ∧ s'.f = s.f := by
  have isCode := parseFormat_fmtCode s.f .pkg s.p
  rw [unknownAt.2] at isCode
  rw [mainTurn, unknownAt.1]
  dsimp only
  rw [if_pos (Or.inr isCode), processFormatMain, isCode]
  exact ⟨_, rfl, rfl⟩

theorem mainTurn_backslash (ap : Nat → D) (isBackslash : charAt s.f = '\x5c') :
    ∃ s', mainTurn env ap s = some s' ∧ s'.f = (processEscape [] s.f).2 ∧ s'.p = s.p := by
  rw [mainTurn, isBackslash]
  exact ⟨_, rfl, processEscape_position s.sbuf s.f, rfl⟩

theorem mainTurn_plain (ap : Nat → D) (notPercent : charAt s.f ≠ '%')
    (notBackslash : charAt s.f ≠ '\x5c') :
    ∃ s', mainTurn env ap s = some s' ∧ s'.f = s.f.tail ∧ s'.p = s.p := by
  unfold mainTurn
  split
  · next isPercent => exact absurd isPercent notPercent
  · next isBackslash => exact absurd isBackslash notBackslash
  · exact ⟨_, rfl, rfl, rfl⟩

end Turns

/-! ## The formats that are read through -/

section Formats

variable {D : Type} {env : PrintEnv D} {ap : Nat → D}

theorem known_or_unknownAt {f : List Char} (isPercent : charAt f = '%') :
    charAt (codeOf f) ∈ topLevelCodes ∨ UnknownAt .pkg f := by
  by_cases known : charAt (codeOf f) ∈ topLevelCodes
  · exact Or.inl known
  · exact Or.inr ⟨isPercent, by
      by_contra isKnown
      exact known ((findCode_topLevel _).mp isKnown)⟩

theorem KnownFormat.readsThrough {start : PrintState} (known : KnownFormat start.f)
    (clear : start.p = {}) : ReadsThrough (mainTurn env ap) .pkg start := by
  refine readsThrough_of_invariant (fun s => KnownFormat s.f ∧ s.p = {}) ⟨known, clear⟩ ?_ ?_
  · rintro ⟨f, p, sbuf, used⟩ ⟨known, clear⟩ more
    cases known with
    | nil => exact absurd rfl more
    | percent isPercent isCode rest =>
        obtain ⟨s', turned, position, clear'⟩ := mainTurn_known ap clear isPercent isCode
        refine ⟨s', turned, ?_, ?_, clear'⟩
        · rw [position]
          exact parseFormat_suffix f .pkg {}
        · rw [position]
          exact rest
    | backslash isBackslash rest =>
        obtain ⟨s', turned, position, clear'⟩ := mainTurn_backslash ap isBackslash
        refine ⟨s', turned, ?_, ?_, clear'.trans clear⟩
        · rw [position]
          exact processEscape_suffix [] f
        · rw [position]
          exact rest
    | @plain c f notPercent notBackslash rest =>
        obtain ⟨s', turned, position, clear'⟩ :=
          @mainTurn_plain D env ⟨c :: f, p, sbuf, used⟩ ap notPercent notBackslash
        refine ⟨s', turned, ?_, ?_, clear'.trans clear⟩
        · rw [position]
        · rw [position]
          exact rest
  · rintro ⟨f, p, sbuf, used⟩ ⟨known, _⟩ ⟨isPercent, unknown⟩
    cases known with
    | nil => cases isPercent
    | percent _ isCode _ => exact absurd unknown ((findCode_topLevel _).mpr isCode)
    | backslash isBackslash _ =>
        have both := isPercent.symm.trans isBackslash
        cases both
    | plain notPercent _ _ => exact absurd isPercent notPercent

/-- A loop that takes a character in every turn meets no unknown escape. -/
theorem ReadsThrough.knownFormat {start s : PrintState}
    (reads : ReadsThrough (mainTurn env ap) .pkg start)
    (reached : Reached (mainTurn env ap) start s) (clear : s.p = {}) : KnownFormat s.f := by
  -- By induction on the length of what is left to read.
  induction left : s.f.length using Nat.strong_induction_on generalizing s with
  | _ length ih =>
      by_cases atEnd : s.f = []
      · rw [atEnd]
        exact .nil
      · obtain ⟨s', turned, suffix⟩ := reads.consumes s reached atEnd
        have next : Reached (mainTurn env ap) start s' := reached.tail ⟨atEnd, turned⟩
        have shorter := suffix.length_le
        have pos := List.length_pos_iff.mpr atEnd
        rw [List.length_tail] at shorter
        have rest := fun clear' => ih s'.f.length (by omega) next clear' rfl
        by_cases isPercent : charAt s.f = '%'
        · rcases known_or_unknownAt isPercent with known | unknownAt
          · obtain ⟨_, turned', position, clear'⟩ := mainTurn_known ap clear isPercent known
            rw [turned] at turned'
            cases turned'
            exact .percent isPercent known (position ▸ rest clear')
          · obtain ⟨_, turned', same⟩ := mainTurn_unknown ap unknownAt
            rw [turned] at turned'
            cases turned'
            rw [same] at shorter
            omega
        · by_cases isBackslash : charAt s.f = '\x5c'
          · obtain ⟨_, turned', position, clear'⟩ := mainTurn_backslash ap isBackslash
            rw [turned] at turned'
            cases turned'
            exact .backslash isBackslash (position ▸ rest (clear'.trans clear))
          · obtain ⟨_, turned', position, clear'⟩ := mainTurn_plain ap isPercent isBackslash
            rw [turned] at turned'
            cases turned'
            have tail := position ▸ rest (clear'.trans clear)
            cases isFormat : s.f with
            | nil => exact absurd isFormat atEnd
            | cons c f =>
                rw [isFormat] at isPercent isBackslash tail
                exact .plain isPercent isBackslash tail

/-- Printing reads a format through exactly if its escapes are known. -/
theorem printsThrough_iff (env : PrintEnv D) (ap : Nat → D) (format sbuf : List Char) :
    PrintsThrough env ap format sbuf ↔ KnownFormat (format.takeWhile (· ≠ '\x00')) := by
  constructor
  · rintro ⟨reads, _⟩
    exact reads.knownFormat .refl rfl
  · intro known
    refine ⟨known.readsThrough rfl, ?_⟩
    intro pkg data count context itemFormat sbuf inItem
    exact iterateItem_readsThrough _ pkg data count inItem _

end Formats

/-- Nothing to print. -/
def emptyPrintEnv : PrintEnv Unit where
  string _ _ := []
  int _ _ := 0
  bool _ _ := false
  mode _ _ := 0
  logic _ := .single
  items _ _ := []
  printf _ _ _ := []
  humanNumber _ _ _ _ := []
  strmode _ := []
  strftime _ _ := []

/-- A percent sign at the end. -/
theorem hundredPercent_not_printsThrough :
    ¬ ∀ format, PrintsThrough emptyPrintEnv (fun _ => ()) format [] := by
  intro reads
  obtain ⟨s', turned, suffix⟩ :=
    (reads ['%']).1.consumes (formatStart ['%'] []) .refl (List.cons_ne_nil _ _)
  have stays : mainTurn emptyPrintEnv (fun _ => ()) (formatStart ['%'] []) =
      some { f := ['%'], sbuf := ['%'] } := rfl
  rw [stays] at turned
  cases turned
  exact absurd suffix.length_le (by decide)

end Pkgng
