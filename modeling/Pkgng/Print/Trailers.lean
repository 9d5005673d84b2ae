import Pkgng.Print.Scan

/-!
# Trailers that are not closed

A trailer without its closing `%` and brace is meant to count as absent: `format_trailer`
then goes back to the start of the trailer and clears both formats.  The bits that say that
they are set it has already set, so that `set_list_defaults` leaves the empty formats alone.
-/

set_option autoImplicit false

namespace Pkgng

/-! ## What an escape consists of -/

/-- The modifiers behind the percent sign. -/
def modifiersOf (f : List Char) : List Char := f.tail.takeWhile fun c => c ∈ "?#-+ 0\x27".toList

/-- The code behind the modifiers and the width, and the text behind that code. -/
def escapeCode (f : List Char) : FmtCode := (findCode (codeOf f) .pkg FmtCode.all).2

def behindCode (f : List Char) : List Char := (findCode (codeOf f) .pkg FmtCode.all).1

/-- A trailer starts here, and nothing closes it. -/
def Unterminated (f : List Char) : Prop :=
  ['%', '\x7b'] <+: f ∧ ¬['%', '\x7d'] <:+: f.drop 2

/-- One of the modifiers with which a list is counted and not printed. -/
def AlternateForm (f : List Char) : Prop := '?' ∈ modifiersOf f ∨ '#' ∈ modifiersOf f

instance (f : List Char) : Decidable (AlternateForm f) := inferInstanceAs (Decidable (_ ∨ _))

/-- The formats for items and separators with which a list handler of these defaults runs
through its list. -/
def listFormats (p : PercentEsc) (itemFmt sepFmt : String) : Option (List Char × List Char) :=
  if p.flags.alternateForm1 || p.flags.alternateForm2 then none
  else some ((setListDefaults p itemFmt sepFmt).itemFmt, (setListDefaults p itemFmt sepFmt).sepFmt)

/-- The trailer at an escape has no effect: the list is printed with its defaults, and the
loop goes on with the text of the trailer. -/
structure TrailerIsAbsent {D : Type} (env : PrintEnv D) (ap : Nat → D) (s : PrintState)
    (itemFmt sepFmt : String) : Prop where
  defaults : ∀ formats, listFormats (parseFormat s.f .pkg s.p).2 itemFmt sepFmt = some formats →
    formats = (itemFmt.toList, sepFmt.toList)
  ordinary : ∀ s', mainTurn env ap s = some s' → s'.f = behindCode s.f

section Lists

variable {D : Type} (env : PrintEnv D) (iterate : Iterate D)

theorem listItems_congr {p q : PercentEsc} (sameItem : p.itemFmt = q.itemFmt)
    (sameSep : p.sepFmt = q.sepFmt) (pkg : Argument D) (context : Context) (items : List D)
    (count : Nat) (sbuf : List Char) :
    listItems iterate pkg p context count items sbuf =
      listItems iterate pkg q context count items sbuf := by
  induction items generalizing count sbuf with
  | nil => rfl
  | cons item rest ih =>
      have separator : printSeparator iterate pkg p context count item sbuf =
          printSeparator iterate pkg q context count item sbuf := by
        rw [printSeparator, printSeparator, sameSep]
      rw [listItems, listItems, separator, sameItem]
      congr 1
      funext separated
      congr 1
      funext printed
      exact ih _ _

/-- A list handler reads no more of the escape than the formats. -/
theorem fmtHandler_list {code : FmtCode} {itemFmt sepFmt : String} {context : Context}
    (isList : code.fmt.handler = .list itemFmt sepFmt context) (sbuf : List Char)
    (data : Argument D) (p : PercentEsc) :
    fmtHandler env iterate code sbuf data p =
      match listFormats p itemFmt sepFmt with
      | none => some (listCount env sbuf (env.items code data).length p)
      | some (item, sep) =>
          (listItems iterate data { itemFmt := item, sepFmt := sep } context 1
            (env.items code data) sbuf).map fun text => (true, text) := by
  unfold fmtHandler listFormats
  rw [isList]
  dsimp only
  split
  · rfl
  · dsimp only
    have same := listItems_congr iterate (p := setListDefaults p itemFmt sepFmt)
      (q := { itemFmt := (setListDefaults p itemFmt sepFmt).itemFmt,
              sepFmt := (setListDefaults p itemFmt sepFmt).sepFmt })
      rfl rfl data context (env.items code data) 1 sbuf
    rw [same]
    cases listItems iterate data _ context 1 (env.items code data) sbuf with
    | none => rfl
    | some text => rfl

end Lists
/-! ## What stands in front of the trailer -/

theorem fieldModifier_snd (f : List Char) (p : PercentEsc) :
    (fieldModifier f p).2 = { p with flags := (fieldModifier f p).2.flags } := by
  induction f generalizing p with
  | nil => rfl
  | cons c f ih =>
      rw [fieldModifier]
      cases modifier c p.flags with
      | none => rfl
      | some flags => exact ih { p with flags := flags }

theorem fieldWidth_snd (f : List Char) (p : PercentEsc) :
    (fieldWidth f p).2 = { p with width := (fieldWidth f p).2.width } := by
  induction f generalizing p with
  | nil => rfl
  | cons c f ih =>
      rw [fieldWidth]
      split
      · exact ih { p with width := p.width * 10 + Lib.digitValue c }
      · rfl

/-- A modifier sets the bit of an alternate form only if it is the form's own. -/
theorem modifier_alternate {c : Char} {flags flags' : Flags} (reads : modifier c flags = some flags') :
    (flags'.alternateForm1 = true ↔ flags.alternateForm1 = true ∨ c = '?') ∧
      (flags'.alternateForm2 = true ↔ flags.alternateForm2 = true ∨ c = '#') := by
  unfold modifier at reads
  split at reads <;> cases reads <;> simp

theorem fieldModifier_alternate (f : List Char) (p : PercentEsc) :
    ((fieldModifier f p).2.flags.alternateForm1 = true ↔
        p.flags.alternateForm1 = true ∨ '?' ∈ f.takeWhile fun c => c ∈ "?#-+ 0\x27".toList) ∧
      ((fieldModifier f p).2.flags.alternateForm2 = true ↔
        p.flags.alternateForm2 = true ∨ '#' ∈ f.takeWhile fun c => c ∈ "?#-+ 0\x27".toList) := by
  induction f generalizing p with
  | nil => simp [fieldModifier]
  | cons c f ih =>
      rw [fieldModifier, List.takeWhile_cons, ← modifier_isSome c p.flags]
      cases reads : modifier c p.flags with
      | none => simp
      | some flags =>
          obtain ⟨form1, form2⟩ := modifier_alternate reads
          obtain ⟨later1, later2⟩ := ih { p with flags := flags }
          simp only [Option.isSome_some, if_true, List.mem_cons]
          rw [later1, later2, form1, form2, or_assoc, or_assoc, @eq_comm _ '?', @eq_comm _ '#']
          exact ⟨Iff.rfl, Iff.rfl⟩

/-- `p` when `parse_format` comes to the trailer. -/
def beforeTrailer (f : List Char) : PercentEsc :=
  { (fieldWidth (fieldModifier f.tail {}).1 (fieldModifier f.tail {}).2).2 with
    fmtCode := escapeCode f }

theorem beforeTrailer_eq (f : List Char) :
    beforeTrailer f = { flags := (fieldModifier f.tail {}).2.flags, width := (beforeTrailer f).width,
                        fmtCode := escapeCode f } := by
  unfold beforeTrailer
  rw [fieldWidth_snd, fieldModifier_snd]

theorem beforeTrailer_alternate (f : List Char) :
    ((beforeTrailer f).flags.alternateForm1 || (beforeTrailer f).flags.alternateForm2) = true ↔
      AlternateForm f := by
  obtain ⟨form1, form2⟩ := fieldModifier_alternate f.tail {}
  rw [Bool.or_eq_true, beforeTrailer_eq]
  exact or_congr (form1.trans (or_iff_right Bool.false_ne_true))
    (form2.trans (or_iff_right Bool.false_ne_true))

theorem parseFormat_pkg (f : List Char) :
    parseFormat f .pkg {} =
      if (escapeCode f).fmt.hasTrailer = true ∧ ¬AlternateForm f then
        formatTrailer (behindCode f) (beforeTrailer f)
      else (behindCode f, beforeTrailer f) := by
  have position : (fieldWidth (fieldModifier f.tail {}).1 (fieldModifier f.tail {}).2).1 =
      codeOf f := by
    rw [fieldWidth_fst, fieldModifier_fst]
    rfl
  have isCode : formatCode (fieldWidth (fieldModifier f.tail {}).1 (fieldModifier f.tail {}).2).1 .pkg
      (fieldWidth (fieldModifier f.tail {}).1 (fieldModifier f.tail {}).2).2 =
        (behindCode f, beforeTrailer f) := by
    rw [formatCode, position]
    rfl
  unfold parseFormat
  dsimp only
  rw [isCode]
  refine if_congr ?_ rfl rfl
  rw [← beforeTrailer_alternate]
  simp only [Bool.or_eq_true, not_or, Bool.not_eq_true, true_and]
  rfl

/-! ## The trailer -/

/-- Without a closing brace a loop of `format_trailer` ends at the end of the format, or the
first of them at a bar. -/
theorem trailerPart_unclosed {bar : Bool} {f : List Char} (unclosed : ¬['%', '\x7d'] <:+: f) :
    (trailerPart bar f).2 = none ∨
      bar = true ∧ ∃ f1, (trailerPart bar f).2 = some (true, f1) ∧ f1 <:+ f := by
  induction f with
  | nil => exact Or.inl rfl
  | cons c f ih =>
      rw [trailerPart]
      split
      · next closes =>
          obtain ⟨rfl, brace⟩ := closes
          cases f with
          | nil => cases brace
          | cons d rest =>
              cases brace
              exact absurd ⟨[], rest, rfl⟩ unclosed
      · split
        · next divides =>
            exact Or.inr ⟨divides.1, _, rfl, (List.tail_suffix f).trans (List.suffix_cons c f)⟩
        · rcases ih fun closed => unclosed (List.infix_cons closed) with atEnd | ⟨isBar, f1, atBar, suffix⟩
          · exact Or.inl atEnd
          · exact Or.inr ⟨isBar, f1, atBar, suffix.trans (List.suffix_cons c f)⟩

/-- What is left of an unterminated trailer: the position and the formats are as before,
but the format of the items counts as set. -/
theorem formatTrailer_unterminated {f : List Char} (malformed : Unterminated f) (p : PercentEsc) :
    (formatTrailer f p).1 = f ∧ (formatTrailer f p).2.itemFmtSet = true ∧
      (formatTrailer f p).2.itemFmt = [] ∧ (formatTrailer f p).2.flags = p.flags := by
  obtain ⟨⟨rest, rfl⟩, unclosed⟩ := malformed
  have dropped : (['%', '\x7b'] ++ rest).drop 2 = rest := rfl
  unfold formatTrailer
  rw [if_pos ⟨rfl, rfl⟩, dropped]
  rw [dropped] at unclosed
  have first := @trailerPart_unclosed true rest unclosed
  generalize trailerPart true rest = part at first ⊢
  obtain ⟨item, ending⟩ := part
  dsimp only at first
  rcases first with rfl | ⟨_, f1, rfl, suffix⟩
  · exact ⟨rfl, rfl, rfl, rfl⟩
  · have second := @trailerPart_unclosed false f1 fun closed => unclosed (closed.trans suffix.isInfix)
    dsimp only
    generalize trailerPart false f1 = part at second ⊢
    obtain ⟨sep, ending⟩ := part
    dsimp only at second
    rcases second with rfl | ⟨notBar, _⟩
    · exact ⟨rfl, rfl, rfl, rfl⟩
    · cases notBar

theorem setListDefaults_itemFmt {p : PercentEsc} (isSet : p.itemFmtSet = true)
    (itemFmt sepFmt : String) : (setListDefaults p itemFmt sepFmt).itemFmt = p.itemFmt := by
  unfold setListDefaults
  rw [if_pos isSet]
  dsimp only
  split <;> rfl

/-- Every list has a trailer, and a default for its items that is not empty. -/
theorem list_defaults {code : FmtCode} {itemFmt sepFmt : String} {context : Context}
    (isList : code.fmt.handler = .list itemFmt sepFmt context) :
    code.fmt.hasTrailer = true ∧ itemFmt.toList ≠ [] ∧ code ≠ .unknown ∧ code ≠ .literalPercent := by
  cases code <;> cases isList <;> exact ⟨rfl, by decide, by decide, by decide⟩

/-! ## The loop -/

section Loop

variable {D : Type} {env : PrintEnv D} {ap : Nat → D} {s s' : PrintState}

/-- Every turn leaves a cleared `p`. -/
theorem mainTurn_cleared (cleared : s.p = {}) (turned : mainTurn env ap s = some s') :
    s'.p = {} := by
  have handled : ∀ (mid : PrintState) p fend data,
      processFormatMain env mid p fend data = some s' → s'.p = {} := by
    intro mid p fend data processed
    obtain ⟨printed, _, rest⟩ := Option.bind_eq_some_iff.mp processed
    cases rest
    rfl
  unfold mainTurn at turned
  split at turned
  · dsimp only at turned
    split at turned
    · exact handled _ _ _ _ turned
    · exact handled _ _ _ _ turned
  · cases turned
    exact cleared
  · cases turned
    exact cleared

theorem reached_cleared {format sbuf : List Char}
    (reached : Reached (mainTurn env ap) (formatStart format sbuf) s) : s.p = {} := by
  induction reached with
  | refl => rfl
  | tail _ turned ih => exact mainTurn_cleared ih turned.2

/-- A list handler that comes back has printed its list. -/
theorem fmtHandler_list_ok {iterate : Iterate D} {code : FmtCode} {itemFmt sepFmt : String}
    {context : Context} (isList : code.fmt.handler = .list itemFmt sepFmt context)
    {sbuf : List Char} {data : Argument D} {p : PercentEsc} {printed : Printed}
    (returned : fmtHandler env iterate code sbuf data p = some printed) : printed.1 = true := by
  rw [fmtHandler_list env iterate isList] at returned
  split at returned
  · cases returned
    exact intVal_ok ..
  · obtain ⟨text, _, rfl⟩ := Option.map_eq_some_iff.mp returned
    rfl

/-- Behind a list's escape the loop goes on where `parse_format` has stopped. -/
theorem mainTurn_list {itemFmt sepFmt : String} {context : Context} (atPercent : charAt s.f = '%')
    (isList : (parseFormat s.f .pkg s.p).2.fmtCode.fmt.handler = .list itemFmt sepFmt context)
    (turned : mainTurn env ap s = some s') : s'.f = (parseFormat s.f .pkg s.p).1 := by
  obtain ⟨_, _, known, notPercent⟩ := list_defaults isList
  unfold mainTurn at turned
  rw [atPercent] at turned
  dsimp only at turned
  rw [if_neg fun either => either.elim notPercent known] at turned
  obtain ⟨printed, returned, rest⟩ := Option.bind_eq_some_iff.mp turned
  cases rest
  dsimp only
  rw [fmtHandler_list_ok isList returned, if_pos rfl]

end Loop

/-! ## When the trailer is absent -/

/-- Wherever the loop over a format meets a list with an unterminated trailer, the trailer is
treated as absent exactly if the list is only counted. -/
theorem unterminatedTrailer_absent_iff {D : Type} (env : PrintEnv D) (ap : Nat → D)
    {format sbuf : List Char} {s : PrintState}
    (reached : Reached (mainTurn env ap) (formatStart format sbuf) s)
    (atPercent : charAt s.f = '%') {itemFmt sepFmt : String} {context : Context}
    (isList : (escapeCode s.f).fmt.handler = .list itemFmt sepFmt context)
    (malformed : Unterminated (behindCode s.f)) :
    TrailerIsAbsent env ap s itemFmt sepFmt ↔ AlternateForm s.f := by
  have cleared := reached_cleared reached
  have parsed := parseFormat_pkg s.f
  obtain ⟨hasTrailer, nonempty, _, _⟩ := list_defaults isList
  constructor
  · intro absent
    by_contra printed
    rw [if_pos ⟨hasTrailer, printed⟩] at parsed
    obtain ⟨_, isSet, isEmpty, flags⟩ :=
      formatTrailer_unterminated malformed (beforeTrailer s.f)
    have formats := absent.defaults
    rw [cleared, parsed] at formats
    unfold listFormats at formats
    rw [flags, if_neg fun alternate => printed ((beforeTrailer_alternate s.f).mp alternate),
      setListDefaults_itemFmt isSet, isEmpty] at formats
    exact nonempty (Prod.ext_iff.mp (formats _ rfl)).1.symm
  · intro counted
    rw [if_neg fun both => both.2 counted] at parsed
    refine ⟨fun formats used => ?_, fun s' turned => ?_⟩
    · rw [cleared, parsed] at used
      unfold listFormats at used
      rw [if_pos ((beforeTrailer_alternate s.f).mpr counted)] at used
      cases used
    · have position := mainTurn_list atPercent (by rw [cleared, parsed]; exact isList) turned
      rw [position, cleared, parsed]

/-- A list of dependencies that is to be counted. -/
theorem countedTrailer_absent :
    TrailerIsAbsent emptyPrintEnv (fun _ => ()) (formatStart "%?d%\x7ba%|b".toList [])
      "%dn-%dv\n" "" :=
  (@unterminatedTrailer_absent_iff Unit emptyPrintEnv (fun _ => ()) _ [] _ .refl rfl _ _
    .dependency rfl ⟨⟨_, rfl⟩, by decide⟩).mpr (Or.inl (by decide))

/-- The dependencies are printed with an empty format. -/
theorem unterminatedTrailer_not_absent :
    ¬ ∀ (format : List Char) (itemFmt sepFmt : String) (context : Context),
      charAt format = '%' → (escapeCode format).fmt.handler = .list itemFmt sepFmt context →
      Unterminated (behindCode format) →
      TrailerIsAbsent emptyPrintEnv (fun _ => ()) { f := format } itemFmt sepFmt := by
  intro absent
  have formats := (absent "%d%\x7ba".toList "%dn-%dv\n" "" .dependency rfl rfl
    ⟨⟨_, rfl⟩, by decide⟩).defaults ([], []) rfl
  exact absurd (Prod.ext_iff.mp formats).1 (by decide)

end Pkgng
