import Pkgng.Print.Format

/-!
# The handlers of the format codes

Each handler prints one field of its data through `string_val`, `int_val`, `bool_val`,
`mode_val` or `liclog_val`; these build a format for `printf` in a buffer of 16 bytes, which
is always large enough, so that `format_unknown` is the only handler that returns NULL.
-/

set_option autoImplicit false

namespace Pkgng

open Lib

/-- What a handler is given for its data. -/
inductive Argument (D : Type)
  | null
  | pointer (data : D)
  | counter (count : Nat)

inductive LicenseLogic
  | single
  | or
  | and
deriving DecidableEq, Repr

/-- What `sbuf_printf` prints behind the width. -/
inductive PrintfValue
  | string (text : List Char)
  | int (value : Int)
  | octal (mode : Nat)

/-- The fields that the handlers read, and the C library. -/
structure PrintEnv (D : Type) where
  string : FmtCode → Argument D → List Char
  int : FmtCode → Argument D → Int
  bool : FmtCode → Argument D → Bool
  mode : FmtCode → Argument D → Nat
  logic : Argument D → LicenseLogic
  items : FmtCode → Argument D → List D
  printf : List Char → Nat → PrintfValue → List Char
  /-- What `human_number` prints, which it computes in floating point. -/
  humanNumber : List Char → Nat → Bool → Int → List Char
  strmode : Nat → List Char
  strftime : List Char → Int → List Char

/-- What a handler leaves: whether it returned the buffer, and not NULL, and its text. -/
abbrev Printed := Bool × List Char

def genFormat (buflen : Nat) (flags : Flags) (tail : List Char) : Option (List Char) :=
  let tlen := tail.length
  if buflen < tlen + 3 then none
  else
    let spaceForPlus := flags.spaceForPlus && !flags.explicitPlus
    let zeroPad := flags.zeroPad && !flags.leftAlign
    let buf := ['%'] ++ (if flags.alternateForm2 then ['#'] else []) ++
      (if flags.leftAlign then ['-'] else []) ++ (if zeroPad then ['0'] else [])
    if buflen - buf.length < tlen + 2 then none
    else
      let buf := buf ++ (if flags.explicitPlus then ['+'] else []) ++
        (if spaceForPlus then [' '] else []) ++ (if flags.thousandsSep then ['\x27'] else [])
      if buflen - buf.length < tlen + 2 then none
      else some (buf ++ ['*'] ++ tail)

/-- Printing with the generated format, if there is one. -/
def withFormat (sbuf : List Char) (flags : Flags) (tail : String)
    (print : List Char → List Char) : Printed :=
  match genFormat 16 flags tail.toList with
  | none => (false, sbuf)
  | some format => (true, sbuf ++ print format)

section Values

variable {D : Type} (env : PrintEnv D) (sbuf : List Char)

def Flags.clearAlternate (flags : Flags) : Flags :=
  { flags with alternateForm1 := false, alternateForm2 := false }

def stringVal (str : List Char) (p : PercentEsc) : Printed :=
  let flags := { p.flags.clearAlternate with
    explicitPlus := false, spaceForPlus := false, thousandsSep := false }
  withFormat sbuf flags "s" fun format => env.printf format p.width (.string str)

def intVal (value : Int) (p : PercentEsc) : Printed :=
  if p.flags.alternateForm1 || p.flags.alternateForm2 then
    withFormat sbuf p.flags.clearAlternate ".*f" fun format =>
      env.humanNumber format p.width p.flags.alternateForm2 value
  else withFormat sbuf p.flags "ld" fun format => env.printf format p.width (.int value)

/-- The column of the tables of `bool_val` and `liclog_val`. -/
def alternate (flags : Flags) (plain form1 form2 : String) : List Char :=
  (if flags.alternateForm2 then form2 else if flags.alternateForm1 then form1 else plain).toList

def boolVal (value : Bool) (p : PercentEsc) : Printed :=
  let text := if value then alternate p.flags "true" "yes" "(*)"
    else alternate p.flags "false" "no" ""
  stringVal env sbuf text { p with flags := p.flags.clearAlternate }

def modeVal (mode : Nat) (p : PercentEsc) : Printed :=
  if p.flags.alternateForm1 then stringVal env sbuf (env.strmode mode) p
  else
    let mode := if p.flags.explicitPlus then mode else mode % 4096
    let flags := { p.flags with alternateForm1 := false, explicitPlus := false }
    withFormat sbuf flags "o" fun format => env.printf format p.width (.octal mode)

def liclogVal (logic : LicenseLogic) (p : PercentEsc) : Printed :=
  let text := match logic with
    | .single => alternate p.flags "single" "" "=="
    | .or => alternate p.flags "or" "|" "||"
    | .and => alternate p.flags "and" "&" "&&"
  stringVal env sbuf text { p with flags := p.flags.clearAlternate }

def listCount (count : Nat) (p : PercentEsc) : Printed :=
  let count := if p.flags.alternateForm1 then (if 0 < count then 1 else 0) else count
  intVal env sbuf count { p with flags := p.flags.clearAlternate }

end Values

def setListDefaults (p : PercentEsc) (itemFmt sepFmt : String) : PercentEsc :=
  let p := if p.itemFmtSet then p
    else { p with itemFmt := p.itemFmt ++ itemFmt.toList, itemFmtSet := true }
  if p.sepFmtSet then p
  else { p with sepFmt := p.sepFmt ++ sepFmt.toList, sepFmtSet := true }

/-- `iterate_item`, as the list handlers call it; none where its loop does not end. -/
abbrev Iterate (D : Type) :=
  (sbuf : List Char) → (pkg : Argument D) → (format : List Char) → (data : D) → (count : Nat) →
    Context → Option (List Char)

section Handlers

variable {D : Type} (env : PrintEnv D) (iterate : Iterate D)

/-- The separator in front of every item but the first. -/
def printSeparator (pkg : Argument D) (p : PercentEsc) (context : Context) (count : Nat) (item : D)
    (sbuf : List Char) : Option (List Char) :=
  if 1 < count then iterate sbuf pkg p.sepFmt item count context else some sbuf

/-- The loop of a list handler over the items that are left. -/
def listItems (pkg : Argument D) (p : PercentEsc) (context : Context) :
    Nat → List D → List Char → Option (List Char)
  | _, [], sbuf => some sbuf
  | count, item :: rest, sbuf => do
      let sbuf ← printSeparator iterate pkg p context count item sbuf
      let sbuf ← iterate sbuf pkg p.itemFmt item count context
      listItems pkg p context (count + 1) rest sbuf

/-- `fmt_handler` of a code; none where a loop that it runs does not end. -/
def fmtHandler (code : FmtCode) (sbuf : List Char) (data : Argument D) (p : PercentEsc) :
    Option Printed :=
  match code.fmt.handler with
  | .string => some (stringVal env sbuf (env.string code data) p)
  | .shortChecksum => some (stringVal env sbuf ((env.string code data).take 10) p)
  | .int => some (intVal env sbuf (env.int code data) p)
  | .bool => some (boolVal env sbuf (env.bool code data) p)
  | .mode => some (modeVal env sbuf (env.mode code data) p)
  | .logic => some (liclogVal env sbuf (env.logic data) p)
  | .timestamp =>
      if p.itemFmt = [] then some (intVal env sbuf (env.int code data) p)
      else some (true, sbuf ++ env.strftime p.itemFmt (env.int code data))
  | .rowCounter =>
      match data with
      | .counter count => some (intVal env sbuf count p)
      | _ => some (intVal env sbuf (env.int code data) p)
  | .list itemFmt sepFmt context =>
      let items := env.items code data
      if p.flags.alternateForm1 || p.flags.alternateForm2 then
        some (listCount env sbuf items.length p)
      else do
        let sbuf ← listItems iterate data (setListDefaults p itemFmt sepFmt) context 1 items sbuf
        some (true, sbuf)
  | .literalPercent => some (true, sbuf ++ ['%'])
  | .unknown => some (false, sbuf ++ ['%'])

end Handlers

/-! ## No other handler fails -/

theorem genFormat_isSome (flags : Flags) {tail : List Char} (short : tail.length ≤ 7) :
    ∃ format, genFormat 16 flags tail = some format := by
  have atMostOne : ∀ (set : Bool) (c : Char), (if set = true then [c] else []).length ≤ 1 := by
    intro set c
    split
    · exact Nat.le_refl 1
    · exact Nat.zero_le 1
  have form2 := atMostOne flags.alternateForm2 '#'
  have left := atMostOne flags.leftAlign '-'
  have zero := atMostOne (flags.zeroPad && !flags.leftAlign) '0'
  have plus := atMostOne flags.explicitPlus '+'
  have space := atMostOne (flags.spaceForPlus && !flags.explicitPlus) ' '
  have thousands := atMostOne flags.thousandsSep '\x27'
  unfold genFormat
  simp only [List.length_append, List.length_singleton]
  rw [if_neg (by omega), if_neg (by omega), if_neg (by omega)]
  exact ⟨_, rfl⟩

theorem withFormat_ok (sbuf : List Char) (flags : Flags) {tail : String}
    (print : List Char → List Char) (short : tail.toList.length ≤ 7) :
    (withFormat sbuf flags tail print).1 = true := by
  obtain ⟨format, generated⟩ := genFormat_isSome flags short
  rw [withFormat, generated]

section Succeeds

variable {D : Type} (env : PrintEnv D) (sbuf : List Char) (p : PercentEsc)

theorem stringVal_ok (str : List Char) : (stringVal env sbuf str p).1 = true :=
  withFormat_ok _ _ _ (by decide)

theorem intVal_ok (value : Int) : (intVal env sbuf value p).1 = true := by
  unfold intVal
  split
  · exact withFormat_ok _ _ _ (by decide)
  · exact withFormat_ok _ _ _ (by decide)

theorem modeVal_ok (mode : Nat) : (modeVal env sbuf mode p).1 = true := by
  unfold modeVal
  split
  · exact stringVal_ok env sbuf p _
  · exact withFormat_ok _ _ _ (by decide)

end Succeeds

section Outcome

variable {D : Type} {env : PrintEnv D} {iterate : Iterate D} {sbuf : List Char}
  {data : Argument D} {p : PercentEsc}

theorem listItems_isSome {pkg : Argument D} {context : Context} (items : List D)
    (ends : ∀ sbuf format item count, ∃ text, iterate sbuf pkg format item count context =
      some text) (count : Nat) :
    ∃ text, listItems iterate pkg p context count items sbuf = some text := by
  induction items generalizing count sbuf with
  | nil => exact ⟨sbuf, rfl⟩
  | cons item rest ih =>
      have separated : ∃ text,
          printSeparator iterate pkg p context count item sbuf = some text := by
        unfold printSeparator
        split
        · exact ends ..
        · exact ⟨sbuf, rfl⟩
      obtain ⟨afterSep, sep⟩ := separated
      obtain ⟨afterItem, printed⟩ := ends afterSep p.itemFmt item count
      obtain ⟨text, later⟩ := @ih afterItem (count + 1)
      refine ⟨text, ?_⟩
      rw [listItems, sep]
      simp only [Option.bind_eq_bind, Option.bind_some, printed, later]

/-- A known code's handler succeeds if the loops that it runs end. -/
theorem fmtHandler_known {code : FmtCode} (known : code ≠ .unknown)
    (ends : ∀ itemFmt sepFmt context, code.fmt.handler = .list itemFmt sepFmt context →
      ∀ sbuf format item count, ∃ text,
        iterate sbuf data format item count context = some text) :
    ∃ text, fmtHandler env iterate code sbuf data p = some (true, text) := by
  have succeeds : ∀ printed : Printed, printed.1 = true →
      ∃ text, some printed = some (true, text) :=
    fun printed ok => ⟨printed.2, congrArg some (Prod.ext ok rfl)⟩
  unfold fmtHandler
  cases isHandler : code.fmt.handler with
  | string => exact succeeds _ (stringVal_ok ..)
  | shortChecksum => exact succeeds _ (stringVal_ok ..)
  | int => exact succeeds _ (intVal_ok ..)
  | bool => exact succeeds _ (stringVal_ok ..)
  | mode => exact succeeds _ (modeVal_ok ..)
  | logic => exact succeeds _ (stringVal_ok ..)
  | timestamp =>
      dsimp only
      split
      · exact succeeds _ (intVal_ok ..)
      · exact ⟨_, rfl⟩
  | rowCounter =>
      dsimp only
      split
      · exact succeeds _ (intVal_ok ..)
      · exact succeeds _ (intVal_ok ..)
  | list itemFmt sepFmt context =>
      dsimp only
      split
      · exact succeeds _ (intVal_ok ..)
      · obtain ⟨text, printed⟩ := listItems_isSome (env.items code data)
          (ends itemFmt sepFmt context isHandler) 1
        rw [printed]
        exact ⟨text, rfl⟩
  | literalPercent => exact ⟨_, rfl⟩
  | unknown =>
      have isUnknown : ∀ code : FmtCode, code.fmt.handler = .unknown → code = .unknown := by
        intro code
        cases code <;> decide
      exact absurd (isUnknown code isHandler) known

end Outcome

end Pkgng
