import Mathlib.Data.List.DropRight
import Pkgng.Print.Format

/-!
# The format strings of `pkg query`

`analyse_query_string` checks a query string against a table of format keys and notes which
data of a package it needs; `format_str` prints the string for a package, or for an item of
one of its lists, and knows backslash escapes as well.  A position in the string is the rest
of it, and the terminating NUL is the end of the list.
-/

set_option autoImplicit false

namespace Pkgng

open Lib

/-! ## The table -/

/-- `PKG_LOAD_*` for the list of a package; what is always loaded is `PKG_LOAD_BASIC`. -/
def Context.loadFlag : Context → Nat
  | .pkg => 0
  | .dependency => 1
  | .requirement => 2
  | .file => 4
  | .option => 16
  | .directory => 64
  | .category => 128
  | .licence => 256
  | .user => 512
  | .group => 1024
  | .shlibRequired => 2048
  | .shlibProvided => 4096
  | .annotations => 8192

structure QueryFlags where
  flag : Char
  options : List Char
  multiline : Bool
  dbflags : Nat
deriving DecidableEq, Repr

def countableLists : List Char := "drCFODLUGBbA".toList

def acceptedQueryFlags : List QueryFlags :=
  [⟨'d', "nov".toList, true, Context.loadFlag .dependency⟩,
   ⟨'r', "nov".toList, true, Context.loadFlag .requirement⟩,
   ⟨'C', [], true, Context.loadFlag .category⟩,
   ⟨'F', "ps".toList, true, Context.loadFlag .file⟩,
   ⟨'O', "kvdD".toList, true, Context.loadFlag .option⟩,
   ⟨'D', [], true, Context.loadFlag .directory⟩,
   ⟨'L', [], true, Context.loadFlag .licence⟩,
   ⟨'U', [], true, Context.loadFlag .user⟩,
   ⟨'G', [], true, Context.loadFlag .group⟩,
   ⟨'B', [], true, Context.loadFlag .shlibRequired⟩,
   ⟨'b', [], true, Context.loadFlag .shlibProvided⟩,
   ⟨'A', "tv".toList, true, Context.loadFlag .annotations⟩,
   ⟨'?', countableLists, true, Context.loadFlag .pkg⟩,
   ⟨'#', countableLists, true, Context.loadFlag .pkg⟩,
   ⟨'s', "hb".toList, false, Context.loadFlag .pkg⟩,
   ⟨'n', [], false, Context.loadFlag .pkg⟩,
   ⟨'v', [], false, Context.loadFlag .pkg⟩,
   ⟨'o', [], false, Context.loadFlag .pkg⟩,
   ⟨'p', [], false, Context.loadFlag .pkg⟩,
   ⟨'m', [], false, Context.loadFlag .pkg⟩,
   ⟨'c', [], false, Context.loadFlag .pkg⟩,
   ⟨'e', [], false, Context.loadFlag .pkg⟩,
   ⟨'w', [], false, Context.loadFlag .pkg⟩,
   ⟨'l', [], false, Context.loadFlag .pkg⟩,
   ⟨'q', [], false, Context.loadFlag .pkg⟩,
   ⟨'a', [], false, Context.loadFlag .pkg⟩,
   ⟨'k', [], false, Context.loadFlag .pkg⟩,
   ⟨'M', [], false, Context.loadFlag .pkg⟩,
   ⟨'t', [], false, Context.loadFlag .pkg⟩,
   ⟨'R', [], false, Context.loadFlag .annotations⟩]

/-! ## `analyse_query_string` -/

/-- The messages of `analyse_query_string`, with what they print. -/
inductive QueryError
  | noFormatString
  | followedBy (flag : Char) (options : List Char)
  | sameTime (multiline flag : Char)
  | unknownKey (key : Char)
deriving DecidableEq, Repr

/-- `*flags` and `*multiline`; no list so far is a NUL. -/
structure QueryNeeds where
  flags : Nat
  multiline : Char
deriving DecidableEq, Repr

/-- What a key whose option has been checked adds; `opt` is `options[j]`. -/
def noteKey (qFlags : List QueryFlags) (entry : QueryFlags) (opt : Char) (needs : QueryNeeds) :
    Except QueryError QueryNeeds :=
  if entry.multiline = true ∧ needs.multiline ≠ '\x00' ∧ needs.multiline ≠ entry.flag then
    .error (.sameTime needs.multiline entry.flag)
  else
    let needs := if entry.multiline then { needs with multiline := entry.flag } else needs
    if entry.flag = '?' ∨ entry.flag = '#' then
      match qFlags.find? (·.flag = opt) with
      | some counted => .ok { needs with flags := needs.flags ||| counted.dbflags }
      | none => .ok needs
    else .ok { needs with flags := needs.flags ||| entry.dbflags }

/-- The loop over the string. -/
def analyseFrom (qFlags : List QueryFlags) : List Char → QueryNeeds → Except QueryError QueryNeeds
  | [], needs => .ok needs
  -- no table has a key for the NUL
  | ['%'], _ => .error (.unknownKey '\x00')
  | '%' :: key :: q, needs =>
      match qFlags.find? (·.flag = key) with
      | none => .error (.unknownKey key)
      | some entry =>
          if entry.options = [] then do
            let needs ← noteKey qFlags entry '\x00' needs
            analyseFrom qFlags q needs
          else
            match q with
            | [] => .error (.followedBy entry.flag entry.options)
            | opt :: q =>
                if opt ∈ entry.options then do
                  let needs ← noteKey qFlags entry opt needs
                  analyseFrom qFlags q needs
                else .error (.followedBy entry.flag entry.options)
  | _ :: q, needs => analyseFrom qFlags q needs

def analyseQueryString (qstr : List Char) (qFlags : List QueryFlags) (needs : QueryNeeds) :
    Except QueryError QueryNeeds :=
  if '%' ∉ qstr then .error .noFormatString else analyseFrom qFlags qstr needs

/-! ## `format_str` -/

/-- What `format_str` appends: the text of a `pkg_sbuf_printf` for the package or for its
argument `data`, one of the two flags, the message if the package has one, or a character. -/
inductive QueryPiece
  | printf (format : List Char) (ofData : Bool)
  | automatic
  | locked
  | message
  | putc (c : Char)
deriving DecidableEq, Repr

def forPkg (format : String) : List QueryPiece := [.printf format.toList false]

def forData (format : String) : List QueryPiece := [.printf format.toList true]

/-- The keys of one character. -/
def formatKey : Char → List QueryPiece
  | 'n' => forPkg "%n"
  | 'v' => forPkg "%v"
  | 'o' => forPkg "%o"
  | 'R' => forPkg "%N"
  | 'p' => forPkg "%p"
  | 'm' => forPkg "%m"
  | 'c' => forPkg "%c"
  | 'w' => forPkg "%w"
  | 'a' => [.automatic]
  | 'k' => [.locked]
  | 't' => forPkg "%t"
  | 'e' => forPkg "%e"
  | 'q' => forPkg "%q"
  | 'l' => forPkg "%l"
  | 'C' => forData "%Cn"
  | 'D' => forData "%Dn"
  | 'L' => forData "%Ln"
  | 'U' => forData "%Un"
  | 'G' => forData "%Gn"
  | 'B' => forData "%Bn"
  | 'b' => forData "%bn"
  | 'M' => [.message]
  | '%' => [.putc '%']
  | _ => []

/-- The keys that read a second character. -/
def takesOption (key : Char) : Bool := key ∈ ['s', '?', '#', 'd', 'r', 'F', 'O', 'A']

def formatOption : Char → Char → List QueryPiece
  | 's', 'h' => forPkg "%?sB"
  | 's', 'b' => forPkg "%s"
  | '?', list => if list ∈ countableLists then [.printf ['%', '?', list] false] else []
  | '#', list => if list ∈ countableLists then [.printf ['%', '#', list] false] else []
  | 'd', 'n' => forData "%dn"
  | 'd', 'o' => forData "%do"
  | 'd', 'v' => forData "%dv"
  | 'r', 'n' => forData "%rn"
  | 'r', 'o' => forData "%ro"
  | 'r', 'v' => forData "%rv"
  | 'F', 'p' => forData "%Fn"
  | 'F', 's' => forData "%Fs"
  | 'O', 'k' => forData "%On"
  | 'O', 'v' => forData "%Ov"
  | 'O', 'd' => forData "%Od"
  | 'O', 'D' => forData "%OD"
  | 'A', 't' => forData "%An"
  | 'A', 'v' => forData "%Av"
  | _, _ => []

def formatEscape : Char → List QueryPiece
  | 'n' => [.putc '\n']
  | 'a' => [.putc '\x07']
  | 'b' => [.putc '\x08']
  | 'f' => [.putc '\x0c']
  | 'r' => [.putc '\r']
  | '\\' => [.putc '\\']
  | 't' => [.putc '\t']
  | _ => []

/-- `format_str`, or nothing where the loop tests the character behind the terminating NUL. -/
def formatStr : List Char → Option (List QueryPiece)
  | [] => some []
  | ['%'] => none
  | '%' :: key :: q =>
      if takesOption key then
        match q with
        | [] => none
        | opt :: q => (formatStr q).map (formatOption key opt ++ ·)
      else (formatStr q).map (formatKey key ++ ·)
  | ['\\'] => none
  | '\\' :: c :: q => (formatStr q).map (formatEscape c ++ ·)
  | c :: q => (formatStr q).map (.putc c :: ·)

/-- `print_query`: the list whose items are handed to `format_str` as `data`. -/
def queriedList : Char → Option Context
  | 'd' => some .dependency
  | 'r' => some .requirement
  | 'C' => some .category
  | 'O' => some .option
  | 'F' => some .file
  | 'D' => some .directory
  | 'L' => some .licence
  | 'U' => some .user
  | 'G' => some .group
  | 'B' => some .shlibRequired
  | 'b' => some .shlibProvided
  | 'A' => some .annotations
  | _ => none

/-- The list of the package that the handler of a format code reads, or whose items it reads.
`format_repo_ident` falls back on an annotation. -/
def FmtCode.listRead (code : FmtCode) : Context :=
  match code.fmt.handler, code.fmt.context with
  | .list _ _ list, _ => list
  | _, [.pkg, list] => list
  | _, _ => if code = .repoIdent then .annotations else .pkg

def QueryPiece.list : QueryPiece → Context
  | .printf format _ => (parseFormat format .pkg {}).2.fmtCode.listRead
  | _ => .pkg

/-! ## Backslashes at the end -/

/-- How many backslashes the string ends with. -/
def trailingBackslashes (q : List Char) : Nat := (q.rtakeWhile (· = '\\')).length

theorem trailingBackslashes_le (q : List Char) : trailingBackslashes q ≤ q.length :=
  List.IsSuffix.length_le (List.rtakeWhile_suffix _ _)

theorem trailingBackslashes_cons (c : Char) (q : List Char) :
    trailingBackslashes (c :: q) =
      if trailingBackslashes q = q.length ∧ c = '\\' then q.length + 1
      else trailingBackslashes q := by
  simp only [trailingBackslashes, List.rtakeWhile, List.reverse_cons, List.takeWhile_append,
    List.length_reverse]
  split
  · rename_i whole
    by_cases here : c = '\\' <;> simp [whole, here]
  · rename_i part
    simp [part]

theorem trailingBackslashes_other {c : Char} (other : c ≠ '\\') (q : List Char) :
    trailingBackslashes (c :: q) = trailingBackslashes q := by
  rw [trailingBackslashes_cons, if_neg fun both => other both.2]

/-- An escape takes two backslashes, or a backslash that is not one of the last. -/
theorem trailingBackslashes_escape (c : Char) (q : List Char) :
    trailingBackslashes ('\\' :: c :: q) % 2 = trailingBackslashes q % 2 := by
  have bound := trailingBackslashes_le q
  rw [trailingBackslashes_cons, trailingBackslashes_cons c]
  by_cases here : c = '\\' <;> by_cases whole : trailingBackslashes q = q.length
  · simp [here, whole]
    omega
  · simp only [here, whole, List.length_cons, and_true, if_false]
    rw [if_neg (by omega)]
  · simp only [here, List.length_cons, and_true, and_false, if_false]
    rw [if_neg (by omega)]
  · simp only [here, List.length_cons, and_true, and_false, if_false]
    rw [if_neg (by omega)]

/-! ## What a key adds -/

/-- The flags that a key adds. -/
def addedFlags (entry : QueryFlags) (opt : Char) : Nat :=
  if entry.flag = '?' ∨ entry.flag = '#' then
    ((acceptedQueryFlags.find? (·.flag = opt)).map (·.dbflags)).getD 0
  else entry.dbflags

theorem noteKey_spec {entry : QueryFlags} {opt : Char} {needs needs' : QueryNeeds}
    (noted : noteKey acceptedQueryFlags entry opt needs = .ok needs') :
    needs'.flags = needs.flags ||| addedFlags entry opt ∧
      needs'.multiline = (if entry.multiline then entry.flag else needs.multiline) ∧
      (entry.multiline = true → needs.multiline = '\x00' ∨ needs.multiline = entry.flag) := by
  unfold noteKey at noted
  split at noted
  · cases noted
  · rename_i together
    have multiline : entry.multiline = true →
        needs.multiline = '\x00' ∨ needs.multiline = entry.flag := by
      intro several
      by_contra neither
      exact together ⟨several, fun none => neither (.inl none), fun same => neither (.inr same)⟩
    refine (and_assoc.mp ⟨?_, multiline⟩)
    unfold addedFlags
    by_cases counts : entry.flag = '?' ∨ entry.flag = '#'
    · rw [if_pos counts] at noted ⊢
      cases counted : acceptedQueryFlags.find? (·.flag = opt) <;> rw [counted] at noted <;>
        cases noted <;> cases entry.multiline <;> simp
    · rw [if_neg counts] at noted ⊢
      cases noted
      cases entry.multiline <;> simp

/-- What has been noted stays noted. -/
structure QueryNeeds.Extends (needs' needs : QueryNeeds) : Prop where
  flags : needs.flags ||| needs'.flags = needs'.flags
  multiline : needs.multiline ≠ '\x00' → needs'.multiline = needs.multiline

theorem QueryNeeds.Extends.refl (needs : QueryNeeds) : needs.Extends needs :=
  ⟨Nat.or_self _, fun _ => rfl⟩

theorem QueryNeeds.Extends.trans {a b c : QueryNeeds} (later : c.Extends b) (first : b.Extends a) :
    c.Extends a where
  flags := by rw [← later.flags, ← Nat.or_assoc, first.flags]
  multiline known := by
    have kept := first.multiline known
    rw [later.multiline (by rwa [kept]), kept]

theorem noteKey_extends {entry : QueryFlags} {opt : Char} {needs needs' : QueryNeeds}
    (noted : noteKey acceptedQueryFlags entry opt needs = .ok needs') :
    needs'.Extends needs := by
  obtain ⟨flags, multiline, alone⟩ := noteKey_spec noted
  constructor
  · rw [flags, ← Nat.or_assoc, Nat.or_self]
  · intro known
    rw [multiline]
    split
    · rename_i several
      exact ((alone several).resolve_left known).symm
    · rfl

/-! ## Pieces and needs -/

/-- Whether a piece needs data that is handed over. -/
def QueryPiece.ofData : QueryPiece → Bool
  | .printf _ ofData => ofData
  | _ => false

/-- The list that a piece reads is loaded, and a piece about an item is about an item of the
list that is iterated. -/
structure QueryNeeds.Covers (needs : QueryNeeds) (piece : QueryPiece) : Prop where
  loaded : piece.list.loadFlag ||| needs.flags = needs.flags
  queried : piece.ofData = true → queriedList needs.multiline = some piece.list

theorem queriedList_known {c : Char} {list : Context} (queried : queriedList c = some list) :
    c ≠ '\x00' := by
  rintro rfl
  cases queried

theorem QueryNeeds.Covers.extends {needs needs' : QueryNeeds} {piece : QueryPiece}
    (covers : needs.Covers piece) (more : needs'.Extends needs) : needs'.Covers piece where
  loaded := by rw [← more.flags, ← Nat.or_assoc, covers.loaded]
  queried isData := by
    have here := covers.queried isData
    rw [more.multiline (queriedList_known here), here]

/-- What an entry of the table has to offer for a piece of its key. -/
def keyCovers (entry : QueryFlags) (opt : Char) (piece : QueryPiece) : Bool :=
  decide (piece.list.loadFlag ||| addedFlags entry opt = addedFlags entry opt) &&
    (!piece.ofData || entry.multiline && decide (queriedList entry.flag = some piece.list))

/-- The checker's table and the printer's cases agree, key by key. -/
theorem acceptedQueryFlags_agree : ∀ entry ∈ acceptedQueryFlags,
    entry.flag ≠ '\\' ∧ entry.flag ≠ '%' ∧
      if entry.options = [] then
        takesOption entry.flag = false ∧
          (formatKey entry.flag).all (keyCovers entry '\x00') = true
      else takesOption entry.flag = true ∧ ∀ opt ∈ entry.options, opt ≠ '\\' ∧ opt ≠ '%' ∧
        (formatOption entry.flag opt).all (keyCovers entry opt) = true := by
  have table : acceptedQueryFlags.all (fun entry =>
      decide (entry.flag ≠ '\\') && decide (entry.flag ≠ '%') &&
        if entry.options = [] then
          !takesOption entry.flag && (formatKey entry.flag).all (keyCovers entry '\x00')
        else takesOption entry.flag && entry.options.all fun opt =>
          decide (opt ≠ '\\') && decide (opt ≠ '%') &&
            (formatOption entry.flag opt).all (keyCovers entry opt)) = true := by decide +kernel
  intro entry member
  have here := List.all_eq_true.mp table entry member
  rw [Bool.and_eq_true, Bool.and_eq_true, decide_eq_true_eq, decide_eq_true_eq] at here
  obtain ⟨⟨notBackslash, notPercent⟩, options⟩ := here
  refine ⟨notBackslash, notPercent, ?_⟩
  split
  · next none =>
      rw [if_pos none, Bool.and_eq_true, Bool.not_eq_true'] at options
      exact options
  · next some =>
      rw [if_neg some, Bool.and_eq_true, List.all_eq_true] at options
      refine ⟨options.1, fun opt listed => ?_⟩
      have allowed := options.2 opt listed
      rw [Bool.and_eq_true, Bool.and_eq_true, decide_eq_true_eq, decide_eq_true_eq] at allowed
      exact ⟨allowed.1.1, allowed.1.2, allowed.2⟩

theorem keyCovers_covers {entry : QueryFlags} {opt : Char} {needs needs' : QueryNeeds}
    (noted : noteKey acceptedQueryFlags entry opt needs = .ok needs') {piece : QueryPiece}
    (offers : keyCovers entry opt piece = true) : needs'.Covers piece := by
  obtain ⟨flags, multiline, -⟩ := noteKey_spec noted
  simp only [keyCovers, Bool.and_eq_true, decide_eq_true_eq, Bool.or_eq_true,
    Bool.not_eq_true'] at offers
  obtain ⟨loaded, item⟩ := offers
  constructor
  · rw [flags, ← Nat.or_assoc, Nat.or_comm _ needs.flags, Nat.or_assoc, loaded]
  · intro isData
    obtain ⟨several, queried⟩ := item.resolve_left (by rw [isData]; exact Bool.noConfusion)
    rw [multiline, if_pos several, queried]

/-! ## The two scanners in step -/

theorem analyseFrom_other {c : Char} (other : c ≠ '%') (q : List Char) (needs : QueryNeeds) :
    analyseFrom acceptedQueryFlags (c :: q) needs = analyseFrom acceptedQueryFlags q needs := by
  rw [analyseFrom]
  · rintro rfl
    exact absurd rfl other
  · rintro _ _ rfl
    exact absurd rfl other

theorem noted_bind {noted : Except QueryError QueryNeeds} {needs' : QueryNeeds}
    {rest : QueryNeeds → Except QueryError QueryNeeds} (both : (noted >>= rest) = .ok needs') :
    ∃ mid, noted = .ok mid ∧ rest mid = .ok needs' := by
  cases noted with
  | error e => cases both
  | ok mid => exact ⟨mid, rfl, both⟩

/-- The string behind an accepted percent sign: a key of the table and, where the entry asks
for one, an option. -/
theorem analyseFrom_key {q : List Char} {needs needs' : QueryNeeds}
    (accepted : analyseFrom acceptedQueryFlags ('%' :: q) needs = .ok needs') :
    ∃ entry ∈ acceptedQueryFlags,
      (entry.options = [] ∧ ∃ rest mid, q = entry.flag :: rest ∧
        noteKey acceptedQueryFlags entry '\x00' needs = .ok mid ∧
        analyseFrom acceptedQueryFlags rest mid = .ok needs') ∨
      (entry.options ≠ [] ∧ ∃ opt ∈ entry.options, ∃ rest mid, q = entry.flag :: opt :: rest ∧
        noteKey acceptedQueryFlags entry opt needs = .ok mid ∧
        analyseFrom acceptedQueryFlags rest mid = .ok needs') := by
  cases q with
  | nil => cases accepted
  | cons key q =>
      rw [analyseFrom] at accepted
      split at accepted
      · cases accepted
      · rename_i entry found
        have isKey : entry.flag = key := by simpa using List.find?_some found
        refine ⟨entry, List.mem_of_find?_eq_some found, ?_⟩
        subst isKey
        split at accepted
        · rename_i alone
          obtain ⟨mid, noted, later⟩ := noted_bind accepted
          exact .inl ⟨alone, q, mid, rfl, noted, later⟩
        · rename_i several
          cases q with
          | nil => cases accepted
          | cons opt q =>
              simp only at accepted
              split at accepted
              · rename_i member
                obtain ⟨mid, noted, later⟩ := noted_bind accepted
                exact .inr ⟨several, opt, member, q, mid, rfl, noted, later⟩
              · cases accepted

theorem analyseFrom_extends {q : List Char} {needs needs' : QueryNeeds}
    (accepted : analyseFrom acceptedQueryFlags q needs = .ok needs') : needs'.Extends needs := by
  induction length : q.length using Nat.strong_induction_on generalizing q needs with
  | _ n ih =>
      cases q with
      | nil =>
          cases accepted
          exact .refl _
      | cons c q =>
          by_cases percent : c = '%'
          · subst percent
            obtain ⟨entry, _, ⟨_, rest, mid, rfl, noted, later⟩ |
              ⟨_, opt, _, rest, mid, rfl, noted, later⟩⟩ := analyseFrom_key accepted
            all_goals
              have further := ih rest.length (by simp at length; omega) later rfl
              exact further.trans (noteKey_extends noted)
          · rw [analyseFrom_other percent] at accepted
            exact ih q.length (by simp at length; omega) accepted rfl

/-- A key and its option are plain characters for the checker, so it may as well go on
directly behind the percent sign. -/
theorem analyseFrom_behind {q : List Char} {needs needs' : QueryNeeds}
    (accepted : analyseFrom acceptedQueryFlags ('%' :: q) needs = .ok needs') :
    ∃ mid, analyseFrom acceptedQueryFlags q mid = .ok needs' := by
  obtain ⟨entry, member, ⟨_, rest, mid, rfl, _, later⟩ |
    ⟨several, opt, isOption, rest, mid, rfl, _, later⟩⟩ := analyseFrom_key accepted
  · have plain := (acceptedQueryFlags_agree entry member).2.1
    exact ⟨mid, by rwa [analyseFrom_other plain]⟩
  · obtain ⟨_, plain, agree⟩ := acceptedQueryFlags_agree entry member
    rw [if_neg several] at agree
    have plainOption := (agree.2 opt isOption).2.1
    exact ⟨mid, by rwa [analyseFrom_other plain, analyseFrom_other plainOption]⟩

/-- The printer stays inside the string and uses what the checker noted. -/
def FormatSafe (qstr : List Char) (needs : QueryNeeds) : Prop :=
  ∃ pieces, formatStr qstr = some pieces ∧ ∀ piece ∈ pieces, needs.Covers piece

/-- What becomes of the printer on an accepted string. -/
structure InStep (q : List Char) (needs : QueryNeeds) : Prop where
  inside : trailingBackslashes q % 2 = 0 → FormatSafe q needs
  behind : trailingBackslashes q % 2 ≠ 0 → formatStr q = none

theorem InStep.prepend {q q' : List Char} {needs : QueryNeeds} {pieces : List QueryPiece}
    (step : formatStr q' = (formatStr q).map (pieces ++ ·))
    (parity : trailingBackslashes q' % 2 = trailingBackslashes q % 2)
    (covered : ∀ piece ∈ pieces, needs.Covers piece) (rest : InStep q needs) :
    InStep q' needs where
  inside even := by
    obtain ⟨later, printed, known⟩ := rest.inside (parity ▸ even)
    refine ⟨pieces ++ later, by rw [step, printed]; rfl, fun piece member => ?_⟩
    rcases List.mem_append.mp member with here | there
    · exact covered piece here
    · exact known piece there
  behind odd := by rw [step, rest.behind (parity ▸ odd)]; rfl

theorem covers_putc (needs : QueryNeeds) (c : Char) : needs.Covers (.putc c) :=
  ⟨Nat.zero_or _, fun isData => by cases isData⟩

theorem covers_formatEscape (needs : QueryNeeds) (c : Char) :
    ∀ piece ∈ formatEscape c, needs.Covers piece := by
  intro piece member
  unfold formatEscape at member
  split at member <;> simp only [List.mem_singleton, List.not_mem_nil] at member
  all_goals rw [member]; exact covers_putc needs _

theorem formatStr_key {key : Char} (alone : ¬takesOption key = true) (q : List Char) :
    formatStr ('%' :: key :: q) = (formatStr q).map (formatKey key ++ ·) := by
  conv_lhs => unfold formatStr
  exact if_neg alone

/-- Induction along the printer, which takes two characters at an escape and the key with its
option at a percent sign. -/
theorem inStep_of_accepted {q : List Char} {needs needs' : QueryNeeds}
    (accepted : analyseFrom acceptedQueryFlags q needs = .ok needs') : InStep q needs' := by
  fun_induction formatStr q generalizing needs with
  | case1 => exact ⟨fun _ => ⟨[], rfl, by simp⟩, fun odd => absurd rfl odd⟩
  | case2 => cases accepted
  | case3 key takes =>
      obtain ⟨entry, member, ⟨alone, rest, mid, same, _⟩ | ⟨_, opt, _, rest, mid, same, _⟩⟩ :=
        analyseFrom_key accepted
      · obtain ⟨rfl, -⟩ := List.cons.inj same
        have agree := (acceptedQueryFlags_agree entry member).2.2
        rw [if_pos alone] at agree
        exact absurd takes (by rw [agree.1]; exact Bool.noConfusion)
      · cases same
  | case4 key takes opt q ih =>
      obtain ⟨entry, member, ⟨alone, rest, mid, same, _⟩ |
        ⟨several, opt, isOption, rest, mid, same, noted, later⟩⟩ := analyseFrom_key accepted
      · obtain ⟨rfl, -⟩ := List.cons.inj same
        have agree := (acceptedQueryFlags_agree entry member).2.2
        rw [if_pos alone] at agree
        exact absurd takes (by rw [agree.1]; exact Bool.noConfusion)
      · cases same
        obtain ⟨plain, _, agree⟩ := acceptedQueryFlags_agree entry member
        rw [if_neg several] at agree
        obtain ⟨plainOption, _, offered⟩ := agree.2 opt isOption
        refine InStep.prepend (by rw [formatStr, if_pos takes]) ?_ (fun piece printed => ?_)
          (ih later)
        · rw [trailingBackslashes_other (by decide), trailingBackslashes_other plain,
            trailingBackslashes_other plainOption]
        · exact (keyCovers_covers noted (List.all_eq_true.mp offered piece printed)).extends
            (analyseFrom_extends later)
  | case5 key q alone ih =>
      obtain ⟨entry, member, ⟨single, rest, mid, same, noted, later⟩ |
        ⟨several, opt, _, rest, mid, same, _⟩⟩ := analyseFrom_key accepted
      · cases same
        obtain ⟨plain, _, agree⟩ := acceptedQueryFlags_agree entry member
        rw [if_pos single] at agree
        refine InStep.prepend (formatStr_key alone q) ?_ (fun piece printed => ?_) (ih later)
        · rw [trailingBackslashes_other (by decide), trailingBackslashes_other plain]
        · exact (keyCovers_covers noted (List.all_eq_true.mp agree.2 piece printed)).extends
            (analyseFrom_extends later)
      · obtain ⟨rfl, -⟩ := List.cons.inj same
        have agree := (acceptedQueryFlags_agree entry member).2.2
        rw [if_neg several] at agree
        exact absurd agree.1 alone
  | case6 => exact ⟨fun even => absurd even (by decide), fun _ => rfl⟩
  | case7 c q ih =>
      rw [analyseFrom_other (by decide)] at accepted
      obtain ⟨mid, later⟩ : ∃ mid, analyseFrom acceptedQueryFlags q mid = .ok needs' := by
        by_cases percent : c = '%'
        · rw [percent] at accepted
          exact analyseFrom_behind accepted
        · exact ⟨needs, by rwa [analyseFrom_other percent] at accepted⟩
      exact InStep.prepend (by rw [formatStr]) (trailingBackslashes_escape c q)
        (covers_formatEscape needs' c) (ih later)
  | case8 c q noEnd noKey noBackslash noEscape ih =>
      have plain : c ≠ '%' := by
        intro percent
        cases q with
        | nil => exact noEnd percent rfl
        | cons key rest => exact noKey key rest percent rfl
      have unescaped : c ≠ '\\' := by
        intro backslash
        cases q with
        | nil => exact noBackslash backslash rfl
        | cons next rest => exact noEscape next rest backslash rfl
      rw [analyseFrom_other plain] at accepted
      have step : formatStr (c :: q) = (formatStr q).map ([.putc c] ++ ·) := by
        rw [formatStr]
        · rfl
        all_goals assumption
      refine InStep.prepend step (by rw [trailingBackslashes_other unescaped]) ?_ (ih accepted)
      intro piece member
      rw [List.mem_singleton] at member
      rw [member]
      exact covers_putc needs' c

/-- An accepted query string is printed safely exactly if its last backslashes are pairs. -/
theorem formatSafe_iff {qstr : List Char} {needs needs' : QueryNeeds}
    (accepted : analyseQueryString qstr acceptedQueryFlags needs = .ok needs') :
    FormatSafe qstr needs' ↔ trailingBackslashes qstr % 2 = 0 := by
  unfold analyseQueryString at accepted
  split at accepted
  · cases accepted
  · have together := inStep_of_accepted accepted
    constructor
    · rintro ⟨pieces, printed, -⟩
      by_contra odd
      rw [together.behind odd] at printed
      cases printed
    · exact together.inside

theorem nameAndTab_formatSafe :
    FormatSafe "%dn\\t%dv\\\\".toList ⟨1, 'd'⟩ ↔
      trailingBackslashes "%dn\\t%dv\\\\".toList % 2 = 0 :=
  formatSafe_iff (show analyseQueryString _ acceptedQueryFlags ⟨0, '\x00'⟩ = _ by decide +kernel)

/-- The backslash at the end is accepted. -/
theorem lastBackslash_not_safe :
    ∃ needs, analyseQueryString "%n\\".toList acceptedQueryFlags ⟨0, '\x00'⟩ = .ok needs ∧
      ¬ FormatSafe "%n\\".toList needs := by
  refine ⟨⟨0, '\x00'⟩, by decide +kernel, ?_⟩
  rintro ⟨pieces, printed, -⟩
  cases printed

end Pkgng
