import Mathlib.Data.List.Infix
import Pkgng.Query.Evaluation

/-!
# The grammar of evaluation strings

Comparisons with brackets in front and behind, joined by `&&` and `||`.  The states of
`format_sql_condition` accept exactly these, and what they write is read off the expression.
-/

set_option autoImplicit false

namespace Pkgng

open Lib

/-- A column, or a list as a truth value or as a number. -/
inductive EvalKey
  | column (letter : Char)
  | nonEmpty (letter : Char)
  | count (letter : Char)
deriving DecidableEq, Repr

namespace EvalKey

def spelling : EvalKey → List Char
  | column letter => ['%', letter]
  | nonEmpty letter => ['%', '?', letter]
  | count letter => ['%', '#', letter]

def isString : EvalKey → Bool
  | column letter => (evalColumn letter).any EvalColumn.isString
  | _ => false

/-- The database has the column or the list. -/
def known (forRemote : Bool) : EvalKey → Bool
  | column letter => (evalColumn letter).any fun column => !(column.localOnly && forRemote)
  | nonEmpty letter => (evalList letter).any fun list => !(list.localOnly && forRemote)
  | count letter => (evalList letter).any fun list => !(list.localOnly && forRemote)

/-- What is written for the key. -/
def written : EvalKey → List Char
  | column letter => (evalColumn letter).elim [] EvalColumn.sql
  | nonEmpty letter =>
      selectList "COUNT(*) > 0".toList ((evalList letter).elim [] EvalList.rows)
  | count letter =>
      selectList "COUNT(*) > 0".toList ((evalList letter).elim [] EvalList.rows)

end EvalKey

inductive EvalOp
  | glob
  | gt
  | lt
  | ge
  | le
  | eq
  | eqeq
  | ne
deriving DecidableEq, Repr

namespace EvalOp

def spelling : EvalOp → List Char
  | glob => ['~']
  | gt => ['>']
  | lt => ['<']
  | ge => ['>', '=']
  | le => ['<', '=']
  | eq => ['=']
  | eqeq => ['=', '=']
  | ne => ['!', '=']

def sql : EvalOp → List Char
  | glob => " GLOB ".toList
  | op => op.spelling

/-- The operator compares values of the type. -/
def allows (isString : Bool) : EvalOp → Bool
  | glob => isString
  | eq => true
  | eqeq => true
  | ne => true
  | _ => !isString

/-- No longer operator stands there. -/
def Longest (op : EvalOp) (later : List Char) : Prop :=
  op = gt ∨ op = lt ∨ op = eq → later.head? ≠ some '='

end EvalOp

/-- A literal with the text that the user means. -/
inductive EvalLiteral
  | quoted (text : List Char)
  | squoted (text : List Char)
  | plain (text : List Char)
  | digits (text : List Char)
deriving DecidableEq, Repr

namespace EvalLiteral

def spelling : EvalLiteral → List Char
  | quoted text => ['"'] ++ text ++ ['"']
  | squoted text => ['\''] ++ text ++ ['\'']
  | plain text => text
  | digits text => text

/-- The literal is one of the type. -/
def Valid (isString : Bool) : EvalLiteral → Prop
  | quoted text => isString = true ∧ '"' ∉ text
  | squoted text => isString = true ∧ '\'' ∉ text
  | plain text =>
      isString = true ∧ text ≠ [] ∧ (∀ c ∈ text, isspace c = false) ∧
        text.head? ≠ some '"' ∧ text.head? ≠ some '\''
  | digits text => isString = false ∧ text ≠ [] ∧ ∀ c ∈ text, c.isDigit = true

def stringSql (forRemote : Bool) (text : List Char) : List Char :=
  ['\''] ++ text.flatMap (evalEscape forRemote) ++ ['\'']

def sql (forRemote : Bool) : EvalLiteral → List Char
  | quoted text => stringSql forRemote text
  | squoted text => stringSql forRemote text
  | plain text => stringSql forRemote text
  | digits text => text

/-- A string without quotes goes on to a space, which is left out, or to the end; a number goes
on as long as there are digits. -/
def StopFits (stop : Option Char) (later : List Char) : EvalLiteral → Prop
  | plain _ => stop.all isspace = true ∧ (stop = none → later = [])
  | digits _ => stop = none ∧ ∀ c, later.head? = some c → c.isDigit = false
  | _ => stop = none

end EvalLiteral

/-- Blanks, and so many brackets of the kind. -/
inductive Brackets (bracket : Char) : Nat → List Char → Prop
  | nil : Brackets bracket 0 []
  | blank {c : Char} {n : Nat} {s : List Char} (isBlank : c = ' ' ∨ c = '\t')
      (later : Brackets bracket n s) : Brackets bracket n (c :: s)
  | bracket {n : Nat} {s : List Char} (later : Brackets bracket n s) :
      Brackets bracket (n + 1) (bracket :: s)

/-- A comparison with its brackets. -/
structure EvalOperand where
  opens : Nat
  key : EvalKey
  op : EvalOp
  literal : EvalLiteral
  closes : Nat
deriving DecidableEq, Repr

namespace EvalOperand

/-- How an operand stands in a string in front of `later`. -/
structure Spelled (forRemote : Bool) (operand : EvalOperand) (s later : List Char) : Prop where
  parts : ∃ lead blank blank' stop trail,
    s = lead ++ operand.key.spelling ++ blank ++ operand.op.spelling ++ blank' ++
      operand.literal.spelling ++ stop.toList ++ trail ++ later ∧
    Brackets '(' operand.opens lead ∧
    (∀ c ∈ blank, isspace c = true) ∧
    operand.op.Longest (blank' ++ operand.literal.spelling) ∧
    (∀ c ∈ blank', isspace c = true) ∧
    operand.literal.StopFits stop (trail ++ later) ∧
    Brackets ')' operand.closes trail
  known : operand.key.known forRemote = true
  allowed : operand.op.allows operand.key.isString = true
  valid : operand.literal.Valid operand.key.isString

/-- The operand in SQL, with a text for its key. -/
def text (forRemote : Bool) (keyText : EvalKey → List Char) (operand : EvalOperand) : List Char :=
  List.replicate operand.opens '(' ++ keyText operand.key ++ operand.op.sql ++
    operand.literal.sql forRemote ++ List.replicate operand.closes ')'

end EvalOperand

inductive EvalJoiner
  | or
  | and
deriving DecidableEq, Repr

namespace EvalJoiner

def spelling : EvalJoiner → List Char
  | or => ['|', '|']
  | and => ['&', '&']

def sql : EvalJoiner → List Char
  | or => " OR ".toList
  | and => " AND ".toList

end EvalJoiner

inductive EvalExpr
  | operand (operand : EvalOperand)
  | join (operand : EvalOperand) (joiner : EvalJoiner) (rest : EvalExpr)
deriving DecidableEq, Repr

namespace EvalExpr

/-- The expression is what the string says. -/
def Spelled (forRemote : Bool) : EvalExpr → List Char → Prop
  | operand o, s => o.Spelled forRemote s []
  | join o joiner rest, s =>
      ∃ later, o.Spelled forRemote s (joiner.spelling ++ later) ∧ rest.Spelled forRemote later

/-- The brackets are balanced where so many are open before. -/
def Balanced : Nat → EvalExpr → Prop
  | level, operand o => level + o.opens = o.closes
  | level, join o _ rest =>
      o.closes ≤ level + o.opens ∧ Balanced (level + o.opens - o.closes) rest

def text (forRemote : Bool) (keyText : EvalKey → List Char) : EvalExpr → List Char
  | operand o => o.text forRemote keyText
  | join o joiner rest => o.text forRemote keyText ++ joiner.sql ++ rest.text forRemote keyText

end EvalExpr

/-! ## One part after the other -/

/-- What the loop and the lines behind it make of the rest of a string. -/
def evalFrom (forRemote : Bool) (m : EvalMachine) (s : List Char) : Option (List Char) :=
  (evalLoop forRemote m s).bind evalEnd

section Parts

variable {forRemote : Bool} {level : Nat} {sqlcond s result : List Char}

theorem evalFrom_nil (m : EvalMachine) : evalFrom forRemote m [] = evalEnd m := by
  rw [evalFrom, evalLoop, Option.bind_some]

theorem evalFrom_cons (m : EvalMachine) (c : Char) (s : List Char) :
    evalFrom forRemote m (c :: s) =
      (evalStep forRemote m c s).bind fun after => evalFrom forRemote after.1 after.2 := by
  rw [evalFrom, evalLoop]
  split
  · next failed => rw [failed]; rfl
  · next after turns => rw [turns]; rfl

/-- What stands in front of the first character that is none of the kind. -/
theorem exists_span (kind : Char → Bool) (s : List Char) :
    ∃ front later, s = front ++ later ∧ (∀ c ∈ front, kind c = true) ∧
      ∀ c, later.head? = some c → kind c = false := by
  induction s with
  | nil => exact ⟨[], [], rfl, fun _ => List.not_mem_nil.elim, nofun⟩
  | cons c s ih =>
      cases isKind : kind c with
      | false =>
          refine ⟨[], c :: s, rfl, fun _ => List.not_mem_nil.elim, fun d first => ?_⟩
          cases first
          exact isKind
      | true =>
          obtain ⟨front, later, rfl, all, first⟩ := ih
          exact ⟨c :: front, later, rfl, List.forall_mem_cons.mpr ⟨isKind, all⟩, first⟩

/-! ### Brackets and a key -/

theorem evalFrom_lead {n : Nat} {lead : List Char} (brackets : Brackets '(' n lead) :
    evalFrom forRemote ⟨.none, level, sqlcond⟩ (lead ++ s) =
      evalFrom forRemote ⟨.none, level + n, sqlcond ++ List.replicate n '('⟩ s := by
  induction brackets generalizing level sqlcond with
  | nil => rw [List.replicate_zero, List.append_nil]; rfl
  | @blank c n lead isBlank later ih =>
      have turn : evalStep forRemote ⟨.none, level, sqlcond⟩ c (lead ++ s) =
          some (⟨.none, level, sqlcond⟩, lead ++ s) := by
        rcases isBlank with rfl | rfl <;> rfl
      rw [List.cons_append, evalFrom_cons, turn, Option.bind_some, ih]
  | @bracket n lead later ih =>
      have turn : evalStep forRemote ⟨.none, level, sqlcond⟩ '(' (lead ++ s) =
          some (⟨.none, level + 1, sqlcond ++ ['(']⟩, lead ++ s) := rfl
      rw [List.cons_append, evalFrom_cons, turn, Option.bind_some, ih, List.replicate_succ,
        List.append_assoc, Nat.add_right_comm]
      rfl

/-- An accepted string has a key behind brackets and blanks. -/
theorem lead_of_accepted
    (accepted : evalFrom forRemote ⟨.none, level, sqlcond⟩ s = some result) :
    ∃ lead n later, Brackets '(' n lead ∧ s = lead ++ '%' :: later := by
  induction s generalizing level sqlcond with
  | nil =>
      rw [evalFrom_nil] at accepted
      cases accepted
  | cons c s ih =>
      rw [evalFrom_cons] at accepted
      obtain ⟨after, turn, accepted⟩ := Option.bind_eq_some_iff.mp accepted
      simp only [evalStep, evalNone] at turn
      split at turn
      · next percent => exact ⟨[], 0, s, .nil, by rw [percent]; rfl⟩
      · split at turn
        · next opening =>
            cases turn
            obtain ⟨lead, n, later, brackets, rfl⟩ := ih accepted
            exact ⟨c :: lead, n + 1, later, by rw [opening]; exact .bracket brackets, rfl⟩
        · split at turn
          · next isBlank =>
              cases turn
              obtain ⟨lead, n, later, brackets, rfl⟩ := ih accepted
              exact ⟨c :: lead, n, later, .blank isBlank brackets, rfl⟩
          · cases turn

theorem evalKey_spelling {key : EvalKey} (known : key.known forRemote = true)
    (later : List Char) :
    ∃ str, key.spelling ++ later = '%' :: str ∧
      evalKey forRemote str = some (key.written, .operator key.isString, later) := by
  cases key with
  | column letter =>
      refine ⟨letter :: later, rfl, ?_⟩
      obtain ⟨column, found, has⟩ := (Option.any_eq_true _ _).mp known
      have noSign : ¬(letter = '#' ∨ letter = '?') := by
        rintro (rfl | rfl) <;> cases found
      rw [Bool.not_eq_true'] at has
      unfold evalKey
      dsimp only
      rw [if_neg noSign, EvalKey.written, EvalKey.isString, found, Option.bind_some, has]
      rfl
  | nonEmpty letter =>
      refine ⟨'?' :: letter :: later, rfl, ?_⟩
      obtain ⟨list, found, has⟩ := (Option.any_eq_true _ _).mp known
      have noSign : letter ≠ '#' := by
        rintro rfl
        cases found
      rw [Bool.not_eq_true'] at has
      rw [evalKey, if_pos (Or.inr rfl), EvalKey.written, found]
      dsimp only
      rw [Option.bind_some, has, if_neg noSign]
      rfl
  | count letter =>
      refine ⟨'#' :: letter :: later, rfl, ?_⟩
      obtain ⟨list, found, has⟩ := (Option.any_eq_true _ _).mp known
      have noSign : letter ≠ '#' := by
        rintro rfl
        cases found
      rw [Bool.not_eq_true'] at has
      rw [evalKey, if_pos (Or.inl rfl), EvalKey.written, found]
      dsimp only
      rw [Option.bind_some, has, if_neg noSign]
      rfl

theorem evalFrom_key {key : EvalKey} (known : key.known forRemote = true) :
    evalFrom forRemote ⟨.none, level, sqlcond⟩ (key.spelling ++ s) =
      evalFrom forRemote ⟨.operator key.isString, level, sqlcond ++ key.written⟩ s := by
  obtain ⟨str, spelled, read⟩ := evalKey_spelling known s
  have turn : evalStep forRemote ⟨.none, level, sqlcond⟩ '%' str =
      some (⟨.operator key.isString, level, sqlcond ++ key.written⟩, s) := by
    simp only [evalStep, evalNone, if_true, read, Option.map_some, EvalMachine.put]
  rw [spelled, evalFrom_cons, turn, Option.bind_some]

theorem key_of_evalKey {read : List Char × EvalState × List Char}
    (known : evalKey forRemote s = some read) :
    ∃ key : EvalKey, key.known forRemote = true ∧ '%' :: s = key.spelling ++ read.2.2 := by
  unfold evalKey at known
  split at known
  · cases known
  · next c str =>
      split at known
      · next sign =>
          split at known
          · cases known
          · next x str =>
              obtain ⟨list, found, known⟩ := Option.bind_eq_some_iff.mp known
              split at known
              · cases known
              · next has =>
                  cases known
                  have isKnown : (!(list.localOnly && forRemote)) = true := by
                    rw [Bool.not_eq_true', ← Bool.not_eq_true]
                    exact has
                  rcases sign with rfl | rfl
                  · exact ⟨.count x, (Option.any_eq_true _ _).mpr ⟨list, found, isKnown⟩, rfl⟩
                  · exact ⟨.nonEmpty x, (Option.any_eq_true _ _).mpr ⟨list, found, isKnown⟩, rfl⟩
      · obtain ⟨column, found, known⟩ := Option.bind_eq_some_iff.mp known
        split at known
        · cases known
        · next has =>
            cases known
            have isKnown : (!(column.localOnly && forRemote)) = true := by
              rw [Bool.not_eq_true', ← Bool.not_eq_true]
              exact has
            exact ⟨.column c, (Option.any_eq_true _ _).mpr ⟨column, found, isKnown⟩, rfl⟩

theorem key_of_accepted
    (accepted : evalFrom forRemote ⟨.none, level, sqlcond⟩ ('%' :: s) = some result) :
    ∃ (key : EvalKey) (later : List Char), key.known forRemote = true ∧
      '%' :: s = key.spelling ++ later := by
  rw [evalFrom_cons] at accepted
  obtain ⟨after, turn, _⟩ := Option.bind_eq_some_iff.mp accepted
  simp only [evalStep, evalNone, if_true] at turn
  obtain ⟨read, known, rfl⟩ := Option.map_eq_some_iff.mp turn
  obtain ⟨key, isKnown, spelled⟩ := key_of_evalKey known
  exact ⟨key, read.2.2, isKnown, spelled⟩

/-! ### An operator -/

theorem evalStep_operator (isString : Bool) (c : Char) (str : List Char) :
    evalStep forRemote ⟨.operator isString, level, sqlcond⟩ c str =
      evalOperator isString ⟨.operator isString, level, sqlcond⟩ c str := by
  cases isString <;> rfl

theorem evalFrom_operator_blank {isString : Bool} {blank : List Char}
    (blanks : ∀ c ∈ blank, isspace c = true) :
    evalFrom forRemote ⟨.operator isString, level, sqlcond⟩ (blank ++ s) =
      evalFrom forRemote ⟨.operator isString, level, sqlcond⟩ s := by
  induction blank with
  | nil => rfl
  | cons c blank ih =>
      obtain ⟨here, later⟩ := List.forall_mem_cons.mp blanks
      rw [List.cons_append, evalFrom_cons, evalStep_operator, evalOperator, if_pos here,
        Option.bind_some, ih later]

/-- The turn of an operator. -/
theorem evalOperator_spelling {isString : Bool} {op : EvalOp} (m : EvalMachine)
    (allowed : op.allows isString = true) {later : List Char} (longest : op.Longest later) :
    ∃ c str, op.spelling ++ later = c :: str ∧
      evalOperator isString m c str = some (m.put op.sql (.next isString), later) := by
  have single (first : op = .gt ∨ op = .lt ∨ op = .eq) (text : List Char) (state : EvalState) :
      (m.put text state).equals later = (m.put text state, later) := by
    rw [EvalMachine.equals, if_neg (longest first)]
  have double (text : List Char) (state : EvalState) :
      (m.put text state).equals ('=' :: later) = (m.put (text ++ ['=']) state, later) := by
    rw [EvalMachine.equals, List.head?_cons, if_pos rfl, EvalMachine.put, EvalMachine.put,
      EvalMachine.put, List.append_assoc]
    rfl
  cases op with
  | glob =>
      cases allowed
      exact ⟨_, _, rfl, rfl⟩
  | gt =>
      cases isString with
      | true => cases allowed
      | false => exact ⟨_, _, rfl, congrArg some (single (Or.inl rfl) _ _)⟩
  | lt =>
      cases isString with
      | true => cases allowed
      | false => exact ⟨_, _, rfl, congrArg some (single (Or.inr (Or.inl rfl)) _ _)⟩
  | ge =>
      cases isString with
      | true => cases allowed
      | false => exact ⟨_, _, rfl, congrArg some (double _ _)⟩
  | le =>
      cases isString with
      | true => cases allowed
      | false => exact ⟨_, _, rfl, congrArg some (double _ _)⟩
  | eq => exact ⟨_, _, rfl, congrArg some (single (Or.inr (Or.inr rfl)) _ _)⟩
  | eqeq => exact ⟨_, _, rfl, congrArg some (double _ _)⟩
  | ne => exact ⟨_, _, rfl, rfl⟩

theorem evalFrom_op {isString : Bool} {op : EvalOp} (allowed : op.allows isString = true)
    (longest : op.Longest s) :
    evalFrom forRemote ⟨.operator isString, level, sqlcond⟩ (op.spelling ++ s) =
      evalFrom forRemote ⟨.next isString, level, sqlcond ++ op.sql⟩ s := by
  obtain ⟨c, str, spelled, turn⟩ :=
    evalOperator_spelling ⟨.operator isString, level, sqlcond⟩ allowed longest
  rw [spelled, evalFrom_cons, evalStep_operator, turn, Option.bind_some]
  rfl

/-- An operator of one or two characters. -/
theorem exists_longest {single double : EvalOp} {c : Char} (first : single.spelling = [c])
    (second : double.spelling = [c, '=']) (alone : ∀ later, double.Longest later)
    (str : List Char) :
    ∃ op later, (op = single ∨ op = double) ∧ op.Longest later ∧
      c :: str = op.spelling ++ later := by
  by_cases equals : str.head? = some '='
  · obtain ⟨later, rfl⟩ : ∃ later, str = '=' :: later := by
      cases str with
      | nil => cases equals
      | cons d later =>
          cases equals
          exact ⟨later, rfl⟩
    exact ⟨double, later, Or.inr rfl, alone later, by rw [second]; rfl⟩
  · exact ⟨single, str, Or.inl rfl, fun _ => equals, by rw [first]; rfl⟩

theorem op_of_evalOperator {isString : Bool} {m : EvalMachine} {c : Char} {str : List Char}
    {after : EvalMachine × List Char} (solid : isspace c = false)
    (turn : evalOperator isString m c str = some after) :
    ∃ (op : EvalOp) (later : List Char), op.allows isString = true ∧ op.Longest later ∧
      c :: str = op.spelling ++ later := by
  unfold evalOperator at turn
  rw [if_neg (by rw [solid]; exact Bool.false_ne_true)] at turn
  split at turn
  · next tilde =>
      split at turn
      · next string => exact ⟨.glob, str, string, nofun, by rw [tilde]; rfl⟩
      · cases turn
  · split at turn
    · next angle =>
        split at turn
        · cases turn
        · next notString =>
            have int : (!isString) = true := by simpa using notString
            rcases angle with rfl | rfl
            · obtain ⟨op, later, which, longest, spelled⟩ :=
                @exists_longest .gt .ge '>' rfl rfl (fun _ => nofun) str
              exact ⟨op, later, by rcases which with rfl | rfl <;> exact int, longest, spelled⟩
            · obtain ⟨op, later, which, longest, spelled⟩ :=
                @exists_longest .lt .le '<' rfl rfl (fun _ => nofun) str
              exact ⟨op, later, by rcases which with rfl | rfl <;> exact int, longest, spelled⟩
    · split at turn
      · next equals =>
          obtain ⟨op, later, which, longest, spelled⟩ :=
            @exists_longest .eq .eqeq '=' rfl rfl (fun _ => nofun) str
          exact ⟨op, later, by rcases which with rfl | rfl <;> rfl, longest, equals ▸ spelled⟩
      · split at turn
        · next bang =>
            split at turn
            · next equals =>
                cases str with
                | nil => cases equals
                | cons d later =>
                    cases equals
                    exact ⟨.ne, later, rfl, nofun, by rw [bang]; rfl⟩
            · cases turn
        · cases turn

theorem op_of_accepted {isString : Bool}
    (accepted : evalFrom forRemote ⟨.operator isString, level, sqlcond⟩ s = some result) :
    ∃ (blank : List Char) (op : EvalOp) (later : List Char),
      (∀ c ∈ blank, isspace c = true) ∧ op.allows isString = true ∧ op.Longest later ∧
        s = blank ++ (op.spelling ++ later) := by
  obtain ⟨blank, rest, rfl, blanks, first⟩ := exists_span isspace s
  rw [evalFrom_operator_blank blanks] at accepted
  cases rest with
  | nil =>
      rw [evalFrom_nil] at accepted
      cases isString <;> cases accepted
  | cons c str =>
      rw [evalFrom_cons, evalStep_operator] at accepted
      obtain ⟨after, turn, _⟩ := Option.bind_eq_some_iff.mp accepted
      obtain ⟨op, later, allowed, longest, spelled⟩ := op_of_evalOperator (first c rfl) turn
      exact ⟨blank, op, later, blanks, allowed, longest, by rw [spelled]⟩

/-! ### A literal -/

theorem evalStep_next (isString : Bool) (c : Char) (str : List Char) :
    evalStep forRemote ⟨.next isString, level, sqlcond⟩ c str =
      evalNext isString ⟨.next isString, level, sqlcond⟩ c str := by
  cases isString <;> rfl

theorem evalFrom_next_blank {isString : Bool} {blank : List Char}
    (blanks : ∀ c ∈ blank, isspace c = true) :
    evalFrom forRemote ⟨.next isString, level, sqlcond⟩ (blank ++ s) =
      evalFrom forRemote ⟨.next isString, level, sqlcond⟩ s := by
  induction blank with
  | nil => rfl
  | cons c blank ih =>
      obtain ⟨here, later⟩ := List.forall_mem_cons.mp blanks
      rw [List.cons_append, evalFrom_cons, evalStep_next, evalNext, if_pos here,
        Option.bind_some, ih later]

/-- The states of strings, each with the test for its end. -/
def EvalState.ends : EvalState → Char → Option Bool
  | .string, c => some (isspace c)
  | .quotedString, c => some (c == '"')
  | .squotedString, c => some (c == '\'')
  | _, _ => Option.none

theorem evalStep_string {state : EvalState} {c : Char} {ends : Bool}
    (string : state.ends c = some ends) (str : List Char) :
    evalStep forRemote ⟨state, level, sqlcond⟩ c str =
      some (evalString forRemote ends ⟨state, level, sqlcond⟩ c str) := by
  cases state <;> cases string <;> rfl

/-- The characters of a string are copied. -/
theorem evalFrom_string {state : EvalState} {text : List Char}
    (goesOn : ∀ c ∈ text, state.ends c = some false) :
    evalFrom forRemote ⟨state, level, sqlcond⟩ (text ++ s) =
      evalFrom forRemote ⟨state, level, sqlcond ++ text.flatMap (evalEscape forRemote)⟩ s := by
  induction text generalizing sqlcond with
  | nil => rw [List.flatMap_nil, List.append_nil]; rfl
  | cons c text ih =>
      obtain ⟨here, later⟩ := List.forall_mem_cons.mp goesOn
      have turn : evalString forRemote false ⟨state, level, sqlcond⟩ c (text ++ s) =
          (⟨state, level, sqlcond ++ evalEscape forRemote c⟩, text ++ s) := rfl
      rw [List.cons_append, evalFrom_cons, evalStep_string here, turn, Option.bind_some, ih later,
        List.flatMap_cons, List.append_assoc]

theorem evalFrom_string_end {state : EvalState} {c : Char} (ends : state.ends c = some true) :
    evalFrom forRemote ⟨state, level, sqlcond⟩ (c :: s) =
      evalFrom forRemote ⟨.postExpr, level, sqlcond ++ ['\'']⟩ s := by
  rw [evalFrom_cons, evalStep_string ends, Option.bind_some]
  rfl

/-- The end of the string ends a string without quotes. -/
theorem evalFrom_string_stop {stop : Option Char} (space : stop.all isspace = true)
    (last : stop = none → s = []) :
    evalFrom forRemote ⟨.string, level, sqlcond⟩ (stop.toList ++ s) =
      evalFrom forRemote ⟨.postExpr, level, sqlcond ++ ['\'']⟩ s := by
  cases stop with
  | none =>
      rw [last rfl, Option.toList_none, List.append_nil, evalFrom_nil, evalFrom_nil]
      rfl
  | some c => exact evalFrom_string_end (congrArg some space)

theorem evalFrom_int {digits : List Char} (isDigits : ∀ c ∈ digits, c.isDigit = true) :
    evalFrom forRemote ⟨.int, level, sqlcond⟩ (digits ++ s) =
      evalFrom forRemote ⟨.int, level, sqlcond ++ digits⟩ s := by
  induction digits generalizing sqlcond with
  | nil => rw [List.append_nil]; rfl
  | cons c digits ih =>
      obtain ⟨here, later⟩ := List.forall_mem_cons.mp isDigits
      have turn : evalStep forRemote ⟨.int, level, sqlcond⟩ c (digits ++ s) =
          some (⟨.int, level, sqlcond ++ [c]⟩, digits ++ s) := by
        rw [evalStep, evalInt, if_pos here]
        rfl
      rw [List.cons_append, evalFrom_cons, turn, Option.bind_some, ih later, List.append_assoc]
      rfl

theorem evalFrom_int_end (noDigit : ∀ c, s.head? = some c → c.isDigit = false) :
    evalFrom forRemote ⟨.int, level, sqlcond⟩ s =
      evalFrom forRemote ⟨.postExpr, level, sqlcond⟩ s := by
  cases s with
  | nil =>
      rw [evalFrom_nil, evalFrom_nil]
      rfl
  | cons c s =>
      have turn : evalStep forRemote ⟨.int, level, sqlcond⟩ c s =
          some (⟨.postExpr, level, sqlcond⟩, c :: s) := by
        rw [evalStep, evalInt, if_neg (by rw [noDigit c rfl]; exact Bool.false_ne_true),
          EvalMachine.put, List.append_nil]
      rw [evalFrom_cons, turn, Option.bind_some]

theorem not_mem_ends {state : EvalState} {quote : Char} {text : List Char}
    (ends : ∀ c, state.ends c = some (c == quote)) (absent : quote ∉ text) :
    ∀ c ∈ text, state.ends c = some false := by
  intro c member
  rw [ends, Option.some.injEq, beq_eq_false_iff_ne]
  rintro rfl
  exact absent member

/-- A string with its quotes in SQL, of which the first is written already. -/
theorem evalFrom_copied {state : EvalState} {text tail : List Char}
    (goesOn : ∀ c ∈ text, state.ends c = some false)
    (ended : ∀ sqlcond, evalFrom forRemote ⟨state, level, sqlcond⟩ tail =
      evalFrom forRemote ⟨.postExpr, level, sqlcond ++ ['\'']⟩ s) :
    evalFrom forRemote ⟨state, level, sqlcond ++ ['\'']⟩ (text ++ tail) =
      evalFrom forRemote
        ⟨.postExpr, level, sqlcond ++ EvalLiteral.stringSql forRemote text⟩ s := by
  rw [evalFrom_string goesOn, ended, EvalLiteral.stringSql, List.append_assoc, List.append_assoc,
    List.append_assoc]

theorem isspace_of_isDigit {c : Char} (digit : c.isDigit = true) : isspace c = false := by
  rw [← Bool.not_eq_true]
  intro space
  simp only [isspace, Bool.or_eq_true, decide_eq_true_eq] at space
  rcases space with ((((rfl | rfl) | rfl) | rfl) | rfl) | rfl <;> cases digit

theorem evalFrom_literal {isString : Bool} {literal : EvalLiteral} {stop : Option Char}
    (valid : literal.Valid isString) (stopFits : literal.StopFits stop s) :
    evalFrom forRemote ⟨.next isString, level, sqlcond⟩ (literal.spelling ++ stop.toList ++ s) =
      evalFrom forRemote ⟨.postExpr, level, sqlcond ++ literal.sql forRemote⟩ s := by
  cases literal with
  | quoted text =>
      obtain ⟨rfl, absent⟩ := valid
      cases stopFits
      have turn : evalStep forRemote ⟨.next true, level, sqlcond⟩ '"' (text ++ '"' :: s) =
          some (⟨.quotedString, level, sqlcond ++ ['\'']⟩, text ++ '"' :: s) := rfl
      have spelled : (EvalLiteral.quoted text).spelling ++ (none : Option Char).toList ++ s =
          '"' :: (text ++ '"' :: s) := by simp [EvalLiteral.spelling]
      rw [spelled, evalFrom_cons, turn, Option.bind_some]
      exact evalFrom_copied (not_mem_ends (fun _ => rfl) absent) fun _ => evalFrom_string_end rfl
  | squoted text =>
      obtain ⟨rfl, absent⟩ := valid
      cases stopFits
      have turn : evalStep forRemote ⟨.next true, level, sqlcond⟩ '\'' (text ++ '\'' :: s) =
          some (⟨.squotedString, level, sqlcond ++ ['\'']⟩, text ++ '\'' :: s) := rfl
      have spelled : (EvalLiteral.squoted text).spelling ++ (none : Option Char).toList ++ s =
          '\'' :: (text ++ '\'' :: s) := by simp [EvalLiteral.spelling]
      rw [spelled, evalFrom_cons, turn, Option.bind_some]
      exact evalFrom_copied (not_mem_ends (fun _ => rfl) absent) fun _ => evalFrom_string_end rfl
  | plain text =>
      obtain ⟨rfl, nonempty, solid, noQuote, noApostrophe⟩ := valid
      obtain ⟨space, last⟩ := stopFits
      obtain ⟨c, text, rfl⟩ := List.exists_cons_of_ne_nil nonempty
      have turn : evalStep forRemote ⟨.next true, level, sqlcond⟩ c (text ++ (stop.toList ++ s)) =
          some (⟨.string, level, sqlcond ++ ['\'']⟩, c :: text ++ (stop.toList ++ s)) := by
        have here := solid c List.mem_cons_self
        rw [evalStep_next, evalNext, if_neg (by rw [here]; exact Bool.false_ne_true), if_pos rfl,
          if_neg fun same => noQuote (congrArg some same),
          if_neg fun same => noApostrophe (congrArg some same)]
        rfl
      rw [EvalLiteral.spelling, List.append_assoc, List.cons_append, evalFrom_cons, turn,
        Option.bind_some]
      exact evalFrom_copied (fun d member => congrArg some (solid d member))
        fun _ => evalFrom_string_stop space last
  | digits text =>
      obtain ⟨rfl, nonempty, isDigits⟩ := valid
      obtain ⟨rfl, noDigit⟩ := stopFits
      obtain ⟨c, text, rfl⟩ := List.exists_cons_of_ne_nil nonempty
      obtain ⟨here, later⟩ := List.forall_mem_cons.mp isDigits
      have turn : evalStep forRemote ⟨.next false, level, sqlcond⟩ c (text ++ s) =
          some (⟨.int, level, sqlcond ++ [c]⟩, text ++ s) := by
        rw [evalStep_next, evalNext,
          if_neg (by rw [isspace_of_isDigit here]; exact Bool.false_ne_true),
          if_neg Bool.false_ne_true, if_pos here]
        rfl
      have spelled : (EvalLiteral.digits (c :: text)).spelling ++ (none : Option Char).toList ++ s =
          c :: (text ++ s) := by simp [EvalLiteral.spelling]
      rw [spelled, evalFrom_cons, turn, Option.bind_some, evalFrom_int later,
        evalFrom_int_end noDigit, List.append_assoc]
      rfl

/-- A string in quotes that is not ended is refused. -/
theorem quote_of_accepted {state : EvalState} {quote : Char}
    (ends : ∀ c, state.ends c = some (c == quote)) (open_ : state ≠ .string)
    (accepted : evalFrom forRemote ⟨state, level, sqlcond⟩ s = some result) :
    ∃ text later, quote ∉ text ∧ s = text ++ quote :: later := by
  obtain ⟨text, rest, rfl, kinds, first⟩ := exists_span (fun c => c != quote) s
  have absent : quote ∉ text := fun member => by simpa using kinds quote member
  cases rest with
  | cons c later =>
      have isQuote : c = quote := by simpa using first c rfl
      exact ⟨text, later, absent, by rw [isQuote]⟩
  | nil =>
      rw [evalFrom_string (not_mem_ends ends absent), evalFrom_nil] at accepted
      cases state <;> first | exact absurd rfl open_ | cases accepted | cases ends quote

theorem plain_of_solid {c : Char} {str : List Char} (solid : isspace c = false) (noQuote : c ≠ '"')
    (noApostrophe : c ≠ '\'') :
    ∃ (text : List Char) (stop : Option Char) (later : List Char),
      (EvalLiteral.plain text).Valid true ∧ (EvalLiteral.plain text).StopFits stop later ∧
        c :: str = text ++ stop.toList ++ later := by
  obtain ⟨text, rest, isText, kinds, first⟩ := exists_span (fun c => !isspace c) str
  have solids : ∀ d ∈ c :: text, isspace d = false :=
    List.forall_mem_cons.mpr ⟨solid, fun d member => by simpa using kinds d member⟩
  have valid : (EvalLiteral.plain (c :: text)).Valid true :=
    ⟨rfl, List.cons_ne_nil _ _, solids, fun same => noQuote (Option.some.inj same),
      fun same => noApostrophe (Option.some.inj same)⟩
  cases rest with
  | nil => exact ⟨c :: text, none, [], valid, ⟨rfl, fun _ => rfl⟩, by simp [isText]⟩
  | cons d later =>
      have space : isspace d = true := by simpa using first d rfl
      exact ⟨c :: text, some d, later, valid, ⟨space, nofun⟩, by simp [isText]⟩

/-- What a string that is accepted goes on with where a literal is due. -/
theorem literal_of_accepted {isString : Bool}
    (accepted : evalFrom forRemote ⟨.next isString, level, sqlcond⟩ s = some result) :
    ∃ (blank : List Char) (literal : EvalLiteral) (stop : Option Char) (later : List Char),
      (∀ c ∈ blank, isspace c = true) ∧ literal.Valid isString ∧ literal.StopFits stop later ∧
        s = blank ++ (literal.spelling ++ stop.toList ++ later) := by
  obtain ⟨blank, rest, rfl, blanks, first⟩ := exists_span isspace s
  rw [evalFrom_next_blank blanks] at accepted
  cases rest with
  | nil =>
      rw [evalFrom_nil] at accepted
      cases isString <;> cases accepted
  | cons c str =>
      have solid := first c rfl
      rw [evalFrom_cons, evalStep_next, evalNext,
        if_neg (by rw [solid]; exact Bool.false_ne_true)] at accepted
      obtain ⟨after, turn, accepted⟩ := Option.bind_eq_some_iff.mp accepted
      cases isString with
      | false =>
          rw [if_neg Bool.false_ne_true] at turn
          split at turn
          · next digit =>
              obtain ⟨digits, later, rfl, isDigits, noDigit⟩ := exists_span Char.isDigit str
              refine ⟨blank, .digits (c :: digits), none, later, blanks,
                ⟨rfl, List.cons_ne_nil _ _, List.forall_mem_cons.mpr ⟨digit, isDigits⟩⟩,
                ⟨rfl, noDigit⟩, ?_⟩
              simp [EvalLiteral.spelling]
          · cases turn
      | true =>
          rw [if_pos rfl] at turn
          split at turn
          · next quote =>
              cases turn
              obtain ⟨text, later, absent, rfl⟩ :=
                @quote_of_accepted _ _ _ _ _ .quotedString '"' (fun _ => rfl) nofun accepted
              refine ⟨blank, .quoted text, none, later, blanks, ⟨rfl, absent⟩, rfl, ?_⟩
              simp [EvalLiteral.spelling, quote]
          · split at turn
            · next apostrophe =>
                cases turn
                obtain ⟨text, later, absent, rfl⟩ :=
                  @quote_of_accepted _ _ _ _ _ .squotedString '\'' (fun _ => rfl) nofun accepted
                refine ⟨blank, .squoted text, none, later, blanks, ⟨rfl, absent⟩, rfl, ?_⟩
                simp [EvalLiteral.spelling, apostrophe]
            · next noQuote noApostrophe =>
                obtain ⟨text, stop, later, valid, fits, spelled⟩ :=
                  @plain_of_solid c str solid noQuote noApostrophe
                exact ⟨blank, .plain text, stop, later, blanks, valid, fits, by rw [spelled]; rfl⟩

/-! ### Closing brackets -/

theorem evalFrom_trail {n : Nat} {trail : List Char} (brackets : Brackets ')' n trail)
    (within : n ≤ level) :
    evalFrom forRemote ⟨.postExpr, level, sqlcond⟩ (trail ++ s) =
      evalFrom forRemote ⟨.postExpr, level - n, sqlcond ++ List.replicate n ')'⟩ s := by
  induction brackets generalizing level sqlcond with
  | nil => rw [List.replicate_zero, List.append_nil]; rfl
  | @blank c n trail isBlank later ih =>
      have turn : evalStep forRemote ⟨.postExpr, level, sqlcond⟩ c (trail ++ s) =
          some (⟨.postExpr, level, sqlcond⟩, trail ++ s) := by
        rcases isBlank with rfl | rfl <;> rfl
      rw [List.cons_append, evalFrom_cons, turn, Option.bind_some, ih within]
  | @bracket n trail later ih =>
      cases level with
      | zero => cases within
      | succ level =>
          have turn : evalStep forRemote ⟨.postExpr, level + 1, sqlcond⟩ ')' (trail ++ s) =
              some (⟨.postExpr, level, sqlcond ++ [')']⟩, trail ++ s) := rfl
          rw [List.cons_append, evalFrom_cons, turn, Option.bind_some,
            ih (Nat.le_of_succ_le_succ within), List.replicate_succ, List.append_assoc,
            Nat.succ_sub_succ]
          rfl

theorem evalFrom_joiner (joiner : EvalJoiner) :
    evalFrom forRemote ⟨.postExpr, level, sqlcond⟩ (joiner.spelling ++ s) =
      evalFrom forRemote ⟨.none, level, sqlcond ++ joiner.sql⟩ s := by
  cases joiner with
  | or =>
      have turn : evalStep forRemote ⟨.postExpr, level, sqlcond⟩ '|' ('|' :: s) =
          some (⟨.none, level, sqlcond ++ " OR ".toList⟩, s) := rfl
      have spelled : EvalJoiner.or.spelling ++ s = '|' :: '|' :: s := rfl
      rw [spelled, evalFrom_cons, turn, Option.bind_some]
      rfl
  | and =>
      have turn : evalStep forRemote ⟨.postExpr, level, sqlcond⟩ '&' ('&' :: s) =
          some (⟨.none, level, sqlcond ++ " AND ".toList⟩, s) := rfl
      have spelled : EvalJoiner.and.spelling ++ s = '&' :: '&' :: s := rfl
      rw [spelled, evalFrom_cons, turn, Option.bind_some]
      rfl

theorem evalFrom_postExpr_nil :
    evalFrom forRemote ⟨.postExpr, level, sqlcond⟩ [] = some result ↔
      level = 0 ∧ result = sqlcond := by
  rw [evalFrom_nil]
  cases level with
  | zero =>
      refine ⟨fun accepted => ⟨rfl, (Option.some.inj accepted).symm⟩, ?_⟩
      rintro ⟨_, rfl⟩
      rfl
  | succ level => exact iff_of_false (fun accepted => by cases accepted) (fun both => by cases both.1)

/-- Behind a comparison an accepted string closes no more brackets than are open, and ends or
goes on with a joiner. -/
theorem trail_of_accepted
    (accepted : evalFrom forRemote ⟨.postExpr, level, sqlcond⟩ s = some result) :
    ∃ trail n, Brackets ')' n trail ∧ n ≤ level ∧ (s = trail ∨
      ∃ (joiner : EvalJoiner) (later : List Char), s = trail ++ (joiner.spelling ++ later)) := by
  induction s generalizing level sqlcond with
  | nil => exact ⟨[], 0, .nil, Nat.zero_le _, Or.inl rfl⟩
  | cons c s ih =>
      rw [evalFrom_cons] at accepted
      obtain ⟨after, turn, accepted⟩ := Option.bind_eq_some_iff.mp accepted
      simp only [evalStep, evalPostExpr] at turn
      split at turn
      · next closing =>
          split at turn
          · cases turn
          · next open_ =>
              cases turn
              obtain ⟨trail, n, brackets, within, rest⟩ := ih accepted
              have fits : n + 1 ≤ level := by omega
              refine ⟨c :: trail, n + 1, by rw [closing]; exact .bracket brackets, fits, ?_⟩
              rcases rest with rfl | ⟨joiner, later, rfl⟩
              · exact Or.inl rfl
              · exact Or.inr ⟨joiner, later, rfl⟩
      · split at turn
        · next isBlank =>
            cases turn
            obtain ⟨trail, n, brackets, within, rest⟩ := ih accepted
            refine ⟨c :: trail, n, .blank isBlank brackets, within, ?_⟩
            rcases rest with rfl | ⟨joiner, later, rfl⟩
            · exact Or.inl rfl
            · exact Or.inr ⟨joiner, later, rfl⟩
        · have joined : ∃ (joiner : EvalJoiner) (later : List Char),
              c :: s = joiner.spelling ++ later := by
            split at turn
            · next bar =>
                split at turn
                · next second =>
                    obtain ⟨later, rfl⟩ := List.head?_eq_some_iff.mp second
                    exact ⟨.or, later, by rw [bar]; rfl⟩
                · cases turn
            · split at turn
              · next ampersand =>
                  split at turn
                  · next second =>
                      obtain ⟨later, rfl⟩ := List.head?_eq_some_iff.mp second
                      exact ⟨.and, later, by rw [ampersand]; rfl⟩
                  · cases turn
              · cases turn
          obtain ⟨joiner, later, spelled⟩ := joined
          exact ⟨[], 0, .nil, Nat.zero_le _, Or.inr ⟨joiner, later, spelled⟩⟩

/-! ### A comparison with its brackets -/

theorem EvalLiteral.spelling_ne_nil {isString : Bool} {literal : EvalLiteral}
    (valid : literal.Valid isString) : literal.spelling ≠ [] := by
  cases literal with
  | quoted text => exact List.cons_ne_nil _ _
  | squoted text => exact List.cons_ne_nil _ _
  | plain text => exact valid.2.1
  | digits text => exact valid.2.1

/-- The operator is told from the literal already. -/
theorem longest_append_iff {op : EvalOp} {front : List Char} (nonempty : front ≠ [])
    (later : List Char) : op.Longest (front ++ later) ↔ op.Longest front := by
  rw [EvalOp.Longest, EvalOp.Longest, List.head?_append_of_ne_nil _ nonempty]

theorem evalFrom_operand {operand : EvalOperand} {later : List Char}
    (spelled : operand.Spelled forRemote s later) (within : operand.closes ≤ level + operand.opens) :
    evalFrom forRemote ⟨.none, level, sqlcond⟩ s =
      evalFrom forRemote ⟨.postExpr, level + operand.opens - operand.closes,
        sqlcond ++ operand.text forRemote EvalKey.written⟩ later := by
  obtain ⟨⟨lead, blank, blank', stop, trail, rfl, opening, blanks, longest, blanks', stopFits,
    closing⟩, known, allowed, valid⟩ := spelled
  have nonempty : blank' ++ operand.literal.spelling ≠ [] := fun empty =>
    EvalLiteral.spelling_ne_nil valid (List.append_eq_nil_iff.mp empty).2
  have longest : operand.op.Longest
      (blank' ++ (operand.literal.spelling ++ stop.toList ++ (trail ++ later))) := by
    have := (longest_append_iff nonempty (stop.toList ++ (trail ++ later))).mpr longest
    simpa only [List.append_assoc] using this
  have parts : lead ++ operand.key.spelling ++ blank ++ operand.op.spelling ++ blank' ++
      operand.literal.spelling ++ stop.toList ++ trail ++ later =
      lead ++ (operand.key.spelling ++ (blank ++ (operand.op.spelling ++
        (blank' ++ (operand.literal.spelling ++ stop.toList ++ (trail ++ later)))))) := by
    simp only [List.append_assoc]
  rw [parts, evalFrom_lead opening, evalFrom_key known, evalFrom_operator_blank blanks,
    evalFrom_op allowed longest, evalFrom_next_blank blanks', evalFrom_literal valid stopFits,
    evalFrom_trail closing within, EvalOperand.text]
  simp only [List.append_assoc]

/-- An accepted string starts with a comparison, and ends there or goes on with a joiner. -/
theorem operand_of_accepted
    (accepted : evalFrom forRemote ⟨.none, level, sqlcond⟩ s = some result) :
    ∃ (operand : EvalOperand) (later : List Char), operand.Spelled forRemote s later ∧
      operand.closes ≤ level + operand.opens ∧ (later = [] ∨
        ∃ (joiner : EvalJoiner) (rest : List Char), later = joiner.spelling ++ rest) := by
  obtain ⟨lead, opens, behind, opening, rfl⟩ := lead_of_accepted accepted
  rw [evalFrom_lead opening] at accepted
  obtain ⟨key, behindKey, known, isKey⟩ := key_of_accepted accepted
  rw [isKey, evalFrom_key known] at accepted
  obtain ⟨blank, op, behindOp, blanks, allowed, longest, rfl⟩ := op_of_accepted accepted
  rw [evalFrom_operator_blank blanks, evalFrom_op allowed longest] at accepted
  obtain ⟨blank', literal, stop, behindLiteral, blanks', valid, stopFits, rfl⟩ :=
    literal_of_accepted accepted
  rw [evalFrom_next_blank blanks', evalFrom_literal valid stopFits] at accepted
  obtain ⟨trail, closes, closing, within, end_⟩ := trail_of_accepted accepted
  have nonempty : blank' ++ literal.spelling ≠ [] := fun empty =>
    EvalLiteral.spelling_ne_nil valid (List.append_eq_nil_iff.mp empty).2
  have told : op.Longest (blank' ++ literal.spelling) := by
    refine (longest_append_iff nonempty (stop.toList ++ behindLiteral)).mp ?_
    simpa only [List.append_assoc] using longest
  obtain ⟨later, rfl, ending⟩ : ∃ later, behindLiteral = trail ++ later ∧ (later = [] ∨
      ∃ (joiner : EvalJoiner) (rest : List Char), later = joiner.spelling ++ rest) := by
    rcases end_ with rfl | ⟨joiner, rest, rfl⟩
    · exact ⟨[], (List.append_nil _).symm, Or.inl rfl⟩
    · exact ⟨_, rfl, Or.inr ⟨joiner, rest, rfl⟩⟩
  refine ⟨⟨opens, key, op, literal, closes⟩, later, ⟨⟨lead, blank, blank', stop, trail, ?_, opening,
    blanks, told, blanks', stopFits, closing⟩, known, allowed, valid⟩, within, ending⟩
  rw [isKey]
  simp only [List.append_assoc]

theorem EvalOperand.Spelled.length_le {operand : EvalOperand} {later : List Char}
    (spelled : operand.Spelled forRemote s later) : later.length ≤ s.length := by
  obtain ⟨lead, blank, blank', stop, trail, rfl, _⟩ := spelled.parts
  rw [List.length_append]
  exact Nat.le_add_left _ _

/-! ### Expressions -/

theorem evalFrom_expr {e : EvalExpr} (spelled : e.Spelled forRemote s)
    (balanced : e.Balanced level) :
    evalFrom forRemote ⟨.none, level, sqlcond⟩ s =
      some (sqlcond ++ e.text forRemote EvalKey.written) := by
  induction e generalizing level sqlcond s with
  | operand operand =>
      have even : level + operand.opens - operand.closes = 0 := Nat.sub_eq_zero_of_le balanced.le
      rw [evalFrom_operand spelled balanced.ge]
      exact evalFrom_postExpr_nil.mpr ⟨even, rfl⟩
  | join operand joiner rest ih =>
      obtain ⟨later, here, spelled⟩ := spelled
      rw [evalFrom_operand here balanced.1, evalFrom_joiner, ih spelled balanced.2, EvalExpr.text]
      simp only [List.append_assoc]

theorem expr_of_accepted (accepted : evalFrom forRemote ⟨.none, level, sqlcond⟩ s = some result) :
    ∃ e : EvalExpr, e.Spelled forRemote s ∧ e.Balanced level := by
  induction size : s.length using Nat.strong_induction_on generalizing level sqlcond s with
  | h _ ih =>
      subst size
      obtain ⟨operand, later, spelled, within, rfl | ⟨joiner, rest, rfl⟩⟩ :=
        operand_of_accepted accepted
      · rw [evalFrom_operand spelled within, evalFrom_postExpr_nil] at accepted
        exact ⟨.operand operand, spelled, (Nat.sub_eq_zero_iff_le.mp accepted.1).antisymm within⟩
      · rw [evalFrom_operand spelled within, evalFrom_joiner] at accepted
        have shorter : rest.length < s.length := by
          have shorter := spelled.length_le
          cases joiner <;> exact (Nat.lt_succ_of_le (Nat.le_succ _)).trans_le shorter
        obtain ⟨e, later, balanced⟩ := ih rest.length shorter accepted rfl
        exact ⟨.join operand joiner e, ⟨rest, spelled, later⟩, within, balanced⟩

/-- What is accepted is exactly the grammar, and what is written is read off the expression. -/
theorem evalFrom_iff : evalFrom forRemote ⟨.none, level, sqlcond⟩ s = some result ↔
    ∃ e : EvalExpr, e.Spelled forRemote s ∧ e.Balanced level ∧
      result = sqlcond ++ e.text forRemote EvalKey.written := by
  constructor
  · intro accepted
    obtain ⟨e, spelled, balanced⟩ := expr_of_accepted accepted
    rw [evalFrom_expr spelled balanced] at accepted
    exact ⟨e, spelled, balanced, (Option.some.inj accepted).symm⟩
  · rintro ⟨e, spelled, balanced, rfl⟩
    exact evalFrom_expr spelled balanced

end Parts

end Pkgng
