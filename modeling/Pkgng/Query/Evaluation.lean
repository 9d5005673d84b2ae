import Pkgng.Lib.CStrings

/-!
# Evaluation strings

`format_sql_condition` compiles the argument of `-e` to the condition of a query, character by
character.  Its cursor is the rest of the string.
-/

set_option autoImplicit false

namespace Pkgng

open Lib

/-- `state_t`. -/
inductive EvalState
  | none
  | nextIsInt
  | operatorInt
  | int
  | nextIsString
  | operatorString
  | string
  | quotedString
  | squotedString
  | postExpr
deriving DecidableEq, Repr

/-- The column of a key, whether it holds text, and whether only the local database has it. -/
structure EvalColumn where
  sql : List Char
  isString : Bool
  localOnly : Bool := false
deriving DecidableEq, Repr

def evalColumn : Char → Option EvalColumn
  | 'n' => some ⟨"name".toList, true, false⟩
  | 'o' => some ⟨"origin".toList, true, false⟩
  | 'p' => some ⟨"prefix".toList, true, false⟩
  | 'm' => some ⟨"maintainer".toList, true, false⟩
  | 'c' => some ⟨"comment".toList, true, false⟩
  | 'w' => some ⟨"www".toList, true, false⟩
  | 's' => some ⟨"flatsize".toList, false, false⟩
  | 'a' => some ⟨"automatic".toList, false, true⟩
  | 'q' => some ⟨"arch".toList, true, false⟩
  | 'k' => some ⟨"locked".toList, false, true⟩
  | 'M' => some ⟨"message".toList, true, true⟩
  | 't' => some ⟨"time".toList, false, true⟩
  | 'e' => some ⟨"desc".toList, true, false⟩
  | _ => none

/-- The rows of a list. -/
structure EvalList where
  rows : List Char
  localOnly : Bool := false
deriving DecidableEq, Repr

def evalList : Char → Option EvalList
  | 'd' => some ⟨"deps AS d WHERE d.package_id=p.id".toList, false⟩
  | 'r' => some ⟨"deps AS d WHERE d.origin=p.origin".toList, false⟩
  | 'C' => some ⟨"pkg_categories AS d WHERE d.package_id=p.id".toList, false⟩
  | 'F' => some ⟨"files AS d WHERE d.package_id=p.id".toList, true⟩
  | 'O' =>
      some ⟨"option JOIN pkg_option USING(option_id) AS d WHERE d.package_id=p.id".toList, false⟩
  | 'D' => some ⟨"pkg_directories AS d WHERE d.package_id=p.id".toList, true⟩
  | 'L' => some ⟨"pkg_licenses AS d WHERE d.package_id=p.id".toList, false⟩
  | 'U' => some ⟨"pkg_users AS d WHERE d.package_id=p.id".toList, true⟩
  | 'G' => some ⟨"pkg_groups AS d WHERE d.package_id=p.id".toList, true⟩
  | 'B' => some ⟨"pkg_shlibs_required AS d WHERE d.package_id=p.id".toList, false⟩
  | 'b' => some ⟨"pkg_shlibs_provided AS d WHERE d.package_id=p.id".toList, false⟩
  | 'A' => some ⟨"pkg_annotation AS d WHERE d.package_id=p.id".toList, false⟩
  | _ => none

/-- `(SELECT %s FROM ...)`. -/
def selectList (sqlop rows : List Char) : List Char :=
  "(SELECT ".toList ++ sqlop ++ " FROM ".toList ++ rows ++ ")".toList

/-- The operator state that a key leads to. -/
def EvalState.operator (isString : Bool) : EvalState :=
  if isString then .operatorString else .operatorInt

def EvalState.next (isString : Bool) : EvalState :=
  if isString then .nextIsString else .nextIsInt

/-- The key behind a percent sign: its text, the next state, and what is left. -/
def evalKey (forRemote : Bool) : List Char → Option (List Char × EvalState × List Char)
  | [] => none
  | c :: str =>
      if c = '#' ∨ c = '?' then
        match str with
        | [] => none
        | x :: str =>
            -- The cursor stands on the list already.
            let sqlop := if x = '#' then "COUNT(*)".toList else "COUNT(*) > 0".toList
            (evalList x).bind fun list =>
              if list.localOnly && forRemote then none
              else some (selectList sqlop list.rows, .operatorInt, str)
      else
        (evalColumn c).bind fun column =>
          if column.localOnly && forRemote then none
          else some (column.sql, .operator column.isString, str)

structure EvalMachine where
  state : EvalState := .none
  bracketLevel : Nat := 0
  sqlcond : List Char := []
deriving DecidableEq, Repr

/-- Text is added and the state set. -/
def EvalMachine.put (m : EvalMachine) (text : List Char) (state : EvalState) : EvalMachine :=
  { m with sqlcond := m.sqlcond ++ text, state := state }

/-- An equals sign may follow an operator. -/
def EvalMachine.equals (m : EvalMachine) (str : List Char) : EvalMachine × List Char :=
  if str.head? = some '=' then (m.put ['='] m.state, str.tail) else (m, str)

/-- A character of a string: quotes are doubled, and percent signs for a format. -/
def evalEscape (forRemote : Bool) (c : Char) : List Char :=
  if c = '\'' then ['\'', '\''] else if c = '%' ∧ forRemote then ['%', '%'] else [c]

/-- The state `NONE`, with the cursor on `c` in front of `str`. -/
def evalNone (forRemote : Bool) (m : EvalMachine) (c : Char) (str : List Char) :
    Option (EvalMachine × List Char) :=
  if c = '%' then (evalKey forRemote str).map fun key => (m.put key.1 key.2.1, key.2.2)
  else if c = '(' then some ({ m.put [c] .none with bracketLevel := m.bracketLevel + 1 }, str)
  else if c = ' ' ∨ c = '\t' then some (m, str)
  else none

def evalPostExpr (m : EvalMachine) (c : Char) (str : List Char) :
    Option (EvalMachine × List Char) :=
  if c = ')' then
    if m.bracketLevel = 0 then none
    else some ({ m.put [c] .postExpr with bracketLevel := m.bracketLevel - 1 }, str)
  else if c = ' ' ∨ c = '\t' then some (m, str)
  else if c = '|' then
    if str.head? = some '|' then some (m.put " OR ".toList .none, str.tail) else none
  else if c = '&' then
    if str.head? = some '&' then some (m.put " AND ".toList .none, str.tail) else none
  else none

/-- The states `OPERATOR_STRING` and `OPERATOR_INT`. -/
def evalOperator (isString : Bool) (m : EvalMachine) (c : Char) (str : List Char) :
    Option (EvalMachine × List Char) :=
  if isspace c then some (m, str)
  else if c = '~' then
    if isString then some (m.put " GLOB ".toList .nextIsString, str) else none
  else if c = '>' ∨ c = '<' then
    if isString then none else some ((m.put [c] .nextIsInt).equals str)
  else if c = '=' then some ((m.put [c] (.next isString)).equals str)
  else if c = '!' then
    if str.head? = some '=' then some (m.put ['!', '='] (.next isString), str.tail) else none
  else none

/-- The states `NEXT_IS_STRING` and `NEXT_IS_INT`; a string without quotes is read again. -/
def evalNext (isString : Bool) (m : EvalMachine) (c : Char) (str : List Char) :
    Option (EvalMachine × List Char) :=
  if isspace c then some (m, str)
  else if isString then
    if c = '"' then some (m.put ['\''] .quotedString, str)
    else if c = '\'' then some (m.put ['\''] .squotedString, str)
    else some (m.put ['\''] .string, c :: str)
  else if c.isDigit then some (m.put [c] .int, str)
  else none

/-- The state `INT`; what is no digit is read again. -/
def evalInt (m : EvalMachine) (c : Char) (str : List Char) : EvalMachine × List Char :=
  if c.isDigit then (m.put [c] .int, str) else (m.put [] .postExpr, c :: str)

/-- The states of strings, with the test for their end. -/
def evalString (forRemote ends : Bool) (m : EvalMachine) (c : Char) (str : List Char) :
    EvalMachine × List Char :=
  if ends then (m.put ['\''] .postExpr, str) else (m.put (evalEscape forRemote c) m.state, str)

/-- One turn of the loop. -/
def evalStep (forRemote : Bool) (m : EvalMachine) (c : Char) (str : List Char) :
    Option (EvalMachine × List Char) :=
  match m.state with
  | .none => evalNone forRemote m c str
  | .postExpr => evalPostExpr m c str
  | .operatorString => evalOperator true m c str
  | .operatorInt => evalOperator false m c str
  | .nextIsString => evalNext true m c str
  | .nextIsInt => evalNext false m c str
  | .int => some (evalInt m c str)
  | .string => some (evalString forRemote (isspace c) m c str)
  | .quotedString => some (evalString forRemote (c == '"') m c str)
  | .squotedString => some (evalString forRemote (c == '\'') m c str)

/-- The states in which a character may be read again. -/
def EvalState.rereads : EvalState → Nat
  | .nextIsString => 1
  | .int => 1
  | _ => 0

/-- What is left, counted so that each turn lessens it. -/
def evalMeasure (m : EvalMachine) (str : List Char) : Nat := 2 * str.length + m.state.rereads

section Measure

variable {forRemote : Bool} {m : EvalMachine} {c : Char} {str : List Char}
  {after : EvalMachine × List Char}

theorem rereads_le (state : EvalState) : state.rereads ≤ 1 := by
  cases state <;> decide

/-- A turn that passes a character. -/
theorem evalMeasure_passed (shorter : after.2.length ≤ str.length) :
    evalMeasure after.1 after.2 < evalMeasure m (c :: str) := by
  have weight := rereads_le after.1.state
  rw [evalMeasure, evalMeasure, List.length_cons]
  omega

theorem evalKey_length {s : List Char} {key : List Char × EvalState × List Char}
    (known : evalKey forRemote s = some key) : key.2.2.length ≤ s.length := by
  unfold evalKey at known
  split at known
  · cases known
  · split at known
    · split at known
      · cases known
      · obtain ⟨list, _, known⟩ := Option.bind_eq_some_iff.mp known
        split at known
        · cases known
        · cases known
          exact (Nat.le_succ _).trans (Nat.le_succ _)
    · obtain ⟨column, _, known⟩ := Option.bind_eq_some_iff.mp known
      split at known
      · cases known
      · cases known
        exact Nat.le_succ _

theorem equals_length (m : EvalMachine) (str : List Char) :
    (m.equals str).2.length ≤ str.length := by
  unfold EvalMachine.equals
  split
  · exact (List.tail_sublist str).length_le
  · exact Nat.le_refl _

theorem evalNone_length (turns : evalNone forRemote m c str = some after) :
    after.2.length ≤ str.length := by
  unfold evalNone at turns
  split at turns
  · obtain ⟨key, known, rfl⟩ := Option.map_eq_some_iff.mp turns
    exact evalKey_length known
  · split at turns
    · cases turns
      exact Nat.le_refl _
    · split at turns
      · cases turns
        exact Nat.le_refl _
      · cases turns

theorem evalPostExpr_length (turns : evalPostExpr m c str = some after) :
    after.2.length ≤ str.length := by
  have shorter := (List.tail_sublist str).length_le
  unfold evalPostExpr at turns
  repeat' split at turns
  all_goals cases turns
  all_goals first | exact shorter | exact Nat.le_refl _

theorem evalOperator_length {isString : Bool} (turns : evalOperator isString m c str = some after) :
    after.2.length ≤ str.length := by
  have shorter := (List.tail_sublist str).length_le
  have second := fun m : EvalMachine => equals_length m str
  unfold evalOperator at turns
  repeat' split at turns
  all_goals cases turns
  all_goals first | exact shorter | exact second _ | exact Nat.le_refl _

theorem evalNext_measure {isString : Bool} (here : m.state = .next isString)
    (turns : evalNext isString m c str = some after) :
    evalMeasure after.1 after.2 < evalMeasure m (c :: str) := by
  unfold evalNext at turns
  split at turns
  · cases turns
    exact evalMeasure_passed (Nat.le_refl _)
  · split at turns
    · next string =>
        split at turns
        · cases turns
          exact evalMeasure_passed (Nat.le_refl _)
        · split at turns
          · cases turns
            exact evalMeasure_passed (Nat.le_refl _)
          · cases turns
            rw [evalMeasure, evalMeasure, here, string]
            exact Nat.lt_succ_self _
    · split at turns
      · cases turns
        exact evalMeasure_passed (Nat.le_refl _)
      · cases turns

theorem evalInt_measure (here : m.state = .int) :
    evalMeasure (evalInt m c str).1 (evalInt m c str).2 < evalMeasure m (c :: str) := by
  unfold evalInt
  split
  · exact evalMeasure_passed (Nat.le_refl _)
  · rw [evalMeasure, evalMeasure, here]
    exact Nat.lt_succ_self _

theorem evalString_length (ends : Bool) : (evalString forRemote ends m c str).2 = str := by
  unfold evalString
  split <;> rfl

/-- Each turn goes on in the string, or leaves a state that reads a character again. -/
theorem evalStep_measure (turns : evalStep forRemote m c str = some after) :
    evalMeasure after.1 after.2 < evalMeasure m (c :: str) := by
  unfold evalStep at turns
  split at turns <;> rename_i here
  · exact evalMeasure_passed (evalNone_length turns)
  · exact evalMeasure_passed (evalPostExpr_length turns)
  · exact evalMeasure_passed (evalOperator_length turns)
  · exact evalMeasure_passed (evalOperator_length turns)
  · exact @evalNext_measure _ _ _ _ true here turns
  · exact @evalNext_measure _ _ _ _ false here turns
  · cases turns
    exact evalInt_measure here
  all_goals
    cases turns
    exact evalMeasure_passed (Nat.le_of_eq (congrArg List.length (evalString_length _)))

end Measure

def evalLoop (forRemote : Bool) (m : EvalMachine) (str : List Char) : Option EvalMachine :=
  match str with
  | [] => some m
  | c :: str =>
      match _turns : evalStep forRemote m c str with
      | none => none
      | some after => evalLoop forRemote after.1 after.2
termination_by evalMeasure m str
decreasing_by exact evalStep_measure _turns

/-- The lines behind the loop. -/
def evalEnd (m : EvalMachine) : Option (List Char) :=
  let m := if m.state = .string then m.put ['\''] .postExpr else m
  if m.state ≠ .postExpr ∧ m.state ≠ .int then none
  else if m.bracketLevel > 0 then none
  else some m.sqlcond

/-- `format_sql_condition`; none is `EPKG_FATAL`. -/
def formatSqlCondition (forRemote : Bool) (str : List Char) : Option (List Char) :=
  (evalLoop forRemote { sqlcond := " WHERE ".toList } str).bind evalEnd

end Pkgng
