import Pkgng.Query.EvaluationGrammar

/-!
# What evaluation strings mean

`%?X` is true where the list has elements, and `%#X` is their number.  Which of the two is
written is decided when the cursor stands on `X` already, so it is always the first.
-/

set_option autoImplicit false

namespace Pkgng

open Lib

namespace EvalKey

/-- The rows that are the elements of a list.  SQL has an alias in front of `USING` only. -/
def elements (letter : Char) : List Char :=
  if letter = 'O' then "pkg_option AS d WHERE d.package_id=p.id".toList
  else (evalList letter).elim [] EvalList.rows

/-- What the key means. -/
def sql : EvalKey → List Char
  | column letter => (evalColumn letter).elim [] EvalColumn.sql
  | nonEmpty letter => selectList "COUNT(*) > 0".toList (elements letter)
  | count letter => selectList "COUNT(*)".toList (elements letter)

/-- A column, or a list other than the options as a truth value. -/
def Direct : EvalKey → Prop
  | column _ => True
  | nonEmpty letter => letter ≠ 'O'
  | count _ => False

theorem length_selectList (sqlop rows : List Char) :
    (selectList sqlop rows).length = sqlop.length + rows.length + 15 := by
  unfold selectList
  simp
  omega

theorem elements_length_le (letter : Char) :
    (elements letter).length ≤ ((evalList letter).elim [] EvalList.rows).length := by
  unfold elements
  split
  · next options =>
      rw [options]
      decide
  · exact Nat.le_refl _

theorem elements_eq_iff (letter : Char) :
    (evalList letter).elim [] EvalList.rows = elements letter ↔ letter ≠ 'O' := by
  unfold elements
  split
  · next options =>
      rw [options]
      decide
  · next other => exact iff_of_true rfl other

/-- What is written is never shorter than what is meant. -/
theorem sql_length_le (key : EvalKey) : key.sql.length ≤ key.written.length := by
  cases key with
  | column letter => exact Nat.le_refl _
  | nonEmpty letter =>
      rw [sql, written, length_selectList, length_selectList]
      exact Nat.add_le_add_right (Nat.add_le_add_left (elements_length_le letter) _) _
  | count letter =>
      have rows := elements_length_le letter
      have number : "COUNT(*)".toList.length = 8 := rfl
      have truth : "COUNT(*) > 0".toList.length = 12 := rfl
      rw [sql, written, length_selectList, length_selectList, number, truth]
      omega

theorem written_eq_sql_iff (key : EvalKey) : key.sql = key.written ↔ key.Direct := by
  cases key with
  | column letter => exact iff_of_true rfl trivial
  | nonEmpty letter =>
      rw [sql, written]
      unfold selectList
      rw [List.append_cancel_right_eq, List.append_cancel_left_eq, eq_comm]
      exact elements_eq_iff letter
  | count letter =>
      refine iff_of_false (fun same => ?_) id
      have rows := elements_length_le letter
      have number : "COUNT(*)".toList.length = 8 := rfl
      have truth : "COUNT(*) > 0".toList.length = 12 := rfl
      have lengths := congrArg List.length same
      rw [sql, written, length_selectList, length_selectList, number, truth] at lengths
      omega

end EvalKey

def EvalExpr.keys : EvalExpr → List EvalKey
  | operand o => [o.key]
  | join o _ rest => o.key :: rest.keys

section Texts

variable {forRemote : Bool} {f g : EvalKey → List Char}

theorem EvalOperand.length_text_le {operand : EvalOperand}
    (shorter : (f operand.key).length ≤ (g operand.key).length) :
    (operand.text forRemote f).length ≤ (operand.text forRemote g).length := by
  simp only [EvalOperand.text, List.length_append]
  omega

theorem EvalOperand.text_eq_iff (operand : EvalOperand) :
    operand.text forRemote f = operand.text forRemote g ↔ f operand.key = g operand.key := by
  rw [EvalOperand.text, EvalOperand.text, List.append_cancel_right_eq, List.append_cancel_right_eq,
    List.append_cancel_right_eq, List.append_cancel_left_eq]

theorem EvalExpr.length_text_le {e : EvalExpr}
    (shorter : ∀ key ∈ e.keys, (f key).length ≤ (g key).length) :
    (e.text forRemote f).length ≤ (e.text forRemote g).length := by
  induction e with
  | operand operand => exact EvalOperand.length_text_le (shorter _ List.mem_cons_self)
  | join operand joiner rest ih =>
      obtain ⟨here, later⟩ := List.forall_mem_cons.mp shorter
      have here := @EvalOperand.length_text_le forRemote f g operand here
      have later := ih later
      simp only [EvalExpr.text, List.length_append]
      omega

/-- Where no text for a key is longer, the texts of an expression are the same only if those for
its keys are. -/
theorem EvalExpr.text_eq_iff {e : EvalExpr}
    (shorter : ∀ key ∈ e.keys, (f key).length ≤ (g key).length) :
    e.text forRemote f = e.text forRemote g ↔ ∀ key ∈ e.keys, f key = g key := by
  induction e with
  | operand operand =>
      rw [EvalExpr.keys, List.forall_mem_singleton]
      exact EvalOperand.text_eq_iff operand
  | join operand joiner rest ih =>
      obtain ⟨here, later⟩ := List.forall_mem_cons.mp shorter
      rw [EvalExpr.keys, List.forall_mem_cons, ← ih later,
        ← @EvalOperand.text_eq_iff forRemote f g operand, EvalExpr.text, EvalExpr.text]
      refine ⟨fun same => ?_, fun same => by rw [same.1, same.2]⟩
      have here := @EvalOperand.length_text_le forRemote f g operand here
      have later := @EvalExpr.length_text_le forRemote f g rest later
      have lengths := congrArg List.length same
      simp only [List.length_append] at lengths
      have front : (operand.text forRemote f ++ joiner.sql).length =
          (operand.text forRemote g ++ joiner.sql).length := by
        simp only [List.length_append]
        omega
      obtain ⟨first, rest⟩ := List.append_inj same front
      exact ⟨List.append_cancel_right first, rest⟩

end Texts

/-- The string is accepted just where it is in the grammar, and compiled to what it means. -/
def CompilesRight (forRemote : Bool) (str : List Char) : Prop :=
  ((formatSqlCondition forRemote str).isSome = true ↔
      ∃ e : EvalExpr, e.Spelled forRemote str ∧ e.Balanced 0) ∧
    ∀ e : EvalExpr, e.Spelled forRemote str → e.Balanced 0 →
      formatSqlCondition forRemote str =
        some (" WHERE ".toList ++ e.text forRemote EvalKey.sql)

section Compiled

variable {forRemote : Bool} {str : List Char}

theorem formatSqlCondition_iff {sqlcond : List Char} :
    formatSqlCondition forRemote str = some sqlcond ↔
      ∃ e : EvalExpr, e.Spelled forRemote str ∧ e.Balanced 0 ∧
        sqlcond = " WHERE ".toList ++ e.text forRemote EvalKey.written :=
  evalFrom_iff

theorem formatSqlCondition_expr {e : EvalExpr} (spelled : e.Spelled forRemote str)
    (balanced : e.Balanced 0) :
    formatSqlCondition forRemote str =
      some (" WHERE ".toList ++ e.text forRemote EvalKey.written) :=
  formatSqlCondition_iff.mpr ⟨e, spelled, balanced, rfl⟩

end Compiled

end Pkgng
