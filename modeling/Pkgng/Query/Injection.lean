import Pkgng.Lib.SqlText
import Pkgng.Query.Conditions
import Pkgng.Query.EvaluationSql

/-!
# Texts of the user in conditions

The strings of an evaluation string become literals of SQL that are read back as the same
texts, and nothing else in the condition depends on them.  The condition for a repository is a
format that prints the local one, unless the buffer of `pkg_repo_binary_query` cuts it.
-/

set_option autoImplicit false

namespace Pkgng

open Lib

/-! ## What SQL reads -/

namespace EvalLiteral

/-- The text of a string. -/
def texts : EvalLiteral → List (List Char)
  | quoted text => [text]
  | squoted text => [text]
  | plain text => [text]
  | digits _ => []

/-- What of a literal stands outside of quotes. -/
def skeleton : EvalLiteral → List SqlPiece
  | digits text => text.map SqlPiece.plain
  | _ => [.literal []]

def pieces : EvalLiteral → List SqlPiece
  | quoted text => [.literal text]
  | squoted text => [.literal text]
  | plain text => [.literal text]
  | digits text => text.map SqlPiece.plain

end EvalLiteral

/-- What stands in front of a literal. -/
def EvalOperand.front (operand : EvalOperand) : List Char :=
  List.replicate operand.opens '(' ++ operand.key.written ++ operand.op.sql

/-- An operand, with something for its literal. -/
def EvalOperand.around (literal : EvalLiteral → List SqlPiece) (operand : EvalOperand) :
    List SqlPiece :=
  operand.front.map SqlPiece.plain ++ literal operand.literal ++
    (List.replicate operand.closes ')').map SqlPiece.plain

namespace EvalExpr

/-- The texts of the strings, in order. -/
def texts : EvalExpr → List (List Char)
  | operand o => o.literal.texts
  | join o _ rest => o.literal.texts ++ rest.texts

def around (literal : EvalLiteral → List SqlPiece) : EvalExpr → List SqlPiece
  | operand o => o.around literal
  | join o joiner rest =>
      o.around literal ++ joiner.sql.map SqlPiece.plain ++ rest.around literal

/-- The expression without the texts of its strings. -/
def skeleton (e : EvalExpr) : List SqlPiece :=
  " WHERE ".toList.map SqlPiece.plain ++ e.around EvalLiteral.skeleton

def pieces (e : EvalExpr) : List SqlPiece :=
  " WHERE ".toList.map SqlPiece.plain ++ e.around EvalLiteral.pieces

end EvalExpr

theorem filterMap_plain (text : List Char) :
    (text.map SqlPiece.plain).filterMap SqlPiece.text? = [] := by
  induction text with
  | nil => rfl
  | cons c text ih => exact ih

theorem map_erase_plain (text : List Char) :
    (text.map SqlPiece.plain).map SqlPiece.erase = text.map SqlPiece.plain := by
  rw [List.map_map]
  rfl

namespace EvalExpr

theorem texts_around (e : EvalExpr) :
    (e.around EvalLiteral.pieces).filterMap SqlPiece.text? = e.texts := by
  have literal (l : EvalLiteral) : l.pieces.filterMap SqlPiece.text? = l.texts := by
    cases l with
    | digits text => exact filterMap_plain text
    | _ => rfl
  induction e with
  | operand o =>
      simp only [around, EvalOperand.around, List.filterMap_append, filterMap_plain, literal,
        List.nil_append, List.append_nil, texts]
  | join o joiner rest ih =>
      simp only [around, EvalOperand.around, List.filterMap_append, filterMap_plain, literal,
        List.nil_append, List.append_nil, texts, ih]

theorem erase_around (e : EvalExpr) :
    (e.around EvalLiteral.pieces).map SqlPiece.erase = e.around EvalLiteral.skeleton := by
  have literal (l : EvalLiteral) : l.pieces.map SqlPiece.erase = l.skeleton := by
    cases l with
    | digits text => exact map_erase_plain text
    | _ => rfl
  induction e with
  | operand o => simp only [around, EvalOperand.around, List.map_append, map_erase_plain, literal]
  | join o joiner rest ih =>
      simp only [around, EvalOperand.around, List.map_append, map_erase_plain, literal, ih]

end EvalExpr

/-! ### Everything outside of strings is plain -/

def SqlPlain (text : List Char) : Prop := ∀ c ∈ text, isSqlPlain c = true

instance (text : List Char) : Decidable (SqlPlain text) :=
  decidable_of_iff (text.all isSqlPlain = true) List.all_eq_true

theorem SqlPlain.append {a b : List Char} (left : SqlPlain a) (right : SqlPlain b) :
    SqlPlain (a ++ b) :=
  List.forall_mem_append.mpr ⟨left, right⟩

theorem SqlPlain.replicate {c : Char} (n : Nat) (plain : isSqlPlain c = true) :
    SqlPlain (List.replicate n c) := by
  intro d member
  rw [List.eq_of_mem_replicate member]
  exact plain

theorem SqlPlain.no_percent {text : List Char} (plain : SqlPlain text) : '%' ∉ text :=
  fun member => absurd (plain _ member) (by decide)

theorem evalColumn_plain (letter : Char) :
    SqlPlain ((evalColumn letter).elim [] EvalColumn.sql) := by
  unfold evalColumn
  split <;> decide

theorem evalList_plain (letter : Char) : SqlPlain ((evalList letter).elim [] EvalList.rows) := by
  unfold evalList
  split <;> decide

theorem selectList_plain {sqlop rows : List Char} (op : SqlPlain sqlop) (list : SqlPlain rows) :
    SqlPlain (selectList sqlop rows) := by
  unfold selectList
  exact ((((by decide : SqlPlain "(SELECT ".toList).append op).append (by decide)).append
    list).append (by decide)

theorem EvalKey.written_plain (key : EvalKey) : SqlPlain key.written := by
  cases key with
  | column letter => exact evalColumn_plain letter
  | nonEmpty letter => exact selectList_plain (by decide) (evalList_plain letter)
  | count letter => exact selectList_plain (by decide) (evalList_plain letter)

theorem EvalOperand.front_plain (operand : EvalOperand) : SqlPlain operand.front := by
  have op : SqlPlain operand.op.sql := by cases operand.op <;> decide
  exact ((SqlPlain.replicate _ (by decide)).append operand.key.written_plain).append op

theorem EvalJoiner.sql_plain (joiner : EvalJoiner) : SqlPlain joiner.sql := by
  cases joiner <;> decide

theorem digits_plain {text : List Char} (digits : ∀ c ∈ text, c.isDigit = true) :
    SqlPlain text := by
  intro c member
  rw [isSqlPlain, Char.isAlphanum, digits c member, Bool.or_true, Bool.true_or]

/-! ### Literals are read back -/

section Read

variable {forRemote : Bool} {s : List Char}

theorem evalEscape_eq : evalEscape false = sqlEscape := by
  funext c
  unfold evalEscape sqlEscape
  simp

theorem stringSql_eq (text : List Char) : EvalLiteral.stringSql false text = sqlLiteral text := by
  rw [EvalLiteral.stringSql, sqlLiteral, evalEscape_eq]

theorem scanSql_evalLiteral {isString : Bool} {literal : EvalLiteral}
    (valid : literal.Valid isString) {later : List Char} (separate : later.head? ≠ some '\'') :
    scanSql none (literal.sql false ++ later) =
      (scanSql none later).map (literal.pieces ++ ·) := by
  have string (text : List Char) :
      scanSql none (EvalLiteral.stringSql false text ++ later) =
        (scanSql none later).map ([.literal text] ++ ·) := by
    rw [stringSql_eq]
    exact scanSql_literal separate
  cases literal with
  | quoted text => exact string text
  | squoted text => exact string text
  | plain text => exact string text
  | digits text => exact scanSql_plain (digits_plain valid.2.2)

theorem EvalOperand.text_eq (operand : EvalOperand) :
    operand.text forRemote EvalKey.written = operand.front ++
      (operand.literal.sql forRemote ++ List.replicate operand.closes ')') := by
  simp only [EvalOperand.text, EvalOperand.front, List.append_assoc]

theorem scanSql_operand {operand : EvalOperand} {later rest : List Char}
    (spelled : operand.Spelled forRemote s later) (separate : rest.head? ≠ some '\'') :
    scanSql none (operand.text false EvalKey.written ++ rest) =
      (scanSql none rest).map (operand.around EvalLiteral.pieces ++ ·) := by
  have closing : (List.replicate operand.closes ')' ++ rest).head? ≠ some '\'' := by
    cases operand.closes with
    | zero => exact separate
    | succ n => simp [List.replicate_succ]
  have brackets : SqlPlain (List.replicate operand.closes ')') := .replicate _ (by decide)
  rw [EvalOperand.text_eq, List.append_assoc, List.append_assoc,
    scanSql_plain operand.front_plain, scanSql_evalLiteral spelled.valid closing,
    scanSql_plain brackets, Option.map_map, Option.map_map]
  simp only [EvalOperand.around, Function.comp_def, List.append_assoc]

theorem scanSql_expr {e : EvalExpr} (spelled : e.Spelled forRemote s) :
    scanSql none (e.text false EvalKey.written) = some (e.around EvalLiteral.pieces) := by
  induction e generalizing s with
  | operand o =>
      have read := @scanSql_operand forRemote s o [] [] spelled (by simp)
      rw [List.append_nil] at read
      rw [EvalExpr.text, read, scanSql, Option.map_some, List.append_nil]
      rfl
  | join o joiner rest ih =>
      obtain ⟨later, here, spelled⟩ := spelled
      have separate : (joiner.sql ++ rest.text false EvalKey.written).head? ≠ some '\'' := by
        cases joiner <;> exact (by decide : some ' ' ≠ some '\'')
      rw [EvalExpr.text, List.append_assoc, scanSql_operand here separate,
        scanSql_plain joiner.sql_plain, ih spelled, Option.map_some, Option.map_some,
        EvalExpr.around, List.append_assoc]

end Read

/-! ## The format for a repository -/

theorem knownLocally {key : EvalKey} (known : key.known true = true) : key.known false = true := by
  have column (column : EvalColumn) : (!(column.localOnly && false)) = true := by
    rw [Bool.and_false]
    rfl
  have list (list : EvalList) : (!(list.localOnly && false)) = true := by
    rw [Bool.and_false]
    rfl
  cases key with
  | column letter =>
      obtain ⟨found, isColumn, _⟩ := (Option.any_eq_true _ _).mp known
      exact (Option.any_eq_true _ _).mpr ⟨found, isColumn, column found⟩
  | nonEmpty letter =>
      obtain ⟨found, isList, _⟩ := (Option.any_eq_true _ _).mp known
      exact (Option.any_eq_true _ _).mpr ⟨found, isList, list found⟩
  | count letter =>
      obtain ⟨found, isList, _⟩ := (Option.any_eq_true _ _).mp known
      exact (Option.any_eq_true _ _).mpr ⟨found, isList, list found⟩

/-- What a repository is asked, the local database can be asked. -/
theorem spelledLocally {e : EvalExpr} {s : List Char} (spelled : e.Spelled true s) :
    e.Spelled false s := by
  have operand {operand : EvalOperand} {s later : List Char}
      (spelled : operand.Spelled true s later) : operand.Spelled false s later :=
    { spelled with known := knownLocally spelled.known }
  induction e generalizing s with
  | operand o => exact operand spelled
  | join o joiner rest ih =>
      obtain ⟨later, here, behind⟩ := spelled
      exact ⟨later, operand here, ih behind⟩

/-- Percent signs are doubled for the format. -/
theorem sbufPrintf_escape (c : Char) (f : List Char) :
    sbufPrintf (evalEscape true c ++ f) [] =
      (sbufPrintf f []).map (evalEscape false c ++ ·) := by
  by_cases percent : c = '%'
  · have doubled : evalEscape true c ++ f = '%' :: '%' :: f := by rw [percent]; rfl
    rw [doubled, sbufPrintf, if_pos rfl, percent]
    rfl
  · have same : evalEscape true c = evalEscape false c := by
      simp only [evalEscape, percent, false_and]
    have plain : '%' ∉ evalEscape false c := by
      unfold evalEscape
      split
      · decide
      · simpa using Ne.symm percent
    rw [same, sbufPrintf_plain plain]

theorem sbufPrintf_escaped (text f : List Char) :
    sbufPrintf (text.flatMap (evalEscape true) ++ f) [] =
      (sbufPrintf f []).map (text.flatMap (evalEscape false) ++ ·) := by
  induction text with
  | nil => exact Option.map_id'.symm
  | cons c text ih =>
      rw [List.flatMap_cons, List.flatMap_cons, List.append_assoc, sbufPrintf_escape, ih,
        Option.map_map]
      simp only [Function.comp_def, List.append_assoc]

theorem sbufPrintf_literal {isString : Bool} {literal : EvalLiteral}
    (valid : literal.Valid isString) (f : List Char) :
    sbufPrintf (literal.sql true ++ f) [] =
      (sbufPrintf f []).map (literal.sql false ++ ·) := by
  have string (text : List Char) : sbufPrintf (EvalLiteral.stringSql true text ++ f) [] =
      (sbufPrintf f []).map (EvalLiteral.stringSql false text ++ ·) := by
    have quote : '%' ∉ ['\''] := by decide
    rw [EvalLiteral.stringSql, List.append_assoc, List.append_assoc, sbufPrintf_plain quote,
      sbufPrintf_escaped, sbufPrintf_plain quote, Option.map_map, Option.map_map]
    simp only [Function.comp_def, EvalLiteral.stringSql, List.append_assoc]
  cases literal with
  | quoted text => exact string text
  | squoted text => exact string text
  | plain text => exact string text
  | digits text => exact sbufPrintf_plain (digits_plain valid.2.2).no_percent f []

theorem sbufPrintf_operand {operand : EvalOperand} {s later : List Char}
    (spelled : operand.Spelled true s later) (f : List Char) :
    sbufPrintf (operand.text true EvalKey.written ++ f) [] =
      (sbufPrintf f []).map (operand.text false EvalKey.written ++ ·) := by
  have brackets : SqlPlain (List.replicate operand.closes ')') := .replicate _ (by decide)
  rw [EvalOperand.text_eq, EvalOperand.text_eq, List.append_assoc, List.append_assoc,
    sbufPrintf_plain operand.front_plain.no_percent, sbufPrintf_literal spelled.valid,
    sbufPrintf_plain brackets.no_percent, Option.map_map, Option.map_map]
  simp only [Function.comp_def, List.append_assoc]

/-- The format prints the local text. -/
theorem sbufPrintf_expr {e : EvalExpr} {s : List Char} (spelled : e.Spelled true s) :
    sbufPrintf (e.text true EvalKey.written) [] = some (e.text false EvalKey.written) := by
  induction e generalizing s with
  | operand o =>
      have printed := sbufPrintf_operand spelled []
      rw [List.append_nil, sbufPrintf, Option.map_some, List.append_nil] at printed
      exact printed
  | join o joiner rest ih =>
      obtain ⟨later, here, spelled⟩ := spelled
      rw [EvalExpr.text, EvalExpr.text, List.append_assoc, sbufPrintf_operand here,
        sbufPrintf_plain joiner.sql_plain.no_percent, ih spelled, Option.map_some,
        Option.map_some, List.append_assoc]

/-! ### How long it is -/

/-- The characters of a literal in a format: apostrophes and percent signs are doubled, and
strings have quotes. -/
def EvalLiteral.formatLength : EvalLiteral → Nat
  | quoted text => text.length + text.count '\'' + text.count '%' + 2
  | squoted text => text.length + text.count '\'' + text.count '%' + 2
  | plain text => text.length + text.count '\'' + text.count '%' + 2
  | digits text => text.length

def EvalOperand.formatLength (operand : EvalOperand) : Nat :=
  operand.opens + operand.key.written.length + operand.op.sql.length +
    operand.literal.formatLength + operand.closes

def EvalExpr.formatLength : EvalExpr → Nat
  | operand o => o.formatLength
  | join o joiner rest => o.formatLength + joiner.sql.length + rest.formatLength

theorem length_escaped (text : List Char) :
    (text.flatMap (evalEscape true)).length =
      text.length + text.count '\'' + text.count '%' := by
  induction text with
  | nil => rfl
  | cons c text ih =>
      rw [List.flatMap_cons, List.length_append, ih, List.length_cons, List.count_cons,
        List.count_cons, evalEscape]
      by_cases apostrophe : c = '\''
      · simp [apostrophe]
        omega
      · by_cases percent : c = '%'
        · simp [percent]
          omega
        · simp [apostrophe, percent]
          omega

theorem length_text_format (e : EvalExpr) :
    (e.text true EvalKey.written).length = e.formatLength := by
  have string (text : List Char) : (EvalLiteral.stringSql true text).length =
      text.length + text.count '\'' + text.count '%' + 2 := by
    rw [EvalLiteral.stringSql, List.length_append, List.length_append, length_escaped,
      List.length_singleton]
    omega
  have literal (l : EvalLiteral) : (l.sql true).length = l.formatLength := by
    cases l with
    | digits text => rfl
    | _ => exact string _
  have operand (o : EvalOperand) : (o.text true EvalKey.written).length = o.formatLength := by
    simp only [EvalOperand.text, List.length_append, List.length_replicate, literal,
      EvalOperand.formatLength]
  induction e with
  | operand o => exact operand o
  | join o joiner rest ih =>
      rw [EvalExpr.text, List.length_append, List.length_append, operand, ih,
        EvalExpr.formatLength]

/-! ## The query for a repository -/

/-- The local condition has the texts of the user as its literals, and outside of these what the
expression has without them. -/
def StaysQuoted (str : List Char) : Prop :=
  ∀ sql, formatSqlCondition false str = some sql →
    (∃ e : EvalExpr, e.Spelled false str ∧ e.Balanced 0) ∧
      ∀ e : EvalExpr, e.Spelled false str → e.Balanced 0 → ∃ pieces,
        scanSql none sql = some pieces ∧ pieces.filterMap SqlPiece.text? = e.texts ∧
          pieces.map SqlPiece.erase = e.skeleton

/-- The query for a repository is made with the local condition. -/
def ExpandsToLocal (bufsiz : Nat) (repoName : List Char) (caseSensitive : Bool)
    (str : List Char) : Prop :=
  ∀ format, formatSqlCondition true str = some format →
    ∃ sql select, formatSqlCondition false str = some sql ∧
      sbufPrintf remoteSelect [repoName] = some select ∧
        ∀ prepares, pkgRepoBinaryQuery bufsiz prepares repoName caseSensitive format .condition =
          prepare prepares (select ++ sql ++ remoteOrder)

def NoInjection (bufsiz : Nat) (repoName : List Char) (caseSensitive : Bool)
    (str : List Char) : Prop :=
  StaysQuoted str ∧ ExpandsToLocal bufsiz repoName caseSensitive str

section Repository

variable {bufsiz : Nat} {repoName str : List Char} {caseSensitive : Bool}

theorem staysQuoted (str : List Char) : StaysQuoted str := by
  intro sql compiled
  obtain ⟨e, spelled, balanced, _⟩ := formatSqlCondition_iff.mp compiled
  refine ⟨⟨e, spelled, balanced⟩, fun e spelled balanced => ⟨e.pieces, ?_, ?_, ?_⟩⟩
  · have written := compiled.symm.trans (formatSqlCondition_expr spelled balanced)
    have start : SqlPlain " WHERE ".toList := by decide
    rw [Option.some.inj written, scanSql_plain start, scanSql_expr spelled]
    rfl
  · unfold EvalExpr.pieces
    rw [List.filterMap_append, filterMap_plain, e.texts_around, List.nil_append]
  · unfold EvalExpr.pieces EvalExpr.skeleton
    rw [List.map_append, map_erase_plain, e.erase_around]

/-- The printed condition is the local one exactly if nothing of the format is cut. -/
theorem prepared_iff (fits : remoteSelect.length < bufsiz) {format sql select : List Char}
    (nonempty : format ≠ []) (printed : sbufPrintf format [] = some sql)
    (filled : sbufPrintf remoteSelect [repoName] = some select) :
    (∀ prepares, pkgRepoBinaryQuery bufsiz prepares repoName caseSensitive format .condition =
        prepare prepares (select ++ sql ++ remoteOrder)) ↔
      remoteSelect.length + format.length < bufsiz := by
  have isSelect : select = remoteColumns ++ repoName ++ remoteTable := by
    have whole := sbufPrintf_remoteSelect repoName []
    rw [List.append_nil, filled, sbufPrintf, Option.map_some, List.append_nil] at whole
    exact Option.some.inj whole
  have asked : ¬(MatchType.condition ≠ .all ∧ format = []) := fun both => nonempty both.2
  simp only [pkgRepoBinaryQuery, if_neg asked, pkgdbGetPatternQuery]
  rw [fitBuffer, List.take_append, List.take_of_length_le (by omega), sbufPrintf_remoteSelect]
  constructor
  · intro same
    have same := same fun _ => true
    by_contra long
    cases cut : sbufPrintf (format.take (bufsiz - 1 - remoteSelect.length)) [] with
    | none =>
        rw [cut] at same
        cases same
    | some part =>
        have shorter := sbufPrintf_take (by omega) cut printed
        rw [cut] at same
        have texts := congrArg List.length (Query.prepared.inj same)
        simp only [isSelect, List.length_append] at texts
        omega
  · intro room prepares
    rw [List.take_of_length_le (by omega), printed, isSelect]
    rfl

theorem length_format {e : EvalExpr} {format : List Char} (spelled : e.Spelled true str)
    (balanced : e.Balanced 0) (compiled : formatSqlCondition true str = some format) :
    format.length = 7 + e.formatLength := by
  rw [formatSqlCondition_expr spelled balanced] at compiled
  have start : " WHERE ".toList.length = 7 := rfl
  rw [← Option.some.inj compiled, List.length_append, length_text_format, start]

theorem expandsToLocal_iff (fits : remoteSelect.length < bufsiz) (repoName : List Char)
    (caseSensitive : Bool) (str : List Char) :
    ExpandsToLocal bufsiz repoName caseSensitive str ↔
      ∀ e : EvalExpr, e.Spelled true str → e.Balanced 0 →
        remoteSelect.length + (7 + e.formatLength) < bufsiz := by
  have select := sbufPrintf_remoteSelect repoName []
  rw [List.append_nil, sbufPrintf, Option.map_some] at select
  have print {e : EvalExpr} (spelled : e.Spelled true str) :
      sbufPrintf (" WHERE ".toList ++ e.text true EvalKey.written) [] =
        some (" WHERE ".toList ++ e.text false EvalKey.written) := by
    rw [sbufPrintf_plain (by decide), sbufPrintf_expr spelled]
    rfl
  have nonempty (e : EvalExpr) : " WHERE ".toList ++ e.text true EvalKey.written ≠ [] :=
    List.cons_ne_nil _ _
  constructor
  · intro expands e spelled balanced
    have compiled := formatSqlCondition_expr spelled balanced
    have compiledLocally := formatSqlCondition_expr (spelledLocally spelled) balanced
    obtain ⟨sql, filled, isSql, isFilled, same⟩ := expands _ compiled
    cases isSql.symm.trans compiledLocally
    rw [← length_format spelled balanced compiled]
    exact (prepared_iff fits (nonempty e) (print spelled) isFilled).mp same
  · intro short format compiled
    obtain ⟨e, spelled, balanced, rfl⟩ := formatSqlCondition_iff.mp compiled
    have compiledLocally := formatSqlCondition_expr (spelledLocally spelled) balanced
    refine ⟨_, _, compiledLocally, select, ?_⟩
    refine (prepared_iff fits (nonempty e) (print spelled) select).mpr ?_
    rw [length_format spelled balanced compiled]
    exact short e spelled balanced

/-- The texts of the user never leave their quotes, as long as the buffer holds the condition. -/
theorem noInjection_iff (fits : remoteSelect.length < bufsiz) (repoName : List Char)
    (caseSensitive : Bool) (str : List Char) :
    NoInjection bufsiz repoName caseSensitive str ↔
      ∀ e : EvalExpr, e.Spelled true str → e.Balanced 0 →
        remoteSelect.length + (7 + e.formatLength) < bufsiz := by
  rw [NoInjection, and_iff_right (staysQuoted str)]
  exact expandsToLocal_iff fits repoName caseSensitive str

theorem percentName_noInjection :
    NoInjection 1024 "FreeBSD".toList true "%n = 100%".toList := by
  refine (noInjection_iff (remoteSelect_short.trans (by decide)) _ _ _).mpr fun e spelled balanced => ?_
  have solid : ∀ c ∈ "100%".toList, isspace c = false :=
    List.forall_mem_cons.mpr ⟨rfl, List.forall_mem_cons.mpr ⟨rfl,
      List.forall_mem_cons.mpr ⟨rfl, List.forall_mem_singleton.mpr rfl⟩⟩⟩
  have known : (EvalExpr.operand ⟨0, .column 'n', .eq, .plain "100%".toList, 0⟩).Spelled true
      "%n = 100%".toList :=
    ⟨⟨[], [' '], [' '], none, [], rfl, .nil, List.forall_mem_singleton.mpr rfl,
      fun _ => by decide, List.forall_mem_singleton.mpr rfl, ⟨rfl, fun _ => rfl⟩, .nil⟩, rfl, rfl,
      ⟨rfl, List.cons_ne_nil _ _, solid, by simp, by simp⟩⟩
  have compiled := formatSqlCondition_expr known rfl
  have same := length_format spelled balanced compiled
  have short := length_format known rfl compiled
  have formatLength : (EvalExpr.operand ⟨0, .column 'n', .eq, .plain "100%".toList, 0⟩).formatLength
      = 12 := by decide
  rw [← same, short, formatLength]
  exact (Nat.add_lt_add_right remoteSelect_short _).trans (by decide)

theorem nameEquals_spelled {text : List Char} (nonempty : text ≠ [])
    (letters : ∀ c ∈ text, c = 'a') :
    (EvalExpr.operand ⟨0, .column 'n', .eq, .plain text, 0⟩).Spelled true
      ("%n=".toList ++ text) := by
  obtain ⟨c, text, rfl⟩ := List.exists_cons_of_ne_nil nonempty
  have first : c = 'a' := letters c List.mem_cons_self
  have solid : ∀ d ∈ c :: text, isspace d = false := fun d member => by rw [letters d member]; rfl
  refine ⟨⟨[], [], [], none, [], ?_, .nil, List.forall_mem_nil _, fun _ => ?_,
    List.forall_mem_nil _, ⟨rfl, fun _ => rfl⟩, .nil⟩, rfl, rfl, ⟨rfl, nonempty, solid, ?_, ?_⟩⟩
  · simp [EvalKey.spelling, EvalOp.spelling, EvalLiteral.spelling]
  all_goals
    rw [first]
    simp [EvalLiteral.spelling]

/-- `%n=aa...a` with 1024 letters: the buffer ends in the name. -/
theorem longName_injected :
    ¬NoInjection 1024 "FreeBSD".toList true ("%n=".toList ++ List.replicate 1024 'a') := by
  intro safe
  have nonempty : List.replicate 1024 'a' ≠ [] := List.cons_ne_nil _ _
  have spelled := nameEquals_spelled nonempty fun c member => List.eq_of_mem_replicate member
  have fits : remoteSelect.length < 1024 := remoteSelect_short.trans (by decide)
  have short := (expandsToLocal_iff fits _ _ _).mp safe.2 _ spelled rfl
  have long : 1024 ≤ (EvalExpr.operand
      ⟨0, .column 'n', .eq, .plain (List.replicate 1024 'a'), 0⟩).formatLength := by
    simp only [EvalExpr.formatLength, EvalOperand.formatLength, EvalLiteral.formatLength,
      List.length_replicate]
    omega
  exact absurd short (by
    rw [Nat.not_lt]
    exact long.trans ((Nat.le_add_left _ 7).trans (Nat.le_add_left _ _)))

end Repository

end Pkgng
