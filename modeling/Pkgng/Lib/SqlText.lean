import Mathlib.Data.List.Basic

/-!
# Texts of SQL

A text is read as characters that stand for themselves and string literals, in which two
apostrophes are one.  A literal that is not ended is refused, and so is any other character that
has a meaning of its own: quotes of identifiers, signs of comments, the end of a statement.
-/

set_option autoImplicit false

namespace Pkgng.Lib

/-- The characters of names, numbers, operators and brackets, and the space. -/
def isSqlPlain (c : Char) : Bool := c.isAlphanum || "_()*<>=!. ".toList.contains c

inductive SqlPiece
  | plain (c : Char)
  | literal (text : List Char)
deriving DecidableEq, Repr

/-- The text of a literal. -/
def SqlPiece.text? : SqlPiece → Option (List Char)
  | plain _ => none
  | literal text => some text

/-- A piece without the text of a literal. -/
def SqlPiece.erase : SqlPiece → SqlPiece
  | plain c => plain c
  | literal _ => literal []

/-- The pieces of a text; inside a literal, with what is read of it. -/
def scanSql : Option (List Char) → List Char → Option (List SqlPiece)
  | none, [] => some []
  | none, c :: s =>
      if c = '\'' then scanSql (some []) s
      else if isSqlPlain c then (scanSql none s).map (.plain c :: ·)
      else none
  | some _, [] => none
  | some text, '\'' :: '\'' :: s => scanSql (some (text ++ ['\''])) s
  | some text, c :: s =>
      if c = '\'' then (scanSql none s).map (.literal text :: ·)
      else scanSql (some (text ++ [c])) s

/-- An apostrophe in a literal is doubled. -/
def sqlEscape (c : Char) : List Char := if c = '\'' then ['\'', '\''] else [c]

def sqlLiteral (text : List Char) : List Char := ['\''] ++ text.flatMap sqlEscape ++ ['\'']

section Scan

variable {text later : List Char}

theorem scanSql_plain (plain : ∀ c ∈ text, isSqlPlain c = true) :
    scanSql none (text ++ later) = (scanSql none later).map (text.map SqlPiece.plain ++ ·) := by
  induction text with
  | nil => exact Option.map_id'.symm
  | cons c text ih =>
      obtain ⟨here, behind⟩ := List.forall_mem_cons.mp plain
      have noApostrophe : c ≠ '\'' := by
        rintro rfl
        exact absurd here (by decide)
      rw [List.cons_append, scanSql, if_neg noApostrophe, if_pos here, ih behind, Option.map_map]
      rfl

theorem scanSql_closed (read : List Char) (separate : later.head? ≠ some '\'') :
    scanSql (some read) ('\'' :: later) = (scanSql none later).map (.literal read :: ·) := by
  have single : ∀ s, '\'' = '\'' → later = '\'' :: s → False := by
    rintro s _ rfl
    exact separate rfl
  exact (scanSql.eq_5 read '\'' later single).trans (if_pos rfl)

theorem scanSql_inside (read : List Char) (separate : later.head? ≠ some '\'') :
    scanSql (some read) (text.flatMap sqlEscape ++ '\'' :: later) =
      (scanSql none later).map (.literal (read ++ text) :: ·) := by
  induction text generalizing read with
  | nil =>
      rw [List.flatMap_nil, List.nil_append, List.append_nil, scanSql_closed read separate]
  | cons c text ih =>
      rw [List.flatMap_cons, sqlEscape]
      split
      · next apostrophe =>
          rw [apostrophe, List.append_assoc, List.cons_append, List.cons_append, List.nil_append,
            scanSql, ih, List.append_assoc]
          rfl
      · next other =>
          rw [List.append_assoc, List.cons_append, List.nil_append, scanSql, if_neg other, ih,
            List.append_assoc]
          · rfl
          · intro s same _
            exact other same

/-- A literal is read back, where no apostrophe follows it. -/
theorem scanSql_literal (separate : later.head? ≠ some '\'') :
    scanSql none (sqlLiteral text ++ later) =
      (scanSql none later).map (.literal text :: ·) := by
  have opened : sqlLiteral text ++ later = '\'' :: (text.flatMap sqlEscape ++ '\'' :: later) := by
    simp [sqlLiteral]
  rw [opened, scanSql, if_pos rfl, scanSql_inside [] separate, List.nil_append]

end Scan

end Pkgng.Lib
