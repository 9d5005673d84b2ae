import Mathlib.Data.List.Basic
import Mathlib.Tactic.SplitIfs

/-!
# The DIMACS format

A problem in DIMACS CNF: a header line with the number of variables and of
clauses, then each clause as its nonzero literals and a closing zero.  Reading
back what was written gives the problem again.
-/

set_option autoImplicit false

namespace Pkgng.Lib

structure Dimacs where
  vars : Nat
  declared : Nat
  clauses : List (List Int)
deriving DecidableEq, Repr

namespace Dimacs

/-- The literal as `%d` prints it. -/
def renderInt (value : Int) : List Char :=
  if value < 0 then '-' :: Nat.toDigits 10 value.natAbs else Nat.toDigits 10 value.natAbs

def renderClause (clause : List Int) : List Char :=
  clause.flatMap (fun literal => renderInt literal ++ [' ']) ++ ['0', '\n']

def header (vars declared : Nat) : List Char :=
  ['p', ' ', 'c', 'n', 'f', ' '] ++ Nat.toDigits 10 vars ++ ' ' :: Nat.toDigits 10 declared

def render (problem : Dimacs) : List Char :=
  header problem.vars problem.declared ++ '\n' :: problem.clauses.flatMap renderClause

def readNat (word : List Char) : Option Nat :=
  if word ≠ [] ∧ word.all Char.isDigit then some (Nat.ofDigitChars 10 word 0) else none

def readInt : List Char → Option Int
  | '-' :: word => Option.map (fun value : Nat => -(value : Int)) (readNat word)
  | word => Option.map (fun value : Nat => (value : Int)) (readNat word)

/-- A line holds the literals of one clause and ends in zero. -/
def parseClause (line : List Char) : Option (List Int) := do
  let values ← (line.splitOn ' ').mapM readInt
  if values.getLast? = some 0 then some values.dropLast else none

def parseHeader (line : List Char) : Option (Nat × Nat) :=
  match line.splitOn ' ' with
  | [['p'], ['c', 'n', 'f'], vars, declared] => do
      let vars ← readNat vars
      let declared ← readNat declared
      some (vars, declared)
  | _ => none

def parse (text : List Char) : Option Dimacs :=
  match text.splitOn '\n' with
  | first :: lines => do
      let (vars, declared) ← parseHeader first
      let clauses ← lines.dropLast.mapM parseClause
      if lines.getLast? = some [] then some ⟨vars, declared, clauses⟩ else none
  | [] => none

theorem readNat_toDigits (value : Nat) : readNat (Nat.toDigits 10 value) = some value := by
  have digits : (Nat.toDigits 10 value).all Char.isDigit = true :=
    List.all_eq_true.mpr fun c member =>
      Nat.isDigit_of_mem_toDigits (by decide) (by decide) member
  rw [readNat, if_pos ⟨Nat.toDigits_ne_nil, digits⟩,
    Nat.ofDigitChars_toDigits (by decide) (by decide)]

/-- No digit is a separator or a sign. -/
theorem notMem_toDigits {c : Char} (notDigit : c.isDigit = false) (value : Nat) :
    c ∉ Nat.toDigits 10 value := by
  intro member
  rw [Nat.isDigit_of_mem_toDigits (by decide) (by decide) member] at notDigit
  cases notDigit

theorem readInt_renderInt (value : Int) : readInt (renderInt value) = some value := by
  rw [renderInt]
  split_ifs with negative
  · rw [readInt, readNat_toDigits, Option.map_some]
    congr 1
    omega
  · have unsigned : readInt (Nat.toDigits 10 value.natAbs) =
        Option.map (fun value : Nat => (value : Int))
          (readNat (Nat.toDigits 10 value.natAbs)) := by
      cases spelled : Nat.toDigits 10 value.natAbs with
      | nil => rfl
      | cons c rest =>
          have notSign : c ≠ '-' := by
            rintro rfl
            exact notMem_toDigits rfl value.natAbs (spelled ▸ List.mem_cons_self ..)
          unfold readInt
          split
          · next same => exact absurd (List.cons.inj same).1 notSign
          · rfl
    rw [unsigned, readNat_toDigits, Option.map_some]
    congr 1
    omega

theorem notMem_renderInt {c : Char} (notDigit : c.isDigit = false) (notSign : c ≠ '-')
    (value : Int) : c ∉ renderInt value := by
  rw [renderInt]
  split_ifs
  · rw [List.mem_cons, not_or]
    exact ⟨notSign, notMem_toDigits notDigit _⟩
  · exact notMem_toDigits notDigit _

/-- The words of a clause line, without its line end. -/
theorem splitOn_clause (clause : List Int) :
    (clause.flatMap (fun literal => renderInt literal ++ [' ']) ++ ['0']).splitOn ' ' =
      clause.map renderInt ++ [['0']] := by
  induction clause with
  | nil => decide
  | cons literal rest ih =>
      rw [List.flatMap_cons, List.append_assoc, List.append_assoc, List.singleton_append,
        List.splitOn_append_cons_self_of_not_mem (notMem_renderInt rfl (by decide) literal), ih]
      rfl

theorem mapM_readInt (clause : List Int) :
    (clause.map renderInt ++ [['0']]).mapM readInt = some (clause ++ [0]) := by
  induction clause with
  | nil => decide
  | cons literal rest ih => simp [readInt_renderInt, ih]

theorem parseClause_renderClause (clause : List Int) :
    parseClause (clause.flatMap (fun literal => renderInt literal ++ [' ']) ++ ['0']) =
      some clause := by
  rw [parseClause, splitOn_clause, mapM_readInt]
  simp

theorem parseHeader_header (vars declared : Nat) :
    parseHeader (header vars declared) = some (vars, declared) := by
  have words : (header vars declared).splitOn ' ' =
      [['p'], ['c', 'n', 'f'], Nat.toDigits 10 vars, Nat.toDigits 10 declared] := by
    have first : header vars declared = ['p'] ++ ' ' :: (['c', 'n', 'f'] ++ ' ' ::
        (Nat.toDigits 10 vars ++ ' ' :: Nat.toDigits 10 declared)) := by simp [header]
    rw [first, List.splitOn_append_cons_self_of_not_mem (by decide),
      List.splitOn_append_cons_self_of_not_mem (by decide),
      List.splitOn_append_cons_self_of_not_mem (notMem_toDigits rfl vars),
      List.splitOn_eq_singleton (notMem_toDigits rfl declared)]
  simp [parseHeader, words, readNat_toDigits]

theorem splitOn_clauses (clauses : List (List Int)) :
    (clauses.flatMap renderClause).splitOn '\n' =
      clauses.map (fun clause =>
        clause.flatMap (fun literal => renderInt literal ++ [' ']) ++ ['0']) ++ [[]] := by
  induction clauses with
  | nil => rfl
  | cons clause rest ih =>
      have lineEnd : renderClause clause ++ rest.flatMap renderClause =
          (clause.flatMap (fun literal => renderInt literal ++ [' ']) ++ ['0']) ++
            '\n' :: rest.flatMap renderClause := by simp [renderClause]
      have inLine : '\n' ∉ clause.flatMap (fun literal => renderInt literal ++ [' ']) ++ ['0'] := by
        rw [List.mem_append, List.mem_flatMap, not_or]
        refine ⟨?_, by decide⟩
        rintro ⟨literal, _, member⟩
        rw [List.mem_append] at member
        exact member.elim (notMem_renderInt rfl (by decide) literal) (by decide)
      rw [List.flatMap_cons, lineEnd, List.splitOn_append_cons_self_of_not_mem inLine, ih]
      rfl

theorem mapM_parseClause (clauses : List (List Int)) :
    (clauses.map fun clause =>
      clause.flatMap (fun literal => renderInt literal ++ [' ']) ++ ['0']).mapM parseClause =
        some clauses := by
  induction clauses with
  | nil => rfl
  | cons clause rest ih => simp [parseClause_renderClause, ih]

theorem parse_render (problem : Dimacs) : parse (render problem) = some problem := by
  have inHeader : '\n' ∉ header problem.vars problem.declared := by
    have digits : ∀ value, '\n' ∉ Nat.toDigits 10 value := notMem_toDigits rfl
    simp [header, digits]
  rw [parse, render, List.splitOn_append_cons_self_of_not_mem inHeader, splitOn_clauses]
  simp only [parseHeader_header, List.dropLast_concat, mapM_parseClause, List.getLast?_concat,
    Option.bind_eq_bind, Option.bind_some, if_true]

end Dimacs

end Pkgng.Lib
