import Mathlib.Data.List.Basic

/-!
# Clauses over Boolean variables

Conjunctive normal forms as lists of clauses, and the meaning of the two clause
shapes from which dependency problems are built: a choice forced by a variable,
and the exclusion of two variables.
-/

set_option autoImplicit false

namespace Pkgng.Lib

/-- A variable and the truth value that satisfies the literal. -/
structure Literal (ν : Type) where
  var : ν
  sign : Bool
deriving DecidableEq, Repr

abbrev Clause (ν : Type) := List (Literal ν)

abbrev Formula (ν : Type) := List (Clause ν)

variable {ν : Type} {σ : ν → Bool}

def Literal.Holds (σ : ν → Bool) (literal : Literal ν) : Prop := σ literal.var = literal.sign

def Clause.Holds (σ : ν → Bool) (clause : Clause ν) : Prop := ∃ literal ∈ clause, literal.Holds σ

def Formula.Holds (σ : ν → Bool) (formula : Formula ν) : Prop :=
  ∀ clause ∈ formula, Clause.Holds σ clause

/-- No two different variables of the list are true. -/
def AtMostOne (σ : ν → Bool) (vars : List ν) : Prop :=
  ∀ a ∈ vars, ∀ b ∈ vars, σ a = true → σ b = true → a = b

namespace Clause

theorem holds_append {left right : Clause ν} :
    Clause.Holds σ (left ++ right) ↔ Clause.Holds σ left ∨ Clause.Holds σ right := by
  simp only [Clause.Holds, List.mem_append, or_and_right, exists_or]

theorem holds_positive {vars : List ν} :
    Clause.Holds σ (vars.map (Literal.mk · true)) ↔ ∃ b ∈ vars, σ b = true := by
  simp [Clause.Holds, Literal.Holds]

theorem holds_negative {a : ν} : Clause.Holds σ [Literal.mk a false] ↔ σ a = false := by
  simp [Clause.Holds, Literal.Holds]

/-- `¬ a ∨ b₁ ∨ … ∨ bₙ`. -/
theorem holds_choice {a : ν} {vars : List ν} :
    Clause.Holds σ (vars.map (Literal.mk · true) ++ [Literal.mk a false]) ↔
      (σ a = true → ∃ b ∈ vars, σ b = true) := by
  rw [holds_append, holds_positive, holds_negative]
  cases value : σ a with
  | false => simp
  | true => simp

/-- `¬ b ∨ ¬ a`. -/
theorem holds_exclusion {a b : ν} :
    Clause.Holds σ [Literal.mk b false, Literal.mk a false] ↔ ¬ (σ a = true ∧ σ b = true) := by
  cases first : σ a <;> cases second : σ b <;> simp [Clause.Holds, Literal.Holds, first, second]

end Clause

namespace Formula

@[simp] theorem holds_nil : Formula.Holds σ [] := by simp [Formula.Holds]

theorem holds_cons {clause : Clause ν} {rest : Formula ν} :
    Formula.Holds σ (clause :: rest) ↔ Clause.Holds σ clause ∧ Formula.Holds σ rest := by
  simp [Formula.Holds]

end Formula

theorem atMostOne_cons {a : ν} {rest : List ν} (fresh : a ∉ rest) :
    AtMostOne σ (a :: rest) ↔
      (σ a = true → ∀ b ∈ rest, σ b = false) ∧ AtMostOne σ rest := by
  constructor
  · intro atMost
    refine ⟨fun chosen b member => ?_, fun b inRest c inRest' => ?_⟩
    · cases value : σ b with
      | false => rfl
      | true =>
          have same := atMost a (List.mem_cons_self ..) b (List.mem_cons_of_mem _ member) chosen value
          exact absurd (same ▸ member) fresh
    · exact atMost b (List.mem_cons_of_mem _ inRest) c (List.mem_cons_of_mem _ inRest')
  · rintro ⟨headAlone, atMost⟩ b inB c inC chosenB chosenC
    rcases List.mem_cons.mp inB with rfl | restB
    · rcases List.mem_cons.mp inC with rfl | restC
      · rfl
      · rw [headAlone chosenB c restC] at chosenC
        cases chosenC
    · rcases List.mem_cons.mp inC with rfl | restC
      · rw [headAlone chosenC b restB] at chosenB
        cases chosenB
      · exact atMost b restB c restC chosenB chosenC

end Pkgng.Lib
