import Mathlib.Data.Option.Basic

/-!
# Two computations side by side

A computation that may come to nothing, and another one that does the same
wherever the first comes to a result.  Results keep an invariant; a parameter
says whether the first one has to come to a result at all, so the same rules
serve for termination and for refinement.
-/

set_option autoImplicit false

namespace Pkgng.Lib

variable {α β : Type} {total : Prop} {good good' : α → Prop} {x y : Option α}

/-- `y` follows `x`: it has all results of `x`, and these are good. -/
def Follows (total : Prop) (good : α → Prop) (x y : Option α) : Prop :=
  (total → x ≠ none) ∧ ∀ result, x = some result → y = some result ∧ good result

namespace Follows

theorem result {a : α} (holds : good a) : Follows total good (some a) (some a) :=
  ⟨fun _ => Option.some_ne_none a, fun _ same => by cases same; exact ⟨rfl, holds⟩⟩

theorem nothing (partly : ¬ total) (y : Option α) : Follows total good none y :=
  ⟨fun all => absurd all partly, fun _ none => by cases none⟩

theorem imp (follows : Follows total good x y) (weaker : ∀ a, good a → good' a) :
    Follows total good' x y :=
  ⟨follows.1, fun result ran => (follows.2 result ran).imp_right (weaker result)⟩

/-- What is known of the second computation may be added. -/
theorem and (follows : Follows total good x y) (also : ∀ result, y = some result → good' result) :
    Follows total (fun a => good a ∧ good' a) x y := by
  refine ⟨follows.1, fun result ran => ?_⟩
  obtain ⟨same, holds⟩ := follows.2 result ran
  exact ⟨same, holds, also result same⟩

theorem bind {good'' : β → Prop} {f g : α → Option β} (follows : Follows total good x y)
    (further : ∀ a, good a → Follows total good'' (f a) (g a)) :
    Follows total good'' (x >>= f) (y >>= g) := by
  constructor
  · intro all none
    cases ran : x with
    | none => exact follows.1 all ran
    | some a =>
        rw [ran, Option.bind_eq_bind, Option.bind_some] at none
        exact (further a (follows.2 a ran).2).1 all none
  · intro result ran
    obtain ⟨a, first, second⟩ := Option.bind_eq_some_iff.mp ran
    obtain ⟨same, holds⟩ := follows.2 a first
    rw [same]
    exact (further a holds).2 result second

/-- A total computation and what follows it have a common good result. -/
theorem exists_result (follows : Follows total good x y) (all : total) :
    ∃ a, x = some a ∧ y = some a ∧ good a := by
  obtain ⟨a, ran⟩ := Option.ne_none_iff_exists'.mp (follows.1 all)
  exact ⟨a, ran, follows.2 a ran⟩

end Follows

end Pkgng.Lib
