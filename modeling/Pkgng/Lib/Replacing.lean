import Mathlib.Data.List.Basic

/-!
# Replacing rows

A table whose insertions remove the rows they clash with.  After a list of insertions
a row is there if no later insertion clashes with it.
-/

set_option autoImplicit false

namespace Pkgng.Lib

section Replacing

variable {α : Type} (clash : α → α → Prop) [DecidableRel clash]

/-- The rows after an insertion. -/
def replaceInto (rows : List α) (new : α) : List α :=
  rows.filter (fun old => ¬clash new old) ++ [new]

/-- An occurrence of `x` in the list that no later element clashes with. -/
def Survives (xs : List α) (x : α) : Prop :=
  ∃ before after, xs = before ++ x :: after ∧ ∀ y ∈ after, ¬clash y x

variable {clash}

theorem mem_replaceInto {rows : List α} {new x : α} :
    x ∈ replaceInto clash rows new ↔ (x ∈ rows ∧ ¬clash new x) ∨ x = new := by
  simp [replaceInto]

omit [DecidableRel clash] in
theorem survives_cons {xs : List α} {first x : α} :
    Survives clash (first :: xs) x ↔
      (x = first ∧ ∀ y ∈ xs, ¬clash y first) ∨ Survives clash xs x := by
  constructor
  · rintro ⟨before, after, split, apart⟩
    cases before with
    | nil =>
        obtain ⟨same, rest⟩ := List.cons.inj split
        rw [same, rest]
        exact Or.inl ⟨rfl, apart⟩
    | cons head before =>
        obtain ⟨_, rest⟩ := List.cons.inj split
        exact Or.inr ⟨before, after, rest, apart⟩
  · rintro (⟨same, apart⟩ | ⟨before, after, split, apart⟩)
    · rw [same]
      exact ⟨[], xs, rfl, apart⟩
    · exact ⟨first :: before, after, by rw [split, List.cons_append], apart⟩

omit [DecidableRel clash] in
theorem Survives.mem {xs : List α} {x : α} (survives : Survives clash xs x) : x ∈ xs := by
  obtain ⟨before, after, split, _⟩ := survives
  rw [split]
  exact List.mem_append_right before List.mem_cons_self

/-- What a list of insertions leaves. -/
theorem mem_replaceAll {rows news : List α} {x : α} :
    x ∈ news.foldl (replaceInto clash) rows ↔
      (x ∈ rows ∧ ∀ y ∈ news, ¬clash y x) ∨ Survives clash news x := by
  induction news generalizing rows with
  | nil =>
      have none : ¬Survives clash [] x := fun survives => absurd survives.mem List.not_mem_nil
      simp [none]
  | cons new news ih =>
      rw [List.foldl_cons, ih, mem_replaceInto, survives_cons, List.forall_mem_cons]
      constructor
      · rintro (⟨⟨old, apart⟩ | same, rest⟩ | later)
        · exact Or.inl ⟨old, apart, rest⟩
        · rw [same] at rest ⊢
          exact Or.inr (Or.inl ⟨rfl, rest⟩)
        · exact Or.inr (Or.inr later)
      · rintro (⟨old, apart, rest⟩ | ⟨same, rest⟩ | later)
        · exact Or.inl ⟨Or.inl ⟨old, apart⟩, rest⟩
        · rw [same]
          exact Or.inl ⟨Or.inr rfl, rest⟩
        · exact Or.inr later

omit [DecidableRel clash] in
theorem survives_append {xs ys : List α} {x : α} :
    Survives clash (xs ++ ys) x ↔
      (Survives clash xs x ∧ ∀ y ∈ ys, ¬clash y x) ∨ Survives clash ys x := by
  induction xs with
  | nil =>
      have none : ¬Survives clash [] x := fun survives => absurd survives.mem List.not_mem_nil
      simp [none]
  | cons first xs ih =>
      rw [List.cons_append, survives_cons, survives_cons, ih, List.forall_mem_append]
      constructor
      · rintro (⟨same, here, later⟩ | ⟨inRest, later⟩ | inLater)
        · rw [same]
          exact Or.inl ⟨Or.inl ⟨rfl, here⟩, later⟩
        · exact Or.inl ⟨Or.inr inRest, later⟩
        · exact Or.inr inLater
      · rintro (⟨⟨same, here⟩ | inRest, later⟩ | inLater)
        · rw [same] at later
          exact Or.inl ⟨same, here, later⟩
        · exact Or.inr (Or.inl ⟨inRest, later⟩)
        · exact Or.inr (Or.inr inLater)

omit [DecidableRel clash] in
theorem survives_of_pairwise {xs : List α} (apart : xs.Pairwise fun a b => ¬clash b a) {x : α} :
    Survives clash xs x ↔ x ∈ xs := by
  induction xs with
  | nil =>
      have none : ¬Survives clash [] x := fun survives => absurd survives.mem List.not_mem_nil
      simp [none]
  | cons first xs ih =>
      rw [List.pairwise_cons] at apart
      rw [survives_cons, ih apart.2, List.mem_cons]
      constructor
      · rintro (⟨same, _⟩ | inRest)
        · exact Or.inl same
        · exact Or.inr inRest
      · rintro (same | inRest)
        · exact Or.inl ⟨same, apart.1⟩
        · exact Or.inr inRest

/-- Insertions into rows that do not clash leave what survives in the whole list. -/
theorem mem_replaceAll_of_pairwise {rows news : List α}
    (apart : rows.Pairwise fun a b => ¬clash b a) {x : α} :
    x ∈ news.foldl (replaceInto clash) rows ↔ Survives clash (rows ++ news) x := by
  rw [mem_replaceAll, survives_append, survives_of_pairwise apart]

/-- The last element with a property, if there is one. -/
theorem exists_last {xs : List α} {P : α → Prop} (some : ∃ x ∈ xs, P x) :
    ∃ before x after, xs = before ++ x :: after ∧ P x ∧ ∀ y ∈ after, ¬P y := by
  induction xs with
  | nil => simp at some
  | cons first xs ih =>
      by_cases later : ∃ x ∈ xs, P x
      · obtain ⟨before, x, after, split, holds, apart⟩ := ih later
        exact ⟨first :: before, x, after, by rw [split, List.cons_append], holds, apart⟩
      · refine ⟨[], first, xs, rfl, ?_, fun y member holds => later ⟨y, member, holds⟩⟩
        obtain ⟨x, member, holds⟩ := some
        rcases List.mem_cons.mp member with rfl | inRest
        · exact holds
        · exact absurd ⟨x, inRest, holds⟩ later

section Keys

variable {κ : Type} (key : α → κ)

/-- The last element of each key clashes with no later one. -/
def LastOfKeyStays (clash : α → α → Prop) (xs : List α) : Prop :=
  ∀ before x after, xs = before ++ x :: after → (∀ y ∈ after, key y ≠ key x) →
    ∀ y ∈ after, ¬clash y x

variable {key}

omit [DecidableRel clash] in
/-- An element with the key of a replaced last one does not survive. -/
theorem not_survives_of_last (sameKey : ∀ a b, key a = key b → clash a b) {xs before after : List α}
    {x y z : α} (split : xs = before ++ x :: after) (last : ∀ y ∈ after, key y ≠ key x)
    (later : y ∈ after) (clashes : clash y x) (same : key z = key x) : ¬Survives clash xs z := by
  rintro ⟨before', after', split', apart⟩
  rw [split, List.append_eq_append_iff] at split'
  rcases split' with ⟨mid, _, rest⟩ | ⟨mid, _, rest⟩
  · cases mid with
    | nil =>
        obtain ⟨here, tail⟩ := List.cons.inj rest
        subst here tail
        exact apart y later clashes
    | cons head mid =>
        obtain ⟨_, tail⟩ := List.cons.inj rest
        rw [tail] at last
        exact last z (List.mem_append_right mid List.mem_cons_self) same
  · cases mid with
    | nil =>
        obtain ⟨here, tail⟩ := List.cons.inj rest
        subst here tail
        exact apart y later clashes
    | cons head mid =>
        obtain ⟨_, tail⟩ := List.cons.inj rest
        rw [tail] at apart
        exact apart x (List.mem_append_right mid List.mem_cons_self) (sameKey x z same.symm)

omit [DecidableRel clash] in
/-- All keys survive exactly when the last element of each does. -/
theorem keys_survive_iff (sameKey : ∀ a b, key a = key b → clash a b) {xs : List α} :
    (∀ x ∈ xs, ∃ z, Survives clash xs z ∧ key z = key x) ↔ LastOfKeyStays key clash xs := by
  constructor
  · intro survive before x after split last y later clashes
    have member : x ∈ xs := by
      rw [split]
      exact List.mem_append_right before List.mem_cons_self
    obtain ⟨z, survives, same⟩ := survive x member
    exact not_survives_of_last sameKey split last later clashes same survives
  · intro stays x member
    obtain ⟨before, z, after, split, same, last⟩ :=
      exists_last (P := fun z => key z = key x) ⟨x, member, rfl⟩
    refine ⟨z, ⟨before, after, split, stays before z after split ?_⟩, same⟩
    intro y later
    rw [same]
    exact last y later

omit [DecidableRel clash] in
/-- Elements that clash only with those of their own key all stay. -/
theorem lastOfKeyStays_of_pairwise {xs : List α}
    (apart : xs.Pairwise fun a b => key b ≠ key a → ¬clash b a) :
    LastOfKeyStays key clash xs := by
  intro before x after split last y later
  rw [split, List.pairwise_append] at apart
  exact (List.pairwise_cons.mp apart.2.1).1 y later (last y later)

end Keys

end Replacing

end Pkgng.Lib
