import Mathlib.Data.List.Sort

/-!
# Stability of insertion sort

Elements that a sort has no reason to exchange stay in their order.
-/

set_option autoImplicit false

namespace Pkgng.Lib

variable {α : Type} {le : α → α → Prop} [DecidableRel le] {order : α → α → Prop}

/-- An insertion keeps a relation between earlier and later elements that the new
element has to all others, and that an element it passes has to it. -/
theorem pairwise_orderedInsert {x : α} : ∀ {list : List α}, list.Pairwise order →
    (∀ y ∈ list, order x y) → (∀ y ∈ list, ¬ le x y → order y x) →
    (list.orderedInsert le x).Pairwise order := by
  intro list
  induction list with
  | nil => exact fun _ _ _ => List.pairwise_singleton order x
  | cons y rest ih =>
      intro sorted first passed
      rw [List.orderedInsert_cons]
      split
      · exact List.pairwise_cons.mpr ⟨first, sorted⟩
      · next notLe =>
          obtain ⟨yFirst, sortedRest⟩ := List.pairwise_cons.mp sorted
          refine List.pairwise_cons.mpr ⟨fun z member => ?_, ih sortedRest
            (fun z member => first z (List.mem_cons_of_mem _ member))
            fun z member => passed z (List.mem_cons_of_mem _ member)⟩
          rcases (List.mem_orderedInsert le).mp member with rfl | inRest
          · exact passed y (List.mem_cons_self ..) notLe
          · exact yFirst z inRest

/-- A relation between earlier and later elements survives the sort if elements
in the wrong order for it need no exchange. -/
theorem pairwise_insertionSort : ∀ {list : List α},
    (∀ x ∈ list, ∀ y ∈ list, ¬ le x y → order y x) → list.Pairwise order →
    (list.insertionSort le).Pairwise order := by
  intro list
  induction list with
  | nil => exact fun _ sorted => sorted
  | cons x rest ih =>
      intro keeps sorted
      obtain ⟨first, sortedRest⟩ := List.pairwise_cons.mp sorted
      have inRest : ∀ y ∈ rest.insertionSort le, y ∈ rest := fun y member =>
        (List.mem_insertionSort le).mp member
      rw [List.insertionSort_cons]
      exact pairwise_orderedInsert
        (ih (fun y inY z inZ => keeps y (List.mem_cons_of_mem _ inY) z
          (List.mem_cons_of_mem _ inZ)) sortedRest)
        (fun y member => first y (inRest y member))
        fun y member => keeps x (List.mem_cons_self ..) y (List.mem_cons_of_mem _ (inRest y member))

end Pkgng.Lib
