import Mathlib.Combinatorics.Hall.Basic

/-!
# Distinct draws

Numbers are drawn one after the other, the `j`-th of them from the naturals below the `j`-th
of a list of ranges, and all of them are to be different.
-/

set_option autoImplicit false

namespace Pkgng.Lib

/-- There are different numbers, each below its range. -/
def Drawable (ranges : List Nat) : Prop :=
  ∃ draws : List Nat, draws.Nodup ∧ List.Forall₂ (· < ·) draws ranges

/-- At most `k` of the ranges are `k` or less, for every `k`. -/
def SpreadOut (ranges : List Nat) : Prop := ∀ k, ranges.countP (· ≤ k) ≤ k

instance (ranges : List Nat) : Decidable (SpreadOut ranges) :=
  decidable_of_iff (∀ k < ranges.length, ranges.countP (· ≤ k) ≤ k)
    ⟨fun small k => if below : k < ranges.length then small k below
      else List.countP_le_length.trans (Nat.le_of_not_lt below), fun all k _ => all k⟩

theorem Drawable.take {ranges : List Nat} (drawable : Drawable ranges) (n : Nat) :
    Drawable (ranges.take n) := by
  obtain ⟨draws, distinct, below⟩ := drawable
  exact ⟨draws.take n, distinct.sublist (List.take_sublist n draws),
    List.forall₂_take n below⟩

/-- The ranges as the index set of Hall's theorem sees them. -/
theorem countP_eq_card (ranges : List Nat) (k : Nat) :
    ranges.countP (· ≤ k) =
      (Finset.univ.filter fun j : Fin ranges.length => ranges.get j ≤ k).card := by
  have listed : ranges = (List.finRange ranges.length).map ranges.get := by
    rw [List.map_get_finRange]
  conv => lhs; rw [listed]
  rw [List.countP_map, List.countP_eq_length_filter]
  rfl

/-- Hall's condition for the ranges. -/
theorem drawable_iff_injective (ranges : List Nat) :
    Drawable ranges ↔ ∃ f : Fin ranges.length → Nat, Function.Injective f ∧
      ∀ j, f j ∈ Finset.range (ranges.get j) := by
  constructor
  · rintro ⟨draws, distinct, below⟩
    have same := below.length_eq
    refine ⟨fun j => draws.get (j.cast same.symm), fun i j equal => ?_, fun j => ?_⟩
    · have := List.nodup_iff_injective_get.mp distinct equal
      exact Fin.ext (Fin.mk.inj this)
    · exact Finset.mem_range.mpr (below.get _ _)
  · rintro ⟨f, injective, below⟩
    refine ⟨List.ofFn f, List.nodup_ofFn.mpr injective, ?_⟩
    rw [List.forall₂_iff_get]
    refine ⟨by simp, fun j inDraws inRanges => ?_⟩
    simpa using below ⟨j, inRanges⟩

theorem drawable_iff (ranges : List Nat) : Drawable ranges ↔ SpreadOut ranges := by
  rw [drawable_iff_injective, ← Finset.all_card_le_biUnion_card_iff_exists_injective]
  constructor
  · intro hall k
    rw [countP_eq_card]
    refine (hall _).trans ?_
    have inRange : (Finset.univ.filter fun j : Fin ranges.length => ranges.get j ≤ k).biUnion
        (fun j => Finset.range (ranges.get j)) ⊆ Finset.range k := by
      intro n member
      obtain ⟨j, small, below⟩ := Finset.mem_biUnion.mp member
      rw [Finset.mem_range] at below ⊢
      exact below.trans_le (Finset.mem_filter.mp small).2
    exact (Finset.card_le_card inRange).trans (Finset.card_range k).le
  · intro spread s
    rcases s.eq_empty_or_nonempty with rfl | nonempty
    · exact Nat.zero_le _
    · -- The largest range of the set contains all the others.
      obtain ⟨largest, member, isLargest⟩ := s.exists_max_image ranges.get nonempty
      have among : s ⊆ Finset.univ.filter fun j => ranges.get j ≤ ranges.get largest :=
        fun j inSet => Finset.mem_filter.mpr ⟨Finset.mem_univ j, isLargest j inSet⟩
      calc s.card ≤ _ := Finset.card_le_card among
        _ = ranges.countP (· ≤ ranges.get largest) := (countP_eq_card ranges _).symm
        _ ≤ ranges.get largest := spread _
        _ = (Finset.range (ranges.get largest)).card := (Finset.card_range _).symm
        _ ≤ _ := Finset.card_le_card
            (Finset.subset_biUnion_of_mem (fun j => Finset.range (ranges.get j)) member)

end Pkgng.Lib
