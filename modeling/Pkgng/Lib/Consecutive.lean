import Mathlib.Data.List.Nodup
import Mathlib.Data.List.Perm.Subperm

/-!
# Ranges one behind the other

A row of ranges, each of which begins where the one before it ends, has every number between its
two ends exactly once.
-/

set_option autoImplicit false

namespace Pkgng.Lib

/-- The numbers from `start` on, `count` of them. -/
structure Range where
  start : Nat
  count : Nat
deriving DecidableEq, Repr

def Range.covers (range : Range) (item : Nat) : Bool :=
  range.start ≤ item && item < range.start + range.count

/-- The ranges lead from the first number to the second. -/
inductive Consecutive : Nat → List Range → Nat → Prop
  | nil (start : Nat) : Consecutive start [] start
  | cons {start count stop : Nat} {rest : List Range}
      (later : Consecutive (start + count) rest stop) :
      Consecutive start (⟨start, count⟩ :: rest) stop

theorem Consecutive.le {start stop : Nat} {ranges : List Range}
    (consecutive : Consecutive start ranges stop) : start ≤ stop := by
  induction consecutive with
  | nil => exact Nat.le_refl _
  | cons _ ih => omega

theorem Consecutive.inside {start stop : Nat} {ranges : List Range}
    (consecutive : Consecutive start ranges stop) :
    ∀ range ∈ ranges, range.start + range.count ≤ stop := by
  induction consecutive with
  | nil => exact List.forall_mem_nil _
  | cons later ih => exact List.forall_mem_cons.mpr ⟨later.le, ih⟩

/-- How many ranges have a number. -/
theorem Consecutive.countP {start stop : Nat} {ranges : List Range}
    (consecutive : Consecutive start ranges stop) (item : Nat) :
    ranges.countP (·.covers item) = if start ≤ item ∧ item < stop then 1 else 0 := by
  induction consecutive with
  | nil start =>
      rw [List.countP_nil, if_neg]
      omega
  | @cons start count stop rest later ih =>
      have behind := later.le
      rw [List.countP_cons, ih]
      simp only [Range.covers, Bool.and_eq_true, decide_eq_true_eq]
      split
      · split
        · omega
        · rw [if_pos (by omega)]
      · split
        · rw [if_pos (by omega)]
        · rw [if_neg (by omega)]

/-- Short ranges do not reach far. -/
theorem le_of_covered {ranges : List Range} {len bound : Nat}
    (covered : ∀ item < len, ∃ range ∈ ranges, range.covers item = true)
    (short : ∀ range ∈ ranges, range.count ≤ bound) : len ≤ bound * ranges.length := by
  have subset : List.range len ⊆
      ranges.flatMap fun range => List.range' range.start range.count := by
    intro item member
    obtain ⟨range, listed, covers⟩ := covered item (List.mem_range.mp member)
    rw [Range.covers, Bool.and_eq_true, decide_eq_true_eq, decide_eq_true_eq] at covers
    exact List.mem_flatMap.mpr ⟨range, listed, List.mem_range'_1.mpr covers⟩
  have all : len ≤ (ranges.flatMap fun range => List.range' range.start range.count).length := by
    have counted := (List.nodup_range.subperm subset).length_le
    rwa [List.length_range] at counted
  refine Nat.le_trans all ?_
  clear covered subset all
  induction ranges with
  | nil => exact Nat.zero_le _
  | cons range ranges ih =>
      obtain ⟨first, others⟩ := List.forall_mem_cons.mp short
      have rest := ih others
      rw [List.flatMap_cons, List.length_append, List.length_range', List.length_cons, Nat.mul_add,
        Nat.mul_one]
      omega

end Pkgng.Lib
