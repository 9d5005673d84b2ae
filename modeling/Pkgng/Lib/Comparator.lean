import Mathlib.Data.List.Basic
import Mathlib.Data.Char
import Mathlib.Order.Compare

/-!
# C comparison functions

A comparison function of C answers with the sign of an integer.  `Comparator` says that it
is the comparison of a total preorder.
-/

set_option autoImplicit false

namespace Pkgng.Lib

/-- The sign a comparison function returns. -/
def ordResult : Ordering → Int
  | .lt => -1
  | .eq => 0
  | .gt => 1

theorem ordResult_then (first second : Ordering) :
    ordResult (first.then second) =
      if ordResult first = 0 then ordResult second else ordResult first := by
  cases first <;> rfl

theorem ordResult_compareInt (x y : Int) :
    ordResult (compare x y) = if x ≠ y then if x < y then -1 else 1 else 0 := by
  rcases Int.lt_trichotomy x y with less | same | greater
  · rw [Int.compare_eq_lt.mpr less, if_pos (by omega), if_pos less]
    rfl
  · rw [Int.compare_eq_eq.mpr same, if_neg (by omega)]
    rfl
  · rw [Int.compare_eq_gt.mpr greater, if_pos (by omega), if_neg (by omega)]
    rfl

theorem ordResult_compareNat (x y : Nat) :
    ordResult (compare x y) = if x ≠ y then if x < y then -1 else 1 else 0 := by
  rcases Nat.lt_trichotomy x y with less | same | greater
  · rw [Nat.compare_eq_lt.mpr less, if_pos (by omega), if_pos less]
    rfl
  · rw [Nat.compare_eq_eq.mpr same, if_neg (by omega)]
    rfl
  · rw [Nat.compare_eq_gt.mpr greater, if_pos (by omega), if_neg (by omega)]
    rfl

structure Comparator {α : Type} (cmp : α → α → Int) : Prop where
  sign : ∀ x y, cmp x y = -1 ∨ cmp x y = 0 ∨ cmp x y = 1
  self : ∀ x, cmp x x = 0
  swap : ∀ x y, cmp x y = -cmp y x
  trans : ∀ x y z, cmp x y ≤ 0 → cmp y z ≤ 0 → cmp x z ≤ 0
  congr : ∀ x y z, cmp x y = 0 → cmp x z = cmp y z

theorem ordResult_nonpos (order : Ordering) : ordResult order ≤ 0 ↔ order.isLE = true := by
  cases order <;> simp [ordResult]

theorem ordResult_zero (order : Ordering) : ordResult order = 0 ↔ order = .eq := by
  cases order <;> simp [ordResult]

theorem comparator_ordResult {α : Type} (order : α → α → Ordering) [Std.TransCmp order] :
    Comparator fun x y => ordResult (order x y) where
  sign x y := by cases order x y <;> simp [ordResult]
  self x := congrArg ordResult (@Std.ReflCmp.compare_self _ order _ x)
  swap x y := by
    have swapped := @Std.OrientedCmp.eq_swap _ order _ x y
    rw [swapped]
    cases order y x <;> rfl
  trans x y z first second := by
    rw [ordResult_nonpos] at *
    exact Std.TransCmp.isLE_trans first second
  congr x y z same := by
    rw [ordResult_zero] at same
    rw [Std.TransCmp.congr_left same]

/-! ## Strings -/

/-- `strcmp`; of its result only the sign is documented. -/
def strcmp : List Char → List Char → Int
  | [], [] => 0
  | [], _ :: _ => -1
  | _ :: _, [] => 1
  | a :: s, b :: t => if a = b then strcmp s t else if a < b then -1 else 1

theorem strcmp_eq : ∀ s t : List Char, strcmp s t = ordResult (List.compareLex compare s t)
  | [], [] => rfl
  | [], _ :: _ => rfl
  | _ :: _, [] => rfl
  | a :: s, b :: t => by
      rw [strcmp, strcmp_eq s t, List.compareLex_cons_cons]
      rcases lt_trichotomy a b with less | same | greater
      · rw [if_neg less.ne, if_pos less, compare_lt_iff_lt.mpr less]
        rfl
      · rw [if_pos same, compare_eq_iff_eq.mpr same]
        rfl
      · rw [if_neg greater.ne', if_neg greater.not_gt, compare_gt_iff_gt.mpr greater]
        rfl

theorem strcmp_zero {s t : List Char} : strcmp s t = 0 ↔ s = t := by
  rw [strcmp_eq, ordResult_zero, Std.LawfulEqCmp.compare_eq_iff_eq]

theorem comparator_strcmp : Comparator strcmp := by
  have same : strcmp = fun s t => ordResult (List.compareLex compare s t) :=
    funext fun s => funext fun t => strcmp_eq s t
  rw [same]
  exact comparator_ordResult _

theorem strcmp_of_prefix : ∀ {p s : List Char}, p <+: s → strcmp p s ≤ 0
  | [], [], _ => Int.le_refl 0
  | [], _ :: _, _ => Int.neg_nonpos_of_nonneg (Int.one_nonneg)
  | _ :: _, [], starts => absurd starts (by simp)
  | a :: p, b :: s, starts => by
      obtain ⟨rfl, later⟩ := List.cons_prefix_cons.mp starts
      rw [strcmp, if_pos rfl]
      exact strcmp_of_prefix later

def strncmp (s t : List Char) (n : Nat) : Int := strcmp (s.take n) (t.take n)

theorem strncmp_cons (a b : Char) (s t : List Char) (n : Nat) :
    strncmp (a :: s) (b :: t) (n + 1) =
      if a = b then strncmp s t n else if a < b then -1 else 1 := rfl

/-- A string that is less on the length of another one is less. -/
theorem strcmp_of_strncmp : ∀ {s t : List Char}, strcmp (s.take t.length) t < 0 → strcmp s t < 0
  | [], [], less => less
  | [], _ :: _, less => less
  | _ :: _, [], less => by cases less
  | a :: s, b :: t, less => by
      rw [List.length_cons, List.take_succ_cons, strcmp] at less
      rw [strcmp]
      by_cases same : a = b
      · rw [if_pos same] at less ⊢
        exact strcmp_of_strncmp less
      · rw [if_neg same] at less ⊢
        exact less

/-- `strcmp` compares up to the shorter length, and then the lengths. -/
theorem strcmp_eq_strncmp : ∀ s t : List Char, strcmp s t =
    if strncmp s t (min s.length t.length) = 0 then
      if s.length < t.length then -1 else if s.length > t.length then 1 else 0
    else strncmp s t (min s.length t.length)
  | [], [] => rfl
  | [], _ :: _ => by simp [strcmp, strncmp]
  | _ :: _, [] => by simp [strcmp, strncmp]
  | a :: s, b :: t => by
      rw [List.length_cons, List.length_cons, Nat.succ_min_succ, strncmp_cons, strcmp]
      by_cases same : a = b
      · simp only [if_pos same, strcmp_eq_strncmp s t, Nat.succ_lt_succ_iff, gt_iff_lt]
      · rw [if_neg same, if_neg same]
        by_cases less : a < b
        · rw [if_pos less, if_neg (by decide)]
        · rw [if_neg less, if_neg (by decide)]

/-! ## Sorting -/

/-- What `qsort` makes of a list; elements that compare equal come in any order. -/
structure IsQsort {α : Type} (cmp : α → α → Int) (list sorted : List α) : Prop where
  perm : sorted.Perm list
  ordered : sorted.Pairwise fun x y => cmp x y ≤ 0

theorem Comparator.exists_qsort {α : Type} {cmp : α → α → Int} (order : Comparator cmp)
    (list : List α) : ∃ sorted, IsQsort cmp list sorted := by
  refine ⟨list.mergeSort fun x y => decide (cmp x y ≤ 0), List.mergeSort_perm .., ?_⟩
  have ordered := @List.pairwise_mergeSort _ (fun x y => decide (cmp x y ≤ 0))
    (fun x y z first second => by
      rw [decide_eq_true_eq] at *
      exact order.trans x y z first second)
    (fun x y => by
      have swap := order.swap x y
      rw [Bool.or_eq_true, decide_eq_true_eq, decide_eq_true_eq]
      omega) list
  exact ordered.imp of_decide_eq_true

end Pkgng.Lib
