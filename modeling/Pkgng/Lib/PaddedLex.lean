import Mathlib.Data.List.Basic
import Mathlib.Order.Defs.LinearOrder

/-!
# Lexicographic comparison with padding

Two lists are compared entry by entry, the shorter one continued with a fixed entry.  The
comparison of any three lists is the lexicographic one on their first entries, as many as
the longest has; so it is a preorder whenever the comparison of entries is one.
-/

set_option autoImplicit false

namespace Pkgng.Lib

variable {α : Type} (cmp : α → α → Ordering) (pad : α)

def padCompare : List α → List α → Ordering
  | [], [] => .eq
  | [], y :: ys => (cmp pad y).then (padCompare [] ys)
  | x :: xs, [] => (cmp x pad).then (padCompare xs [])
  | x :: xs, y :: ys => (cmp x y).then (padCompare xs ys)
termination_by xs ys => xs.length + ys.length

/-- The lexicographic comparison of the first `n` entries. -/
def padCompareFirst : Nat → List α → List α → Ordering
  | 0 => fun _ _ => .eq
  | n + 1 =>
      compareLex (fun xs ys => cmp (xs.headD pad) (ys.headD pad))
        (fun xs ys => padCompareFirst n xs.tail ys.tail)

@[simp] theorem padCompare_nil_nil : padCompare cmp pad [] [] = .eq := by
  rw [padCompare]

@[simp] theorem padCompare_cons_cons (x y : α) (xs ys : List α) :
    padCompare cmp pad (x :: xs) (y :: ys) = (cmp x y).then (padCompare cmp pad xs ys) := by
  rw [padCompare]

theorem padCompare_cons_nil (x : α) (xs : List α) :
    padCompare cmp pad (x :: xs) [] = (cmp x pad).then (padCompare cmp pad xs []) := by
  rw [padCompare]

theorem padCompare_nil_cons (y : α) (ys : List α) :
    padCompare cmp pad [] (y :: ys) = (cmp pad y).then (padCompare cmp pad [] ys) := by
  rw [padCompare]

section Preorder

variable {β : Type}

instance transCmp_comap [Std.TransCmp cmp] (f : β → α) :
    Std.TransCmp fun x y => cmp (f x) (f y) where
  eq_swap := Std.OrientedCmp.eq_swap
  isLE_trans := Std.TransCmp.isLE_trans

variable [Std.TransCmp cmp]

theorem transCmp_padCompareFirst (n : Nat) : Std.TransCmp (padCompareFirst cmp pad n) := by
  induction n with
  | zero => exact { eq_swap := rfl, isLE_trans := fun _ _ => rfl }
  | succ n ih =>
      have tails : Std.TransCmp fun xs ys : List α => padCompareFirst cmp pad n xs.tail ys.tail :=
        transCmp_comap _ List.tail
      unfold padCompareFirst
      infer_instance

/-- From the longer length on, the number of entries does not matter. -/
theorem padCompareFirst_eq {n : Nat} : ∀ {xs ys : List α}, xs.length ≤ n → ys.length ≤ n →
    padCompareFirst cmp pad n xs ys = padCompare cmp pad xs ys := by
  have same : cmp pad pad = .eq := Std.ReflCmp.compare_self
  induction n with
  | zero =>
      intro xs ys xsShort ysShort
      rw [List.length_eq_zero_iff.mp (Nat.le_zero.mp xsShort),
        List.length_eq_zero_iff.mp (Nat.le_zero.mp ysShort), padCompare_nil_nil]
      rfl
  | succ n ih =>
      intro xs ys xsShort ysShort
      have tails := @ih xs.tail ys.tail (by simp; omega) (by simp; omega)
      rw [padCompareFirst, compareLex, tails]
      cases xs with
      | nil =>
          cases ys with
          | nil => simp [same]
          | cons y ys => simp [padCompare_nil_cons]
      | cons x xs =>
          cases ys with
          | nil => simp [padCompare_cons_nil]
          | cons y ys => simp

instance transCmp_padCompare : Std.TransCmp (padCompare cmp pad) where
  eq_swap := by
    intro xs ys
    have first := transCmp_padCompareFirst cmp pad (max xs.length ys.length)
    rw [← padCompareFirst_eq cmp pad (Nat.le_max_left _ _) (Nat.le_max_right _ _),
      ← padCompareFirst_eq cmp pad (Nat.le_max_right xs.length _) (Nat.le_max_left _ _)]
    exact first.eq_swap
  isLE_trans := by
    intro xs ys zs lower upper
    have first :=
      transCmp_padCompareFirst cmp pad (max xs.length (max ys.length zs.length))
    rw [← padCompareFirst_eq cmp pad (n := max xs.length (max ys.length zs.length)) (by omega)
      (by omega)] at lower upper ⊢
    exact first.isLE_trans lower upper

end Preorder

end Pkgng.Lib
