import Mathlib.Algebra.GroupWithZero.Nat
import Mathlib.Data.List.Infix

/-!
# Occurrences of a token in a text

`strstr` finds the first occurrence of a token.  Taken from one occurrence to the next it parts a
text into pieces without the token, and replacing the token puts another text between them.
-/

set_option autoImplicit false

namespace Pkgng.Lib

variable {α : Type} [DecidableEq α]

/-- What stands before the first occurrence of the token, and what behind it. -/
def strstr (token : List α) : List α → Option (List α × List α)
  | [] => if token = [] then some ([], []) else none
  | c :: rest =>
      if token.isPrefixOf (c :: rest) then some ([], (c :: rest).drop token.length)
      else (strstr token rest).map fun found => (c :: found.1, found.2)

/-- The pieces between the first `n` occurrences, one after the other from the left. -/
def tokenPieces (token : List α) : Nat → List α → List (List α)
  | 0, text => [text]
  | n + 1, text =>
      match strstr token text with
      | none => [text]
      | some (front, behind) => front :: tokenPieces token n behind

/-- The pieces between all occurrences; there are at most as many as characters. -/
def piecesOf (token text : List α) : List (List α) := tokenPieces token text.length text

/-- Every occurrence of the token is replaced. -/
def replaceToken (token by' text : List α) : List α := by'.intercalate (piecesOf token text)

variable {token : List α}

theorem strstr_some {text front behind : List α} (found : strstr token text = some (front, behind)) :
    text = front ++ (token ++ behind) := by
  induction text generalizing front with
  | nil =>
      rw [strstr] at found
      split at found
      · next empty =>
          cases found
          rw [empty]
          rfl
      · cases found
  | cons c rest ih =>
      rw [strstr] at found
      split at found
      · next isPrefix =>
          cases found
          obtain ⟨later, split⟩ := List.isPrefixOf_iff_prefix.mp isPrefix
          rw [← split, List.drop_left, List.nil_append]
      · obtain ⟨⟨front', behind'⟩, later, same⟩ := Option.map_eq_some_iff.mp found
        cases same
        rw [ih later, List.cons_append]

theorem strstr_eq_none_iff {text : List α} : strstr token text = none ↔ ¬token <:+: text := by
  induction text with
  | nil =>
      rw [strstr, List.infix_nil]
      split <;> simpa
  | cons c rest ih =>
      rw [strstr, List.infix_cons_iff, not_or]
      split
      · next isPrefix => simpa using fun no => absurd (List.isPrefixOf_iff_prefix.mp isPrefix) no
      · next notPrefix =>
          rw [Option.map_eq_none_iff, ih]
          exact ⟨fun later => ⟨fun no => notPrefix (List.isPrefixOf_iff_prefix.mpr no), later⟩,
            And.right⟩

/-- The occurrence found is the first one. -/
theorem strstr_front {text front behind : List α} (nonempty : token ≠ [])
    (found : strstr token text = some (front, behind)) : ¬token <:+: front := by
  induction text generalizing front with
  | nil =>
      rw [strstr, if_neg nonempty] at found
      cases found
  | cons c rest ih =>
      rw [strstr] at found
      split at found
      · cases found
        exact fun within => nonempty (List.infix_nil.mp within)
      · next notPrefix =>
          obtain ⟨⟨front', behind'⟩, later, same⟩ := Option.map_eq_some_iff.mp found
          cases same
          rw [List.infix_cons_iff, not_or]
          refine ⟨fun starts => notPrefix (List.isPrefixOf_iff_prefix.mpr ?_), ih later⟩
          rw [strstr_some later]
          exact starts.trans ⟨_, rfl⟩

/-! ## Pieces -/

theorem tokenPieces_ne_nil (token : List α) (n : Nat) (text : List α) :
    tokenPieces token n text ≠ [] := by
  cases n with
  | zero => exact List.cons_ne_nil _ _
  | succ n =>
      rw [tokenPieces]
      split <;> exact List.cons_ne_nil _ _

theorem tokenPieces_intercalate (n : Nat) (text : List α) :
    token.intercalate (tokenPieces token n text) = text := by
  induction n generalizing text with
  | zero => exact List.intercalate_singleton
  | succ n ih =>
      cases found : strstr token text with
      | none =>
          simp only [tokenPieces, found]
          exact List.intercalate_singleton
      | some pair =>
          simp only [tokenPieces, found]
          rw [List.intercalate_cons_of_ne_nil (tokenPieces_ne_nil token n pair.2), ih,
            strstr_some found, List.append_assoc]

theorem token_not_in_pieces (nonempty : token ≠ []) {n : Nat} {text : List α}
    (enough : text.length ≤ n) : ∀ piece ∈ tokenPieces token n text, ¬token <:+: piece := by
  induction n generalizing text with
  | zero =>
      rw [List.length_eq_zero_iff.mp (Nat.le_zero.mp enough)]
      intro piece member
      rw [List.mem_singleton.mp member]
      exact fun within => nonempty (List.infix_nil.mp within)
  | succ n ih =>
      cases found : strstr token text with
      | none =>
          simp only [tokenPieces, found]
          intro piece member
          rw [List.mem_singleton.mp member]
          exact strstr_eq_none_iff.mp found
      | some pair =>
          simp only [tokenPieces, found]
          refine List.forall_mem_cons.mpr ⟨strstr_front nonempty found, ih ?_⟩
          have lengths := congrArg List.length (strstr_some found)
          have longer := List.length_pos_iff.mpr nonempty
          rw [List.length_append, List.length_append] at lengths
          omega

omit [DecidableEq α] in
/-- A sum over the characters of a text with a separator between its pieces. -/
theorem additive_intercalate {f : List α → Nat} (additive : ∀ a b, f (a ++ b) = f a + f b)
    (separator : List α) {pieces : List (List α)} (nonempty : pieces ≠ []) :
    f (separator.intercalate pieces) + f separator =
      (pieces.map f).sum + pieces.length * f separator := by
  induction pieces with
  | nil => exact absurd rfl nonempty
  | cons piece rest ih =>
      cases rest with
      | nil => simp [List.intercalate_singleton]
      | cons next rest =>
          have later := ih (List.cons_ne_nil _ _)
          rw [List.intercalate_cons_of_ne_nil (List.cons_ne_nil _ _), additive, additive,
            List.map_cons, List.sum_cons, List.length_cons, Nat.add_mul, Nat.one_mul]
          omega

/-- What a replacement changes, once for each occurrence. -/
theorem additive_replaceToken {f : List α → Nat} (additive : ∀ a b, f (a ++ b) = f a + f b)
    (token by' text : List α) :
    f (replaceToken token by' text) + ((piecesOf token text).length - 1) * f token =
      f text + ((piecesOf token text).length - 1) * f by' := by
  have nonempty := tokenPieces_ne_nil token text.length text
  have before := additive_intercalate additive token nonempty
  have after := additive_intercalate additive by' nonempty
  rw [tokenPieces_intercalate] at before
  obtain ⟨n, count⟩ : ∃ n, (tokenPieces token text.length text).length = n + 1 :=
    ⟨_, (Nat.sub_add_cancel (List.length_pos_iff.mpr nonempty)).symm⟩
  unfold replaceToken piecesOf
  rw [count, Nat.add_mul, Nat.one_mul] at before after
  rw [count, Nat.add_sub_cancel]
  omega

end Pkgng.Lib
