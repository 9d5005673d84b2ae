import Mathlib.Data.List.Basic

/-!
# Shell patterns

`fnmatch` without flags, in a locale whose characters are bytes.  A pattern is read into
tokens first; a bracket that is not closed stands for itself.
-/

set_option autoImplicit false

namespace Pkgng.Lib

inductive GlobToken
  | char (c : Char)
  | any
  | star
  | range (negate : Bool) (elements : List (Char × Char))
deriving DecidableEq, Repr

/-- A character of a bracket expression, which may be quoted. -/
def rangeChar : List Char → Option (Char × List Char)
  | [] => none
  | c :: rest =>
      if c = '\\' then rest.head?.map fun quoted => (quoted, rest.tail) else some (c, rest)

/-- The upper end of a range; without one it is the lower end. -/
def rangeEnd (low : Char) : List Char → Option (Char × List Char)
  | '-' :: c :: rest => if c = ']' then some (low, '-' :: c :: rest) else rangeChar (c :: rest)
  | rest => some (low, rest)

/-- The elements up to the closing bracket, which in the first place stands for itself, and the
rest of the pattern. -/
def rangeElements : Nat → Bool → List Char → Option (List (Char × Char) × List Char)
  | 0, _, _ => none
  | fuel + 1, first, pattern =>
      if pattern.head? = some ']' ∧ first = false then some ([], pattern.tail)
      else do
        let (low, rest) ← rangeChar pattern
        let (high, rest) ← rangeEnd low rest
        let (elements, rest) ← rangeElements fuel false rest
        some ((low, high) :: elements, rest)

/-- A bracket expression behind its bracket. -/
def bracketToken (pattern : List Char) : Option (GlobToken × List Char) :=
  let negate := pattern.head? = some '!' ∨ pattern.head? = some '^'
  let inner := if negate then pattern.tail else pattern
  (rangeElements inner.length true inner).map fun (elements, rest) =>
    (.range negate elements, rest)

/-- What a backslash quotes; at the end it stands for itself. -/
def quotedChar : List Char → Char × List Char
  | [] => ('\\', [])
  | c :: rest => (c, rest)

/-- The tokens of a pattern; each takes a character at least. -/
def globTokens : Nat → List Char → List GlobToken
  | 0, _ => []
  | _ + 1, [] => []
  | fuel + 1, c :: rest =>
      if c = '*' then .star :: globTokens fuel rest
      else if c = '?' then .any :: globTokens fuel rest
      else if c = '[' then
        match bracketToken rest with
        | some (token, rest) => token :: globTokens fuel rest
        | none => .char c :: globTokens fuel rest
      else if c = '\\' then .char (quotedChar rest).1 :: globTokens fuel (quotedChar rest).2
      else .char c :: globTokens fuel rest

def matchTokens : List GlobToken → List Char → Bool
  | [], s => s.isEmpty
  | .star :: tokens, s => s.tails.any fun rest => matchTokens tokens rest
  | _ :: _, [] => false
  | .char c :: tokens, d :: s => c == d && matchTokens tokens s
  | .any :: tokens, _ :: s => matchTokens tokens s
  | .range negate elements :: tokens, d :: s =>
      (elements.any (fun element => decide (element.1 ≤ d ∧ d ≤ element.2)) != negate) &&
        matchTokens tokens s

/-- `fnmatch(pattern, string, 0) == 0`. -/
def fnmatch (pattern string : List Char) : Bool :=
  matchTokens (globTokens pattern.length pattern) string

example : fnmatch "[!a-cx]?*.\\*".toList "d0.*".toList = true := by decide +kernel

/-- Characters that stand for nothing but themselves. -/
def IsLiteral (c : Char) : Prop := c ≠ '*' ∧ c ≠ '?' ∧ c ≠ '[' ∧ c ≠ '\\'

theorem globTokens_literal {front : List Char} (literal : ∀ c ∈ front, IsLiteral c)
    (rest : List Char) {fuel : Nat} (enough : front.length ≤ fuel) :
    globTokens fuel (front ++ rest) =
      front.map .char ++ globTokens (fuel - front.length) rest := by
  induction front generalizing fuel with
  | nil => rfl
  | cons c front ih =>
      cases fuel with
      | zero => exact absurd enough (Nat.not_succ_le_zero _)
      | succ fuel =>
          obtain ⟨star, any, bracket, quote⟩ := literal c List.mem_cons_self
          have later := ih (fun d member => literal d (List.mem_cons_of_mem _ member))
            (Nat.le_of_succ_le_succ enough)
          rw [List.cons_append, globTokens, if_neg star, if_neg any, if_neg bracket,
            if_neg quote, later, List.length_cons, Nat.succ_sub_succ]
          rfl

theorem matchTokens_literal {front s : List Char} {tokens : List GlobToken}
    (matched : matchTokens (front.map .char ++ tokens) s = true) : front <+: s := by
  induction front generalizing s with
  | nil => exact List.nil_prefix
  | cons c front ih =>
      cases s with
      | nil => cases matched
      | cons d s =>
          rw [List.map_cons, List.cons_append, matchTokens, Bool.and_eq_true, beq_iff_eq] at matched
          obtain ⟨rfl, later⟩ := matched
          exact List.cons_prefix_cons.mpr ⟨rfl, ih later⟩

/-- What a pattern matches starts with the literal characters that the pattern starts with. -/
theorem prefix_of_fnmatch {front rest s : List Char} (literal : ∀ c ∈ front, IsLiteral c)
    (matched : fnmatch (front ++ rest) s = true) : front <+: s := by
  have enough : front.length ≤ (front ++ rest).length := by
    rw [List.length_append]
    exact Nat.le_add_right ..
  rw [fnmatch, globTokens_literal literal rest enough] at matched
  exact matchTokens_literal matched

end Pkgng.Lib
