import Mathlib.Data.List.DropRight
import Pkgng.Lib.CStrings

/-!
# Encoded texts

`urlencode` and `urldecode`.  A text is a list of bytes, each given as the character with its
number; the buffer that `urldecode` fills is returned with whether it was finished.
-/

set_option autoImplicit false

namespace Pkgng

open Lib

/-- A byte string without NUL. -/
def ByteString (s : List Char) : Prop := ∀ c ∈ s, c.toNat ≠ 0 ∧ c.toNat < 256

/-- What `%%%.2x` prints of a byte. -/
def percentByte (c : Char) : List Char :=
  ['%', Nat.digitChar (c.toNat / 16), Nat.digitChar (c.toNat % 16)]

/-- `!isascii(c) || c == '%'` -/
def needsPercent (c : Char) : Bool := 128 ≤ c.toNat || c = '%'

def urlencode (src : List Char) : List Char :=
  src.flatMap fun c => if needsPercent c then percentByte c else [c]

/-! ## Decoding -/

def xdigitValue (c : Char) : Option Nat :=
  if c.isDigit then some (c.toNat - 48)
  else if 'a' ≤ c.toLower && c.toLower ≤ 'f' then some (c.toLower.toNat - 87)
  else none

/-- `strtol(s, NULL, 16)` of at most two characters, where a digit cannot follow `0x`; none
where `errno` is set. -/
def strtolHex (s : List Char) : Option Int :=
  let digits := (signed s).2.map xdigitValue |>.takeWhile Option.isSome |>.reduceOption
  let n : Int := digits.foldl (fun n d => 16 * n + d) 0
  if digits = [] then none else some (if (signed s).1 then -n else n)

/-- The conversion to `char`, as the number of a byte. -/
def toByte (n : Int) : Char := Char.ofNat (n % 256).toNat

/-- What the characters behind a percent sign are replaced by. -/
def hexByte (hex : List Char) : List Char :=
  match strtolHex hex with
  | none => '%' :: hex
  | some n => [toByte n]

/-- `urldecode`: the buffer, and whether it is finished. -/
def urldecode (src : List Char) : List Char × Bool :=
  match src with
  | [] => ([], true)
  | c :: rest =>
      if c ≠ '%' then (c :: (urldecode rest).1, (urldecode rest).2)
      else if rest = [] then ([], false)
      else (hexByte (rest.take 2) ++ (urldecode (rest.drop 2)).1, (urldecode (rest.drop 2)).2)
termination_by src.length
decreasing_by
  all_goals simp only [List.length_cons, List.length_drop]; omega

/-- What a reader of the buffer takes for the string. -/
def cstring (buffer : List Char) : List Char := buffer.takeWhile fun c => c.toNat ≠ 0

theorem urlencode_nil : urlencode [] = [] := rfl

theorem urlencode_cons (c : Char) (rest : List Char) :
    urlencode (c :: rest) = (if needsPercent c then percentByte c else [c]) ++ urlencode rest :=
  List.flatMap_cons

theorem hexByte_percentByte {c : Char} (byte : c.toNat < 256) :
    hexByte [Nat.digitChar (c.toNat / 16), Nat.digitChar (c.toNat % 16)] = [c] := by
  have all : ∀ n < 256, hexByte [Nat.digitChar (n / 16), Nat.digitChar (n % 16)] =
      [Char.ofNat n] := by decide +kernel
  rw [all c.toNat byte, Char.ofNat_toNat]

theorem urldecode_urlencode {s : List Char} (bytes : ByteString s) :
    urldecode (urlencode s) = (s, true) := by
  induction s with
  | nil => rw [urlencode_nil, urldecode]
  | cons c rest ih =>
      have tail := ih fun d member => bytes d (List.mem_cons_of_mem _ member)
      rw [urlencode_cons]
      by_cases percent : needsPercent c = true
      · have more : [Nat.digitChar (c.toNat / 16), Nat.digitChar (c.toNat % 16)] ++
            urlencode rest ≠ [] := by simp
        rw [if_pos percent, percentByte, List.cons_append, urldecode, if_neg (not_not.mpr rfl),
          if_neg more]
        change (hexByte [_, _] ++ (urldecode (urlencode rest)).1, _) = _
        rw [hexByte_percentByte (bytes c (List.mem_cons_self ..)).2]
        simp [tail]
      · have other : c ≠ '%' := fun same => percent (by simp [needsPercent, same])
        rw [if_neg percent, List.singleton_append, urldecode, if_pos other, tail]

theorem cstring_bytes {s : List Char} (bytes : ByteString s) : cstring s = s :=
  List.takeWhile_eq_self_iff.mpr fun c member => by simpa using (bytes c member).1

/-! ## Texts that encoding leaves alone -/

/-- ASCII characters other than the percent sign. -/
def Unencoded (s : List Char) : Prop := ∀ c ∈ s, needsPercent c = false

instance (s : List Char) : Decidable (Unencoded s) :=
  inferInstanceAs (Decidable (∀ c ∈ s, needsPercent c = false))

theorem length_le_urlencode (s : List Char) : s.length ≤ (urlencode s).length := by
  induction s with
  | nil => exact Nat.le_refl 0
  | cons c rest ih =>
      rw [urlencode_cons, List.length_append, List.length_cons]
      split
      · simp only [percentByte, List.length_cons, List.length_nil]
        omega
      · rw [List.length_singleton]
        omega

theorem urlencode_eq_self_iff {s : List Char} : urlencode s = s ↔ Unencoded s := by
  induction s with
  | nil => simp [urlencode, Unencoded]
  | cons c rest ih =>
      rw [urlencode_cons, Unencoded, List.forall_mem_cons, ← Unencoded, ← ih]
      cases percent : needsPercent c with
      | false => simp
      | true =>
          have longer := length_le_urlencode rest
          constructor
          · intro same
            have lengths := congrArg List.length same
            simp only [if_true, percentByte, List.length_append, List.length_cons,
              List.length_nil] at lengths
            omega
          · intro plain
            cases plain.1

/-! ## White space -/

/-- The text that `ucl_object_fromstring_common` stores under `UCL_STRING_TRIM`. -/
def uclTrim (text : List Char) : List Char := (text.dropWhile isspace).rdropWhile isspace

/-- A text without white space at its start and end. -/
def Trimmed (text : List Char) : Prop :=
  (∀ c ∈ text.head?, isspace c = false) ∧ ∀ c ∈ text.getLast?, isspace c = false

theorem uclTrim_eq_self {text : List Char} (trimmed : Trimmed text) : uclTrim text = text := by
  have front : text.dropWhile isspace = text := by
    cases text with
    | nil => rfl
    | cons c rest =>
        rw [List.dropWhile_cons_of_neg]
        rw [trimmed.1 c rfl]
        exact Bool.false_ne_true
  rw [uclTrim, front, List.rdropWhile_eq_self_iff]
  intro nonempty space
  rw [trimmed.2 _ (List.getLast?_eq_some_getLast nonempty)] at space
  cases space

theorem digitChar_not_space (n : Nat) : isspace (Nat.digitChar (n % 16)) = false := by
  have all : ∀ d < 16, isspace (Nat.digitChar d) = false := by decide
  exact all _ (Nat.mod_lt n (by decide))

theorem Trimmed.urlencode {text : List Char} (trimmed : Trimmed text) :
    Trimmed (urlencode text) := by
  constructor
  · cases text with
    | nil => intro c isHead; cases isHead
    | cons c rest =>
        have first := trimmed.1 c rfl
        rw [urlencode_cons]
        intro d isHead
        split at isHead
        · cases isHead
          decide
        · cases isHead
          exact first
  · rcases List.eq_nil_or_concat text with rfl | ⟨front, c, rfl⟩
    · intro c isLast
      cases isLast
    · have last := trimmed.2 c (by simp)
      rw [List.concat_eq_append, Pkgng.urlencode, List.flatMap_append, List.flatMap_singleton]
      intro d isLast
      split at isLast
      · rw [percentByte, List.getLast?_append_of_ne_nil _ (List.cons_ne_nil _ _)] at isLast
        cases isLast
        exact digitChar_not_space _
      · rw [List.getLast?_append_of_ne_nil _ (List.cons_ne_nil _ _)] at isLast
        cases isLast
        exact last

end Pkgng
