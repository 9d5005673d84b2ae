import Mathlib.Data.Int.Notation
import Mathlib.Data.List.Basic
import Mathlib.Data.List.TakeWhile

/-!
# C strings

`strsep`, `strrchr`, `strncasecmp`, and `strtoul` and `strtoll` in base ten.  A C string is
the list of its characters; the terminating NUL is the end of the list.
-/

set_option autoImplicit false

namespace Pkgng.Lib

/-- `strsep`: the token, and what the pointer is set to. -/
def strsep (delimiters : List Char) : Option (List Char) → Option (List Char) × Option (List Char)
  | none => (none, none)
  | some text =>
      let token := text.takeWhile (· ∉ delimiters)
      match text.drop token.length with
      | [] => (some token, none)
      | _ :: rest => (some token, some rest)

/-- The lines of a file that `getline` yields, each with its newline. -/
def getlines : List Char → List (List Char)
  | [] => []
  | c :: rest =>
      if c = '\n' then [c] :: getlines rest
      else
        match getlines rest with
        | [] => [[c]]
        | line :: lines => (c :: line) :: lines

/-- A C string ends at the first NUL of its buffer. -/
def uptoNul (buffer : List Char) : List Char := buffer.takeWhile (· ≠ '\x00')

/-- `isspace` in the C locale. -/
def isspace (c : Char) : Bool :=
  c = ' ' || c = '\t' || c = '\n' || c = '\x0b' || c = '\x0c' || c = '\r'

def digitValue (c : Char) : Nat := c.toNat - '0'.toNat

/-- The value of the digits a string starts with. -/
def decimal (s : List Char) : Nat :=
  (s.takeWhile Char.isDigit).foldl (fun n c => 10 * n + digitValue c) 0

/-- White space and an optional sign: whether it is a minus, and what follows. -/
def signed (s : List Char) : Bool × List Char :=
  match s.dropWhile isspace with
  | '-' :: rest => (true, rest)
  | '+' :: rest => (false, rest)
  | rest => (false, rest)

/-- `strtoul(s, NULL, 10)` with a 64-bit `unsigned long`. -/
def strtoul (s : List Char) : Nat :=
  let n := decimal (signed s).2
  if 18446744073709551615 < n then 18446744073709551615
  else if (signed s).1 then (18446744073709551616 - n) % 18446744073709551616
  else n

/-- `strtoul(s, NULL, 10)` behind `errno = 0`; `none` where `errno` is set, which it is without
any digit, too. -/
def strtoulErrno (s : List Char) : Option Nat :=
  if decimal (signed s).2 ≤ 18446744073709551615 ∧
      (signed s).2.takeWhile Char.isDigit ≠ [] then some (strtoul s)
  else none

/-- `strtoll(s, NULL, 10)` of a string that starts with a digit. -/
def strtollDigits (s : List Char) : Int := min (decimal s) 9223372036854775807

/-- `strtonum(s, min, max, &errstr)` with bounds of a `long long`: the number, or `errstr`. -/
def strtonum (s : List Char) (min max : Int) : Except String Int :=
  let digits := (signed s).2.takeWhile Char.isDigit
  if digits = [] ∨ (signed s).2.drop digits.length ≠ [] then .error "invalid"
  else
    let value : Int := if (signed s).1 then -decimal (signed s).2 else decimal (signed s).2
    if value < min then .error "too small"
    else if max < value then .error "too large"
    else .ok value

def longMax : Nat := 9223372036854775807

/-- `strrchr`: the string from the last occurrence of the character on. -/
def strrchr (c : Char) : List Char → Option (List Char)
  | [] => none
  | x :: rest => (strrchr c rest).or (if x = c then some (x :: rest) else none)

/-- `strncasecmp(s, t, n) == 0`. -/
def strncaseeq (s t : List Char) (n : Nat) : Bool :=
  (s.take n).map Char.toLower = (t.take n).map Char.toLower

/-- `strcasecmp(s, t) == 0`. -/
def strcaseeq (s t : List Char) : Bool := s.map Char.toLower = t.map Char.toLower

def intMax : Nat := 2147483647

/-- The conversion of an `unsigned long` to a 32-bit `int`. -/
def toCInt (n : Nat) : Int := (n : Int).bmod 4294967296

/-- The conversion to a 32-bit `int`. -/
def toInt32 (value : Int) : Int := value.bmod 4294967296

/-- The conversion to a 64-bit `long`. -/
def toLong (value : Int) : Int := value.bmod 18446744073709551616

/-- The conversion to a 64-bit `size_t`. -/
def toSizeT (value : Int) : Nat := (value % 18446744073709551616).toNat

/-! ## Last occurrences -/

theorem strrchr_eq_none_iff (c : Char) (s : List Char) : strrchr c s = none ↔ c ∉ s := by
  induction s with
  | nil => exact iff_of_true rfl List.not_mem_nil
  | cons d rest ih =>
      rw [strrchr, Option.or_eq_none_iff, ih, List.mem_cons, not_or, and_comm, @eq_comm _ c d]
      simp

theorem strrchr_none {c : Char} {s : List Char} (absent : c ∉ s) : strrchr c s = none :=
  (strrchr_eq_none_iff c s).mpr absent

theorem strrchr_append (c : Char) (s t : List Char) :
    strrchr c (s ++ t) = (strrchr c t).or ((strrchr c s).map (· ++ t)) := by
  induction s with
  | nil => simp [strrchr]
  | cons x s ih =>
      rw [List.cons_append, strrchr, strrchr, ih]
      cases strrchr c t with
      | some found => rfl
      | none =>
          cases strrchr c s with
          | some found => rfl
          | none =>
              simp only [Option.none_or, Option.map_none]
              split <;> rfl

/-- The last occurrence stands at the start. -/
theorem strrchr_head {c : Char} {s : List Char} (absent : c ∉ s) :
    strrchr c (c :: s) = some (c :: s) := by
  rw [strrchr, strrchr_none absent, if_pos rfl]
  rfl

/-! ## Lines -/

theorem getlines_line {line rest : List Char} (oneLine : '\n' ∉ line) :
    getlines (line ++ '\n' :: rest) = (line ++ ['\n']) :: getlines rest := by
  induction line with
  | nil => rw [List.nil_append, getlines, if_pos rfl, List.nil_append]
  | cons c line ih =>
      rw [List.mem_cons, not_or] at oneLine
      rw [List.cons_append, getlines, if_neg (Ne.symm oneLine.1), ih oneLine.2]
      rfl

theorem getlines_flatMap {α : Type} {text : α → List Char} {items : List α}
    (oneLine : ∀ item ∈ items, '\n' ∉ text item) :
    getlines (items.flatMap fun item => text item ++ ['\n']) =
      items.map fun item => text item ++ ['\n'] := by
  induction items with
  | nil => rfl
  | cons item items ih =>
      obtain ⟨first, others⟩ := List.forall_mem_cons.mp oneLine
      rw [List.flatMap_cons, List.map_cons, List.append_assoc, List.singleton_append,
        getlines_line first, ih others]

/-- A line is the only one of a file that holds it alone. -/
theorem getlines_of_mem {file line : List Char} (member : line ∈ getlines file) :
    getlines line = [line] := by
  induction file generalizing line with
  | nil => cases member
  | cons c rest ih =>
      rw [getlines] at member
      by_cases newline : c = '\n'
      · rw [if_pos newline, List.mem_cons] at member
        rcases member with rfl | later
        · rw [newline]
          rfl
        · exact ih later
      · rw [if_neg newline] at member
        cases lines : getlines rest with
        | nil =>
            rw [lines] at member
            rw [List.mem_singleton.mp member, getlines, if_neg newline]
            rfl
        | cons first others =>
            rw [lines] at ih member
            rcases List.mem_cons.mp member with rfl | later
            · rw [getlines, if_neg newline, ih List.mem_cons_self]
            · exact ih (List.mem_cons_of_mem first later)

theorem uptoNul_eq {buffer : List Char} (noNul : '\x00' ∉ buffer) : uptoNul buffer = buffer := by
  rw [uptoNul, List.takeWhile_eq_self_iff]
  intro c member
  exact decide_eq_true fun isNul => noNul (isNul ▸ member)

/-! ## Tokens -/

/-- `strsep` at the first delimiter. -/
theorem strsep_append {delimiters token rest : List Char} {c : Char}
    (plain : ∀ d ∈ token, d ∉ delimiters) (delimiter : c ∈ delimiters) :
    strsep delimiters (some (token ++ c :: rest)) = (some token, some rest) := by
  have isToken : (token ++ c :: rest).takeWhile (· ∉ delimiters) = token := by
    rw [List.takeWhile_append_of_pos fun d member => decide_eq_true (plain d member),
      List.takeWhile_cons_of_neg (by simpa using delimiter), List.append_nil]
  unfold strsep
  simp only [isToken, List.drop_left]

theorem strsep_fst (delimiters : List Char) (p : Option (List Char)) :
    (strsep delimiters p).1 = p.map fun text => text.takeWhile (· ∉ delimiters) := by
  cases p with
  | none => rfl
  | some text =>
      unfold strsep
      dsimp only
      split <;> rfl

/-- The pointer is set where there is a delimiter. -/
theorem isSome_strsep_snd (delimiters text : List Char) :
    (strsep delimiters (some text)).2.isSome = true ↔ ∃ c ∈ text, c ∈ delimiters := by
  induction text with
  | nil => simp [strsep]
  | cons c text ih =>
      by_cases delimiter : c ∈ delimiters
      · simp [strsep, delimiter]
      · have token : (c :: text).takeWhile (· ∉ delimiters) =
            c :: text.takeWhile (· ∉ delimiters) :=
          List.takeWhile_cons_of_pos (decide_eq_true delimiter)
        rw [List.exists_mem_cons_iff, or_iff_right delimiter, ← ih]
        simp only [strsep, token, List.length_cons, List.drop_succ_cons]
        split <;> rfl

/-! ## Numbers that were printed -/

theorem decimal_toDigits (n : Nat) : decimal (Nat.toDigits 10 n) = n := by
  have digits : (Nat.toDigits 10 n).takeWhile Char.isDigit = Nat.toDigits 10 n := by
    rw [List.takeWhile_eq_self_iff]
    exact fun c member => Nat.isDigit_of_mem_toDigits (by decide) (by decide) member
  rw [decimal, digits]
  exact Nat.ofDigitChars_toDigits (by decide) (by decide)

theorem signed_toDigits (n : Nat) : signed (Nat.toDigits 10 n) = (false, Nat.toDigits 10 n) := by
  cases spelled : Nat.toDigits 10 n with
  | nil => rfl
  | cons c rest =>
      have digit : c.isDigit = true :=
        Nat.isDigit_of_mem_toDigits (by decide) (by decide) (spelled ▸ List.mem_cons_self ..)
      have blank : isspace c = false := by
        by_contra spacing
        simp only [isspace, Bool.not_eq_false, Bool.or_eq_true, decide_eq_true_eq] at spacing
        rcases spacing with ((((rfl | rfl) | rfl) | rfl) | rfl) | rfl <;> cases digit
      rw [signed, List.dropWhile_cons, blank]
      simp only [Bool.false_eq_true, if_false]
      split
      · next same =>
          cases (List.cons.inj same).1
          cases digit
      · next same =>
          cases (List.cons.inj same).1
          cases digit
      · rfl

theorem strtoul_toString (n : Nat) :
    strtoul (toString n).toList = min n 18446744073709551615 := by
  have spelled : (toString n).toList = Nat.toDigits 10 n := by simp
  rw [spelled, strtoul, signed_toDigits]
  simp only [decimal_toDigits, Bool.false_eq_true, if_false]
  split <;> omega

theorem strtoul_toDigits {n : Nat} (fits : n ≤ 18446744073709551615) :
    strtoul (Nat.toDigits 10 n) = n := by
  rw [strtoul, signed_toDigits]
  simp only [decimal_toDigits, Bool.false_eq_true, if_false]
  rw [if_neg (by omega)]

theorem strtoulErrno_toDigits {n : Nat} (fits : n ≤ 18446744073709551615) :
    strtoulErrno (Nat.toDigits 10 n) = some n := by
  have digits : (Nat.toDigits 10 n).takeWhile Char.isDigit = Nat.toDigits 10 n := by
    rw [List.takeWhile_eq_self_iff]
    exact fun c member => Nat.isDigit_of_mem_toDigits (by decide) (by decide) member
  rw [strtoulErrno, signed_toDigits, decimal_toDigits, digits, strtoul_toDigits fits, if_pos]
  exact ⟨fits, Nat.toDigits_ne_nil⟩

theorem strtonum_toDigits {n : Nat} (fits : n ≤ longMax) :
    strtonum (Nat.toDigits 10 n) 0 longMax = .ok n := by
  have digits : (Nat.toDigits 10 n).takeWhile Char.isDigit = Nat.toDigits 10 n := by
    rw [List.takeWhile_eq_self_iff]
    exact fun c member => Nat.isDigit_of_mem_toDigits (by decide) (by decide) member
  have whole : ¬(Nat.toDigits 10 n = [] ∨
      (Nat.toDigits 10 n).drop (Nat.toDigits 10 n).length ≠ []) := by
    rw [List.drop_length, not_or, not_not]
    exact ⟨Nat.toDigits_ne_nil, rfl⟩
  simp only [strtonum, signed_toDigits, digits, if_neg whole, decimal_toDigits, Bool.false_eq_true,
    if_false]
  rw [if_neg (by omega), if_neg (by omega)]

theorem strtoulErrno_le {s : List Char} {n : Nat} (converted : strtoulErrno s = some n) :
    n ≤ 18446744073709551615 := by
  obtain ⟨-, isValue⟩ := Option.ite_none_right_eq_some.mp converted
  rw [← Option.some.inj isValue]
  unfold strtoul
  dsimp only
  split
  · exact Nat.le_refl _
  · split <;> omega

/-! ## Conversions -/

theorem toInt32_eq {value : Nat} (fits : value < 2147483648) : toInt32 value = value := by
  unfold toInt32
  rw [Int.bmod_def]
  split <;> omega

theorem toInt32_lt (value : Int) : toInt32 value < 2147483648 := by
  unfold toInt32
  rw [Int.bmod_def]
  split <;> omega

theorem toLong_eq {value : Nat} (fits : value ≤ 18446744073709551615) :
    toLong value =
      if value < 9223372036854775808 then (value : Int) else value - 18446744073709551616 := by
  unfold toLong
  rw [Int.bmod_def]
  split <;> split <;> omega

theorem toSizeT_eq {value : Nat} (fits : value ≤ 18446744073709551615) :
    toSizeT value = value := by
  unfold toSizeT
  omega

theorem toSizeT_toLong {value : Nat} (fits : value ≤ 18446744073709551615) :
    toSizeT (toLong value) = value := by
  rw [toLong_eq fits]
  unfold toSizeT
  split <;> omega

theorem toCInt_of_lt {n : Nat} (small : n < 2147483648) : toCInt n = n := by
  unfold toCInt
  rw [Int.bmod_eq_of_le] <;> omega

theorem toCInt_lt (n : Nat) : toCInt n < 2147483648 := by
  have above : toCInt n < (((4294967296 : Nat) : Int) + 1) / 2 := Int.bmod_lt (Nat.succ_pos _)
  omega

theorem toCInt_strtoul_toString {n : Nat} (small : n < 2147483648) :
    toCInt (strtoul (toString n).toList) = n := by
  rw [strtoul_toString, Nat.min_eq_left (by omega), toCInt_of_lt small]

end Pkgng.Lib
