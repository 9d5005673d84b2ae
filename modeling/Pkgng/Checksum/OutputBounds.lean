import Pkgng.Checksum.Base32
import Pkgng.Lib.CStrings

/-!
# The output buffers of the encoders

Both encoders refuse an `outlen` below a number of characters: the bits of the input divided
by five and rounded down, or two for each byte.  Neither number has the terminator in it, and
the first leaves out the character for the bits that remain.
-/

set_option autoImplicit false

namespace Pkgng

open Lib

/-- What a call writes, each character with its index in `out`, unless it refuses or an `int`
of it overflows. -/
inductive EncoderRun
  | refused
  | overflowed
  | written (out : List (Char × Nat))
deriving DecidableEq, Repr

/-- The local variables of `pkg_checksum_encode_base32`, and what it has written. -/
structure Base32Loop where
  i : Nat := 0
  r : Nat := 0
  remain : Option Nat := none
  out : List (Char × Nat) := []

namespace Base32Loop

/-- `out[r++] = c`. -/
def put (s : Base32Loop) (c : Char) : Option Base32Loop :=
  if s.r = intMax then none else some { s with r := s.r + 1, out := s.out ++ [(c, s.r)] }

/-- One turn, with the `i++` behind it. -/
def turn (input : Nat → UInt8) (s : Base32Loop) : Option Base32Loop :=
  let (chars, remain) := encodeByte s.i (input s.i) s.remain
  match chars.foldlM put s with
  | none => none
  | some s => if s.i = intMax then none else some { s with i := s.i + 1, remain := remain }

/-- The turns left until `i` is `inlen`. -/
def run (input : Nat → UInt8) : Nat → Base32Loop → Option Base32Loop
  | 0, s => some s
  | left + 1, s =>
      match s.turn input with
      | none => none
      | some s => run input left s

/-- The lines behind the loop. -/
def finish (s : Base32Loop) : Option (List (Char × Nat)) :=
  let s? := match s.remain with
    | some x => s.put (b32Char x)
    | none => some s
  s?.map fun s => s.out ++ [('\x00', s.r)]

end Base32Loop

/-- `pkg_checksum_encode_base32`, with the places that it writes to. -/
def encodeBase32Into (input : Nat → UInt8) (inlen outlen : UInt64) : EncoderRun :=
  if outlen < inlen * 8 / 5 then .refused
  else
    match (Base32Loop.run input inlen.toNat {}).bind Base32Loop.finish with
    | none => .overflowed
    | some out => .written out

/-- `sprintf(out + (i * 2), "%02x", in[i])`. -/
def sprintfHex (input : Nat → UInt8) (i : Nat) : List (Char × Nat) :=
  [(Nat.digitChar ((input i).toNat / 16), i * 2), (Nat.digitChar ((input i).toNat % 16), i * 2 + 1),
    ('\x00', i * 2 + 2)]

/-- The loop of `pkg_checksum_encode_hex`, with the turns left; `i * 2` overflows before `i`. -/
def hexLoop (input : Nat → UInt8) : Nat → Nat → List (Char × Nat) → Option (List (Char × Nat))
  | 0, _, out => some out
  | left + 1, i, out =>
      if intMax < i * 2 then none else hexLoop input left (i + 1) (out ++ sprintfHex input i)

/-- `pkg_checksum_encode_hex`. -/
def encodeHexInto (input : Nat → UInt8) (inlen outlen : UInt64) : EncoderRun :=
  if outlen < inlen * 2 then .refused
  else
    match hexLoop input inlen.toNat 0 [] with
    | none => .overflowed
    | some out => .written (out ++ [('\x00', (inlen * 2).toNat)])

/-! ## The base32 characters and their places -/

section Base32

variable {input : Nat → UInt8}

theorem encodeByte_pos (i : Nat) (byte : UInt8) (remain : Option Nat) :
    0 < (encodeByte i byte remain).1.length := by
  unfold encodeByte
  split <;> simp

theorem foldlM_put (chars : List Char) (s : Base32Loop) (small : s.r ≤ intMax) :
    chars.foldlM Base32Loop.put s =
      if s.r + chars.length ≤ intMax then
        some { s with r := s.r + chars.length, out := s.out ++ chars.zipIdx s.r }
      else none := by
  induction chars generalizing s with
  | nil => simp [small]
  | cons c rest ih =>
      rw [List.foldlM_cons, Base32Loop.put]
      by_cases full : s.r = intMax
      · have exceeds : ¬ s.r + (c :: rest).length ≤ intMax := by
          rw [List.length_cons]
          omega
        rw [if_pos full, if_neg exceeds]
        rfl
      · rw [if_neg full, Option.bind_eq_bind, Option.bind_some, ih _ (by dsimp only; omega)]
        simp only [List.length_cons, List.zipIdx_cons, List.append_assoc, List.singleton_append,
          Nat.add_assoc, Nat.add_comm 1]

theorem finish_eq (s : Base32Loop) (small : s.r ≤ intMax) :
    s.finish =
      if s.r + (s.remain.map b32Char).toList.length ≤ intMax then
        some (s.out ++ ((s.remain.map b32Char).toList ++ ['\x00']).zipIdx s.r)
      else none := by
  cases kept : s.remain with
  | none => simp [Base32Loop.finish, kept, small]
  | some x =>
      by_cases full : s.r = intMax
      · simp [Base32Loop.finish, Base32Loop.put, kept, full]
      · have fits : s.r + 1 ≤ intMax := by omega
        simp [Base32Loop.finish, Base32Loop.put, kept, full, fits]

/-- From the byte `in[i]` on, the characters of `encodeFrom` and the terminator are written one
after the other, or `r` overflows.  The induction is on the turns left; `i` never exceeds `r`. -/
theorem run_eq (left : Nat) (s : Base32Loop) (behind : s.i ≤ s.r) (small : s.r ≤ intMax) :
    (Base32Loop.run input left s).bind Base32Loop.finish =
      if s.r + (encodeFrom s.i s.remain ((List.range' s.i left).map input)).length ≤ intMax then
        some (s.out ++
          (encodeFrom s.i s.remain ((List.range' s.i left).map input) ++ ['\x00']).zipIdx s.r)
      else none := by
  induction left generalizing s with
  | zero => exact finish_eq s small
  | succ left ih =>
      have writes := encodeByte_pos s.i (input s.i) s.remain
      rw [List.range'_succ, List.map_cons, encodeFrom, Base32Loop.run, Base32Loop.turn]
      generalize encodeByte s.i (input s.i) s.remain = step at writes ⊢
      obtain ⟨chars, remain⟩ := step
      dsimp only at writes ⊢
      rw [foldlM_put chars s small]
      by_cases fits : s.r + chars.length ≤ intMax
      · have counts : s.i ≠ intMax := by omega
        rw [if_pos fits]
        dsimp only
        rw [if_neg counts]
        dsimp only
        rw [ih _ (by dsimp only; omega) fits]
        simp only [List.length_append, List.append_assoc, Nat.add_assoc, List.zipIdx_append]
      · have exceeds : ¬ s.r + (chars ++ encodeFrom (s.i + 1) remain
            ((List.range' (s.i + 1) left).map input)).length ≤ intMax := by
          rw [List.length_append]
          omega
        rw [if_neg fits, if_neg exceeds]
        rfl

/-- The characters of the whole input. -/
def base32Chars (input : Nat → UInt8) (inlen : Nat) : List Char :=
  encodeFrom 0 none ((List.range inlen).map input)

theorem length_base32Chars (input : Nat → UInt8) (inlen : Nat) :
    (base32Chars input inlen).length = (8 * inlen + 4) / 5 := by
  have count := (encodeFrom_spells ((List.range inlen).map input)).count
  rwa [List.length_map, List.length_range] at count

/-- A call that is let through writes the characters of the encoding, and the terminator. -/
theorem encodeBase32Into_eq (inlen outlen : UInt64) (passes : ¬ outlen < inlen * 8 / 5) :
    encodeBase32Into input inlen outlen =
      if (8 * inlen.toNat + 4) / 5 ≤ intMax then
        .written ((base32Chars input inlen.toNat ++ ['\x00']).zipIdx)
      else .overflowed := by
  have runs := @run_eq input inlen.toNat {} (Nat.le_refl _) (Nat.zero_le _)
  simp only [← List.range_eq_range', Nat.zero_add, List.nil_append] at runs
  rw [encodeBase32Into, if_neg passes, runs, ← base32Chars, length_base32Chars]
  by_cases counts : (8 * inlen.toNat + 4) / 5 ≤ intMax
  · rw [if_pos counts, if_pos counts]
  · rw [if_neg counts, if_neg counts]

end Base32

theorem zipIdx_below_iff (chars : List Char) (bound : Nat) :
    (∀ write ∈ chars.zipIdx, write.2 < bound) ↔ chars.length ≤ bound := by
  constructor
  · intro below
    by_contra long
    have inside : bound < chars.length := Nat.lt_of_not_le long
    have written : (chars[bound], bound) ∈ chars.zipIdx :=
      List.mem_zipIdx_iff_getElem?.mpr (List.getElem?_eq_getElem inside)
    exact Nat.lt_irrefl _ (below _ written)
  · intro enough write member
    have placed := (List.getElem?_eq_some_iff.mp (List.mem_zipIdx_iff_getElem?.mp member)).1
    exact Nat.lt_of_lt_of_le placed enough

/-! ## The hexadecimal digits and their places -/

section Hex

variable {input : Nat → UInt8}

theorem hexLoop_eq (left i : Nat) (out : List (Char × Nat)) :
    hexLoop input left i out =
      if left = 0 ∨ (i + left - 1) * 2 ≤ intMax then
        some (out ++ (List.range' i left).flatMap (sprintfHex input))
      else none := by
  induction left generalizing i out with
  | zero => simp [hexLoop]
  | succ left ih =>
      rw [hexLoop]
      by_cases exceeds : intMax < i * 2
      · have later : ¬ (left + 1 = 0 ∨ (i + (left + 1) - 1) * 2 ≤ intMax) := by omega
        rw [if_pos exceeds, if_neg later]
      · rw [if_neg exceeds, ih]
        have same : (left = 0 ∨ (i + 1 + left - 1) * 2 ≤ intMax) ↔
            (left + 1 = 0 ∨ (i + (left + 1) - 1) * 2 ≤ intMax) := by omega
        simp only [same, List.range'_succ, List.flatMap_cons, List.append_assoc]

/-- No turn writes behind the place of the last terminator. -/
theorem hex_places {inlen : Nat} {write : Char × Nat}
    (member : write ∈ (List.range' 0 inlen).flatMap (sprintfHex input)) :
    write.2 ≤ 2 * inlen := by
  obtain ⟨i, inRange, wrote⟩ := List.mem_flatMap.mp member
  have inside := (List.mem_range'_1.mp inRange).2
  simp only [sprintfHex, List.mem_cons, List.not_mem_nil, or_false] at wrote
  rcases wrote with rfl | rfl | rfl <;> dsimp only <;> omega

end Hex

/-! ## The guards -/

/-- The functions of the column `encfunc`. -/
inductive ChecksumEncoder
  | base32
  | hex
deriving DecidableEq, Repr

def ChecksumEncoder.encfunc : ChecksumEncoder → (Nat → UInt8) → UInt64 → UInt64 → EncoderRun
  | .base32 => encodeBase32Into
  | .hex => encodeHexInto

/-- A call that the guard lets through writes below `outlen` only. -/
def EncoderRun.StaysBelow (outlen : UInt64) : EncoderRun → Prop
  | .refused => True
  | .overflowed => False
  | .written out => ∀ write ∈ out, write.2 < outlen.toNat

/-- The guard refuses, or the characters and the terminator fit into the buffer, and the `int`s
that count them do not overflow. -/
def ChecksumEncoder.Fits (inlen outlen : UInt64) : ChecksumEncoder → Prop
  | .base32 => outlen < inlen * 8 / 5 ∨
      (8 * inlen.toNat + 4) / 5 ≤ intMax ∧ (8 * inlen.toNat + 4) / 5 < outlen.toNat
  | .hex => outlen < inlen * 2 ∨ inlen.toNat ≤ 1073741824 ∧ 2 * inlen.toNat < outlen.toNat

theorem base32_staysBelow_iff (input : Nat → UInt8) (inlen outlen : UInt64) :
    (encodeBase32Into input inlen outlen).StaysBelow outlen ↔
      ChecksumEncoder.base32.Fits inlen outlen := by
  by_cases refuses : outlen < inlen * 8 / 5
  · simp [encodeBase32Into, ChecksumEncoder.Fits, EncoderRun.StaysBelow, refuses]
  · rw [encodeBase32Into_eq inlen outlen refuses]
    simp only [ChecksumEncoder.Fits, refuses, false_or]
    by_cases counts : (8 * inlen.toNat + 4) / 5 ≤ intMax
    · rw [if_pos counts]
      have fits := zipIdx_below_iff (base32Chars input inlen.toNat ++ ['\x00']) outlen.toNat
      rw [List.length_append, length_base32Chars, List.length_singleton] at fits
      exact fits.trans ⟨fun room => ⟨counts, room⟩, fun room => room.2⟩
    · rw [if_neg counts]
      exact ⟨False.elim, fun room => counts room.1⟩

theorem hex_staysBelow_iff (input : Nat → UInt8) (inlen outlen : UInt64) :
    (encodeHexInto input inlen outlen).StaysBelow outlen ↔
      ChecksumEncoder.hex.Fits inlen outlen := by
  by_cases refuses : outlen < inlen * 2
  · simp [encodeHexInto, ChecksumEncoder.Fits, EncoderRun.StaysBelow, refuses]
  · simp only [ChecksumEncoder.Fits, refuses, false_or]
    rw [encodeHexInto, if_neg refuses, hexLoop_eq, intMax]
    by_cases counts : inlen.toNat ≤ 1073741824
    · have enough : inlen.toNat = 0 ∨ (0 + inlen.toNat - 1) * 2 ≤ 2147483647 := by omega
      have last : (inlen * 2).toNat = 2 * inlen.toNat := by
        have two : (2 : UInt64).toNat = 2 := rfl
        rw [UInt64.toNat_mul, two]
        omega
      rw [if_pos enough, List.nil_append]
      simp only [EncoderRun.StaysBelow, last]
      constructor
      · intro below
        exact ⟨counts, below ('\x00', 2 * inlen.toNat) (by simp)⟩
      · rintro ⟨_, room⟩ write member
        rcases List.mem_append.mp member with early | final
        · exact Nat.lt_of_le_of_lt (hex_places early) room
        · rw [List.mem_singleton.mp final]
          exact room
    · have exceeds : ¬ (inlen.toNat = 0 ∨ (0 + inlen.toNat - 1) * 2 ≤ 2147483647) := by omega
      rw [if_neg exceeds]
      exact ⟨False.elim, fun room => counts room.1⟩

/-- The guard of an encoder is sufficient exactly for the inputs that fit. -/
theorem guardSuffices_iff (encoder : ChecksumEncoder) (input : Nat → UInt8)
    (inlen outlen : UInt64) :
    (encoder.encfunc input inlen outlen).StaysBelow outlen ↔ encoder.Fits inlen outlen := by
  cases encoder with
  | base32 => exact base32_staysBelow_iff input inlen outlen
  | hex => exact hex_staysBelow_iff input inlen outlen

/-- One byte needs two characters and the terminator, but one character passes the guard. -/
theorem oneByte_not_staysBelow :
    ChecksumEncoder.base32.encfunc (fun _ => 0xFF) 1 1 =
        .written [('9', 0), ('8', 1), ('\x00', 2)] ∧
      ¬ ∀ encoder input inlen outlen,
        (ChecksumEncoder.encfunc encoder input inlen outlen).StaysBelow outlen := by
  have writes : ChecksumEncoder.base32.encfunc (fun _ => 0xFF) 1 1 =
      .written [('9', 0), ('8', 1), ('\x00', 2)] := by decide +kernel
  refine ⟨writes, fun stays => ?_⟩
  have below := stays .base32 (fun _ => 0xFF) 1 1
  rw [writes] at below
  exact absurd (below ('\x00', 2) (by simp)) (by decide)

end Pkgng
