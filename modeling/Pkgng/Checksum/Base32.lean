import Mathlib.Data.List.GetD
import Mathlib.Data.Nat.Digits.Lemmas

/-!
# The base32 encoding of a digest

`pkg_checksum_encode_base32` hands the bits of a byte that do not fill a character on to the
next byte, in one of five ways.  Taken together its characters are the groups of five bits
of the number that the bytes spell with the lowest byte first.
-/

set_option autoImplicit false

namespace Pkgng

def b32 : List Char := "ybndrfg8ejkmcpqxot1uwisza345h769".toList

/-- `b32[x]`. -/
def b32Char (x : Nat) : Char := b32.getD x '\x00'

/-- One turn of the loop: the characters written for the byte `in[i]`, and `remain`, which
is -1 where nothing remains. -/
def encodeByte (i : Nat) (byte : UInt8) (remain : Option Nat) : List Char × Option Nat :=
  match i % 5 with
  | 0 =>
      let x := byte.toNat
      ([b32Char (x &&& 0x1F)], some (byte.toNat >>> 5))
  | 1 =>
      let x := remain.getD 0 ||| byte.toNat <<< 3
      ([b32Char (x &&& 0x1F), b32Char (x >>> 5 &&& 0x1F)], some (x >>> 10))
  | 2 =>
      let x := remain.getD 0 ||| byte.toNat <<< 1
      ([b32Char (x &&& 0x1F)], some (x >>> 5))
  | 3 =>
      let x := remain.getD 0 ||| byte.toNat <<< 4
      ([b32Char (x &&& 0x1F), b32Char (x >>> 5 &&& 0x1F)], some (x >>> 10 &&& 0x3))
  | _ =>
      let x := remain.getD 0 ||| byte.toNat <<< 2
      ([b32Char (x &&& 0x1F), b32Char (x >>> 5 &&& 0x1F)], none)

/-- The loop from the byte `in[i]` on, and the character for what remains at its end. -/
def encodeFrom (i : Nat) (remain : Option Nat) : List UInt8 → List Char
  | [] => (remain.map b32Char).toList
  | byte :: rest =>
      let (chars, remain) := encodeByte i byte remain
      chars ++ encodeFrom (i + 1) remain rest

/-- `pkg_checksum_encode_base32`; where the buffer is too small it writes nothing. -/
def pkgChecksumEncodeBase32 (input : List UInt8) (outlen : Nat) : Option (List Char) :=
  if outlen < input.length * 8 / 5 then none else some (encodeFrom 0 none input)

/-! ## Groups of five bits -/

/-- The number that bytes spell, the lowest byte first. -/
def byteValue (input : List UInt8) : Nat := Nat.ofDigits 256 (input.map UInt8.toNat)

/-- The lowest `count` groups of five bits. -/
def bitGroups (count value : Nat) : List Nat :=
  (List.range count).map fun k => value / 32 ^ k % 32

theorem bitGroups_succ (count value : Nat) :
    bitGroups (count + 1) value = value % 32 :: bitGroups count (value / 32) := by
  simp only [bitGroups, List.range_succ_eq_map, List.map_cons, List.map_map, pow_zero, Nat.div_one]
  refine congrArg _ (List.map_congr_left fun k _ => ?_)
  simp only [Function.comp, pow_succ', Nat.div_div_eq_div_mul]

theorem byteValue_cons (byte : UInt8) (rest : List UInt8) :
    byteValue (byte :: rest) = byte.toNat + 256 * byteValue rest := by
  simp [byteValue, Nat.ofDigits_cons]

theorem byteValue_lt (input : List UInt8) : byteValue input < 256 ^ input.length := by
  have bounded := @Nat.ofDigits_lt_base_pow_length 256 (input.map UInt8.toNat) (by omega)
    fun digit member => by
      obtain ⟨byte, _, rfl⟩ := List.mem_map.mp member
      exact byte.toNat_lt
  rwa [List.length_map] at bounded

theorem byteValue_inj {a b : List UInt8} (sameLength : a.length = b.length)
    (same : byteValue a = byteValue b) : a = b := by
  induction a generalizing b with
  | nil => exact (List.length_eq_zero_iff.mp sameLength.symm).symm
  | cons byte rest ih =>
      cases b with
      | nil => cases sameLength
      | cons other later =>
          rw [byteValue_cons, byteValue_cons] at same
          have low := byte.toNat_lt
          have otherLow := other.toNat_lt
          have sameByte : byte = other := UInt8.toNat_inj.mp (by omega)
          rw [sameByte, ih (by simpa using sameLength) (by omega)]

theorem bitGroups_add (count low high : Nat) :
    bitGroups (count + 1) (low + 32 * high) = low % 32 :: bitGroups count (low / 32 + high) := by
  rw [bitGroups_succ, Nat.add_mul_mod_self_left, Nat.add_mul_div_left _ _ (by omega)]

/-! ## The remainder handed on -/

/-- How many bits are left when the byte `in[i]` is reached. -/
def carriedBits (i : Nat) : Nat :=
  match i % 5 with
  | 0 => 0
  | 1 => 3
  | 2 => 1
  | 3 => 4
  | _ => 2

/-- `remain` at the byte `in[i]`, for left bits of the value `low`. -/
structure Carries (i low : Nat) (remain : Option Nat) : Prop where
  kept : remain = if i % 5 = 0 then none else some low
  small : low < 2 ^ carriedBits i

/-- The characters of the bits left and of the bytes from `in[i]` on. -/
def groupsFrom (i low : Nat) (rest : List UInt8) : List Char :=
  (bitGroups ((carriedBits i + 8 * rest.length + 4) / 5)
    (low + 2 ^ carriedBits i * byteValue rest)).map b32Char

theorem low_or_shift {low bits : Nat} (byte : Nat) (small : low < 2 ^ bits) :
    low ||| byte <<< bits = low + 2 ^ bits * byte := by
  rw [Nat.shiftLeft_eq, Nat.or_comm, mul_comm, ← Nat.two_pow_add_eq_or_of_lt small, Nat.add_comm]

theorem and_mask (x : Nat) : x &&& 0x1F = x % 32 :=
  Nat.and_two_pow_sub_one_eq_mod x 5

/-- A turn that writes one character and keeps the rest of its bits. -/
theorem groupsFrom_one {i low high : Nat} {byte : UInt8} (rest : List UInt8)
    (bits : carriedBits i + 3 = carriedBits (i + 1))
    (left : low + 2 ^ carriedBits i * byte.toNat = high) :
    groupsFrom i low (byte :: rest) =
      b32Char (high % 32) :: groupsFrom (i + 1) (high / 32) rest := by
  have count : (carriedBits i + 8 * (rest.length + 1) + 4) / 5 =
      (carriedBits (i + 1) + 8 * rest.length + 4) / 5 + 1 := by omega
  have value : low + 2 ^ carriedBits i * byteValue (byte :: rest) =
      high + 32 * (2 ^ carriedBits (i + 1) * byteValue rest) := by
    rw [byteValue_cons, ← bits, ← left, pow_add]
    ring
  simp only [groupsFrom, List.length_cons]
  rw [count, value, bitGroups_add, List.map_cons]

/-- A turn that writes two characters and keeps the rest of its bits. -/
theorem groupsFrom_two {i low high : Nat} {byte : UInt8} (rest : List UInt8)
    (bits : carriedBits i = carriedBits (i + 1) + 2)
    (left : low + 2 ^ carriedBits i * byte.toNat = high) :
    groupsFrom i low (byte :: rest) =
      b32Char (high % 32) :: b32Char (high / 32 % 32) ::
        groupsFrom (i + 1) (high / 32 / 32) rest := by
  have count : (carriedBits i + 8 * (rest.length + 1) + 4) / 5 =
      (carriedBits (i + 1) + 8 * rest.length + 4) / 5 + 1 + 1 := by omega
  have value : low + 2 ^ carriedBits i * byteValue (byte :: rest) =
      high + 32 * (32 * (2 ^ carriedBits (i + 1) * byteValue rest)) := by
    rw [byteValue_cons, ← left, bits, pow_add]
    ring
  simp only [groupsFrom, List.length_cons]
  rw [count, value, bitGroups_add, bitGroups_add, List.map_cons, List.map_cons]

/-- What one turn writes, and what it hands on. -/
theorem encodeByte_spec {i low : Nat} {remain : Option Nat} (byte : UInt8)
    (carries : Carries i low remain) :
    ∃ next, Carries (i + 1) next (encodeByte i byte remain).2 ∧
      ∀ rest, groupsFrom i low (byte :: rest) =
        (encodeByte i byte remain).1 ++ groupsFrom (i + 1) next rest := by
  obtain ⟨kept, small⟩ := carries
  have fits := byte.toNat_lt
  have turn : i % 5 = 0 ∨ i % 5 = 1 ∨ i % 5 = 2 ∨ i % 5 = 3 ∨ i % 5 = 4 := by omega
  rcases turn with here | here | here | here | here
  · have after : (i + 1) % 5 = 1 := by omega
    have now : carriedBits i = 0 := by simp [carriedBits, here]
    have later : carriedBits (i + 1) = 3 := by simp [carriedBits, after]
    rw [now] at small
    have left : low + 2 ^ carriedBits i * byte.toNat = byte.toNat := by
      rw [now]
      omega
    refine ⟨byte.toNat / 32, ⟨?_, ?_⟩, fun rest => ?_⟩
    · simp [encodeByte, here, after, Nat.shiftRight_eq_div_pow]
    · rw [later]
      omega
    · rw [groupsFrom_one rest (by omega) left]
      simp [encodeByte, here, and_mask]
  · have after : (i + 1) % 5 = 2 := by omega
    have now : carriedBits i = 3 := by simp [carriedBits, here]
    have later : carriedBits (i + 1) = 1 := by simp [carriedBits, after]
    have left := low_or_shift byte.toNat small
    rw [now] at small left
    rw [if_neg (by omega)] at kept
    generalize read : low ||| byte.toNat <<< 3 = x at left
    have total : low + 2 ^ carriedBits i * byte.toNat = x := by rw [now, left]
    refine ⟨x / 32 / 32, ⟨?_, ?_⟩, fun rest => ?_⟩
    · simp [encodeByte, here, after, kept, read, Nat.shiftRight_eq_div_pow, Nat.div_div_eq_div_mul]
    · rw [later]
      omega
    · rw [groupsFrom_two rest (by omega) total]
      simp [encodeByte, here, kept, read, and_mask, Nat.shiftRight_eq_div_pow]
  · have after : (i + 1) % 5 = 3 := by omega
    have now : carriedBits i = 1 := by simp [carriedBits, here]
    have later : carriedBits (i + 1) = 4 := by simp [carriedBits, after]
    have left := low_or_shift byte.toNat small
    rw [now] at small left
    rw [if_neg (by omega)] at kept
    generalize read : low ||| byte.toNat <<< 1 = x at left
    have total : low + 2 ^ carriedBits i * byte.toNat = x := by rw [now, left]
    refine ⟨x / 32, ⟨?_, ?_⟩, fun rest => ?_⟩
    · simp [encodeByte, here, after, kept, read, Nat.shiftRight_eq_div_pow]
    · rw [later]
      omega
    · rw [groupsFrom_one rest (by omega) total]
      simp [encodeByte, here, kept, read, and_mask]
  · have after : (i + 1) % 5 = 4 := by omega
    have now : carriedBits i = 4 := by simp [carriedBits, here]
    have later : carriedBits (i + 1) = 2 := by simp [carriedBits, after]
    have left := low_or_shift byte.toNat small
    rw [now] at small left
    rw [if_neg (by omega)] at kept
    generalize read : low ||| byte.toNat <<< 4 = x at left
    have total : low + 2 ^ carriedBits i * byte.toNat = x := by rw [now, left]
    have top : x >>> 10 &&& 0x3 = x / 32 / 32 := by
      rw [Nat.shiftRight_eq_div_pow, Nat.div_div_eq_div_mul]
      exact (Nat.and_two_pow_sub_one_eq_mod _ 2).trans (Nat.mod_eq_of_lt (by omega))
    refine ⟨x / 32 / 32, ⟨?_, ?_⟩, fun rest => ?_⟩
    · simp [encodeByte, here, after, kept, read, top]
    · rw [later]
      omega
    · rw [groupsFrom_two rest (by omega) total]
      simp [encodeByte, here, kept, read, and_mask, Nat.shiftRight_eq_div_pow]
  · have after : (i + 1) % 5 = 0 := by omega
    have now : carriedBits i = 2 := by simp [carriedBits, here]
    have later : carriedBits (i + 1) = 0 := by simp [carriedBits, after]
    have left := low_or_shift byte.toNat small
    rw [now] at small left
    rw [if_neg (by omega)] at kept
    generalize read : low ||| byte.toNat <<< 2 = x at left
    have total : low + 2 ^ carriedBits i * byte.toNat = x := by rw [now, left]
    refine ⟨x / 32 / 32, ⟨?_, ?_⟩, fun rest => ?_⟩
    · simp [encodeByte, here, after]
    · rw [later]
      omega
    · rw [groupsFrom_two rest (by omega) total]
      simp [encodeByte, here, kept, read, and_mask, Nat.shiftRight_eq_div_pow]

/-- The character written after the loop. -/
theorem groupsFrom_nil {i low : Nat} {remain : Option Nat} (carries : Carries i low remain) :
    groupsFrom i low [] = (remain.map b32Char).toList := by
  obtain ⟨kept, small⟩ := carries
  by_cases here : i % 5 = 0
  · rw [kept, if_pos here]
    simp [groupsFrom, carriedBits, here, bitGroups]
  · have fits : low < 32 ∧ (carriedBits i + 8 * 0 + 4) / 5 = 1 := by
      have turn : i % 5 = 1 ∨ i % 5 = 2 ∨ i % 5 = 3 ∨ i % 5 = 4 := by omega
      rcases turn with turn | turn | turn | turn <;> simp only [carriedBits, turn] at small ⊢ <;>
        exact ⟨by omega, trivial⟩
    rw [kept, if_neg here, groupsFrom, List.length_nil, fits.2, bitGroups_succ]
    simp [byteValue, bitGroups, Nat.mod_eq_of_lt fits.1]

theorem encodeFrom_eq {i low : Nat} {remain : Option Nat} (rest : List UInt8)
    (carries : Carries i low remain) : encodeFrom i remain rest = groupsFrom i low rest := by
  induction rest generalizing i low remain with
  | nil => exact (groupsFrom_nil carries).symm
  | cons byte rest ih =>
      obtain ⟨next, handed, written⟩ := encodeByte_spec byte carries
      rw [written rest, ← ih handed]
      rfl

/-! ## The bit stream -/

/-- Bit `n` of the stream, the lowest bit of each byte first; zeros fill the last group. -/
def streamBit (input : List UInt8) (n : Nat) : Bool :=
  (input.getD (n / 8) 0).toNat.testBit (n % 8)

theorem byteValue_testBit (input : List UInt8) (n : Nat) :
    (byteValue input).testBit n = streamBit input n := by
  induction input generalizing n with
  | nil => simp [byteValue, streamBit]
  | cons byte rest ih =>
      have fits := byte.toNat_lt
      rw [byteValue_cons, Nat.add_comm, show 256 = 2 ^ 8 from rfl,
        Nat.testBit_two_pow_mul_add _ fits]
      split
      · rename_i low
        rw [streamBit, Nat.div_eq_of_lt low, Nat.mod_eq_of_lt low]
        rfl
      · rename_i high
        rw [ih, streamBit, streamBit]
        obtain ⟨m, rfl⟩ := Nat.exists_eq_add_of_le (Nat.not_lt.mp high)
        rw [Nat.add_sub_cancel_left, Nat.add_comm, Nat.add_div_right _ (by omega),
          Nat.add_mod_right, List.getD_cons_succ]

theorem group_testBit (input : List UInt8) (k : Nat) {j : Nat} (inside : j < 5) :
    (byteValue input / 32 ^ k % 32).testBit j = streamBit input (5 * k + j) := by
  rw [show (32 : Nat) = 2 ^ 5 from rfl, ← pow_mul, Nat.testBit_mod_two_pow,
    Nat.testBit_div_two_pow, byteValue_testBit, decide_eq_true inside, Bool.true_and,
    Nat.add_comm]

/-- `text` spells the successive groups of five bits of the stream. -/
structure Spells (input : List UInt8) (text : List Char) : Prop where
  count : text.length = (8 * input.length + 4) / 5
  alphabet : ∀ c ∈ text, c ∈ b32
  groups : ∀ k < text.length, ∃ group < 32, text[k]? = some (b32Char group) ∧
    ∀ j < 5, group.testBit j = streamBit input (5 * k + j)

theorem b32Char_mem {x : Nat} (small : x < 32) : b32Char x ∈ b32 := by
  rw [b32Char, List.getD_eq_getElem _ _ (show x < b32.length from small)]
  exact List.getElem_mem _

theorem b32Char_inj {x y : Nat} (small : x < 32) (otherSmall : y < 32)
    (same : b32Char x = b32Char y) : x = y := by
  rw [b32Char, b32Char, List.getD_eq_getElem _ _ (show x < b32.length from small),
    List.getD_eq_getElem _ _ (show y < b32.length from otherSmall)] at same
  exact (List.Nodup.getElem_inj_iff (by decide)).mp same

theorem encodeFrom_zero (input : List UInt8) :
    encodeFrom 0 none input =
      (bitGroups ((8 * input.length + 4) / 5) (byteValue input)).map b32Char := by
  have carries : Carries 0 0 none := ⟨rfl, Nat.zero_lt_one⟩
  rw [encodeFrom_eq input carries, groupsFrom]
  simp [carriedBits]

theorem encodeFrom_spells (input : List UInt8) : Spells input (encodeFrom 0 none input) := by
  rw [encodeFrom_zero]
  constructor
  · simp [bitGroups]
  · intro c member
    obtain ⟨group, written, rfl⟩ := List.mem_map.mp member
    obtain ⟨k, _, rfl⟩ := List.mem_map.mp written
    exact b32Char_mem (Nat.mod_lt _ (by omega))
  · intro k inside
    refine ⟨byteValue input / 32 ^ k % 32, Nat.mod_lt _ (by omega), ?_,
      fun j small => group_testBit input k small⟩
    simp only [bitGroups, List.length_map, List.length_range] at inside
    simp [bitGroups, inside]

/-- The characters determine a number whose bits fit into them. -/
theorem bitGroups_chars_inj {count value other : Nat} (fits : value < 32 ^ count)
    (otherFits : other < 32 ^ count)
    (same : (bitGroups count value).map b32Char = (bitGroups count other).map b32Char) :
    value = other := by
  induction count generalizing value other with
  | zero => omega
  | succ count ih =>
      rw [bitGroups_succ, bitGroups_succ] at same
      obtain ⟨low, high⟩ := List.cons.inj same
      have sameLow := b32Char_inj (Nat.mod_lt _ (by omega)) (Nat.mod_lt _ (by omega)) low
      rw [pow_succ] at fits otherFits
      have sameHigh := ih (by omega) (by omega) high
      omega

theorem encodeFrom_inj {a b : List UInt8} (sameLength : a.length = b.length)
    (same : encodeFrom 0 none a = encodeFrom 0 none b) : a = b := by
  have room : ∀ n, 256 ^ n ≤ 32 ^ ((8 * n + 4) / 5) := by
    intro n
    rw [show 256 = 2 ^ 8 from rfl, show 32 = 2 ^ 5 from rfl, ← pow_mul, ← pow_mul]
    exact Nat.pow_le_pow_right (by omega) (by omega)
  have fits := (byteValue_lt a).trans_le (room a.length)
  have otherFits := (byteValue_lt b).trans_le (room b.length)
  rw [encodeFrom_zero, encodeFrom_zero, sameLength] at same
  rw [sameLength] at fits
  exact byteValue_inj sameLength (bitGroups_chars_inj fits otherFits same)

/-- Where the buffer passes the function's test, the text spells the groups of five bits, and
no other bytes of that length have it. -/
theorem pkgChecksumEncodeBase32_faithful (input : List UInt8) (outlen : Nat)
    (sufficient : input.length * 8 / 5 ≤ outlen) :
    ∃ text, pkgChecksumEncodeBase32 input outlen = some text ∧ Spells input text ∧
      ∀ other otherLen, other.length = input.length →
        pkgChecksumEncodeBase32 other otherLen = some text → other = input := by
  refine ⟨encodeFrom 0 none input, ?_, encodeFrom_spells input, ?_⟩
  · rw [pkgChecksumEncodeBase32, if_neg (Nat.not_lt.mpr sufficient)]
  · intro other otherLen sameLength written
    unfold pkgChecksumEncodeBase32 at written
    split at written
    · cases written
    · exact encodeFrom_inj sameLength (Option.some.inj written)

/-- Two bytes: three whole groups and one bit left. -/
theorem twoBytes_faithful :
    ∃ text, pkgChecksumEncodeBase32 [0xF0, 0x9F] 4 = some text ∧ Spells [0xF0, 0x9F] text ∧
      ∀ other otherLen, other.length = 2 →
        pkgChecksumEncodeBase32 other otherLen = some text → other = [0xF0, 0x9F] :=
  pkgChecksumEncodeBase32_faithful [0xF0, 0x9F] 4 (by decide)

end Pkgng
