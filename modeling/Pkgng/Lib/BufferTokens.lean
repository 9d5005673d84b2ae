import Pkgng.Lib.CStrings

/-!
# Tokens in a buffer

`strsep` at work: it puts a NUL over the delimiter, and the tokens are positions in the buffer.
Read as C strings once all tokens are taken, they are what `strsep` yields on the text itself.
-/

set_option autoImplicit false

namespace Pkgng.Lib

/-- The C string at a position of the buffer. -/
def cstringAt (buf : List Char) (position : Nat) : List Char := uptoNul (buf.drop position)

/-- `strsep` at a position of the buffer: the token, what the pointer is set to, and the buffer. -/
def strsepAt (delimiters : List Char) (buf : List Char) :
    Option Nat → Option Nat × Option Nat × List Char
  | none => (none, none, buf)
  | some start =>
      let text := cstringAt buf start
      let stop := start + (text.takeWhile (· ∉ delimiters)).length
      if stop < start + text.length then (some start, some (stop + 1), buf.set stop '\x00')
      else (some start, none, buf)

/-- Several tokens one behind the other. -/
def strsepsAt : List (List Char) → List Char → Option Nat → List (Option Nat) × List Char
  | [], buf, _ => ([], buf)
  | delimiters :: more, buf, p =>
      let (token, p, buf) := strsepAt delimiters buf p
      let (tokens, buf) := strsepsAt more buf p
      (token :: tokens, buf)

def strseps : List (List Char) → Option (List Char) → List (Option (List Char))
  | [], _ => []
  | delimiters :: more, p => (strsep delimiters p).1 :: strseps more (strsep delimiters p).2

theorem strsepsAt_none (more : List (List Char)) (buf : List Char) :
    strsepsAt more buf none = (more.map fun _ => none, buf) := by
  induction more with
  | nil => rfl
  | cons delimiters more ih => simp only [strsepsAt, strsepAt, ih, List.map_cons]

theorem strseps_none (more : List (List Char)) : strseps more none = more.map fun _ => none := by
  induction more with
  | nil => rfl
  | cons delimiters more ih => rw [strseps, strsep, ih, List.map_cons]

theorem notMem_uptoNul (buffer : List Char) : '\x00' ∉ uptoNul buffer := by
  intro member
  have plain := List.mem_takeWhile_imp member
  simp at plain

theorem uptoNul_append {text rest : List Char} (noNul : '\x00' ∉ text) :
    uptoNul (text ++ rest) = text ++ uptoNul rest :=
  List.takeWhile_append_of_pos fun _ member => decide_eq_true fun isNul => noNul (isNul ▸ member)

theorem uptoNul_nul {text rest : List Char} (noNul : '\x00' ∉ text) :
    uptoNul (text ++ '\x00' :: rest) = text := by
  rw [uptoNul_append noNul, uptoNul, List.takeWhile_cons_of_neg (by simp), List.append_nil]

/-- What `strsep` does to the buffer, and what it yields on the text. -/
inductive TakesToken (delimiters buf : List Char) (start : Nat) : Prop
  | last
      (taken : strsepAt delimiters buf (some start) = (some start, none, buf))
      (text : strsep delimiters (some (cstringAt buf start)) = (some (cstringAt buf start), none))
  | more (token after : List Char) (c : Char)
      (split : buf = buf.take start ++ (token ++ c :: after))
      (length : (buf.take start).length = start)
      (noNul : '\x00' ∉ token)
      (taken : strsepAt delimiters buf (some start) =
        (some start, some (start + token.length + 1),
          buf.take start ++ (token ++ '\x00' :: after)))
      (text : strsep delimiters (some (cstringAt buf start)) = (some token, some (uptoNul after)))

theorem takesToken (delimiters buf : List Char) (start : Nat) :
    TakesToken delimiters buf start := by
  have prefixed : (cstringAt buf start).takeWhile (· ∉ delimiters) ++
      (cstringAt buf start).dropWhile (· ∉ delimiters) = cstringAt buf start :=
    List.takeWhile_append_dropWhile
  have noNul := notMem_uptoNul (buf.drop start)
  rw [← cstringAt] at noNul
  cases behindAll : (cstringAt buf start).dropWhile (· ∉ delimiters) with
  | nil =>
      rw [behindAll, List.append_nil] at prefixed
      refine .last ?_ ?_
      · simp only [strsepAt, prefixed, Nat.lt_irrefl, if_false]
      · simp only [strsep, prefixed, List.drop_length]
  | cons c rest =>
      rw [behindAll] at prefixed
      generalize isToken : (cstringAt buf start).takeWhile (· ∉ delimiters) = token at prefixed
      rw [← prefixed, List.mem_append, List.mem_cons, not_or, not_or] at noNul
      obtain ⟨tail, behind⟩ := List.takeWhile_prefix (· ≠ '\x00') (l := buf.drop start)
      have text : uptoNul (buf.drop start) = token ++ c :: rest := prefixed.symm
      have isRest : uptoNul (rest ++ tail) = rest := by
        have noNulFront : '\x00' ∉ token ++ [c] := by
          rw [List.mem_append, List.mem_singleton, not_or]
          exact ⟨noNul.1, noNul.2.1⟩
        have whole := @uptoNul_append _ (rest ++ tail) noNulFront
        rw [← uptoNul, text] at behind
        rw [← behind, List.append_assoc, List.cons_append] at text
        rw [List.append_assoc, List.singleton_append, text, List.append_assoc,
          List.singleton_append] at whole
        exact ((List.cons.inj (List.append_cancel_left whole)).2).symm
      have inBuf : buf.drop start = token ++ c :: (rest ++ tail) := by
        rw [← behind, ← uptoNul, text, List.append_assoc, List.cons_append]
      have split : buf = buf.take start ++ (token ++ c :: (rest ++ tail)) := by
        rw [← inBuf, List.take_append_drop]
      have length : (buf.take start).length = start := by
        have some : 0 < (buf.drop start).length := by
          rw [inBuf, List.length_append, List.length_cons]
          omega
        rw [List.length_drop] at some
        rw [List.length_take]
        omega
      refine .more token (rest ++ tail) c split length noNul.1 ?_ ?_
      · have longer : start + token.length < start + (cstringAt buf start).length := by
          rw [← prefixed, List.length_append, List.length_cons]
          omega
        have written : buf.set (start + token.length) '\x00' =
            buf.take start ++ (token ++ '\x00' :: (rest ++ tail)) := by
          conv_lhs => rw [split]
          rw [List.set_append_right _ _ (by omega), List.set_append_right _ _ (by omega), length,
            Nat.add_sub_cancel_left, Nat.sub_self, List.set_cons_zero]
        simp only [strsepAt, isToken, if_pos longer, written]
      · have behindToken : (cstringAt buf start).drop token.length = c :: rest := by
          rw [← prefixed, List.drop_left]
        simp only [strsep, isToken, behindToken, isRest]

/-- What is in front of the tokens stays. -/
theorem strsepsAt_take (more : List (List Char)) (buf : List Char) (start : Nat) :
    (strsepsAt more buf (some start)).2.take start = buf.take start := by
  induction more generalizing buf start with
  | nil => rfl
  | cons delimiters more ih =>
      rcases takesToken delimiters buf start with ⟨taken, -⟩ | ⟨token, after, c, split, length, -, taken, -⟩
      · simp only [strsepsAt, taken, strsepsAt_none]
      · simp only [strsepsAt, taken]
        have kept := congrArg (List.take start)
          (ih (buf.take start ++ (token ++ '\x00' :: after)) (start + token.length + 1))
        rw [List.take_take, List.take_take, Nat.min_eq_left (by omega)] at kept
        rw [kept, List.take_left' length]

/-- The tokens read from the buffer are those of the text. -/
theorem strsepsAt_texts (more : List (List Char)) (buf : List Char) (start : Nat) :
    (strsepsAt more buf (some start)).1.map
        (Option.map (cstringAt (strsepsAt more buf (some start)).2)) =
      strseps more (some (cstringAt buf start)) := by
  induction more generalizing buf start with
  | nil => rfl
  | cons delimiters more ih =>
      rcases takesToken delimiters buf start with
        ⟨taken, text⟩ | ⟨token, after, c, split, length, noNul, taken, text⟩
      · simp [strsepsAt, taken, strsepsAt_none, strseps, text, strseps_none]
      · simp only [strsepsAt, taken, strseps, text, List.map_cons]
        generalize isBuf : buf.take start ++ (token ++ '\x00' :: after) = written
        have grouped : written = (buf.take start ++ token ++ ['\x00']) ++ after := by
          rw [← isBuf]
          simp
        have position : (buf.take start ++ token ++ ['\x00']).length =
            start + token.length + 1 := by
          rw [List.length_append, List.length_append, length, List.length_singleton]
        have rest : cstringAt written (start + token.length + 1) = uptoNul after := by
          rw [cstringAt, grouped, List.drop_left' position]
        have first : cstringAt (strsepsAt more written (some (start + token.length + 1))).2 start =
            token := by
          -- The later tokens leave the NUL behind this one.
          have kept := strsepsAt_take more written (start + token.length + 1)
          rw [grouped, List.take_left' position, ← grouped] at kept
          rw [cstringAt, ← List.take_append_drop (start + token.length + 1)
            (strsepsAt more written (some (start + token.length + 1))).2, kept, List.append_assoc,
            List.append_assoc, List.drop_left' length, List.singleton_append, uptoNul_nul noNul]
        rw [ih, rest, Option.map_some, first]

end Pkgng.Lib
