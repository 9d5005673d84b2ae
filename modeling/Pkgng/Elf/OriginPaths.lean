import Pkgng.Lib.CStrings
import Pkgng.Lib.Substrings

/-!
# Directories of an RPATH

`shlib_list_from_rpath` puts the table of its directories and their text into one allocation.
It counts the components and leaves room for one `$ORIGIN` in each of them; the copying looks for
the end of the whole allocation, which is behind that of the text.
-/

set_option autoImplicit false

namespace Pkgng

open Lib

def originToken : List Char := "$ORIGIN".toList

/-- How a call fails: a sum of `int`s overflows, a byte behind the allocation is written, or
there are more directories than places in the table, where the assertion fails. -/
inductive RpathFault
  | overflow
  | outside
  | assertion
deriving DecidableEq, Repr

/-- `numdirs` and `buflen`. -/
def rpathSizes (rpath dirpath : List Char) : Except RpathFault (Nat × Nat) :=
  let numdirs := rpath.count ':' + 1
  let buflen := numdirs * 8 + rpath.length + 1
  let i := toInt32 ((dirpath.length : Int) - originToken.length)
  if intMax < numdirs then .error .overflow
  else if 0 < i then
    if intMax < i.toNat * numdirs then .error .overflow
    else .ok (numdirs, buflen + i.toNat * numdirs)
  else .ok (numdirs, buflen)

/-- A text of the buffer with its NUL, in the `room` bytes from `buf` on. -/
def storeText (room : Nat) (text : List Char) : Except RpathFault (List Char) :=
  if text.length < room then .ok text else .error .outside

/-- `strncat` of everything that it is given. -/
def strncatRpath (room : Nat) (buf s : List Char) : Except RpathFault (List Char) :=
  storeText room (buf ++ s)

/-- `strlcat` with `buflen` for the size of the buffer. -/
def strlcatRpath (room buflen : Nat) (buf s : List Char) : Except RpathFault (List Char) :=
  storeText room (buf ++ s.take (buflen - 1 - buf.length))

/-- The loop over the occurrences of the token from `cstart` on, and the copy of the rest. -/
def expandOrigin (dirpath : List Char) (room buflen : Nat) :
    Nat → List Char → List Char → Except RpathFault (List Char)
  | 0, cstart, buf => strlcatRpath room buflen buf cstart
  | n + 1, cstart, buf =>
      match strstr originToken cstart with
      | none => strlcatRpath room buflen buf cstart
      | some (front, behind) =>
          match strncatRpath room buf front with
          | .error fault => .error fault
          | .ok buf =>
              match strlcatRpath room buflen buf dirpath with
              | .error fault => .error fault
              | .ok buf => expandOrigin dirpath room buflen n behind buf

/-- The loop over `strsep`.  A pointer behind the table would be written into the text; `i` is
then greater than `numdirs` at the assertion, whatever comes of it. -/
def fillDirlist (numdirs : Nat) :
    Nat → Option (List Char) → List (List Char) → Except RpathFault (List (List Char))
  | 0, _, dirlist => .ok dirlist
  | n + 1, buf, dirlist =>
      match strsep [':'] buf with
      | (none, _) => .ok dirlist
      | (some c, buf) =>
          if c = [] then fillDirlist numdirs n buf dirlist
          else if dirlist.length < numdirs then fillDirlist numdirs n buf (dirlist ++ [c])
          else .error .assertion

/-- `shlib_list_from_rpath`, up to the directories that are handed to `scan_dirs_for_shlibs`.
A token needs a character of the text, and a component a character or a colon. -/
def shlibListFromRpath (rpath dirpath : List Char) : Except RpathFault (List (List Char)) :=
  match rpathSizes rpath dirpath with
  | .error fault => .error fault
  | .ok (numdirs, buflen) =>
      match expandOrigin dirpath (buflen - numdirs * 8) buflen rpath.length rpath [] with
      | .error fault => .error fault
      | .ok buf => fillDirlist numdirs (buf.length + 2) (some buf) []

/-! ## What is to be scanned -/

/-- The components of the text that are not empty. -/
def rpathComponents (text : List Char) : List (List Char) := (text.splitOn ':').filter (· ≠ [])

/-- The call writes inside of its allocation, and scans the components of the string with every
token replaced. -/
def ExpandsExactly (rpath dirpath : List Char) : Prop :=
  shlibListFromRpath rpath dirpath =
    .ok (rpathComponents (replaceToken originToken dirpath rpath))

/-- How often the token occurs. -/
def originCount (rpath : List Char) : Nat := (piecesOf originToken rpath).length - 1

/-- The numbers of the size fit into an `int`, and the room that is added is enough for what the
directory is longer than the token, once for each occurrence. -/
structure RoomSuffices (rpath dirpath : List Char) : Prop where
  components : rpath.count ':' + 1 ≤ intMax
  product : (toInt32 ((dirpath.length : Int) - originToken.length)).toNat *
    (rpath.count ':' + 1) ≤ intMax
  occurrences : (originCount rpath : Int) * ((dirpath.length : Int) - originToken.length) ≤
    (toInt32 ((dirpath.length : Int) - originToken.length)).toNat * (rpath.count ':' + 1)

/-! ## The copy -/

section Copy

variable {room buflen : Nat} {buf : List Char}

theorem storeText_append (more : List Char) :
    (storeText room buf = .ok buf ∧ buf.length < room) ∨
      (storeText room buf = .error .outside ∧ storeText room (buf ++ more) = .error .outside) := by
  unfold storeText
  by_cases fits : buf.length < room
  · exact .inl ⟨if_pos fits, fits⟩
  · refine .inr ⟨if_neg fits, if_neg ?_⟩
    rw [List.length_append]
    omega

/-- What `strlcat` cuts off lies behind the allocation. -/
theorem strlcatRpath_eq (wide : room < buflen) (inside : buf.length < room) (s : List Char) :
    strlcatRpath room buflen buf s = storeText room (buf ++ s) := by
  unfold strlcatRpath
  by_cases fits : s.length ≤ buflen - 1 - buf.length
  · rw [List.take_of_length_le fits]
  · have cut : ¬(buf ++ s.take (buflen - 1 - buf.length)).length < room := by
      rw [List.length_append, List.length_take]
      omega
    have whole : ¬(buf ++ s).length < room := by
      rw [List.length_append]
      omega
    rw [storeText, storeText, if_neg cut, if_neg whole]

/-- The copy is the expanded text, unless it does not fit.  The induction is on the occurrences
that are left. -/
theorem expandOrigin_eq (dirpath : List Char) (wide : room < buflen) (n : Nat)
    (cstart : List Char) (inside : buf.length < room) :
    expandOrigin dirpath room buflen n cstart buf =
      storeText room (buf ++ dirpath.intercalate (tokenPieces originToken n cstart)) := by
  induction n generalizing cstart buf with
  | zero =>
      rw [expandOrigin, tokenPieces, List.intercalate_singleton]
      exact strlcatRpath_eq wide inside cstart
  | succ n ih =>
      cases found : strstr originToken cstart with
      | none =>
          simp only [expandOrigin, tokenPieces, found]
          rw [List.intercalate_singleton]
          exact strlcatRpath_eq wide inside cstart
      | some pair =>
          simp only [expandOrigin, tokenPieces, found, strncatRpath]
          rw [List.intercalate_cons_of_ne_nil (tokenPieces_ne_nil originToken n pair.2),
            ← List.append_assoc, ← List.append_assoc]
          rcases @storeText_append room (buf ++ pair.1)
            (dirpath ++ dirpath.intercalate (tokenPieces originToken n pair.2)) with
            ⟨stored, fits⟩ | ⟨refused, after⟩
          · rw [stored]
            dsimp only
            rw [strlcatRpath_eq wide fits]
            rcases @storeText_append room (buf ++ pair.1 ++ dirpath)
              (dirpath.intercalate (tokenPieces originToken n pair.2)) with
              ⟨stored, fits⟩ | ⟨refused, after⟩
            · rw [stored]
              exact ih pair.2 fits
            · rw [refused, after]
          · rw [refused, List.append_assoc, after]

end Copy

/-! ## The table -/

theorem strsep_colon_cases (text : List Char) :
    (strsep [':'] (some text) = (some text, none) ∧
        rpathComponents text = [text].filter (· ≠ [])) ∨
      ∃ c rest, strsep [':'] (some text) = (some c, some rest) ∧ rest.length < text.length ∧
        rpathComponents text = [c].filter (· ≠ []) ++ rpathComponents rest := by
  by_cases colon : ':' ∈ text
  · obtain ⟨c, rest, rfl, notIn⟩ := List.eq_append_cons_of_mem colon
    refine .inr ⟨c, rest, strsep_append ?_ List.mem_cons_self, ?_, ?_⟩
    · intro d member isColon
      exact notIn (List.mem_singleton.mp isColon ▸ member)
    · rw [List.length_append, List.length_cons]
      omega
    · rw [rpathComponents, List.splitOn_append_cons_self_of_not_mem notIn, ← List.singleton_append,
        List.filter_append, rpathComponents]
  · have whole : text.takeWhile (· ∉ [':']) = text := by
      rw [List.takeWhile_eq_self_iff]
      intro d member
      exact decide_eq_true fun isColon => colon (List.mem_singleton.mp isColon ▸ member)
    refine .inl ⟨?_, ?_⟩
    · unfold strsep
      simp only [whole, List.drop_length]
    · rw [rpathComponents, List.splitOn_eq_singleton colon]

/-- The table gets the components, unless there are more than places. -/
theorem fillDirlist_eq {numdirs n : Nat} {text : List Char} {dirlist : List (List Char)}
    (enough : text.length < n) (fits : dirlist.length ≤ numdirs) :
    fillDirlist numdirs n (some text) dirlist =
      if (dirlist ++ rpathComponents text).length ≤ numdirs then
        .ok (dirlist ++ rpathComponents text)
      else .error .assertion := by
  induction n generalizing text dirlist with
  | zero => omega
  | succ n ih =>
      have atEnd (dirlist : List (List Char)) :
          fillDirlist numdirs n none dirlist = .ok dirlist := by
        cases n <;> rfl
      have kept (c : List Char) (nonempty : c ≠ []) : [c].filter (· ≠ []) = [c] := by
        simpa using nonempty
      rcases strsep_colon_cases text with ⟨isLast, parts⟩ | ⟨c, rest, isToken, shorter, parts⟩
      · rw [parts, fillDirlist, isLast]
        dsimp only
        by_cases empty : text = []
        · rw [if_pos empty, atEnd, empty]
          simp [fits]
        · rw [if_neg empty, kept text empty,
            List.length_append, List.length_singleton]
          by_cases room : dirlist.length < numdirs
          · rw [if_pos room, atEnd, if_pos (by omega)]
          · rw [if_neg room, if_neg (by omega)]
      · rw [parts, fillDirlist, isToken]
        dsimp only
        by_cases empty : c = []
        · rw [if_pos empty, ih (by omega) fits, empty]
          simp
        · rw [if_neg empty, kept c empty,
            ← List.append_assoc]
          have longer : (dirlist ++ [c]).length = dirlist.length + 1 := List.length_append
          by_cases room : dirlist.length < numdirs
          · rw [if_pos room, ih (by omega) (by omega)]
          · rw [if_neg room, if_neg]
            rw [List.length_append]
            omega

/-! ## The call -/

theorem length_expanded (rpath dirpath : List Char) :
    (replaceToken originToken dirpath rpath).length + originCount rpath * originToken.length =
      rpath.length + originCount rpath * dirpath.length :=
  additive_replaceToken (fun _ _ => List.length_append) originToken dirpath rpath

/-- The room that `buflen` leaves behind the table. -/
theorem rpathSizes_eq (rpath dirpath : List Char) :
    rpathSizes rpath dirpath =
      if rpath.count ':' + 1 ≤ intMax ∧
          (toInt32 ((dirpath.length : Int) - originToken.length)).toNat * (rpath.count ':' + 1) ≤
            intMax then
        .ok (rpath.count ':' + 1, (rpath.count ':' + 1) * 8 + rpath.length + 1 +
          (toInt32 ((dirpath.length : Int) - originToken.length)).toNat * (rpath.count ':' + 1))
      else .error .overflow := by
  unfold rpathSizes
  generalize toInt32 ((dirpath.length : Int) - originToken.length) = i
  dsimp only
  by_cases many : intMax < rpath.count ':' + 1
  · rw [if_pos many, if_neg fun fits => Nat.not_lt.mpr fits.1 many]
  · rw [if_neg many]
    by_cases longer : 0 < i
    · rw [if_pos longer]
      by_cases wide : intMax < i.toNat * (rpath.count ':' + 1)
      · rw [if_pos wide, if_neg fun fits => Nat.not_lt.mpr fits.2 wide]
      · rw [if_neg wide, if_pos ⟨Nat.not_lt.mp many, Nat.not_lt.mp wide⟩]
    · have nothing : i.toNat = 0 := Int.toNat_of_nonpos (Int.not_lt.mp longer)
      rw [if_neg longer, nothing, Nat.zero_mul, if_pos ⟨Nat.not_lt.mp many, Nat.zero_le _⟩]

/-- The room suffices when the expanded text is not longer than what was added up. -/
theorem roomSuffices_iff (rpath dirpath : List Char) :
    RoomSuffices rpath dirpath ↔
      (rpath.count ':' + 1 ≤ intMax ∧
        (toInt32 ((dirpath.length : Int) - originToken.length)).toNat * (rpath.count ':' + 1) ≤
          intMax) ∧
        (replaceToken originToken dirpath rpath).length ≤ rpath.length +
          (toInt32 ((dirpath.length : Int) - originToken.length)).toNat *
            (rpath.count ':' + 1) := by
  have expanded : ((replaceToken originToken dirpath rpath).length : Int) +
      originCount rpath * originToken.length = rpath.length + originCount rpath * dirpath.length :=
    mod_cast length_expanded rpath dirpath
  have signed := Int.mul_sub (originCount rpath) dirpath.length originToken.length
  constructor
  · intro room
    have occurrences := room.occurrences
    rw [← Int.natCast_succ, Nat.succ_eq_add_one, ← Int.natCast_mul] at occurrences
    exact ⟨⟨room.components, room.product⟩, by omega⟩
  · rintro ⟨⟨components, product⟩, inside⟩
    refine ⟨components, product, ?_⟩
    rw [← Int.natCast_succ, Nat.succ_eq_add_one, ← Int.natCast_mul]
    omega

/-- The call scans the directories exactly when its sizes are right and the directory does not
bring in more components than there are colons. -/
theorem expandsExactly_iff (rpath dirpath : List Char) :
    ExpandsExactly rpath dirpath ↔ RoomSuffices rpath dirpath ∧
      (rpathComponents (replaceToken originToken dirpath rpath)).length ≤
        rpath.count ':' + 1 := by
  unfold ExpandsExactly shlibListFromRpath
  rw [rpathSizes_eq]
  by_cases fits : rpath.count ':' + 1 ≤ intMax ∧
      (toInt32 ((dirpath.length : Int) - originToken.length)).toNat * (rpath.count ':' + 1) ≤
        intMax
  · rw [if_pos fits]
    dsimp only
    rw [expandOrigin_eq dirpath (by omega) rpath.length rpath (by rw [List.length_nil]; omega),
      List.nil_append]
    have room_iff := roomSuffices_iff rpath dirpath
    unfold replaceToken piecesOf at room_iff ⊢
    by_cases room : RoomSuffices rpath dirpath
    · rw [storeText, if_pos (by have inside := (room_iff.mp room).2; omega)]
      dsimp only
      rw [fillDirlist_eq (by omega) (Nat.zero_le _), List.nil_append, and_iff_right room]
      split
      · next places => exact iff_of_true rfl places
      · next places => exact iff_of_false nofun places
    · rw [storeText, if_neg fun inside => room (room_iff.mpr ⟨fits, by omega⟩)]
      exact iff_of_false nofun fun holds => room holds.1
  · rw [if_neg fits]
    exact iff_of_false nofun fun holds => fits ⟨holds.1.components, holds.1.product⟩

/-! ## What the condition comes to -/

/-- A directory that is not longer than the token needs no room of its own. -/
theorem roomSuffices_of_short {rpath dirpath : List Char}
    (short : dirpath.length ≤ originToken.length) :
    RoomSuffices rpath dirpath ↔ rpath.count ':' + 1 ≤ intMax := by
  have shortens : (dirpath.length : Int) - originToken.length ≤ 0 := by omega
  refine ⟨RoomSuffices.components, fun components => ⟨components, ?_, ?_⟩⟩
  · have nothing : (toInt32 ((dirpath.length : Int) - originToken.length)).toNat = 0 := by
      have tokenLength : originToken.length = 7 := by decide
      unfold toInt32
      rw [Int.bmod_def]
      split <;> omega
    rw [nothing, Nat.zero_mul]
    exact Nat.zero_le _
  · exact Int.le_trans (Int.mul_nonpos_of_nonneg_of_nonpos (Int.natCast_nonneg _) shortens)
      (Int.mul_nonneg (Int.natCast_nonneg _) (Int.natCast_nonneg _))

/-- A longer one needs that there are not more tokens than components. -/
theorem roomSuffices_of_long {rpath dirpath : List Char} {longer : Nat} (positive : 0 < longer)
    (length : dirpath.length = originToken.length + longer) (narrow : longer ≤ intMax) :
    RoomSuffices rpath dirpath ↔ rpath.count ':' + 1 ≤ intMax ∧
      longer * (rpath.count ':' + 1) ≤ intMax ∧ originCount rpath ≤ rpath.count ':' + 1 := by
  have difference : (dirpath.length : Int) - originToken.length = longer := by omega
  have same : toInt32 longer = longer := toInt32_eq (by unfold intMax at narrow; omega)
  have occurrences_iff : (originCount rpath : Int) * longer ≤ (longer : Int) *
      ((rpath.count ':' : Int) + 1) ↔ originCount rpath ≤ rpath.count ':' + 1 := by
    rw [Int.mul_comm, ← Int.natCast_succ, Int.mul_le_mul_left (by omega), Int.ofNat_le]
  constructor
  · rintro ⟨components, product, occurrences⟩
    rw [difference, same, Int.toNat_natCast] at product occurrences
    exact ⟨components, product, occurrences_iff.mp occurrences⟩
  · rintro ⟨components, product, occurrences⟩
    refine ⟨components, ?_, ?_⟩ <;> rw [difference, same, Int.toNat_natCast]
    · exact product
    · exact occurrences_iff.mpr occurrences

/-- A directory without a colon brings in no further components. -/
theorem components_of_noColon {dirpath : List Char} (noColon : ':' ∉ dirpath)
    (rpath : List Char) :
    (rpathComponents (replaceToken originToken dirpath rpath)).length ≤ rpath.count ':' + 1 := by
  have colons := additive_replaceToken (f := List.count ':') (fun _ _ => List.count_append)
    originToken dirpath rpath
  have noneInToken : originToken.count ':' = 0 := by decide
  rw [List.count_eq_zero_of_not_mem noColon, noneInToken] at colons
  have pieces := additive_intercalate (f := List.count ':') (fun _ _ => List.count_append) [':']
    (List.splitOn_ne_nil ':' (replaceToken originToken dirpath rpath))
  rw [List.intercalate_splitOn] at pieces
  have fewer := List.length_filter_le (· ≠ [])
    ((replaceToken originToken dirpath rpath).splitOn ':')
  rw [List.count_singleton_self, Nat.mul_one] at pieces
  unfold rpathComponents
  omega

/-- Two tokens in one component, and a directory that is longer than the token. -/
theorem twoTokens_not_expandsExactly :
    ¬ExpandsExactly "$ORIGIN$ORIGIN".toList "/usr/local/lib".toList := by
  intro exactly
  have outside : shlibListFromRpath "$ORIGIN$ORIGIN".toList "/usr/local/lib".toList =
      .error .outside := by decide +kernel
  rw [ExpandsExactly, outside] at exactly
  cases exactly

end Pkgng
