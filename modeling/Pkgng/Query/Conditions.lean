import Mathlib.Data.List.TakeDrop
import Mathlib.Data.List.TakeWhile
import Mathlib.Data.List.Infix

/-!
# Queries with a condition

`pkgdb_query` and `pkg_repo_binary_query` put the text of a query together in a buffer of
`BUFSIZ` characters, which cuts what does not fit.  The repository's query then goes through
`sbuf_printf`, which fills in the name of the repository and takes two percent signs of the
condition for one.
-/

set_option autoImplicit false

namespace Pkgng

/-- `match_t`. -/
inductive MatchType
  | all
  | exact
  | glob
  | regex
  | condition
  | fts
deriving DecidableEq, Repr

/-- `pkgdb_get_pattern_query`, for a pattern that is not NULL. -/
def pkgdbGetPatternQuery (caseSensitive : Bool) (pattern : List Char) (match_ : MatchType) :
    List Char :=
  let checkuid := decide ('~' ∈ pattern)
  let checkorigin := !checkuid && decide ('/' ∈ pattern)
  let byUid := " WHERE name = SPLIT_UID('name', ?1) AND origin = SPLIT_UID('origin', ?1)".toList
  match match_ with
  | .all => []
  | .exact =>
      if caseSensitive then
        if checkuid then byUid
        else if checkorigin then " WHERE origin = ?1".toList
        else (" WHERE name = ?1 OR (name = SPLIT_VERSION('name', ?1) AND " ++
          " version = SPLIT_VERSION('version', ?1))").toList
      else if checkuid then
        (" WHERE name = SPLIT_UID('name', ?1) COLLATE NOCASE AND " ++
          "origin = SPLIT_UID('origin', ?1) COLLATE NOCASE").toList
      else if checkorigin then " WHERE origin = ?1 COLLATE NOCASE".toList
      else (" WHERE name = ?1 COLLATE NOCASE OR (name = SPLIT_VERSION('name', ?1) " ++
        "COLLATE NOCASE AND  version = SPLIT_VERSION('version', ?1))").toList
  | .glob =>
      if checkuid then byUid
      else if checkorigin then " WHERE origin GLOB ?1".toList
      else " WHERE name GLOB ?1 OR name || '-' || version GLOB ?1".toList
  | .regex =>
      if checkuid then byUid
      else if checkorigin then " WHERE origin REGEXP ?1".toList
      else " WHERE name REGEXP ?1 OR name || '-' || version REGEXP ?1".toList
  | .condition => pattern
  | .fts =>
      if checkorigin then " WHERE id IN (SELECT id FROM pkg_search WHERE origin MATCH ?1)".toList
      else " WHERE id IN (SELECT id FROM pkg_search WHERE name MATCH ?1)".toList

/-- What becomes of a query: it is refused, its text is a format that asks for arguments
nobody passes, or a text is prepared. -/
inductive Query
  | refused
  | undefined
  | prepared (sql : List Char)
deriving DecidableEq, Repr

/-- `sqlite3_prepare_v2`: a text is prepared where SQLite takes it. -/
def prepare (prepares : List Char → Bool) (sql : List Char) : Query :=
  if prepares sql then .prepared sql else .refused

/-- What `sqlite3_snprintf` and `strlcat` leave of a text in a buffer of this size. -/
def fitBuffer (size : Nat) (text : List Char) : List Char := text.take (size - 1)

def localSelect : List Char :=
  ("SELECT id, origin, name, name || '~' || origin as uniqueid, version, comment, desc, " ++
    "message, arch, maintainer, www, prefix, flatsize, licenselogic, automatic, " ++
    "locked, time, manifestdigest FROM packages AS p").toList

def localOrder : List Char := " ORDER BY p.name".toList

def pkgdbQuery (bufsiz : Nat) (prepares : List Char → Bool) (caseSensitive : Bool)
    (pattern : List Char) (match_ : MatchType) : Query :=
  if match_ ≠ .all ∧ pattern = [] then .refused
  else
    let comp := pkgdbGetPatternQuery caseSensitive pattern match_
    prepare prepares (fitBuffer bufsiz (localSelect ++ comp ++ localOrder ++ [';']))

/-- `basesql` as it is initialised. -/
def remoteSelect : List Char :=
  ("SELECT id, origin, name, name || '~' || origin as uniqueid, version, comment, " ++
    "prefix, desc, arch, maintainer, www, licenselogic, flatsize, pkgsize, " ++
    "cksum, manifestdigest, path AS repopath, '%s' AS dbname FROM packages AS p").toList

def remoteOrder : List Char := " ORDER BY name;".toList

/-- `sbuf_printf` with arguments that are strings: `%s` takes the next one, two percent signs
print one; for any other use of a percent sign the result is not defined. -/
def sbufPrintf : List Char → List (List Char) → Option (List Char)
  | [], _ => some []
  | ['%'], _ => none
  | '%' :: c :: format, args =>
      if c = '%' then (sbufPrintf format args).map ('%' :: ·)
      else if c = 's' then
        match args with
        | [] => none
        | arg :: args => (sbufPrintf format args).map (arg ++ ·)
      else none
  | c :: format, args => (sbufPrintf format args).map (c :: ·)

def pkgRepoBinaryQuery (bufsiz : Nat) (prepares : List Char → Bool) (repoName : List Char)
    (caseSensitive : Bool) (pattern : List Char) (match_ : MatchType) : Query :=
  if match_ ≠ .all ∧ pattern = [] then .refused
  else
    let comp := pkgdbGetPatternQuery caseSensitive pattern match_
    match sbufPrintf (fitBuffer bufsiz (remoteSelect ++ comp)) [repoName] with
    | none => .undefined
    | some sql => prepare prepares (sql ++ remoteOrder)

/-! ## What a query keeps -/

/-- The query is refused, or its text goes on like `kept`: from the selected columns over the
whole condition to the order. -/
def KeepsCondition (query : Query) (kept : Option (List Char)) : Prop :=
  match query with
  | .refused => True
  | .undefined => False
  | .prepared sql => ∃ text, kept = some text ∧ text <+: sql

def LocalKept (bufsiz : Nat) (prepares : List Char → Bool) (caseSensitive : Bool)
    (pattern : List Char) : Prop :=
  KeepsCondition (pkgdbQuery bufsiz prepares caseSensitive pattern .condition)
    (some (localSelect ++ pattern ++ localOrder))

/-- For the repository a condition is the text that its format prints. -/
def remoteText (repoName pattern : List Char) : Option (List Char) := do
  let select ← sbufPrintf remoteSelect [repoName]
  let condition ← sbufPrintf pattern []
  some (select ++ condition ++ remoteOrder)

def RemoteKept (bufsiz : Nat) (prepares : List Char → Bool) (repoName : List Char)
    (caseSensitive : Bool) (pattern : List Char) : Prop :=
  KeepsCondition (pkgRepoBinaryQuery bufsiz prepares repoName caseSensitive pattern .condition)
    (remoteText repoName pattern)

theorem keepsCondition_prepare {prepares : List Char → Bool} {sql : List Char}
    {kept : Option (List Char)} :
    KeepsCondition (prepare prepares sql) kept ↔
      (prepares sql = false ∨ ∃ text, kept = some text ∧ text <+: sql) := by
  unfold prepare
  cases prepares sql <;> simp [KeepsCondition]

theorem fitBuffer_of_lt {size : Nat} {text : List Char} (room : text.length < size) :
    fitBuffer size text = text :=
  List.take_of_length_le (by omega)

theorem prefix_fitBuffer {size : Nat} {text rest : List Char} (room : 0 < text.length) :
    text <+: fitBuffer size (text ++ rest) ↔ text.length < size := by
  rw [fitBuffer, List.prefix_take_iff]
  constructor
  · intro both
    omega
  · intro fits
    exact ⟨List.prefix_append text rest, by omega⟩

theorem localKept_iff (bufsiz : Nat) (prepares : List Char → Bool) (caseSensitive : Bool)
    (pattern : List Char) :
    LocalKept bufsiz prepares caseSensitive pattern ↔
      pattern = [] ∨
      prepares (fitBuffer bufsiz (localSelect ++ pattern ++ localOrder ++ [';'])) = false ∨
      (localSelect ++ pattern ++ localOrder).length < bufsiz := by
  unfold LocalKept pkgdbQuery
  by_cases empty : pattern = []
  · simp [empty, KeepsCondition]
  · have nonempty : 0 < (localSelect ++ pattern ++ localOrder).length := by
      have := List.length_pos_iff.mpr empty
      simp only [List.length_append]
      omega
    simp only [empty, and_false, if_false, false_or, ne_eq, not_false_eq_true, reduceCtorEq]
    rw [keepsCondition_prepare, ← @prefix_fitBuffer bufsiz _ [';'] nonempty]
    simp [pkgdbGetPatternQuery]

/-! ## The format of the repository's query -/

theorem sbufPrintf_plain {a : List Char} (plain : '%' ∉ a) (f : List Char)
    (args : List (List Char)) : sbufPrintf (a ++ f) args = (sbufPrintf f args).map (a ++ ·) := by
  induction a with
  | nil => simp
  | cons c a ih =>
      obtain ⟨here, later⟩ := not_or.mp (mt List.mem_cons.mpr plain)
      have other : c ≠ '%' := Ne.symm here
      rw [List.cons_append, sbufPrintf, ih later, Option.map_map]
      · rfl
      · intro same
        exact absurd same other
      · intro _ _ same
        exact absurd same other

/-- A format without arguments prints more than what it starts with. -/
theorem sbufPrintf_take {f cut whole : List Char} {k : Nat} (short : k < f.length)
    (printedCut : sbufPrintf (f.take k) [] = some cut) (printed : sbufPrintf f [] = some whole) :
    cut.length < whole.length := by
  generalize none : ([] : List (List Char)) = args at printed
  fun_induction sbufPrintf f args generalizing k cut whole with
  | case1 => exact absurd short (Nat.not_lt_zero _)
  | case2 => cases printed
  | case3 args f ih =>
      obtain ⟨later, printsLater, rfl⟩ := Option.map_eq_some_iff.mp printed
      match k with
      | 0 =>
          cases printedCut
          exact Nat.succ_pos _
      | 1 => cases printedCut
      | k + 2 =>
          obtain ⟨part, printsPart, rfl⟩ := Option.map_eq_some_iff.mp printedCut
          exact Nat.succ_lt_succ (ih (by simpa using short) printsPart none printsLater)
  | case4 => cases printed
  | case5 => cases none
  | case6 => cases printed
  | case7 c f args noEnd noPair ih =>
      obtain ⟨later, printsLater, rfl⟩ := Option.map_eq_some_iff.mp printed
      match k with
      | 0 =>
          cases printedCut
          exact Nat.succ_pos _
      | k + 1 =>
          have plain : c ≠ '%' := by
            intro percent
            cases f with
            | nil => exact noEnd percent rfl
            | cons next rest => exact noPair next rest percent rfl
          have step := @sbufPrintf_plain [c] (by simpa using Ne.symm plain) (f.take k) []
          rw [List.take_succ_cons, ← List.singleton_append, step] at printedCut
          obtain ⟨part, printsPart, rfl⟩ := Option.map_eq_some_iff.mp printedCut
          exact Nat.succ_lt_succ (ih (by simpa using short) printsPart none printsLater)

/-- What stands in `basesql` before and behind the repository's name. -/
def remoteColumns : List Char := remoteSelect.takeWhile (· ≠ '%')

def remoteTable : List Char := (remoteSelect.dropWhile (· ≠ '%')).drop 2

theorem split_format {s : List Char} (format : (s.dropWhile (· ≠ '%')).take 2 = ['%', 's']) :
    s = s.takeWhile (· ≠ '%') ++ '%' :: 's' :: (s.dropWhile (· ≠ '%')).drop 2 := by
  have parts := List.take_append_drop 2 (s.dropWhile (· ≠ '%'))
  rw [format] at parts
  exact (List.takeWhile_append_dropWhile.symm).trans (congrArg (_ ++ ·) parts.symm)

/-- The text is evaluated once for what its format, its rest and its length are. -/
theorem remoteSelect_shape : (remoteSelect.dropWhile (· ≠ '%')).take 2 = ['%', 's'] ∧
    '%' ∉ remoteTable ∧ remoteSelect.length < 512 := by decide +kernel

theorem remoteSelect_eq : remoteSelect = remoteColumns ++ '%' :: 's' :: remoteTable :=
  split_format remoteSelect_shape.1

theorem remoteColumns_plain : '%' ∉ remoteColumns := by
  intro member
  simpa using List.mem_takeWhile_imp member

theorem remoteTable_plain : '%' ∉ remoteTable := remoteSelect_shape.2.1

theorem remoteSelect_short : remoteSelect.length < 512 := remoteSelect_shape.2.2

/-- A format with one `%s` takes one argument there, and what follows is a format of its own. -/
theorem sbufPrintf_oneString {columns table : List Char} (plainColumns : '%' ∉ columns)
    (plainTable : '%' ∉ table) (arg f : List Char) :
    sbufPrintf (columns ++ '%' :: 's' :: table ++ f) [arg] =
      (sbufPrintf f []).map ((columns ++ arg ++ table) ++ ·) := by
  have filled : sbufPrintf ('%' :: 's' :: (table ++ f)) [arg] =
      (sbufPrintf (table ++ f) []).map (arg ++ ·) := by
    rw [sbufPrintf, if_neg (by decide), if_pos rfl]
  rw [List.append_assoc, sbufPrintf_plain plainColumns, List.cons_append, List.cons_append,
    filled, sbufPrintf_plain plainTable, Option.map_map, Option.map_map]
  simp [Function.comp_def]

/-- The repository's name is filled in, and the condition is a format without arguments. -/
theorem sbufPrintf_remoteSelect (repoName f : List Char) :
    sbufPrintf (remoteSelect ++ f) [repoName] =
      (sbufPrintf f []).map ((remoteColumns ++ repoName ++ remoteTable) ++ ·) := by
  rw [remoteSelect_eq]
  exact sbufPrintf_oneString remoteColumns_plain remoteTable_plain repoName f

theorem remoteText_eq (repoName pattern : List Char) :
    remoteText repoName pattern = (sbufPrintf pattern []).map
      fun condition => remoteColumns ++ repoName ++ remoteTable ++ condition ++ remoteOrder := by
  have select := sbufPrintf_remoteSelect repoName []
  rw [List.append_nil] at select
  rw [remoteText, select]
  cases sbufPrintf pattern [] <;> simp [sbufPrintf]

/-- The condition reaches the repository whole exactly if it fits behind the selected columns
and its percent signs are pairs. -/
theorem remoteText_prefix_iff {bufsiz : Nat} (fits : remoteSelect.length < bufsiz)
    {repoName pattern sql : List Char}
    (printed : sbufPrintf (fitBuffer bufsiz (remoteSelect ++ pattern)) [repoName] = some sql) :
    (∃ text, remoteText repoName pattern = some text ∧ text <+: sql ++ remoteOrder) ↔
      (sbufPrintf pattern []).isSome ∧ remoteSelect.length + pattern.length < bufsiz := by
  rw [fitBuffer, List.take_append, List.take_of_length_le (by omega),
    sbufPrintf_remoteSelect] at printed
  obtain ⟨part, printsPart, rfl⟩ := Option.map_eq_some_iff.mp printed
  rw [remoteText_eq]
  constructor
  · rintro ⟨text, known, isPrefix⟩
    obtain ⟨condition, prints, rfl⟩ := Option.map_eq_some_iff.mp known
    refine ⟨by rw [prints]; rfl, ?_⟩
    by_contra long
    have short := sbufPrintf_take (by omega) printsPart prints
    have bound := isPrefix.length_le
    simp only [List.length_append] at bound
    omega
  · rintro ⟨paired, room⟩
    rw [List.take_of_length_le (by omega)] at printsPart
    rw [printsPart]
    exact ⟨_, rfl, by simp⟩

theorem pkgRepoBinaryQuery_condition {pattern : List Char} (nonempty : pattern ≠ [])
    (bufsiz : Nat) (prepares : List Char → Bool) (repoName : List Char) (caseSensitive : Bool) :
    pkgRepoBinaryQuery bufsiz prepares repoName caseSensitive pattern .condition =
      match sbufPrintf (fitBuffer bufsiz (remoteSelect ++ pattern)) [repoName] with
      | none => .undefined
      | some sql => prepare prepares (sql ++ remoteOrder) := by
  rw [pkgRepoBinaryQuery, if_neg fun empty => nonempty empty.2]
  rfl

theorem remoteKept_iff {bufsiz : Nat} (fits : remoteSelect.length < bufsiz)
    (prepares : List Char → Bool) (repoName : List Char) (caseSensitive : Bool)
    (pattern : List Char) :
    RemoteKept bufsiz prepares repoName caseSensitive pattern ↔
      pattern = [] ∨
      (∃ sql, sbufPrintf (fitBuffer bufsiz (remoteSelect ++ pattern)) [repoName] = some sql ∧
        prepares (sql ++ remoteOrder) = false) ∨
      ((sbufPrintf pattern []).isSome ∧ remoteSelect.length + pattern.length < bufsiz) := by
  unfold RemoteKept
  by_cases empty : pattern = []
  · rw [pkgRepoBinaryQuery, if_pos ⟨by decide, empty⟩]
    exact iff_of_true trivial (.inl empty)
  · rw [pkgRepoBinaryQuery_condition empty]
    simp only [empty, false_or]
    cases printed : sbufPrintf (fitBuffer bufsiz (remoteSelect ++ pattern)) [repoName] with
    | none =>
        simp only [KeepsCondition, reduceCtorEq, false_and, exists_false, false_or, false_iff]
        rintro ⟨paired, room⟩
        rw [← List.length_append] at room
        rw [fitBuffer_of_lt room, sbufPrintf_remoteSelect, Option.map_eq_none_iff] at printed
        rw [printed] at paired
        cases paired
    | some sql =>
        rw [keepsCondition_prepare, remoteText_prefix_iff fits printed]
        simp

/-- When a condition is prepared whole or refused, by both functions. -/
theorem conditionKept_iff {bufsiz : Nat} (fits : remoteSelect.length < bufsiz)
    (prepares : List Char → Bool) (repoName : List Char) (caseSensitive : Bool)
    (pattern : List Char) :
    (LocalKept bufsiz prepares caseSensitive pattern ↔
      pattern = [] ∨
      prepares (fitBuffer bufsiz (localSelect ++ pattern ++ localOrder ++ [';'])) = false ∨
      (localSelect ++ pattern ++ localOrder).length < bufsiz) ∧
    (RemoteKept bufsiz prepares repoName caseSensitive pattern ↔
      pattern = [] ∨
      (∃ sql, sbufPrintf (fitBuffer bufsiz (remoteSelect ++ pattern)) [repoName] = some sql ∧
        prepares (sql ++ remoteOrder) = false) ∨
      ((sbufPrintf pattern []).isSome ∧ remoteSelect.length + pattern.length < bufsiz)) :=
  ⟨localKept_iff bufsiz prepares caseSensitive pattern,
    remoteKept_iff fits prepares repoName caseSensitive pattern⟩

theorem shortCondition_kept :
    (LocalKept 1024 (fun _ => true) true " WHERE name='b'".toList ↔
      " WHERE name='b'".toList = [] ∨
      (fun _ => true) (fitBuffer 1024
        (localSelect ++ " WHERE name='b'".toList ++ localOrder ++ [';'])) = false ∨
      (localSelect ++ " WHERE name='b'".toList ++ localOrder).length < 1024) ∧
    (RemoteKept 1024 (fun _ => true) "FreeBSD".toList true " WHERE name='b'".toList ↔
      " WHERE name='b'".toList = [] ∨
      (∃ sql, sbufPrintf (fitBuffer 1024 (remoteSelect ++ " WHERE name='b'".toList))
          ["FreeBSD".toList] = some sql ∧
        (fun _ => true) (sql ++ remoteOrder) = false) ∨
      ((sbufPrintf " WHERE name='b'".toList []).isSome ∧
        remoteSelect.length + " WHERE name='b'".toList.length < 1024)) :=
  conditionKept_iff (remoteSelect_short.trans (by decide)) (fun _ => true) "FreeBSD".toList true
    " WHERE name='b'".toList

/-- A comparison that ends with the buffer hides what follows it, where SQLite takes the
statement that is left. -/
theorem hiddenRest_not_kept {bufsiz : Nat} {first rest : List Char} (some : first ≠ [])
    (ends : (localSelect ++ first).length + 1 = bufsiz) (caseSensitive : Bool) :
    ¬LocalKept bufsiz (fun sql => sql = localSelect ++ first) caseSensitive (first ++ rest) := by
  have cut : fitBuffer bufsiz (localSelect ++ (first ++ rest) ++ localOrder ++ [';']) =
      localSelect ++ first := by
    have parted : localSelect ++ (first ++ rest) ++ localOrder ++ [';'] =
        (localSelect ++ first) ++ (rest ++ localOrder ++ [';']) := by simp
    rw [fitBuffer, parted]
    exact List.take_left' (by omega)
  rw [localKept_iff, cut]
  rintro (empty | refused | fits)
  · exact some (List.append_eq_nil_iff.mp empty).1
  · simp at refused
  · have ordered : 0 < localOrder.length := by decide
    simp only [List.length_append] at ends fits
    omega

/-- `%n = aa...a || %n = b` with 803 letters in the first name. -/
theorem longName_not_kept :
    ¬LocalKept 1024
      (fun sql => sql =
        localSelect ++ (" WHERE name='".toList ++ List.replicate 803 'a' ++ ['\x27'])) true
      (" WHERE name='".toList ++ List.replicate 803 'a' ++ ['\x27'] ++ " OR name='b'".toList) := by
  have select : localSelect.length = 206 := by decide +kernel
  refine hiddenRest_not_kept (fun none => by cases (List.append_eq_nil_iff.mp none).2) ?_ true
  simp only [List.length_append, List.length_replicate, List.length_singleton, select]
  rfl

end Pkgng
