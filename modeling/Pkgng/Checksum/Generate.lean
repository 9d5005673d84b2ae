import Pkgng.Checksum.Base32
import Pkgng.Lib.Comparator
import Pkgng.Lib.ListSort

/-!
# The checksum of a package

`pkg_checksum_generate` collects the identity data of a package as pairs of a field and a
value, sorts them, and hashes the fields and values one behind the other.  So the order of
insertion has no influence on what is hashed, but nothing separates a field from its value
or from the next field either.
-/

set_option autoImplicit false

namespace Pkgng

open Lib

structure PkgChecksumEntry where
  field : List Char
  value : List Char
deriving DecidableEq, Repr

/-- `struct pkg_option`; `pkg_addoption` asserts that neither text is empty. -/
structure PkgOption where
  key : List Char
  value : List Char
  key_ne : key ≠ []
  value_ne : value ≠ []

/-- What `pkg_checksum_generate` reads of a `struct pkg`, each table in the order of its
insertions. -/
structure ChecksumPkg where
  name : Option (List Char) := none
  origin : Option (List Char) := none
  version : Option (List Char) := none
  arch : Option (List Char) := none
  options : List PkgOption := []
  shlibsRequired : List (List Char) := []
  shlibsProvided : List (List Char) := []
  users : List (List Char) := []
  groups : List (List Char) := []
  /-- The uids of the dependencies. -/
  deps : List (List Char) := []

def pkgChecksumEntryCmp (e₁ e₂ : PkgChecksumEntry) : Int :=
  let r := strcmp e₁.field e₂.field
  if r ≠ 0 then r else strcmp e₁.value e₂.value

/-- The entries of one table, all under one field. -/
def tableEntries (field : String) (values : List (List Char)) : List PkgChecksumEntry :=
  values.map fun value => ⟨field.toList, value⟩

/-- The entries in the order in which `pkg_checksum_generate` adds them. -/
def checksumEntries (pkg : ChecksumPkg) : List PkgChecksumEntry :=
  tableEntries "name" pkg.name.toList ++ tableEntries "origin" pkg.origin.toList ++
    tableEntries "version" pkg.version.toList ++ tableEntries "arch" pkg.arch.toList ++
    pkg.options.map (fun option => ⟨option.key, option.value⟩) ++
    tableEntries "required_shlib" pkg.shlibsRequired ++
    tableEntries "provided_shlib" pkg.shlibsProvided ++
    tableEntries "user" pkg.users ++ tableEntries "group" pkg.groups ++
    tableEntries "depend" pkg.deps

/-- The text that `pkg_checksum_hash_sha256` feeds to the hash. -/
def hashedText (entries : List PkgChecksumEntry) : List Char :=
  entries.flatMap fun e => e.field ++ e.value

/-- The entries as `DL_SORT` leaves them. -/
def sortedEntries (pkg : ChecksumPkg) : List PkgChecksumEntry :=
  listSort (fun e₁ e₂ => pkgChecksumEntryCmp e₁ e₂ ≤ 0) (checksumEntries pkg)

/-- `pkg_checksum_type_t`, without the unknown type. -/
inductive PkgChecksumType
  | sha256Base32
  | sha256Hex
deriving DecidableEq, Repr

def PKG_CHECKSUM_CUR_VERSION : Nat := 2

/-- `hlen` of both types: `PKG_CHECKSUM_SHA256_LEN`. -/
def PKG_CHECKSUM_SHA256_LEN : Nat := 32 * 2 + 4 * 2 + 2

def hexDigit (x : Nat) : Char := "0123456789abcdef".toList.getD x '0'

def pkgChecksumEncodeHex (input : List UInt8) (outlen : Nat) : Option (List Char) :=
  if outlen < input.length * 2 then none
  else some (input.flatMap fun byte => [hexDigit (byte.toNat / 16), hexDigit (byte.toNat % 16)])

def PkgChecksumType.encfunc : PkgChecksumType → List UInt8 → Nat → Option (List Char)
  | .sha256Base32 => pkgChecksumEncodeBase32
  | .sha256Hex => pkgChecksumEncodeHex

def PkgChecksumType.toNat : PkgChecksumType → Nat
  | .sha256Base32 => 0
  | .sha256Hex => 1

/-- `pkg_checksum_generate`: the text written to `dest`, or `EPKG_FATAL`.  `sha256` is the
hash; an encoder that refuses leaves only what stands in front of the digest. -/
def pkgChecksumGenerate (sha256 : List Char → List UInt8) (pkg : ChecksumPkg) (destlen : Nat)
    (type : PkgChecksumType) : Option (List Char) :=
  if destlen < PKG_CHECKSUM_SHA256_LEN then none
  else
    let bdigest := sha256 (hashedText (sortedEntries pkg))
    let head := Nat.toDigits 10 PKG_CHECKSUM_CUR_VERSION ++ ['$'] ++
      Nat.toDigits 10 type.toNat ++ ['$']
    some (head ++ (type.encfunc bdigest (destlen - head.length)).getD [])

/-! ## The order of insertion -/

/-- By the field, then by the value. -/
def entryOrder : PkgChecksumEntry → PkgChecksumEntry → Ordering :=
  compareLex (compareOn PkgChecksumEntry.field) (compareOn PkgChecksumEntry.value)

theorem pkgChecksumEntryCmp_eq (e₁ e₂ : PkgChecksumEntry) :
    pkgChecksumEntryCmp e₁ e₂ = ordResult (entryOrder e₁ e₂) := by
  rw [entryOrder, compareLex, ordResult_then, compareOn, compareOn]
  change _ = if ordResult (List.compareLex compare _ _) = 0 then
    ordResult (List.compareLex compare _ _) else ordResult (List.compareLex compare _ _)
  rw [← strcmp_eq, ← strcmp_eq, pkgChecksumEntryCmp]
  by_cases same : strcmp e₁.field e₂.field = 0
  · rw [if_pos same, if_neg (not_not.mpr same)]
  · rw [if_neg same, if_pos same]

theorem pkgChecksumEntryCmp_comparator : Comparator pkgChecksumEntryCmp := by
  have transitive : Std.TransCmp entryOrder := inferInstanceAs (Std.TransCmp (compareLex _ _))
  have ordered := comparator_ordResult entryOrder
  simpa only [← pkgChecksumEntryCmp_eq] using ordered

theorem pkgChecksumEntryCmp_zero {e₁ e₂ : PkgChecksumEntry}
    (same : pkgChecksumEntryCmp e₁ e₂ = 0) : e₁ = e₂ := by
  obtain ⟨field, value⟩ := e₁
  obtain ⟨otherField, otherValue⟩ := e₂
  rw [pkgChecksumEntryCmp] at same
  by_cases sameField : strcmp field otherField = 0
  · rw [if_neg (not_not.mpr sameField)] at same
    have sameValue : value = otherValue := strcmp_zero.mp same
    rw [strcmp_zero.mp sameField, sameValue]
  · rw [if_pos sameField] at same
    exact absurd same sameField

theorem entryLe_trans (e₁ e₂ e₃ : PkgChecksumEntry)
    (first : decide (pkgChecksumEntryCmp e₁ e₂ ≤ 0) = true)
    (second : decide (pkgChecksumEntryCmp e₂ e₃ ≤ 0) = true) :
    decide (pkgChecksumEntryCmp e₁ e₃ ≤ 0) = true := by
  simp only [decide_eq_true_eq] at *
  exact pkgChecksumEntryCmp_comparator.trans e₁ e₂ e₃ first second

theorem entryLe_total (e₁ e₂ : PkgChecksumEntry) :
    decide (pkgChecksumEntryCmp e₁ e₂ ≤ 0) = true ∨
      decide (pkgChecksumEntryCmp e₂ e₁ ≤ 0) = true := by
  have swapped := pkgChecksumEntryCmp_comparator.swap e₁ e₂
  simp only [decide_eq_true_eq]
  omega

/-- Every entry has one place in the order. -/
theorem entryLe_antisymm (e₁ e₂ : PkgChecksumEntry)
    (below : decide (pkgChecksumEntryCmp e₁ e₂ ≤ 0) = true)
    (above : decide (pkgChecksumEntryCmp e₂ e₁ ≤ 0) = true) : e₁ = e₂ := by
  have swapped := pkgChecksumEntryCmp_comparator.swap e₁ e₂
  simp only [decide_eq_true_eq] at below above
  exact pkgChecksumEntryCmp_zero (by omega)

theorem sortedEntries_perm (pkg : ChecksumPkg) :
    (sortedEntries pkg).Perm (checksumEntries pkg) :=
  listSort_perm _ _

theorem sortedEntries_of_sorted {pkg : ChecksumPkg} {entries : List PkgChecksumEntry}
    (same : entries.Perm (checksumEntries pkg))
    (ordered : entries.Pairwise fun e₁ e₂ => decide (pkgChecksumEntryCmp e₁ e₂ ≤ 0) = true) :
    sortedEntries pkg = entries :=
  listSort_eq entryLe_trans entryLe_total entryLe_antisymm same ordered

theorem sortedEntries_eq {a b : ChecksumPkg} (same : (checksumEntries a).Perm (checksumEntries b)) :
    sortedEntries a = sortedEntries b :=
  listSort_eq_of_perm entryLe_trans entryLe_total entryLe_antisymm same

/-- Two packages with the same identity data: equal fields, and tables that hold the same
elements, inserted in any order. -/
structure SameIdentity (a b : ChecksumPkg) : Prop where
  name : a.name = b.name
  origin : a.origin = b.origin
  version : a.version = b.version
  arch : a.arch = b.arch
  options : a.options.Perm b.options
  shlibsRequired : a.shlibsRequired.Perm b.shlibsRequired
  shlibsProvided : a.shlibsProvided.Perm b.shlibsProvided
  users : a.users.Perm b.users
  groups : a.groups.Perm b.groups
  deps : a.deps.Perm b.deps

theorem SameIdentity.entries {a b : ChecksumPkg} (same : SameIdentity a b) :
    (checksumEntries a).Perm (checksumEntries b) := by
  have table : ∀ (field : String) {values others : List (List Char)}, values.Perm others →
      (tableEntries field values).Perm (tableEntries field others) :=
    fun field _ _ arranged => arranged.map _
  unfold checksumEntries
  rw [same.name, same.origin, same.version, same.arch]
  exact ((((((List.Perm.refl _).append (same.options.map _)).append
    (table _ same.shlibsRequired)).append (table _ same.shlibsProvided)).append
    (table _ same.users)).append (table _ same.groups)).append (table _ same.deps)

def pkgOption (key value : String) (given : key.toList ≠ [] ∧ value.toList ≠ []) : PkgOption :=
  ⟨key.toList, value.toList, given.1, given.2⟩

/-- `editors/vim` with the options and dependencies given. -/
def vimPkg (options : List PkgOption) (deps : List (List Char)) : ChecksumPkg where
  name := "vim".toList
  origin := "editors/vim".toList
  version := "7.4".toList
  arch := "freebsd:10:x86:64".toList
  options := options
  deps := deps

/-- So does the checksum itself. -/
theorem pkgChecksumGenerate_perm (sha256 : List Char → List UInt8) {a b : ChecksumPkg}
    (same : (checksumEntries a).Perm (checksumEntries b)) (destlen : Nat) (type : PkgChecksumType) :
    pkgChecksumGenerate sha256 a destlen type = pkgChecksumGenerate sha256 b destlen type := by
  rw [pkgChecksumGenerate, pkgChecksumGenerate, sortedEntries_eq same]

/-! ## Texts that several packages share -/

/-- No package with other entries has the text of this one. -/
def TextApart (pkg : ChecksumPkg) : Prop :=
  ∀ other, ¬ (checksumEntries pkg).Perm (checksumEntries other) →
    hashedText (sortedEntries pkg) ≠ hashedText (sortedEntries other)

/-- Nothing at all, or an option whose name and value are one character each. -/
def Tiny (entries : List PkgChecksumEntry) : Prop :=
  entries = [] ∨ ∃ key value, entries = [⟨[key], [value]⟩]

/-- Where a value may be empty, its field is a longer word. -/
def Sized (e : PkgChecksumEntry) : Prop :=
  e.field ≠ [] ∧ (e.value ≠ [] ∨ 3 ≤ e.field.length)

theorem tableEntries_sized {field : String} (word : 3 ≤ field.toList.length)
    {values : List (List Char)} : ∀ e ∈ tableEntries field values, Sized e := by
  intro e member
  obtain ⟨value, _, rfl⟩ := List.mem_map.mp member
  exact ⟨List.length_pos_iff.mp (Nat.lt_of_lt_of_le (by omega) word), .inr word⟩

theorem checksumEntries_sized (pkg : ChecksumPkg) : ∀ e ∈ checksumEntries pkg, Sized e := by
  intro e member
  simp only [checksumEntries, List.mem_append] at member
  rcases member with ((((((((member | member) | member) | member) | member) | member) | member) |
    member) | member) | member
  case inl.inl.inl.inl.inl.inr =>
    obtain ⟨option, _, rfl⟩ := List.mem_map.mp member
    exact ⟨option.key_ne, .inl option.value_ne⟩
  all_goals exact tableEntries_sized (by decide) e member

theorem length_hashedText_cons (e : PkgChecksumEntry) (rest : List PkgChecksumEntry) :
    (hashedText (e :: rest)).length =
      e.field.length + e.value.length + (hashedText rest).length := by
  rw [hashedText, List.flatMap_cons, List.length_append, List.length_append]
  rfl

theorem Sized.length {e : PkgChecksumEntry} (sized : Sized e) :
    2 ≤ e.field.length + e.value.length := by
  have field := List.length_pos_iff.mpr sized.1
  rcases sized.2 with value | word
  · have := List.length_pos_iff.mpr value
    omega
  · omega

/-- A text of less than three characters comes from nothing or from one entry. -/
theorem tiny_iff {entries : List PkgChecksumEntry} (sized : ∀ e ∈ entries, Sized e) :
    Tiny entries ↔ (hashedText entries).length < 3 := by
  constructor
  · rintro (rfl | ⟨key, value, rfl⟩) <;> simp [hashedText]
  · intro short
    cases entries with
    | nil => exact .inl rfl
    | cons e rest =>
        have here := sized e (by simp)
        have total := length_hashedText_cons e rest
        have enough := here.length
        have alone : rest = [] := by
          cases rest with
          | nil => rfl
          | cons next later =>
              have after := (sized next (by simp)).length
              have totalAfter := length_hashedText_cons next later
              omega
        subst alone
        have nothing : (hashedText []).length = 0 := rfl
        have oneEach : e.field.length = 1 ∧ e.value.length = 1 := by
          have field := List.length_pos_iff.mpr here.1
          rcases here.2 with value | word
          · have := List.length_pos_iff.mpr value
            omega
          · omega
        obtain ⟨field, value⟩ := e
        obtain ⟨key, rfl⟩ := List.length_eq_one_iff.mp oneEach.1
        obtain ⟨setting, rfl⟩ := List.length_eq_one_iff.mp oneEach.2
        exact .inr ⟨key, setting, rfl⟩

theorem Tiny.perm {a b : List PkgChecksumEntry} (tiny : Tiny a) (same : a.Perm b) : Tiny b := by
  rcases tiny with rfl | ⟨key, value, rfl⟩
  · exact .inl same.nil_eq.symm
  · exact .inr ⟨key, value, List.perm_singleton.mp same.symm⟩

theorem Tiny.text_inj {a b : List PkgChecksumEntry} (tiny : Tiny a) (otherTiny : Tiny b)
    (same : hashedText a = hashedText b) : a = b := by
  rcases tiny with rfl | ⟨key, value, rfl⟩ <;> rcases otherTiny with rfl | ⟨key', value', rfl⟩ <;>
    simp_all [hashedText]

/-- A package with one option and nothing else. -/
def optionPkg (option : PkgOption) : ChecksumPkg := { options := [option] }

theorem checksumEntries_optionPkg (option : PkgOption) :
    checksumEntries (optionPkg option) = [⟨option.key, option.value⟩] :=
  rfl

theorem hashedText_optionPkg (option : PkgOption) :
    hashedText (sortedEntries (optionPkg option)) = option.key ++ option.value := by
  have alone := sortedEntries_perm (optionPkg option)
  rw [checksumEntries_optionPkg, List.perm_singleton] at alone
  rw [alone]
  simp [hashedText]

/-- The text of three characters and more is also the text of two options, which part it at
different places. -/
theorem exists_same_text (pkg : ChecksumPkg)
    (long : 3 ≤ (hashedText (sortedEntries pkg)).length) : ¬ TextApart pkg := by
  intro apart
  match text : hashedText (sortedEntries pkg) with
  | a :: b :: c :: rest =>
      have early := apart (optionPkg ⟨[a], b :: c :: rest, by simp, by simp⟩)
      have late := apart (optionPkg ⟨[a, b], c :: rest, by simp, by simp⟩)
      rw [text, hashedText_optionPkg, checksumEntries_optionPkg] at early late
      have isEarly : (checksumEntries pkg).Perm [⟨[a], b :: c :: rest⟩] := by
        by_contra other
        exact early other rfl
      have isLate : (checksumEntries pkg).Perm [⟨[a, b], c :: rest⟩] := by
        by_contra other
        exact late other rfl
      simpa using isEarly.symm.trans isLate
  | [] | [_] | [_, _] => simp [text] at long

theorem sortedEntries_sized (pkg : ChecksumPkg) : ∀ e ∈ sortedEntries pkg, Sized e :=
  fun e member => checksumEntries_sized pkg e ((sortedEntries_perm pkg).mem_iff.mp member)

end Pkgng
