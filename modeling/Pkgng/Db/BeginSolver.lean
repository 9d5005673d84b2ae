import Pkgng.Checksum.Generate

/-!
# Digests made for the solver

`pkgdb_begin_solver` computes the missing digests of the installed packages, of which it has loaded
the options but none of the other lists that go into a digest.
-/

set_option autoImplicit false

namespace Pkgng

open Lib

/-- The load flags of the lists that `pkg_checksum_generate` reads. -/
structure LoadFlags where
  options : Bool := false
  shlibsRequired : Bool := false
  shlibsProvided : Bool := false
  users : Bool := false
  groups : Bool := false
  deps : Bool := false

def LoadFlags.all : LoadFlags := ⟨true, true, true, true, true, true⟩

/-- `PKG_LOAD_BASIC|PKG_LOAD_OPTIONS`. -/
def LoadFlags.solver : LoadFlags := { options := true }

/-- The package as `pkgdb_it_next` hands it over. -/
def ChecksumPkg.load (flags : LoadFlags) (pkg : ChecksumPkg) : ChecksumPkg :=
  { pkg with
    options := if flags.options then pkg.options else []
    shlibsRequired := if flags.shlibsRequired then pkg.shlibsRequired else []
    shlibsProvided := if flags.shlibsProvided then pkg.shlibsProvided else []
    users := if flags.users then pkg.users else []
    groups := if flags.groups then pkg.groups else []
    deps := if flags.deps then pkg.deps else [] }

/-- A row of `packages`, with what the database has of the package. -/
structure DigestRow where
  pkg : ChecksumPkg
  manifestdigest : Option (List Char)

/-- `manifestdigest IS NULL OR manifestdigest==''`. -/
def DigestRow.Undigested (row : DigestRow) : Prop :=
  row.manifestdigest = none ∨ row.manifestdigest = some []

instance (row : DigestRow) : Decidable row.Undigested := inferInstanceAs (Decidable (_ ∨ _))

/-- The hash of a text. -/
abbrev Sha256 := List Char → Vector UInt8 32

section Solver

variable (sha256 : Sha256) (repoFormat : List Char → Option PkgChecksumType)

/-- `pkg_checksum_calculate`: the digest, in the format of the repository if the package names
one. -/
def pkgChecksumCalculate (reponame : Option (List Char)) (pkg : ChecksumPkg) :
    Option (List Char) :=
  pkgChecksumGenerate (fun text => (sha256 text).toList) pkg PKG_CHECKSUM_SHA256_LEN
    ((reponame.bind repoFormat).getD .sha256Base32)

/-- An installed package names no repository. -/
def digestFor (row : DigestRow) : DigestRow :=
  if row.Undigested then
    { row with
      manifestdigest :=
        (pkgChecksumCalculate sha256 repoFormat none (row.pkg.load .solver)).or row.manifestdigest }
  else row

def pkgdbBeginSolver (rows : List DigestRow) : List DigestRow :=
  rows.map (digestFor sha256 repoFormat)

/-- The digests that are stored are those of the packages with all of their lists. -/
def StoresFullDigests (rows : List DigestRow) : Prop :=
  List.Forall₂ (fun row row' => row.Undigested →
      row'.manifestdigest = pkgChecksumCalculate sha256 repoFormat none (row.pkg.load .all))
    rows (pkgdbBeginSolver sha256 repoFormat rows)

end Solver

/-- Nothing of what the solver does not load. -/
structure ChecksumPkg.Bare (pkg : ChecksumPkg) : Prop where
  shlibsRequired : pkg.shlibsRequired = []
  shlibsProvided : pkg.shlibsProvided = []
  users : pkg.users = []
  groups : pkg.groups = []
  deps : pkg.deps = []

/-- Two texts with one hash. -/
def Collision (sha256 : Sha256) (text other : List Char) : Prop :=
  text ≠ other ∧ sha256 text = sha256 other

/-- The text that is hashed for a package. -/
def ChecksumPkg.text (pkg : ChecksumPkg) : List Char := hashedText (sortedEntries pkg)

theorem length_text (pkg : ChecksumPkg) :
    pkg.text.length = (hashedText (checksumEntries pkg)).length :=
  ((sortedEntries_perm pkg).flatMap_right _).length_eq

/-- The entries that the solver does not load. -/
def droppedEntries (pkg : ChecksumPkg) : List PkgChecksumEntry :=
  tableEntries "required_shlib" pkg.shlibsRequired ++
    tableEntries "provided_shlib" pkg.shlibsProvided ++ tableEntries "user" pkg.users ++
    tableEntries "group" pkg.groups ++ tableEntries "depend" pkg.deps

theorem checksumEntries_load (pkg : ChecksumPkg) :
    checksumEntries (pkg.load .all) =
      checksumEntries (pkg.load .solver) ++ droppedEntries pkg := by
  simp [checksumEntries, ChecksumPkg.load, LoadFlags.all, LoadFlags.solver, droppedEntries,
    tableEntries]

theorem droppedEntries_eq_nil {pkg : ChecksumPkg} : droppedEntries pkg = [] ↔ pkg.Bare := by
  simp only [droppedEntries, tableEntries, List.append_eq_nil_iff, List.map_eq_nil_iff]
  exact ⟨fun ⟨⟨⟨⟨required, provided⟩, users⟩, groups⟩, deps⟩ =>
      ⟨required, provided, users, groups, deps⟩,
    fun bare => ⟨⟨⟨⟨bare.shlibsRequired, bare.shlibsProvided⟩, bare.users⟩, bare.groups⟩, bare.deps⟩⟩

/-- Entries that add nothing to the text are none. -/
theorem hashedText_eq_nil {entries : List PkgChecksumEntry} (sized : ∀ e ∈ entries, Sized e)
    (nothing : (hashedText entries).length = 0) : entries = [] := by
  cases entries with
  | nil => rfl
  | cons e rest =>
      have enough := (sized e List.mem_cons_self).length
      rw [length_hashedText_cons] at nothing
      omega

/-- The texts are the same only if nothing has been dropped. -/
theorem text_load_eq_iff (pkg : ChecksumPkg) :
    (pkg.load .solver).text = (pkg.load .all).text ↔ pkg.Bare := by
  rw [← droppedEntries_eq_nil]
  constructor
  · intro same
    have lengths := congrArg List.length same
    rw [length_text, length_text, checksumEntries_load, hashedText, hashedText,
      List.flatMap_append, List.length_append, ← hashedText, ← hashedText] at lengths
    have nothing : (hashedText (droppedEntries pkg)).length = 0 := by omega
    refine hashedText_eq_nil (fun e member => checksumEntries_sized (pkg.load .all) e ?_) nothing
    rw [checksumEntries_load]
    exact List.mem_append_right _ member
  · intro nothing
    rw [ChecksumPkg.text, ChecksumPkg.text, sortedEntries_eq]
    rw [checksumEntries_load, nothing, List.append_nil]

section Digests

variable {sha256 : Sha256} {repoFormat : List Char → Option PkgChecksumType}

/-- The digest of an installed package. -/
theorem pkgChecksumCalculate_installed (pkg : ChecksumPkg) :
    pkgChecksumCalculate sha256 repoFormat none pkg =
      some ("2$0$".toList ++ encodeFrom 0 none (sha256 pkg.text).toList) := by
  have encoded : pkgChecksumEncodeBase32 (sha256 pkg.text).toList
      (PKG_CHECKSUM_SHA256_LEN - "2$0$".toList.length) =
        some (encodeFrom 0 none (sha256 pkg.text).toList) := by
    rw [pkgChecksumEncodeBase32, Vector.length_toList, if_neg (by decide)]
  have head : Nat.toDigits 10 PKG_CHECKSUM_CUR_VERSION ++ ['$'] ++
      Nat.toDigits 10 PkgChecksumType.sha256Base32.toNat ++ ['$'] = "2$0$".toList := by decide
  rw [pkgChecksumCalculate, pkgChecksumGenerate, if_neg (Nat.lt_irrefl _), Option.bind_none,
    Option.getD_none]
  dsimp only
  rw [head]
  exact congrArg (fun digits : Option (List Char) => some ("2$0$".toList ++ digits.getD [])) encoded

/-- Two installed packages have one digest exactly if their texts have one hash. -/
theorem pkgChecksumCalculate_eq_iff (a b : ChecksumPkg) :
    pkgChecksumCalculate sha256 repoFormat none a = pkgChecksumCalculate sha256 repoFormat none b ↔
      sha256 a.text = sha256 b.text := by
  rw [pkgChecksumCalculate_installed, pkgChecksumCalculate_installed, Option.some.injEq,
    List.append_cancel_left_eq]
  constructor
  · intro same
    have bytes := encodeFrom_inj (by rw [Vector.length_toList, Vector.length_toList]) same
    exact Vector.toList_inj.mp bytes
  · intro same
    rw [same]

theorem manifestdigest_digestFor {row : DigestRow} (undigested : row.Undigested) :
    (digestFor sha256 repoFormat row).manifestdigest =
      pkgChecksumCalculate sha256 repoFormat none (row.pkg.load .solver) := by
  rw [digestFor, if_pos undigested, pkgChecksumCalculate_installed]
  rfl

/-- The stored digests are those of the whole packages exactly if the packages without a digest
have nothing that is not loaded, or two texts of them have one hash. -/
theorem storesFullDigests_iff (sha256 : Sha256)
    (repoFormat : List Char → Option PkgChecksumType) (rows : List DigestRow) :
    StoresFullDigests sha256 repoFormat rows ↔
      ∀ row ∈ rows, row.Undigested →
        row.pkg.Bare ∨ Collision sha256 (row.pkg.load .solver).text (row.pkg.load .all).text := by
  rw [StoresFullDigests, pkgdbBeginSolver, List.forall₂_map_right_iff, List.forall₂_same]
  refine forall₂_congr fun row _ => forall_congr' fun undigested => ?_
  rw [manifestdigest_digestFor undigested, pkgChecksumCalculate_eq_iff, Collision, ne_eq,
    text_load_eq_iff]
  constructor
  · intro same
    by_cases bare : row.pkg.Bare
    · exact .inl bare
    · exact .inr ⟨bare, same⟩
  · rintro (bare | ⟨_, same⟩)
    · rw [(text_load_eq_iff row.pkg).mpr bare]
    · exact same

end Digests

/-- The SHA-256 of the two texts of `vim` with its dependency on `perl`. -/
def vimSha256 : Sha256 := fun text =>
  if text = "archfreebsd:10:x86:64namevimorigineditors/vimversion7.4".toList then
    #v[236, 129, 231, 138, 206, 74, 109, 235, 155, 149, 241, 251, 211, 62, 244, 249,
      20, 155, 168, 14, 94, 76, 15, 190, 170, 4, 212, 96, 86, 68, 17, 16]
  else if text =
      "archfreebsd:10:x86:64dependperl~lang/perl5namevimorigineditors/vimversion7.4".toList then
    #v[151, 180, 31, 4, 28, 125, 65, 247, 165, 149, 110, 62, 138, 138, 113, 193,
      114, 122, 236, 71, 182, 144, 138, 113, 55, 162, 159, 119, 60, 249, 141, 6]
  else Vector.replicate 32 0

/-- `vim`, installed with its dependency and without a digest. -/
def vimRow : DigestRow := ⟨vimPkg [] ["perl~lang/perl5".toList], none⟩

/-- The digest of a package with a dependency is not the one it should have. -/
theorem dependency_not_storesFullDigests :
    ¬∀ repoFormat, StoresFullDigests vimSha256 repoFormat [vimRow] := by
  intro all
  rcases (storesFullDigests_iff _ _ _).mp (all fun _ => none) vimRow List.mem_cons_self (.inl rfl)
    with bare | ⟨_, same⟩
  · exact absurd bare.deps (by decide)
  · rw [ChecksumPkg.text, ChecksumPkg.text,
      @sortedEntries_of_sorted _ [⟨"arch".toList, "freebsd:10:x86:64".toList⟩,
        ⟨"name".toList, "vim".toList⟩, ⟨"origin".toList, "editors/vim".toList⟩,
        ⟨"version".toList, "7.4".toList⟩] (by decide) (by decide),
      @sortedEntries_of_sorted _ [⟨"arch".toList, "freebsd:10:x86:64".toList⟩,
        ⟨"depend".toList, "perl~lang/perl5".toList⟩, ⟨"name".toList, "vim".toList⟩,
        ⟨"origin".toList, "editors/vim".toList⟩, ⟨"version".toList, "7.4".toList⟩]
        (by decide) (by decide)] at same
    exact absurd same (by decide +kernel)

end Pkgng
