import Pkgng.Lib.CStrings
import Pkgng.Lib.Ucl

/-!
# The repository meta file

`pkg_repo_meta_to_ucl` writes the meta of a repository, `pkg_repo_meta_load`
checks a file against the schema and reads it again.  The fields stand in three
places: the schema, the exporter, which leaves out what is zero, and the parser,
which starts from the defaults.
-/

set_option autoImplicit false

namespace Pkgng

open Lib

inductive PkgFormats
  | tar
  | tgz
  | tbz
  | txz
deriving DecidableEq, Repr

/-- `pkg_checksum_type_t`, with the unknown type. -/
inductive DigestFormat
  | sha256Base32
  | sha256Hex
  | unknown
deriving DecidableEq, Repr

def packingFormatToString : PkgFormats → List Char
  | .txz => "txz".toList
  | .tbz => "tbz".toList
  | .tgz => "tgz".toList
  | .tar => "tar".toList

/-- `packing_format_from_string` of a string that is not null. -/
def packingFormatFromString (str : List Char) : PkgFormats :=
  if str = "txz".toList then .txz
  else if str = "tbz".toList then .tbz
  else if str = "tgz".toList then .tgz
  else if str = "tar".toList then .tar
  else .txz

/-- `pkg_checksum_type_to_string`; the unknown type has no name. -/
def pkgChecksumTypeToString : DigestFormat → Option (List Char)
  | .sha256Base32 => some "sha256_base32".toList
  | .sha256Hex => some "sha256_hex".toList
  | .unknown => none

def pkgChecksumTypeFromString (name : List Char) : DigestFormat :=
  if strcaseeq name "sha256_base32".toList then .sha256Base32
  else if strcaseeq name "sha256_hex".toList then .sha256Hex
  else .unknown

/-- `struct pkg_repo_meta` without the keys. -/
structure PkgRepoMeta where
  maintainer : Option (List Char)
  source : Option (List Char)
  packingFormat : PkgFormats
  digestFormat : DigestFormat
  digests : Option (List Char)
  digestsArchive : Option (List Char)
  manifests : Option (List Char)
  manifestsArchive : Option (List Char)
  filesite : Option (List Char)
  filesiteArchive : Option (List Char)
  conflicts : Option (List Char)
  conflictsArchive : Option (List Char)
  fulldb : Option (List Char)
  fulldbArchive : Option (List Char)
  sourceIdentifier : Option (List Char)
  revision : Int
  eol : Int
  version : Int
deriving DecidableEq, Repr

/-- `pkg_repo_meta_set_default` on a zeroed structure. -/
def pkgRepoMetaDefault : PkgRepoMeta where
  maintainer := none
  source := none
  packingFormat := .txz
  digestFormat := .sha256Base32
  digests := some "digests".toList
  digestsArchive := some "digests".toList
  manifests := some "packagesite.yaml".toList
  manifestsArchive := some "packagesite".toList
  filesite := some "filesite.yaml".toList
  filesiteArchive := some "filesite".toList
  conflicts := none
  conflictsArchive := none
  fulldb := none
  fulldbArchive := none
  sourceIdentifier := none
  revision := 0
  eol := 0
  version := 1

/-- The schema of the key `cert`. -/
def certSchema : Schema :=
  .mk (some .object) none
    [("type", .ofEnum ["rsa"]), ("data", .ofType .string), ("name", .ofType .string)]
    ["type", "data", "name"]

/-- `pkg_repo_meta_open_schema_v1`. -/
def repoMetaSchemaV1 : Schema :=
  .mk (some .object) none
    [("version", .ofType .int), ("maintainer", .ofType .string), ("source", .ofType .string),
     ("packing_format", .ofEnum ["txz", "tbz", "tgz"]),
     ("digest_format", .ofEnum ["sha256_base32", "sha256_hex"]),
     ("digests", .ofType .string), ("manifests", .ofType .string),
     ("conflicts", .ofType .string), ("fulldb", .ofType .string), ("filesite", .ofType .string),
     ("digests_archive", .ofType .string), ("manifests_archive", .ofType .string),
     ("conflicts_archive", .ofType .string), ("fulldb_archive", .ofType .string),
     ("filesite_archive", .ofType .string), ("source_identifier", .ofType .string),
     ("revision", .ofType .int), ("eol", .ofType .int), ("cert", certSchema)]
    ["version"]

/-! ## Writing -/

/-- `META_EXPORT_FIELD` of an integer. -/
def metaExportInt (value : Int) : Option Ucl := if value ≠ 0 then some (.int value) else none

/-- `META_EXPORT_FIELD` of a string. -/
def metaExportString (text : Option (List Char)) : Option Ucl := text.map .fromString

/-- The fields in the order in which they are inserted. -/
def PkgRepoMeta.exports (m : PkgRepoMeta) : List (String × Option Ucl) :=
  [("version", metaExportInt m.version),
   ("maintainer", metaExportString m.maintainer),
   ("source", metaExportString m.source),
   ("packing_format", metaExportString (some (packingFormatToString m.packingFormat))),
   ("digest_format", metaExportString (pkgChecksumTypeToString m.digestFormat)),
   ("digests", metaExportString m.digests),
   ("manifests", metaExportString m.manifests),
   ("conflicts", metaExportString m.conflicts),
   ("fulldb", metaExportString m.fulldb),
   ("filesite", metaExportString m.filesite),
   ("digests_archive", metaExportString m.digestsArchive),
   ("manifests_archive", metaExportString m.manifestsArchive),
   ("conflicts_archive", metaExportString m.conflictsArchive),
   ("fulldb_archive", metaExportString m.fulldbArchive),
   ("filesite_archive", metaExportString m.filesiteArchive),
   ("source_identifier", metaExportString m.sourceIdentifier),
   ("revision", metaExportInt m.revision),
   ("eol", metaExportInt m.eol)]

def pkgRepoMetaToUcl (m : PkgRepoMeta) : Ucl := .ofFields m.exports

/-! ## Reading -/

def metaExtractString (top : Ucl) (field : String) (old : Option (List Char)) :
    Option (List Char) :=
  match top.findKey field with
  | some (.string text) => some text
  | _ => old

def metaExtractInt (top : Ucl) (field : String) (old : Int) : Int :=
  match top.findKey field with
  | some (.int value) => value
  | _ => old

def pkgRepoMetaParse (top : Ucl) (version : Int) : PkgRepoMeta :=
  let m := pkgRepoMetaDefault
  { version := version
    maintainer := metaExtractString top "maintainer" m.maintainer
    source := metaExtractString top "source" m.source
    conflicts := metaExtractString top "conflicts" m.conflicts
    digests := metaExtractString top "digests" m.digests
    manifests := metaExtractString top "manifests" m.manifests
    fulldb := metaExtractString top "fulldb" m.fulldb
    filesite := metaExtractString top "filesite" m.filesite
    conflictsArchive := metaExtractString top "conflicts_archive" m.conflictsArchive
    digestsArchive := metaExtractString top "digests_archive" m.digestsArchive
    manifestsArchive := metaExtractString top "manifests_archive" m.manifestsArchive
    fulldbArchive := metaExtractString top "fulldb_archive" m.fulldbArchive
    filesiteArchive := metaExtractString top "filesite_archive" m.filesiteArchive
    sourceIdentifier := metaExtractString top "source_identifier" m.sourceIdentifier
    eol := metaExtractInt top "eol" m.eol
    revision := metaExtractInt top "revision" m.revision
    packingFormat :=
      match top.findKey "packing_format" with
      | some (.string text) => packingFormatFromString text
      | _ => m.packingFormat
    digestFormat :=
      match top.findKey "digest_format" with
      | some (.string text) => pkgChecksumTypeFromString text
      | _ => m.digestFormat }

/-- `pkg_repo_meta_version`; the integer is converted to an `int`. -/
def pkgRepoMetaVersion (top : Ucl) : Int :=
  match top.findKey "version" with
  | some (.int value) => value.bmod 4294967296
  | _ => -1

/-- `pkg_repo_meta_load` of a file that libucl has parsed. -/
def pkgRepoMetaLoad (top : Ucl) : Option PkgRepoMeta :=
  let version := pkgRepoMetaVersion top
  if version = -1 then none
  else if version = 1 then
    if repoMetaSchemaV1.validate top then some (pkgRepoMetaParse top version) else none
  else none

/-! ## What comes back -/

/-- The object made of a meta satisfies the schema and is read as the same meta. -/
def MetaRoundTrips (m : PkgRepoMeta) : Prop :=
  repoMetaSchemaV1.validate (pkgRepoMetaToUcl m) = true ∧
    pkgRepoMetaParse (pkgRepoMetaToUcl m) m.version = m

def PkgRepoMeta.strings (m : PkgRepoMeta) : List (Option (List Char)) :=
  [m.maintainer, m.source, m.digests, m.digestsArchive, m.manifests, m.manifestsArchive,
   m.filesite, m.filesiteArchive, m.conflicts, m.conflictsArchive, m.fulldb, m.fulldbArchive,
   m.sourceIdentifier]

/-- The strings that have a default. -/
def PkgRepoMeta.defaulted (m : PkgRepoMeta) : List (Option (List Char)) :=
  [m.digests, m.digestsArchive, m.manifests, m.manifestsArchive, m.filesite, m.filesiteArchive]

/-- What a string comes back as, where the parser starts from `old`. -/
def reread (old text : Option (List Char)) : Option (List Char) := (text.map Ucl.escape).or old

theorem reread_eq_self_iff {old text : Option (List Char)} :
    reread old text = text ↔
      (∀ s ∈ text, Ucl.Plain s) ∧ (old.isSome = true → text.isSome = true) := by
  cases text with
  | none =>
      cases old with
      | none => simp [reread]
      | some other => simp [reread]
  | some s => simp [reread, Ucl.escape_eq_self_iff]

section RoundTrip

variable (m : PkgRepoMeta)

theorem exports_nodup : (m.exports.map Prod.fst).Nodup := by
  have keys : m.exports.map Prod.fst = ["version", "maintainer", "source", "packing_format",
      "digest_format", "digests", "manifests", "conflicts", "fulldb", "filesite",
      "digests_archive", "manifests_archive", "conflicts_archive", "fulldb_archive",
      "filesite_archive", "source_identifier", "revision", "eol"] := rfl
  rw [keys]
  decide

variable {m}

theorem findKey_export {key : String} {value : Option Ucl} (member : (key, value) ∈ m.exports) :
    (pkgRepoMetaToUcl m).findKey key = value :=
  Ucl.findKey_ofFields (exports_nodup m) member

theorem metaExtractString_export {key : String} {text : Option (List Char)}
    (member : (key, metaExportString text) ∈ m.exports) (old : Option (List Char)) :
    metaExtractString (pkgRepoMetaToUcl m) key old = reread old text := by
  rw [metaExtractString, findKey_export member]
  cases text with
  | none => rfl
  | some s => rfl

theorem metaExtractInt_export {key : String} {value : Int}
    (member : (key, metaExportInt value) ∈ m.exports) :
    metaExtractInt (pkgRepoMetaToUcl m) key 0 = value := by
  rw [metaExtractInt, findKey_export member, metaExportInt]
  split
  · next found =>
      split at found
      · cases found
        rfl
      · cases found
  · next absent =>
      by_cases zero : value = 0
      · exact zero.symm
      · exact absurd (if_pos zero) (absent value)

theorem packingFormat_reread (format : PkgFormats) :
    packingFormatFromString (Ucl.escape (packingFormatToString format)) = format := by
  cases format <;> decide

theorem digestFormat_reread {format : DigestFormat} (known : format ≠ .unknown) :
    (match metaExportString (pkgChecksumTypeToString format) with
      | some (.string text) => pkgChecksumTypeFromString text
      | _ => pkgRepoMetaDefault.digestFormat) = format := by
  cases format with
  | sha256Base32 => decide
  | sha256Hex => decide
  | unknown => exact absurd rfl known

/-- What a meta comes back as. -/
def PkgRepoMeta.rereadStrings (m : PkgRepoMeta) : PkgRepoMeta :=
  { m with
    maintainer := reread none m.maintainer
    source := reread none m.source
    digests := reread pkgRepoMetaDefault.digests m.digests
    digestsArchive := reread pkgRepoMetaDefault.digestsArchive m.digestsArchive
    manifests := reread pkgRepoMetaDefault.manifests m.manifests
    manifestsArchive := reread pkgRepoMetaDefault.manifestsArchive m.manifestsArchive
    filesite := reread pkgRepoMetaDefault.filesite m.filesite
    filesiteArchive := reread pkgRepoMetaDefault.filesiteArchive m.filesiteArchive
    conflicts := reread none m.conflicts
    conflictsArchive := reread none m.conflictsArchive
    fulldb := reread none m.fulldb
    fulldbArchive := reread none m.fulldbArchive
    sourceIdentifier := reread none m.sourceIdentifier }

theorem parse_toUcl (known : m.digestFormat ≠ .unknown) :
    pkgRepoMetaParse (pkgRepoMetaToUcl m) m.version = m.rereadStrings := by
  have packing : (pkgRepoMetaToUcl m).findKey "packing_format" =
      some (.fromString (packingFormatToString m.packingFormat)) :=
    @findKey_export m _ (metaExportString (some _)) (by simp [PkgRepoMeta.exports])
  have digest : (pkgRepoMetaToUcl m).findKey "digest_format" =
      metaExportString (pkgChecksumTypeToString m.digestFormat) :=
    findKey_export (by simp [PkgRepoMeta.exports])
  have text : ∀ {key : String} {text : Option (List Char)} (old : Option (List Char)),
      (key, metaExportString text) ∈ m.exports →
      metaExtractString (pkgRepoMetaToUcl m) key old = reread old text :=
    fun old member => metaExtractString_export member old
  rw [pkgRepoMetaParse, PkgRepoMeta.rereadStrings, PkgRepoMeta.mk.injEq]
  refine ⟨text _ ?_, text _ ?_, ?_, ?_, text _ ?_, text _ ?_, text _ ?_, text _ ?_, text _ ?_,
    text _ ?_, text _ ?_, text _ ?_, text _ ?_, text _ ?_, text _ ?_, metaExtractInt_export ?_,
    metaExtractInt_export ?_, rfl⟩
  case refine_3 =>
    rw [packing]
    exact packingFormat_reread m.packingFormat
  case refine_4 =>
    rw [digest]
    exact digestFormat_reread known
  all_goals simp [PkgRepoMeta.exports]

theorem rereadStrings_eq_self_iff : m.rereadStrings = m ↔
    (∀ name ∈ m.defaulted, name.isSome = true) ∧
      ∀ text ∈ m.strings, ∀ s ∈ text, Ucl.Plain s := by
  obtain ⟨maintainer, source, packingFormat, digestFormat, digests, digestsArchive, manifests,
    manifestsArchive, filesite, filesiteArchive, conflicts, conflictsArchive, fulldb,
    fulldbArchive, sourceIdentifier, revision, eol, version⟩ := m
  simp only [PkgRepoMeta.rereadStrings, PkgRepoMeta.mk.injEq, reread_eq_self_iff,
    PkgRepoMeta.defaulted, PkgRepoMeta.strings, List.forall_mem_cons, pkgRepoMetaDefault,
    Option.isSome_some, Option.isSome_none, forall_const, Bool.false_eq_true, false_implies,
    and_true, true_and]
  constructor
  · rintro ⟨plain1, plain2, plain3, plain4, plain5, plain6, plain7, plain8, plain9, plain10,
      plain11, plain12, plain13⟩
    simp_all
  · rintro ⟨named, plain⟩
    simp_all

/-! ## What the schema takes -/

theorem values_export {key : String} {value : Option Ucl} (member : (key, value) ∈ m.exports) :
    (pkgRepoMetaToUcl m).values key = value.toList :=
  Ucl.values_ofFields (exports_nodup m) member

theorem validate_exportString {key : String} {text : Option (List Char)}
    (member : (key, metaExportString text) ∈ m.exports) :
    ∀ value ∈ (pkgRepoMetaToUcl m).values key, (Schema.ofType .string).validate value = true := by
  intro value isValue
  rw [values_export member, Option.mem_toList] at isValue
  obtain ⟨s, _, rfl⟩ := Option.map_eq_some_iff.mp isValue
  exact Schema.validate_ofType (by simp [Ucl.fromString, Ucl.type]) rfl

theorem validate_exportInt {key : String} {number : Int}
    (member : (key, metaExportInt number) ∈ m.exports) :
    ∀ value ∈ (pkgRepoMetaToUcl m).values key, (Schema.ofType .int).validate value = true := by
  intro value isValue
  rw [values_export member, Option.mem_toList, metaExportInt] at isValue
  split at isValue
  · cases isValue
    exact Schema.validate_ofType (by simp [Ucl.type]) rfl
  · cases isValue

theorem validate_packingFormat :
    (∀ value ∈ (pkgRepoMetaToUcl m).values "packing_format",
      (Schema.ofEnum ["txz", "tbz", "tgz"]).validate value = true) ↔ m.packingFormat ≠ .tar := by
  rw [@values_export m _ (metaExportString (some (packingFormatToString m.packingFormat)))
    (by simp [PkgRepoMeta.exports])]
  cases m.packingFormat <;> decide

theorem validate_digestFormat :
    ∀ value ∈ (pkgRepoMetaToUcl m).values "digest_format",
      (Schema.ofEnum ["sha256_base32", "sha256_hex"]).validate value = true := by
  rw [@values_export m _ (metaExportString (pkgChecksumTypeToString m.digestFormat))
    (by simp [PkgRepoMeta.exports])]
  cases m.digestFormat <;> decide

theorem validate_toUcl (version : m.version ≠ 0) :
    repoMetaSchemaV1.validate (pkgRepoMetaToUcl m) = true ↔ m.packingFormat ≠ .tar := by
  have present : ((pkgRepoMetaToUcl m).findKey "version").isSome = true := by
    rw [@findKey_export m _ (metaExportInt m.version) (by simp [PkgRepoMeta.exports]),
      metaExportInt, if_pos version]
    rfl
  have noCert : (pkgRepoMetaToUcl m).values "cert" = [] :=
    Ucl.values_ofFields_of_notMem (by simp [PkgRepoMeta.exports])
  have text : ∀ {key : String} (text : Option (List Char)),
      (key, metaExportString text) ∈ m.exports → ∀ value ∈ (pkgRepoMetaToUcl m).values key,
      (Schema.ofType .string).validate value = true := fun _ => validate_exportString
  have number : ∀ {key : String} (number : Int),
      (key, metaExportInt number) ∈ m.exports → ∀ value ∈ (pkgRepoMetaToUcl m).values key,
      (Schema.ofType .int).validate value = true := fun _ => validate_exportInt
  have object : (pkgRepoMetaToUcl m).type = .object := rfl
  rw [repoMetaSchemaV1, Schema.validate_object_iff object]
  simp only [List.forall_mem_cons, noCert]
  constructor
  · intro valid
    exact validate_packingFormat.mp valid.1.2.2.2.1
  · intro format
    refine ⟨⟨number m.version ?_, text m.maintainer ?_, text m.source ?_,
      validate_packingFormat.mpr format, validate_digestFormat, text m.digests ?_,
      text m.manifests ?_, text m.conflicts ?_, text m.fulldb ?_, text m.filesite ?_,
      text m.digestsArchive ?_, text m.manifestsArchive ?_, text m.conflictsArchive ?_,
      text m.fulldbArchive ?_, text m.filesiteArchive ?_, text m.sourceIdentifier ?_,
      number m.revision ?_, number m.eol ?_, ?_, ?_⟩, present, ?_⟩
    all_goals simp [PkgRepoMeta.exports]

end RoundTrip

/-- What is written is accepted and read as it was, except for plain archives,
absent names that have a default and strings that libucl escapes. -/
theorem metaRoundTrips_iff (m : PkgRepoMeta) (version : m.version = 1)
    (known : m.digestFormat ≠ .unknown) :
    MetaRoundTrips m ↔ m.packingFormat ≠ .tar ∧ (∀ name ∈ m.defaulted, name.isSome = true) ∧
      ∀ text ∈ m.strings, ∀ s ∈ text, Ucl.Plain s := by
  rw [MetaRoundTrips, validate_toUcl (by rw [version]; decide), parse_toUcl known,
    rereadStrings_eq_self_iff]

theorem default_metaRoundTrips : MetaRoundTrips { pkgRepoMetaDefault with revision := 7 } := by
  refine (metaRoundTrips_iff _ rfl (by decide)).mpr ⟨by decide, ?_, ?_⟩
  · simp [PkgRepoMeta.defaulted, pkgRepoMetaDefault]
  · simp [PkgRepoMeta.strings, pkgRepoMetaDefault, Ucl.Plain, Ucl.jsonEscape]

theorem tarMeta_not_metaRoundTrips :
    ¬ MetaRoundTrips { pkgRepoMetaDefault with packingFormat := .tar } := fun trips =>
  Bool.false_ne_true ((show _ = false by decide +kernel).symm.trans trips.1)

end Pkgng
