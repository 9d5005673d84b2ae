import Pkgng.Repo.Meta

/-!
# The names of the catalogue archives

`pkg_finish_repo` packs the catalogue of a repository, `pkg_repo_fetch_remote_extract_tmp`
fetches it.  Names are given below the output directory and below the url of the repository.
-/

set_option autoImplicit false

namespace Pkgng

open Lib

/-- The filters that libarchive may lack. -/
inductive ArchiveFilter
  | xz
  | bzip2
  | gzip
deriving DecidableEq, Repr

structure ArchiveName where
  base : List Char
  suffix : List Char
deriving DecidableEq, Repr

section Publishing

variable (hasFilter : ArchiveFilter → Bool)

/-- `packing_set_format`; a case whose filter is missing falls through to the next. -/
def packingSetFormat : PkgFormats → List Char
  | .txz =>
      if hasFilter .xz then "txz".toList
      else if hasFilter .bzip2 then "tbz".toList
      else if hasFilter .gzip then "tgz".toList
      else "tar".toList
  | .tbz =>
      if hasFilter .bzip2 then "tbz".toList
      else if hasFilter .gzip then "tgz".toList
      else "tar".toList
  | .tgz => if hasFilter .gzip then "tgz".toList else "tar".toList
  | .tar => "tar".toList

/-- What the publisher finds and what goes wrong. -/
structure PublishEnv where
  isDir : Bool
  /-- The meta file, if it can be read. -/
  metaFile : Option Ucl
  /-- `rsa_new` succeeds, otherwise `rsa` stays null. -/
  rsaNew : List Char → Bool
  /-- `archive_write_open_filename`. -/
  opens : ArchiveName → Bool
  /-- `rsa_sign` of the file with a name. -/
  rsaSign : List Char → Bool
  /-- `pkg_repo_sign`. -/
  repoSign : List Char → Bool
  /-- `packing_append_buffer` to an archive. -/
  appendBuffer : ArchiveName → List Char → Bool

/-- `snprintf` of a string that may be null. -/
def printed (s : Option (List Char)) : List Char := s.getD "(null)".toList

/-- `pkg_repo_pack_db`: the archive that is opened, and whether `EPKG_OK` is returned.  The
file itself is appended without a check. -/
def pkgRepoPackDb (env : PublishEnv) (rsa : Bool) (argc : Nat) (format : PkgFormats)
    (name archive : List Char) : Option ArchiveName × Bool :=
  let opened : ArchiveName := ⟨archive, packingSetFormat hasFilter format⟩
  if env.opens opened = false then (none, false)
  else if rsa then
    (some opened, env.rsaSign name && env.appendBuffer opened "signature".toList)
  else if 1 ≤ argc then
    (some opened, env.repoSign name && env.appendBuffer opened (name ++ ".sig".toList) &&
      env.appendBuffer opened (name ++ ".pub".toList))
  else (some opened, true)

/-- The archives that have been written. -/
structure Published where
  metaArchive : Option ArchiveName := none
  manifests : Option ArchiveName := none
  filesite : Option ArchiveName := none
  digests : Option ArchiveName := none
deriving DecidableEq, Repr

def repoMetaFile : List Char := "meta".toList

/-- The file list is packed on demand. -/
def packFilesite (env : PublishEnv) (rsa : Bool) (argc : Nat) (m : PkgRepoMeta) (filelist : Bool) :
    Option ArchiveName × Bool :=
  if filelist then
    pkgRepoPackDb hasFilter env rsa argc m.packingFormat (printed m.filesite)
      (printed m.filesiteArchive)
  else (none, true)

/-- The part of `pkg_finish_repo` behind the meta. -/
def packCatalogue (env : PublishEnv) (rsa : Bool) (argc : Nat) (m : PkgRepoMeta) (filelist : Bool)
    (done : Published) : Published × Bool :=
  let manifests := pkgRepoPackDb hasFilter env rsa argc m.packingFormat (printed m.manifests)
    (printed m.manifestsArchive)
  let done := { done with manifests := manifests.1 }
  if manifests.2 = false then (done, false)
  else
    let filesite := packFilesite hasFilter env rsa argc m filelist
    let done := { done with filesite := filesite.1 }
    if filesite.2 = false then (done, false)
    else
      let digests := pkgRepoPackDb hasFilter env rsa argc m.packingFormat (printed m.digests)
        (printed m.digestsArchive)
      ({ done with digests := digests.1 }, digests.2)

/-- The key of `rsa`, which is loaded if it is the only argument. -/
def loadKey (env : PublishEnv) : List (List Char) → Bool
  | [key] => env.rsaNew key
  | _ => false

/-- `argc` without `signing_command:`. -/
def signingArgc (argv : List (List Char)) : Nat :=
  if 1 < argv.length then argv.length - 1 else argv.length

/-- `pkg_finish_repo`: the archives and whether `EPKG_OK` is returned. -/
def pkgFinishRepo (env : PublishEnv) (argv : List (List Char)) (filelist : Bool) :
    Published × Bool :=
  let rsa := loadKey env argv
  let argc := signingArgc argv
  if env.isDir = false then ({}, false)
  else if 1 < argv.length ∧ argv.head? ≠ some "signing_command:".toList then ({}, false)
  else
    match env.metaFile with
    | some file =>
        match pkgRepoMetaLoad file with
        | none => ({}, false)
        | some _ =>
            -- The `else` behind the check of the load replaces what was loaded.
            let m := pkgRepoMetaDefault
            let metaArchive :=
              pkgRepoPackDb hasFilter env rsa argc m.packingFormat repoMetaFile repoMetaFile
            let done : Published := { metaArchive := metaArchive.1 }
            if metaArchive.2 = false then (done, false)
            else packCatalogue hasFilter env rsa argc m filelist done
    | none => packCatalogue hasFilter env rsa argc pkgRepoMetaDefault filelist {}

end Publishing

/-! ## Fetching -/

/-- A file name up to its last dot. -/
def withoutExtension (filename : List Char) : List Char :=
  match strrchr '.' filename with
  | some dot => filename.take (filename.length - dot.length)
  | none => filename

/-- The name that `pkg_repo_fetch_remote_tmp` asks for; what stands before the dot is copied
to a buffer of `MAXPATHLEN`. -/
def fetchRemoteTmpName (filename extension : List Char) : ArchiveName where
  base :=
    match strrchr '.' filename with
    | some dot => filename.take (min 1024 (filename.length - dot.length + 1) - 1)
    | none => filename
  suffix := extension

/-- The name that `pkg_repo_fetch_remote_extract_tmp` asks for. -/
def fetchRemoteExtractTmpName (m : PkgRepoMeta) (filename : List Char) : ArchiveName :=
  fetchRemoteTmpName filename (packingFormatToString m.packingFormat)

/-! ## Agreement -/

/-- Whenever a repository with a meta is finished, its manifests and digests stand in the
archives that a client with the meta asks for. -/
def CatalogueNamesAgree (hasFilter : ArchiveFilter → Bool) (file : Ucl) (m : PkgRepoMeta) : Prop :=
  ∀ (env : PublishEnv) (argv : List (List Char)) (filelist : Bool) (published : Published),
    env.metaFile = some file → pkgFinishRepo hasFilter env argv filelist = (published, true) →
      published.manifests = m.manifests.map (fetchRemoteExtractTmpName m) ∧
        published.digests = m.digests.map (fetchRemoteExtractTmpName m)

/-- Each archive of the catalogue is named as its file without the extension. -/
def PkgRepoMeta.ArchivesNamed (m : PkgRepoMeta) : Prop :=
  m.manifestsArchive = m.manifests.map withoutExtension ∧
    m.digestsArchive = m.digests.map withoutExtension

section Runs

variable {hasFilter : ArchiveFilter → Bool} {env : PublishEnv}

theorem pkgRepoPackDb_ok {rsa : Bool} {argc : Nat} {format : PkgFormats}
    {name archive : List Char}
    (ok : (pkgRepoPackDb hasFilter env rsa argc format name archive).2 = true) :
    (pkgRepoPackDb hasFilter env rsa argc format name archive).1 =
      some ⟨archive, packingSetFormat hasFilter format⟩ := by
  unfold pkgRepoPackDb at ok ⊢
  dsimp only at ok ⊢
  split at ok
  · cases ok
  · next opened =>
      rw [if_neg opened]
      split
      · rfl
      · split
        · rfl
        · rfl

theorem packCatalogue_ok {rsa : Bool} {argc : Nat} {m : PkgRepoMeta} {filelist : Bool}
    {done published : Published}
    (run : packCatalogue hasFilter env rsa argc m filelist done = (published, true)) :
    published.manifests =
        some ⟨printed m.manifestsArchive, packingSetFormat hasFilter m.packingFormat⟩ ∧
      published.digests =
        some ⟨printed m.digestsArchive, packingSetFormat hasFilter m.packingFormat⟩ := by
  unfold packCatalogue at run
  dsimp only at run
  split at run
  · cases run
  · next manifestsOk =>
      split at run
      · cases run
      · obtain ⟨archives, digestsOk⟩ := Prod.mk.inj run
        rw [← archives]
        exact ⟨pkgRepoPackDb_ok (eq_true_of_ne_false manifestsOk),
          pkgRepoPackDb_ok digestsOk⟩

/-- A repository is always packed under the default names. -/
theorem pkgFinishRepo_ok {argv : List (List Char)} {filelist : Bool} {published : Published}
    (run : pkgFinishRepo hasFilter env argv filelist = (published, true)) :
    published.manifests = some ⟨"packagesite".toList, packingSetFormat hasFilter .txz⟩ ∧
      published.digests = some ⟨"digests".toList, packingSetFormat hasFilter .txz⟩ := by
  unfold pkgFinishRepo at run
  dsimp only at run
  split at run
  · cases run
  · split at run
    · cases run
    · split at run
      · split at run
        · cases run
        · split at run
          · cases run
          · exact packCatalogue_ok run
      · exact packCatalogue_ok run

end Runs

/-! ## The default names -/

theorem take_eq_short_iff {l text : List Char} {n : Nat} (short : text.length < n) :
    l.take n = text ↔ l = text := by
  constructor
  · intro taken
    have fits : l.length ≤ n := by
      have length := congrArg List.length taken
      rw [List.length_take] at length
      omega
    rwa [List.take_of_length_le fits] at taken
  · rintro rfl
    exact List.take_of_length_le short.le

theorem fetched_base_iff {filename extension text : List Char} (short : text.length < 1023) :
    (fetchRemoteTmpName filename extension).base = text ↔
      withoutExtension filename = text := by
  unfold fetchRemoteTmpName withoutExtension
  cases strrchr '.' filename with
  | none => exact Iff.rfl
  | some dot =>
      dsimp only
      rw [show min 1024 (filename.length - dot.length + 1) - 1 =
        min 1023 (filename.length - dot.length) by omega, ← List.take_take]
      exact take_eq_short_iff short

theorem fetched_iff {m : PkgRepoMeta} {name archive : Option (List Char)}
    {base suffix : List Char} (short : base.length < 1023)
    (named : archive = name.map withoutExtension) :
    some ⟨base, suffix⟩ = name.map (fetchRemoteExtractTmpName m) ↔
      archive = some base ∧ suffix = packingFormatToString m.packingFormat := by
  rw [named]
  cases name with
  | none => simp
  | some filename =>
      rw [Option.map_some, Option.map_some, Option.some.injEq, Option.some.injEq,
        ← @fetched_base_iff filename (packingFormatToString m.packingFormat) base short]
      rw [fetchRemoteExtractTmpName, fetchRemoteTmpName, ArchiveName.mk.injEq]
      rw [@eq_comm _ base]

/-- Nothing goes wrong. -/
def soundPublisher (file : Ucl) : PublishEnv where
  isDir := true
  metaFile := some file
  rsaNew _ := true
  opens _ := true
  rsaSign _ := true
  repoSign _ := true
  appendBuffer _ _ := true

theorem soundPublisher_finishes {hasFilter : ArchiveFilter → Bool} {file : Ucl} {m : PkgRepoMeta}
    (loaded : pkgRepoMetaLoad file = some m) :
    ∃ published, pkgFinishRepo hasFilter (soundPublisher file) [] false = (published, true) := by
  unfold pkgFinishRepo soundPublisher
  dsimp only
  rw [loaded]
  exact ⟨_, rfl⟩

/-- Publisher and client agree exactly if the meta says what the default says. -/
theorem catalogueNamesAgree_iff (hasFilter : ArchiveFilter → Bool) {file : Ucl} {m : PkgRepoMeta}
    (loaded : pkgRepoMetaLoad file = some m) (named : m.ArchivesNamed) :
    CatalogueNamesAgree hasFilter file m ↔
      m.manifestsArchive = pkgRepoMetaDefault.manifestsArchive ∧
        m.digestsArchive = pkgRepoMetaDefault.digestsArchive ∧
        packingFormatToString m.packingFormat = packingSetFormat hasFilter .txz := by
  have manifests := @fetched_iff m _ _ "packagesite".toList (packingSetFormat hasFilter .txz)
    (by decide) named.1
  have digests := @fetched_iff m _ _ "digests".toList (packingSetFormat hasFilter .txz)
    (by decide) named.2
  constructor
  · intro agree
    obtain ⟨published, run⟩ := @soundPublisher_finishes hasFilter file m loaded
    obtain ⟨inManifests, inDigests⟩ := agree _ [] false published rfl run
    obtain ⟨packedManifests, packedDigests⟩ := pkgFinishRepo_ok run
    rw [packedManifests] at inManifests
    rw [packedDigests] at inDigests
    exact ⟨(manifests.mp inManifests).1, (digests.mp inDigests).1, (digests.mp inDigests).2.symm⟩
  · rintro ⟨manifestsName, digestsName, format⟩ env argv filelist published _ run
    obtain ⟨packedManifests, packedDigests⟩ := pkgFinishRepo_ok run
    rw [packedManifests, packedDigests]
    exact ⟨manifests.mpr ⟨manifestsName, format.symm⟩, digests.mpr ⟨digestsName, format.symm⟩⟩

theorem catalogueNamesAgree_default :
    CatalogueNamesAgree (fun _ => true) (.object [("version", .int 1)]) pkgRepoMetaDefault :=
  (catalogueNamesAgree_iff _ (by decide +kernel) ⟨by decide +kernel, by decide +kernel⟩).mpr
    (by decide +kernel)

/-- A meta with a manifests file of its own. -/
def catalogMeta : Ucl :=
  .object [("version", .int 1), ("manifests", .string ['c', 'a', 't', '.', 'y', 'a', 'm', 'l']),
    ("manifests_archive", .string ['c', 'a', 't'])]

theorem catalogMeta_names_differ :
    ∃ m, pkgRepoMetaLoad catalogMeta = some m ∧ m.ArchivesNamed ∧
      ¬CatalogueNamesAgree (fun _ => true) catalogMeta m := by
  have loaded : pkgRepoMetaLoad catalogMeta =
      some { pkgRepoMetaDefault with
        manifests := some ['c', 'a', 't', '.', 'y', 'a', 'm', 'l']
        manifestsArchive := some ['c', 'a', 't'] } := by
    decide +kernel
  refine ⟨_, loaded, ⟨by decide +kernel, by decide +kernel⟩, fun agree => ?_⟩
  obtain ⟨published, run⟩ := soundPublisher_finishes loaded
  have requested := (agree _ [] false published rfl run).1
  rw [(pkgFinishRepo_ok run).1] at requested
  revert requested
  decide +kernel

end Pkgng
