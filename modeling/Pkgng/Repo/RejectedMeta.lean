import Pkgng.Repo.SignatureChecks

/-!
# Rejected meta files

`pkg_repo_fetch_meta` extracts to the path of `.meta` and checks afterwards.  Some of
its failures go through the cleanup that unlinks the file, others return before it.
-/

set_option autoImplicit false

namespace Pkgng

namespace MetaEnv

open SignatureEnv

/-- After a failure nothing that was fetched is at the path of `.meta`, and `repo->meta` is
the old one. -/
def NotKept (env : MetaEnv) (repo : PkgRepo) (old : Option Bytes) : Prop :=
  (env.pkgRepoFetchMeta repo old).rc ≠ .ok →
    (∀ file, (env.pkgRepoFetchMeta repo old).file = some file → file.fetched = false) ∧
      (env.pkgRepoFetchMeta repo old).repo.repoMeta = repo.repoMeta

/-- The child that extracts the file of a repository without signatures, or with a
public key. -/
def pubkeyChild (env : MetaEnv) (needSig : Bool) (entries : List ArchiveEntry) : ChildRun :=
  env.sandbox (pkgRepoMetaExtractSignaturePubkey needSig metaName entries)

def fingerprintsChild (env : MetaEnv) (entries : List ArchiveEntry) : ChildRun :=
  env.sandbox (pkgRepoMetaExtractSignatureFingerprints metaName entries)

/-- The signatures of the archive can be read and pass the first check. -/
def FirstCheck (env : MetaEnv) (repo : PkgRepo) (entries : List ArchiveEntry)
    (checked : List SigCert) (tables : PkgRepo) : Prop :=
  (env.fingerprintsChild entries).ok = true ∧ (env.fingerprintsChild entries).reply ≠ [] ∧
    ∃ certs, pkgRepoParseSigkeys (env.fingerprintsChild entries).reply = some certs ∧
      env.pkgRepoCheckFingerprint repo certs = (some checked, tables)

/-- The extraction does not fail, so that the following failures unlink the file. -/
def Extracts (env : MetaEnv) (repo : PkgRepo) (entries : List ArchiveEntry) : Prop :=
  match repo.signatureType with
  | .pubkey => True
  | .none => (env.pubkeyChild false entries).ok = true
  | .fingerprint => ∃ checked tables, env.FirstCheck repo entries checked tables

/-- The file is loaded if it is accepted. -/
def AcceptedLoads (env : MetaEnv) (repo : PkgRepo) (entries : List ArchiveEntry) : Prop :=
  match repo.signatureType with
  | .pubkey =>
      (env.pubkeyChild true entries).ok = true →
        env.rsa.verify (env.pubkeyChild true entries).written
            (env.pubkeyChild true entries).reply.dropLast = true →
          (env.metaLoad (env.pubkeyChild true entries).written).isSome = true
  | .none =>
      env.maps = true → (env.metaLoad (env.pubkeyChild false entries).written).isSome = true
  | .fingerprint =>
      ∀ checked tables, env.FirstCheck repo entries checked tables → env.maps = true →
        (env.checkFetchedMeta tables (env.fingerprintsChild entries).written checked).1.isSome =
            true →
          (env.metaLoad (env.fingerprintsChild entries).written).isSome = true

variable {env : MetaEnv} {repo after : PkgRepo} {entries : List ArchiveEntry}

/-! ## What the checks leave alone -/

theorem checkFetchedMeta_repoMeta (env : MetaEnv) (repo : PkgRepo) (content : Bytes)
    (certs : List SigCert) :
    (env.checkFetchedMeta repo content certs).2.repoMeta = repo.repoMeta := by
  unfold checkFetchedMeta
  split
  · rfl
  · split
    · next run => exact (checkFingerprint_spec run).1
    · next run =>
        have kept := (checkFingerprint_spec run).1
        split <;> exact kept

/-- A check passes with trusted fingerprints only. -/
theorem checkFingerprint_trustedFp {env : SignatureEnv} {certs checked : List SigCert}
    (check : env.pkgRepoCheckFingerprint repo certs = (some checked, after)) :
    after.trustedFp ≠ [] := by
  obtain ⟨checks, cert, member, trusted⟩ := (checkFingerprint_spec check).2 checked rfl
  obtain ⟨data, _, _, _, _, listed⟩ := (checks cert member).notRevoked
  exact List.ne_nil_of_mem (listed trusted)

/-! ## How the label `load_meta` is reached -/

theorem extractMeta_closed (closed : env.opens = false) :
    env.extractMeta repo entries = .stops .fatal repo none := by
  have extraction : env.pkgRepoArchiveExtractArchive false metaName entries repo =
      { rc := .fatal, repo, file := none } := by
    simp [pkgRepoArchiveExtractArchive, closed]
  by_cases type : repo.signatureType = .pubkey
  · simp [extractMeta, type, pkgRepoArchiveExtractCheckArchive, extraction, stored]
  · simp [extractMeta, type, extraction, stored]

theorem extractMeta_pubkey (type : repo.signatureType = .pubkey) (opens : env.opens = true) :
    env.extractMeta repo entries =
      if (env.pubkeyChild true entries).ok = true ∧
          env.rsa.verify (env.pubkeyChild true entries).written
            (env.pubkeyChild true entries).reply.dropLast = true then
        .loads repo (env.pubkeyChild true entries).written
          [{ name := signatureName, sig := some (env.pubkeyChild true entries).reply }]
      else .stops .fatal repo none := by
  have extraction : env.pkgRepoArchiveExtractArchive false metaName entries repo =
      { rc := .ok
        certs := if (env.pubkeyChild true entries).ok then
            [{ name := signatureName, sig := some (env.pubkeyChild true entries).reply }]
          else []
        repo
        file := some (env.pubkeyChild true entries).written } := by
    simp only [pkgRepoArchiveExtractArchive, type, opens]
    rfl
  generalize env.pubkeyChild true entries = child at extraction
  by_cases answered : child.ok = true
  · by_cases verified : env.rsa.verify child.written child.reply.dropLast = true
    · simp [extractMeta, type, pkgRepoArchiveExtractCheckArchive, extraction, answered, verified]
    · simp [extractMeta, type, pkgRepoArchiveExtractCheckArchive, extraction, answered, verified,
        stored]
  · simp [extractMeta, type, pkgRepoArchiveExtractCheckArchive, extraction, answered, stored]

theorem extractMeta_none (type : repo.signatureType = .none) (opens : env.opens = true) :
    env.extractMeta repo entries =
      if (env.pubkeyChild false entries).ok = true then
        if env.maps = true then .loads repo (env.pubkeyChild false entries).written []
        else .stops .fatal repo none
      else .stops .fatal repo (stored (some (env.pubkeyChild false entries).written)) := by
  have extraction : env.pkgRepoArchiveExtractArchive false metaName entries repo =
      { rc := if (env.pubkeyChild false entries).ok then .ok else .fatal
        repo
        file := some (env.pubkeyChild false entries).written } := by
    simp only [pkgRepoArchiveExtractArchive, type, opens]
    rfl
  generalize env.pubkeyChild false entries = child at extraction
  by_cases answered : child.ok = true
  · by_cases maps : env.maps = true
    · simp [extractMeta, type, extraction, answered, maps]
    · simp [extractMeta, type, extraction, answered, maps]
  · simp [extractMeta, type, extraction, answered]

/-- The first check fails in the extraction. -/
theorem extractMeta_refused (type : repo.signatureType = .fingerprint)
    (opens : env.opens = true)
    (refused : ¬∃ checked tables, env.FirstCheck repo entries checked tables) :
    ∃ after, env.extractMeta repo entries =
      .stops .fatal after (stored (some (env.fingerprintsChild entries).written)) := by
  have extraction : ∃ after, env.pkgRepoArchiveExtractArchive false metaName entries repo =
      { rc := .fatal, repo := after, file := some (env.fingerprintsChild entries).written } := by
    unfold FirstCheck at refused
    simp only [pkgRepoArchiveExtractArchive, type, opens, fingerprintsChild] at refused ⊢
    generalize env.sandbox (pkgRepoMetaExtractSignatureFingerprints metaName entries) = child
      at refused
    by_cases answered : child.ok = true
    · by_cases replied : child.reply = []
      · exact ⟨repo, by simp [answered, replied]⟩
      · cases parsed : pkgRepoParseSigkeys child.reply with
        | none => exact ⟨repo, by simp [answered, replied]⟩
        | some certs =>
            cases check : env.pkgRepoCheckFingerprint repo certs with
            | mk result after =>
                cases result with
                | none => exact ⟨after, by simp [answered, replied, check]⟩
                | some checked =>
                    exact absurd ⟨checked, after, answered, replied, certs, parsed, check⟩ refused
    · exact ⟨repo, by simp [answered]⟩
  obtain ⟨after, extraction⟩ := extraction
  refine ⟨after, ?_⟩
  simp [extractMeta, type, extraction]

theorem extractMeta_checked (type : repo.signatureType = .fingerprint)
    (opens : env.opens = true) {checked : List SigCert} {tables : PkgRepo}
    (first : env.FirstCheck repo entries checked tables) :
    env.extractMeta repo entries =
      if env.maps = true then
        match env.checkFetchedMeta tables (env.fingerprintsChild entries).written checked with
        | (none, after) => .stops .fatal after none
        | (some certs, after) => .loads after (env.fingerprintsChild entries).written certs
      else .stops .fatal tables none := by
  obtain ⟨answered, replied, certs, parsed, check⟩ := first
  have loaded := checkFingerprint_trustedFp check
  have extraction : env.pkgRepoArchiveExtractArchive false metaName entries repo =
      { rc := .ok, certs := checked, repo := tables
        file := some (env.fingerprintsChild entries).written } := by
    simp only [fingerprintsChild] at answered replied parsed ⊢
    simp [pkgRepoArchiveExtractArchive, type, opens, answered, replied, parsed, check]
  simp only [extractMeta, type, extraction, loaded]
  cases maps : env.maps with
  | false => simp
  | true =>
      rcases found : env.checkFetchedMeta tables (env.fingerprintsChild entries).written checked
        with ⟨_ | certs, after⟩
      · simp [found]
      · simp [found]

/-! ## What is left -/

theorem notKept_of_stops {old : Option Bytes} {rc : RepoRc} {file : Option StoredMeta}
    (stage : env.fetchMetaStage repo old = .stops rc after file) :
    env.NotKept repo old ↔
      (rc ≠ .ok → (∀ stored, file = some stored → stored.fetched = false) ∧
        after.repoMeta = repo.repoMeta) := by
  simp only [NotKept, pkgRepoFetchMeta, stage]

theorem notKept_of_loads {old : Option Bytes} {content : Bytes} {certs : List SigCert}
    (stage : env.fetchMetaStage repo old = .loads after content certs) :
    env.NotKept repo old ↔ (env.metaLoad content).isSome = true := by
  simp only [NotKept, pkgRepoFetchMeta, stage]
  cases env.metaLoad content with
  | none => simp [stored]
  | some nmeta => simp

theorem notKept_of_cleanup {old : Option Bytes} {rc : RepoRc}
    (stage : env.fetchMetaStage repo old = .stops rc after none)
    (same : after.repoMeta = repo.repoMeta) : env.NotKept repo old :=
  (notKept_of_stops stage).mpr fun _ => ⟨nofun, same⟩

theorem not_notKept_of_stored {old : Option Bytes} {content : Bytes}
    (stage : env.fetchMetaStage repo old = .stops .fatal after (stored (some content))) :
    ¬env.NotKept repo old := by
  rw [notKept_of_stops stage]
  intro kept
  exact absurd ((kept nofun).1 _ rfl) nofun

/-- What was there before is no fetched file. -/
theorem notKept_of_old {old : Option Bytes} {rc : RepoRc}
    (stage : env.fetchMetaStage repo old = .stops rc repo
      (old.map fun content => { content, fetched := false })) : env.NotKept repo old := by
  rw [notKept_of_stops stage]
  intro _
  refine ⟨fun file found => ?_, rfl⟩
  obtain ⟨content, _, rfl⟩ := Option.map_eq_some_iff.mp found
  rfl

theorem FirstCheck.unique {checked others : List SigCert} {tables otherTables : PkgRepo}
    (first : env.FirstCheck repo entries checked tables)
    (second : env.FirstCheck repo entries others otherTables) :
    checked = others ∧ tables = otherTables := by
  obtain ⟨_, _, certs, parsed, check⟩ := first
  obtain ⟨_, _, otherCerts, otherParsed, otherCheck⟩ := second
  rw [parsed] at otherParsed
  cases otherParsed
  rw [check] at otherCheck
  cases otherCheck
  exact ⟨rfl, rfl⟩

/-- With the file extracted, it is removed by every failure after the first check. -/
theorem notKept_iff_of_extracted {old : Option Bytes} (archive : env.archive = .file entries)
    (unlinks : env.unlinks = true) (opens : env.opens = true) :
    env.NotKept repo old ↔ env.Extracts repo entries ∧ env.AcceptedLoads repo entries := by
  have stage : env.fetchMetaStage repo old = env.extractMeta repo entries := by
    simp [fetchMetaStage, archive, unlinks]
  cases type : repo.signatureType with
  | pubkey =>
      rw [extractMeta_pubkey type opens] at stage
      simp only [Extracts, AcceptedLoads, type, true_and]
      split at stage
      · next accepted => simp [notKept_of_loads stage, accepted]
      · next refused =>
          have kept := notKept_of_cleanup stage rfl
          simp only [kept, true_iff]
          exact fun answered verified => absurd ⟨answered, verified⟩ refused
  | none =>
      rw [extractMeta_none type opens] at stage
      simp only [Extracts, AcceptedLoads, type]
      split at stage
      · next answered =>
          split at stage
          · next maps => simp [notKept_of_loads stage, answered, maps]
          · next unmapped => simp [notKept_of_cleanup stage rfl, answered, unmapped]
      · next refused => simp [not_notKept_of_stored stage, refused]
  | fingerprint =>
      simp only [Extracts, AcceptedLoads, type]
      by_cases passes : ∃ checked tables, env.FirstCheck repo entries checked tables
      · obtain ⟨checked, tables, first⟩ := id passes
        rw [extractMeta_checked type opens first] at stage
        obtain ⟨_, _, certs, _, check⟩ := id first
        have same := (checkFingerprint_spec check).1
        have others (loads : Prop) :
            (∀ found after, env.FirstCheck repo entries found after → env.maps = true →
              (env.checkFetchedMeta after (env.fingerprintsChild entries).written
                found).1.isSome = true → loads) ↔
            (env.maps = true → (env.checkFetchedMeta tables
              (env.fingerprintsChild entries).written checked).1.isSome = true → loads) := by
          constructor
          · intro all
            exact all checked tables first
          · intro this found after second
            obtain ⟨rfl, rfl⟩ := first.unique second
            exact this
        rw [others]
        simp only [passes, true_and]
        split at stage
        · next maps =>
            have kept := checkFetchedMeta_repoMeta env tables
              (env.fingerprintsChild entries).written checked
            split at stage
            · next after checks =>
                rw [checks] at kept
                simp [notKept_of_cleanup stage (kept.trans same), checks]
            · next results after checks => simp [notKept_of_loads stage, checks, maps]
        · next unmapped => simp [notKept_of_cleanup stage same, unmapped]
      · obtain ⟨after, refused⟩ := extractMeta_refused type opens passes
        rw [refused] at stage
        simp [not_notKept_of_stored stage, passes]

/-- A failed `pkg_repo_fetch_meta` keeps nothing exactly if the file was not created at
all, or the extraction succeeds and what is accepted is loaded. -/
theorem notKept_iff (env : MetaEnv) (repo : PkgRepo) (old : Option Bytes) :
    env.NotKept repo old ↔
      ∀ entries, env.archive = .file entries → env.unlinks = true → env.opens = true →
        env.Extracts repo entries ∧ env.AcceptedLoads repo entries := by
  cases archive : env.archive with
  | uptodate =>
      have stage : env.fetchMetaStage repo old = .stops .uptodate repo
          (old.map fun content => { content, fetched := false }) := by
        simp [fetchMetaStage, archive]
      simp [notKept_of_old stage]
  | fatal =>
      have stage : env.fetchMetaStage repo old = .stops .fatal repo
          (old.map fun content => { content, fetched := false }) := by
        simp [fetchMetaStage, archive]
      simp [notKept_of_old stage]
  | file entries =>
      by_cases unlinks : env.unlinks = true
      · by_cases opens : env.opens = true
        · rw [notKept_iff_of_extracted archive unlinks opens]
          simp [unlinks, opens]
        · have stage : env.fetchMetaStage repo old = .stops .fatal repo none := by
            rw [fetchMetaStage, archive]
            simp only [unlinks, if_true]
            exact extractMeta_closed (Bool.eq_false_iff.mpr opens)
          have kept := notKept_of_cleanup stage rfl
          simp [kept, opens]
      · have stage : env.fetchMetaStage repo old = .stops .fatal repo
            (old.map fun content => { content, fetched := false }) := by
          simp [fetchMetaStage, archive, unlinks]
        simp [notKept_of_old stage, unlinks]

/-- A repository with fingerprints keeps the file of an archive without signatures. -/
theorem unsigned_not_notKept :
    ¬∀ (env : MetaEnv) (repo : PkgRepo) (old : Option Bytes), env.NotKept repo old := by
  intro claim
  have kept := claim (sampleMetaEnv [{ pathname := metaName, data := some [1, 2] }]) sampleRepo none
  exact absurd ((kept (by decide)).1 { content := [1, 2], fetched := true } (by decide)) nofun

end MetaEnv

end Pkgng
