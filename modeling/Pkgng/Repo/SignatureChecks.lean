import Pkgng.Repo.Signatures

/-!
# Signature checking is sound

What has passed the checks of `pkg_repo_archive_extract_check_archive`, or has come to
the load of the meta file, has been signed with a trusted certificate, or with the
configured key.
-/

set_option autoImplicit false

namespace Pkgng

namespace SignatureEnv

/-- The certificates do not include a revoked one, and a trusted one of them has signed
the content; or the configured key has. -/
def SoundlySigned (env : SignatureEnv) (repo : PkgRepo) (content : Bytes)
    (certs : List SigCert) : SignatureType → Prop
  | .fingerprint =>
      (∀ cert ∈ certs, ∃ data, cert.cert = some data ∧ env.sha256 data ∉ repo.revokedFp) ∧
        ∃ cert ∈ certs, ∃ data sig, cert.cert = some data ∧ cert.sig = some sig ∧
          env.sha256 data ∈ repo.trustedFp ∧ env.rsa.CertSigned content data sig
  | .pubkey =>
      ∃ cert ∈ certs, ∃ sig, cert.sig = some sig ∧ env.rsa.KeySigned content sig.dropLast
  | .none => True

variable {env : SignatureEnv} {repo after : PkgRepo} {certs checked : List SigCert}
  {toFd : Bool} {fname content : Bytes} {entries : List ArchiveEntry}

/-! ## The fingerprints -/

/-- What a certificate is after a check. -/
structure Checked (env : SignatureEnv) (repo : PkgRepo) (cert : SigCert) : Prop where
  notRevoked : ∃ data sig, cert.cert = some data ∧ cert.sig = some sig ∧
    env.sha256 data ∉ repo.revokedFp ∧
      (cert.trusted = true → env.sha256 data ∈ repo.trustedFp)

theorem checkSigCert_checked {cert result : SigCert}
    (check : env.checkSigCert repo cert = some result) : Checked env repo result := by
  unfold checkSigCert at check
  split at check
  · cases check
  · next sig signed =>
      split at check
      · cases check
      · next data found =>
          split at check
          · cases check
          · next notRevoked =>
              cases check
              exact ⟨data, sig, rfl, signed, notRevoked, of_decide_eq_true⟩

theorem mapM_checked (check : certs.mapM (env.checkSigCert repo) = some checked) :
    ∀ cert ∈ checked, Checked env repo cert := by
  induction certs generalizing checked with
  | nil =>
      cases check
      exact nofun
  | cons cert certs ih =>
      simp only [List.mapM_cons, Option.bind_eq_bind, Option.bind_eq_some_iff] at check
      obtain ⟨first, firstCheck, rest, restCheck, built⟩ := check
      cases built
      intro found member
      rcases List.mem_cons.mp member with rfl | later
      · exact checkSigCert_checked firstCheck
      · exact ih restCheck found later

theorem loadFingerprints_repoMeta (env : SignatureEnv) (repo : PkgRepo) :
    (env.pkgRepoLoadFingerprints repo).2.repoMeta = repo.repoMeta := by
  unfold pkgRepoLoadFingerprints
  split
  · rfl
  · dsimp only
    split
    · rfl
    · split <;> rfl

/-- A check keeps `repo->meta`; a successful one leaves certificates that are not
revoked, in the tables that it has loaded, and one that is trusted. -/
theorem checkFingerprint_spec {result : Option (List SigCert)}
    (check : env.pkgRepoCheckFingerprint repo certs = (result, after)) :
    after.repoMeta = repo.repoMeta ∧ ∀ checked, result = some checked →
      (∀ cert ∈ checked, Checked env after cert) ∧ ∃ cert ∈ checked, cert.trusted = true := by
  have kept : (if repo.trustedFp = [] then env.pkgRepoLoadFingerprints repo
      else (true, repo)).2.repoMeta = repo.repoMeta := by
    split
    · exact loadFingerprints_repoMeta env repo
    · rfl
  unfold pkgRepoCheckFingerprint at check
  split at check
  · cases check
    exact ⟨rfl, nofun⟩
  · generalize (if repo.trustedFp = [] then env.pkgRepoLoadFingerprints repo else (true, repo)) =
      tables at check kept
    obtain ⟨loaded, tables⟩ := tables
    dsimp only at check
    split at check
    · split at check
      · cases check
        exact ⟨kept, nofun⟩
      · next results run =>
          split at check
          · next trusted =>
              cases check
              refine ⟨kept, fun checked same => ?_⟩
              cases same
              exact ⟨mapM_checked run, List.any_eq_true.mp trusted⟩
          · cases check
            exact ⟨kept, nofun⟩
    · cases check
      exact ⟨kept, nofun⟩

theorem checkFingerprint_checked
    (check : env.pkgRepoCheckFingerprint repo certs = (some checked, after)) :
    ∀ cert ∈ checked, Checked env after cert :=
  ((checkFingerprint_spec check).2 checked rfl).1

theorem verifies_signed (checks : ∀ cert ∈ certs, Checked env repo cert)
    (verified : env.verifies content certs = true) :
    SoundlySigned env repo content certs .fingerprint := by
  constructor
  · intro cert member
    obtain ⟨data, _, found, _, notRevoked, _⟩ := (checks cert member).notRevoked
    exact ⟨data, found, notRevoked⟩
  · obtain ⟨cert, member, accepted⟩ := List.any_eq_true.mp verified
    obtain ⟨verify, trusted⟩ := Bool.and_eq_true_iff.mp accepted
    obtain ⟨data, sig, found, signed, _, listed⟩ := (checks cert member).notRevoked
    rw [found, signed] at verify
    exact ⟨cert, member, data, sig, found, signed, listed trusted,
      env.rsa.verifyCert_sound content data sig verify⟩

/-! ## The archives -/

/-- An extraction that succeeds has written the target, and checked the certificates of
a repository with fingerprints. -/
theorem extractArchive_spec {extraction : Extraction}
    (run : env.pkgRepoArchiveExtractArchive toFd fname entries repo = extraction)
    (accepted : extraction.rc = .ok) :
    (∃ content, extraction.file = some content) ∧
      (repo.signatureType = .fingerprint →
        ∀ cert ∈ extraction.certs, Checked env extraction.repo cert) ∧
      (repo.signatureType = .pubkey → ∀ cert ∈ extraction.certs, cert.sig.isSome = true) := by
  subst run
  unfold pkgRepoArchiveExtractArchive at accepted ⊢
  split at accepted
  · cases accepted
  · next opened =>
      rw [if_neg opened]
      cases type : repo.signatureType with
      | none => exact ⟨⟨_, rfl⟩, nofun, nofun⟩
      | pubkey =>
          refine ⟨⟨_, rfl⟩, nofun, fun _ cert member => ?_⟩
          dsimp only at member
          split at member
          · rw [List.mem_singleton.mp member]
            rfl
          · cases member
      | fingerprint =>
          simp only [type] at accepted ⊢
          split at accepted
          · next answered =>
              rw [if_pos answered]
              cases parsed : pkgRepoParseSigkeys
                  (env.sandbox (pkgRepoMetaExtractSignatureFingerprints fname entries)).reply with
              | none => simp [parsed] at accepted
              | some certs =>
                  simp only [parsed] at accepted ⊢
                  split at accepted
                  · cases accepted
                  · next checked after check =>
                      exact ⟨⟨_, rfl⟩, fun _ => checkFingerprint_checked check, nofun⟩
          · cases accepted

/-- The same for the extraction that checks the signatures. -/
theorem extractCheckArchive_sound {extraction : Extraction}
    (run : env.pkgRepoArchiveExtractCheckArchive toFd fname entries repo = extraction)
    (accepted : extraction.rc = .ok) :
    ∃ content, extraction.file = some content ∧
      SoundlySigned env extraction.repo content extraction.certs repo.signatureType := by
  unfold pkgRepoArchiveExtractCheckArchive at run
  generalize extracted : env.pkgRepoArchiveExtractArchive toFd fname entries repo = first at run
  dsimp only at run
  split at run
  · subst run
    cases accepted
  · next firstOk =>
      obtain ⟨⟨content, written⟩, checks, signed⟩ := extractArchive_spec extracted (not_not.mp firstOk)
      rw [written, Option.getD_some] at run
      cases type : repo.signatureType with
      | none =>
          simp only [type] at run
          subst run
          exact ⟨content, written, trivial⟩
      | pubkey =>
          simp only [type] at run
          split at run
          · subst run
            cases accepted
          · next cert others certs =>
              split at run
              · next verified =>
                  subst run
                  have member : cert ∈ first.certs := by
                    rw [certs]
                    exact List.mem_cons_self
                  obtain ⟨sig, found⟩ := Option.isSome_iff_exists.mp (signed type cert member)
                  rw [found] at verified
                  exact ⟨content, written, cert, member, sig, found,
                    env.rsa.verify_sound content sig.dropLast verified⟩
              · subst run
                cases accepted
      | fingerprint =>
          simp only [type] at run
          split at run
          · next verified =>
              subst run
              exact ⟨content, written, verifies_signed (checks type) verified⟩
          · subst run
            cases accepted

end SignatureEnv

/-! ## The meta file -/

namespace MetaEnv

open SignatureEnv

variable {env : MetaEnv} {repo after : PkgRepo} {certs checked : List SigCert} {content : Bytes}
  {entries : List ArchiveEntry}

theorem checkFetchedMeta_sound
    (check : env.checkFetchedMeta repo content certs = (some checked, after)) :
    SoundlySigned env.toSignatureEnv after content checked .fingerprint := by
  unfold checkFetchedMeta at check
  split at check
  · cases check
  · split at check
    · cases check
    · next results tables run =>
        split at check
        · next verified =>
            cases check
            exact verifies_signed (checkFingerprint_checked run) verified
        · cases check

theorem extractMeta_sound (stage : env.extractMeta repo entries = .loads after content certs) :
    SoundlySigned env.toSignatureEnv after content certs repo.signatureType := by
  unfold extractMeta at stage
  split at stage
  · generalize extracted : env.pkgRepoArchiveExtractCheckArchive false metaName entries repo =
      extraction at stage
    dsimp only at stage
    split at stage
    · next accepted =>
        obtain ⟨written, file, signed⟩ := extractCheckArchive_sound extracted accepted
        rw [file] at stage
        cases stage
        exact signed
    · cases stage
  · next notKey =>
      generalize env.pkgRepoArchiveExtractArchive false metaName entries repo = extraction at stage
      dsimp only at stage
      split at stage
      · generalize (if repo.signatureType = .fingerprint ∧
          extraction.repo.trustedFp = [] then env.pkgRepoLoadFingerprints extraction.repo
            else (true, extraction.repo)) = tables at stage
        obtain ⟨loaded, tables⟩ := tables
        dsimp only at stage
        split at stage
        · split at stage
          · split at stage
            · next type =>
                split at stage
                · cases stage
                · next results check =>
                    cases stage
                    rw [type]
                    exact checkFetchedMeta_sound check
            · next notFingerprint =>
                cases type : repo.signatureType with
                | none => trivial
                | pubkey => exact absurd type notKey
                | fingerprint => exact absurd type notFingerprint
          · cases stage
        · cases stage
      · cases stage

/-- What an archive is accepted for, and what a meta file is loaded for, is signed. -/
theorem signatures_sound (env : MetaEnv) (repo : PkgRepo) :
    (∀ toFd fname entries extraction,
      env.pkgRepoArchiveExtractCheckArchive toFd fname entries repo = extraction →
        extraction.rc = .ok → ∃ content, extraction.file = some content ∧
          SoundlySigned env.toSignatureEnv extraction.repo content extraction.certs
            repo.signatureType) ∧
    (∀ old after content certs, env.fetchMetaStage repo old = .loads after content certs →
      SoundlySigned env.toSignatureEnv after content certs repo.signatureType) := by
  constructor
  · intro toFd fname entries extraction run accepted
    exact extractCheckArchive_sound run accepted
  · intro old after content certs stage
    unfold fetchMetaStage at stage
    dsimp only at stage
    split at stage
    · cases stage
    · cases stage
    · split at stage
      · exact extractMeta_sound stage
      · cases stage

/-- A signature is the certificate followed by what is signed. -/
def sampleRsa : RsaScheme where
  verifyCert content cert sig := sig = cert ++ content
  verify content sig := sig = content
  CertSigned content cert sig := sig = cert ++ content
  KeySigned content sig := sig = content
  verifyCert_sound _ _ _ := of_decide_eq_true
  verify_sound _ _ := of_decide_eq_true

/-- The entries `A.sig`, `A.pub` and `meta`. -/
def sampleEntries : List ArchiveEntry :=
  [{ pathname := 65 :: sigExt, data := some [9, 1, 2] }, { pathname := 65 :: pubExt, data := some [9] },
    { pathname := metaName, data := some [1, 2] }]

def sampleMetaEnv (entries : List ArchiveEntry) : MetaEnv where
  rsa := sampleRsa
  sha256 data := data
  trustedDir := some [[9]]
  archive := .file entries
  extractPubkey _ _ := some []
  metaLoad content := some { body := content }

def sampleRepo : PkgRepo := { signatureType := .fingerprint }

theorem sampleMeta_signed :
    (∃ content,
      ((sampleMetaEnv sampleEntries).pkgRepoArchiveExtractCheckArchive true metaName
        sampleEntries sampleRepo).file = some content ∧
      SoundlySigned (sampleMetaEnv sampleEntries).toSignatureEnv
        ((sampleMetaEnv sampleEntries).pkgRepoArchiveExtractCheckArchive true metaName
          sampleEntries sampleRepo).repo content
        ((sampleMetaEnv sampleEntries).pkgRepoArchiveExtractCheckArchive true metaName
          sampleEntries sampleRepo).certs .fingerprint) ∧
    ∃ after content certs,
      (sampleMetaEnv sampleEntries).fetchMetaStage sampleRepo none =
        .loads after content certs ∧
      SoundlySigned (sampleMetaEnv sampleEntries).toSignatureEnv after content certs
        .fingerprint := by
  obtain ⟨archives, metas⟩ := signatures_sound (sampleMetaEnv sampleEntries) sampleRepo
  exact ⟨archives true metaName sampleEntries _ rfl (by decide), _, _, _, rfl,
    metas none _ _ _ rfl⟩

end MetaEnv

end Pkgng
