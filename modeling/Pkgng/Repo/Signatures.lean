import Pkgng.Repo.Incremental
import Pkgng.Repo.Sigkeys

/-!
# Signature checking

`pkg_repo_check_fingerprint`, `pkg_repo_archive_extract_archive`,
`pkg_repo_archive_extract_check_archive` and `pkg_repo_fetch_meta`, which extracts the
file `.meta` to its place before it checks anything.
-/

set_option autoImplicit false

namespace Pkgng

/-- `signature_t`. -/
inductive SignatureType
  | none
  | pubkey
  | fingerprint
deriving DecidableEq, Repr

structure RepoMetaKey where
  name : Bytes
  pubkey : Option Bytes
deriving DecidableEq, Repr

/-- `struct pkg_repo_meta`; `body` stands for the fields that the signatures do not
depend on. -/
structure RepoMeta where
  keys : List RepoMetaKey := []
  body : Bytes := []
deriving DecidableEq, Repr

/-- `struct pkg_repo`; an empty table of fingerprints is a null pointer. -/
structure PkgRepo where
  signatureType : SignatureType
  trustedFp : List Bytes := []
  revokedFp : List Bytes := []
  repoMeta : Option RepoMeta := none
deriving DecidableEq, Repr

/-- `rsa_verify_cert`, and `rsa_verify` with the configured key, over the content of a
file; what they accept has been signed. -/
structure RsaScheme where
  verifyCert (content cert sig : Bytes) : Bool
  verify (content sig : Bytes) : Bool
  CertSigned (content cert sig : Bytes) : Prop
  KeySigned (content sig : Bytes) : Prop
  verifyCert_sound : ∀ content cert sig, verifyCert content cert sig = true →
    CertSigned content cert sig
  verify_sound : ∀ content sig, verify content sig = true → KeySigned content sig

/-- The directory `revoked`. -/
inductive RevokedDir
  | absent
  | unreadable
  | files (fingerprints : List Bytes)

structure SignatureEnv where
  rsa : RsaScheme
  sha256 : Bytes → Bytes
  /-- The fingerprints in the directory `trusted`; `none` where it cannot be opened. -/
  trustedDir : Option (List Bytes) := none
  revokedDir : RevokedDir := .absent
  /-- `open` of the target file. -/
  opens : Bool := true
  /-- What a child that dies has written to the target file. -/
  died : Option Bytes := none

namespace SignatureEnv

def pkgRepoLoadFingerprints (env : SignatureEnv) (repo : PkgRepo) : Bool × PkgRepo :=
  match env.trustedDir with
  | none => (false, { repo with trustedFp := [] })
  | some trusted =>
      let repo := { repo with trustedFp := trusted }
      if trusted = [] then (false, repo)
      else
        match env.revokedDir with
        | .absent => (true, repo)
        | .unreadable => (false, { repo with revokedFp := [] })
        | .files revoked => (true, { repo with revokedFp := revoked })

/-- The certificate under this name in the keys of `repo->meta`. -/
def metaKey (repo : PkgRepo) (name : Bytes) : Option Bytes := do
  let repoMeta ← repo.repoMeta
  let key ← repoMeta.keys.find? fun key => key.name = name
  key.pubkey

/-- A turn of the loop of `pkg_repo_check_fingerprint`; `none` where it returns. -/
def checkSigCert (env : SignatureEnv) (repo : PkgRepo) (cert : SigCert) : Option SigCert :=
  match cert.sig with
  | none => none
  | some _ =>
      match cert.cert <|> metaKey repo cert.name with
      | none => none
      | some data =>
          if env.sha256 data ∈ repo.revokedFp then none
          else
            some { cert with cert := some data, trusted := env.sha256 data ∈ repo.trustedFp }

def pkgRepoCheckFingerprint (env : SignatureEnv) (repo : PkgRepo) (certs : List SigCert) :
    Option (List SigCert) × PkgRepo :=
  if certs = [] then (none, repo)
  else
    let (loaded, repo) :=
      if repo.trustedFp = [] then env.pkgRepoLoadFingerprints repo else (true, repo)
    if loaded then
      match certs.mapM (env.checkSigCert repo) with
      | none => (none, repo)
      | some certs => if certs.any SigCert.trusted then (some certs, repo) else (none, repo)
    else (none, repo)

/-- `pkg_emit_sandbox_get_string`. -/
def sandbox (env : SignatureEnv) (child : ChildRun) : ChildRun :=
  match env.died with
  | none => child
  | some written => { written }

/-- How an extraction ends; `file` is what is at the target. -/
structure Extraction where
  rc : RepoRc
  certs : List SigCert := []
  repo : PkgRepo
  file : Option Bytes

/-- `pkg_repo_archive_extract_archive` to a path, or to a descriptor. -/
def pkgRepoArchiveExtractArchive (env : SignatureEnv) (toFd : Bool) (fname : Bytes)
    (entries : List ArchiveEntry) (repo : PkgRepo) : Extraction :=
  if !toFd && !env.opens then { rc := .fatal, repo, file := none }
  else
    match repo.signatureType with
    | .pubkey =>
        let child := env.sandbox (pkgRepoMetaExtractSignaturePubkey true fname entries)
        { rc := .ok
          certs := if child.ok then [{ name := signatureName, sig := some child.reply }] else []
          repo
          file := some child.written }
    | .fingerprint =>
        let child := env.sandbox (pkgRepoMetaExtractSignatureFingerprints fname entries)
        -- These returns do not go through the cleanup that unlinks the target.
        if child.ok && child.reply ≠ [] then
          match pkgRepoParseSigkeys child.reply with
          | none => { rc := .fatal, repo, file := some child.written }
          | some certs =>
              match env.pkgRepoCheckFingerprint repo certs with
              | (none, repo) => { rc := .fatal, repo, file := some child.written }
              | (some certs, repo) => { rc := .ok, certs, repo, file := some child.written }
        else { rc := .fatal, repo, file := some child.written }
    | .none =>
        let child := env.sandbox (pkgRepoMetaExtractSignaturePubkey false fname entries)
        { rc := if child.ok then .ok else .fatal, repo, file := some child.written }

/-- The loop over the certificates: one is trusted and has signed the content. -/
def verifies (env : SignatureEnv) (content : Bytes) (certs : List SigCert) : Bool :=
  certs.any fun cert =>
    env.rsa.verifyCert content (cert.cert.getD []) (cert.sig.getD []) && cert.trusted

/-- `pkg_repo_archive_extract_check_archive`; the last byte of the signature of a public
key is left out. -/
def pkgRepoArchiveExtractCheckArchive (env : SignatureEnv) (toFd : Bool) (fname : Bytes)
    (entries : List ArchiveEntry) (repo : PkgRepo) : Extraction :=
  let extraction := env.pkgRepoArchiveExtractArchive toFd fname entries repo
  let refused : Extraction :=
    { extraction with rc := .fatal, file := if toFd then extraction.file else none }
  if extraction.rc ≠ .ok then { extraction with rc := .fatal }
  else
    match repo.signatureType with
    | .pubkey =>
        match extraction.certs with
        | [] => refused
        | cert :: _ =>
            if env.rsa.verify (extraction.file.getD []) (cert.sig.getD []).dropLast then extraction
            else refused
    | .fingerprint =>
        if env.verifies (extraction.file.getD []) extraction.certs then extraction else refused
    | .none => extraction

end SignatureEnv

/-! ## The file `.meta` -/

/-- A file at the path of `.meta`. -/
structure StoredMeta where
  content : Bytes
  /-- Ghost: written by the call under way. -/
  fetched : Bool
deriving DecidableEq, Repr

structure MetaEnv extends SignatureEnv where
  archive : Fetched (List ArchiveEntry)
  /-- The old file is removed, or there is none. -/
  unlinks : Bool := true
  /-- `stat`, `open` and `mmap` of the extracted file. -/
  maps : Bool := true
  /-- `pkg_repo_meta_extract_pubkey` in the sandbox: the certificate that the mapped file
  has under a name, empty without one. -/
  extractPubkey (content name : Bytes) : Option Bytes
  /-- `pkg_repo_meta_load`. -/
  metaLoad (content : Bytes) : Option RepoMeta

namespace MetaEnv

def metaName : Bytes := [109, 101, 116, 97]

/-- How `pkg_repo_fetch_meta` comes to the label `load_meta`. -/
inductive MetaStage
  | stops (rc : RepoRc) (repo : PkgRepo) (file : Option StoredMeta)
  | loads (repo : PkgRepo) (content : Bytes) (certs : List SigCert)

/-- A certificate that is missing is taken from the extracted file. -/
def fillSigCert (env : MetaEnv) (content : Bytes) (cert : SigCert) : Option SigCert :=
  if cert.sig.getD [] ≠ [] ∧ cert.cert.getD [] = [] then
    (env.extractPubkey content cert.name).map fun data => { cert with cert := some data }
  else some cert

/-- The checks between the extraction and the load for repositories with fingerprints;
`none` goes to the cleanup. -/
def checkFetchedMeta (env : MetaEnv) (repo : PkgRepo) (content : Bytes) (certs : List SigCert) :
    Option (List SigCert) × PkgRepo :=
  match certs.mapM (env.fillSigCert content) with
  | none => (none, repo)
  | some certs =>
      match env.pkgRepoCheckFingerprint repo certs with
      | (none, repo) => (none, repo)
      | (some certs, repo) =>
          if env.verifies content certs then (some certs, repo) else (none, repo)

def stored (file : Option Bytes) : Option StoredMeta :=
  file.map fun content => { content, fetched := true }

/-- `pkg_repo_fetch_meta` after the archive has arrived and the old file is gone, up to
`load_meta`. -/
def extractMeta (env : MetaEnv) (repo : PkgRepo) (entries : List ArchiveEntry) : MetaStage :=
  if repo.signatureType = .pubkey then
    let checked := env.pkgRepoArchiveExtractCheckArchive false metaName entries repo
    if checked.rc = .ok then .loads checked.repo (checked.file.getD []) checked.certs
    else .stops checked.rc checked.repo (stored checked.file)
  else
    let extraction := env.pkgRepoArchiveExtractArchive false metaName entries repo
    if extraction.rc = .ok then
      let (loaded, tables) :=
        if repo.signatureType = .fingerprint ∧ extraction.repo.trustedFp = [] then
          env.pkgRepoLoadFingerprints extraction.repo
        else (true, extraction.repo)
      if loaded then
        let content := extraction.file.getD []
        if env.maps then
          if repo.signatureType = .fingerprint then
            match env.checkFetchedMeta tables content extraction.certs with
            | (none, tables) => .stops .fatal tables none
            | (some certs, tables) => .loads tables content certs
          else .loads tables content extraction.certs
        else .stops .fatal tables none
      else .stops .fatal tables (stored extraction.file)
    else .stops extraction.rc extraction.repo (stored extraction.file)

def fetchMetaStage (env : MetaEnv) (repo : PkgRepo) (old : Option Bytes) : MetaStage :=
  let kept : Option StoredMeta := old.map fun content => { content, fetched := false }
  match env.archive with
  | .uptodate => .stops .uptodate repo kept
  | .fatal => .stops .fatal repo kept
  | .file entries =>
      if env.unlinks then env.extractMeta repo entries else .stops .fatal repo kept

structure FetchedMeta where
  rc : RepoRc
  repo : PkgRepo
  file : Option StoredMeta

/-- `pkg_repo_fetch_meta`, with `old` at the path of `.meta`. -/
def pkgRepoFetchMeta (env : MetaEnv) (repo : PkgRepo) (old : Option Bytes) : FetchedMeta :=
  match env.fetchMetaStage repo old with
  | .stops rc repo file => { rc, repo, file }
  | .loads repo content _ =>
      match env.metaLoad content with
      | none => { rc := .fatal, repo, file := stored (some content) }
      | some nmeta =>
          { rc := .ok, repo := { repo with repoMeta := some nmeta }, file := stored (some content) }

end MetaEnv

end Pkgng
