import Pkgng.Repo.RejectedMeta
import Pkgng.Repo.SigkeysFormat

/-!
# Keys that the meta file carries

`pkg_repo_fetch_meta` for repositories with fingerprints: which certificates the two calls of
`pkg_repo_check_fingerprint` know, and which archives are accepted.
-/

set_option autoImplicit false

namespace Pkgng

/-- An element of the array `cert` of a meta file; `none` where a key is missing or no string. -/
structure CertElement where
  name : Option Bytes
  data : Option Bytes
deriving DecidableEq, Repr

/-- What libucl makes of a meta file. -/
inductive CertSection
  | unparsed
  | noCert
  | cert (elements : List CertElement)
deriving DecidableEq, Repr

/-- The certificate of a name. -/
def CertSection.find (certs : CertSection) (name : Bytes) : Option Bytes :=
  match certs with
  | .cert elements =>
      (elements.find? fun element => element.name = some name ∧ element.data.isSome = true).bind
        CertElement.data
  | _ => none

/-- `pkg_repo_meta_extract_pubkey` as the parent sees it: the certificate with a zero behind it, or
nothing, or a failure. -/
def pkgRepoMetaExtractPubkey (certs : CertSection) (name : Bytes) : Option Bytes :=
  match certs with
  | .unparsed => none
  | .noCert => none
  | .cert _ =>
      match certs.find name with
      | some data => some (data ++ [0])
      | none => some []

/-- The meta files are parsed. -/
structure CarriedEnv extends MetaEnv where
  certSection : Bytes → CertSection
  extracts : extractPubkey = fun content name => pkgRepoMetaExtractPubkey (certSection content) name

/-- The signatures and certificates of an archive. -/
def signatureRecords (entries : List ArchiveEntry) : List SigRecord :=
  entries.filterMap fun entry => entry.data.bind fun data =>
    if pkgRepoFileHasExt entry.pathname sigExt then some ⟨0, sigName entry.pathname, data⟩
    else if pkgRepoFileHasExt entry.pathname pubExt then some ⟨1, sigName entry.pathname, data⟩
    else none

namespace MetaEnv

open SignatureEnv

/-- `repo` with the fingerprints that are there or are loaded. -/
def fingerprintTables (env : MetaEnv) (repo : PkgRepo) : Bool × PkgRepo :=
  if repo.trustedFp = [] then env.pkgRepoLoadFingerprints repo else (true, repo)

/-- The certificate of the first check: that of the archive, or one of the meta file that was loaded
before. -/
def firstCert (repo : PkgRepo) (cert : SigCert) : Option Bytes :=
  cert.cert <|> metaKey repo cert.name

/-- The certificate of the second check. -/
def secondCert (env : MetaEnv) (repo : PkgRepo) (content : Bytes) (cert : SigCert) : Option Bytes :=
  (firstCert repo cert).bind fun data =>
    if cert.sig.getD [] ≠ [] ∧ data = [] then env.extractPubkey content cert.name else some data

/-- What the keys have to be before the meta file is read, and after. -/
structure KnownBefore (env : MetaEnv) (repo : PkgRepo) (content : Bytes) (certs : List SigCert) :
    Prop where
  signed : ∀ cert ∈ certs, cert.sig ≠ none
  known : ∀ cert ∈ certs, ∃ data, firstCert repo cert = some data ∧
    env.sha256 data ∉ repo.revokedFp
  trusted : ∃ cert ∈ certs, ∃ data, firstCert repo cert = some data ∧
    env.sha256 data ∈ repo.trustedFp
  usable : ∀ cert ∈ certs, ∃ data, env.secondCert repo content cert = some data ∧
    env.sha256 data ∉ repo.revokedFp
  verifies : ∃ cert ∈ certs, ∃ data, env.secondCert repo content cert = some data ∧
    env.sha256 data ∈ repo.trustedFp ∧ env.rsa.verifyCert content data (cert.sig.getD []) = true

/-! ## The checks, certificate by certificate -/

/-- Every element has a value. -/
theorem mapM_eq_some_iff {α : Type} {f : α → Option α} {list out : List α} :
    list.mapM f = some out ↔
      (∀ x ∈ list, ∃ y, f x = some y) ∧ out = list.map fun x => (f x).getD x := by
  induction list generalizing out with
  | nil =>
      rw [List.mapM_nil, List.map_nil]
      exact ⟨fun same => ⟨List.forall_mem_nil _, (Option.some.inj same).symm⟩,
        fun both => congrArg some both.2.symm⟩
  | cons x list ih =>
      simp only [List.mapM_cons, Option.bind_eq_bind, Option.bind_eq_some_iff, Option.pure_def,
        Option.some.injEq, List.forall_mem_cons, List.map_cons]
      constructor
      · rintro ⟨y, first, rest, others, rfl⟩
        obtain ⟨all, rfl⟩ := ih.mp others
        exact ⟨⟨⟨y, first⟩, all⟩, by rw [first, Option.getD_some]⟩
      · rintro ⟨⟨⟨y, first⟩, all⟩, rfl⟩
        exact ⟨y, first, _, ih.mpr ⟨all, rfl⟩, by rw [first, Option.getD_some]⟩

section Checks

variable {env : MetaEnv} {repo after : PkgRepo} {certs checked : List SigCert} {cert : SigCert}
  {content : Bytes}

/-- The certificate after a check. -/
def checkedCert (env : MetaEnv) (repo : PkgRepo) (cert : SigCert) : SigCert :=
  match firstCert repo cert with
  | some data =>
      { cert with cert := some data, trusted := repo.trustedFp.contains (env.sha256 data) }
  | none => cert

/-- A check does not return at the certificate. -/
def Passes (env : MetaEnv) (repo : PkgRepo) (cert : SigCert) : Prop :=
  cert.sig ≠ none ∧ ∃ data, firstCert repo cert = some data ∧ env.sha256 data ∉ repo.revokedFp

theorem checkSigCert_passes (passes : env.Passes repo cert) :
    env.checkSigCert repo cert = some (env.checkedCert repo cert) := by
  obtain ⟨signed, data, found, notRevoked⟩ := passes
  obtain ⟨sig, isSig⟩ := Option.ne_none_iff_exists'.mp signed
  unfold firstCert at found
  simp only [checkSigCert, checkedCert, firstCert, isSig, found, if_neg notRevoked,
    List.contains_eq_mem]

theorem passes_of_checkSigCert {result : SigCert}
    (check : env.checkSigCert repo cert = some result) : env.Passes repo cert := by
  unfold checkSigCert at check
  split at check
  · cases check
  · next sig isSig =>
      split at check
      · cases check
      · next data found =>
          split at check
          · cases check
          · next notRevoked =>
              exact ⟨isSig ▸ Option.some_ne_none sig, data, found, notRevoked⟩

theorem mapM_checkSigCert :
    certs.mapM (env.checkSigCert repo) = some checked ↔
      (∀ cert ∈ certs, env.Passes repo cert) ∧ checked = certs.map (env.checkedCert repo) := by
  rw [mapM_eq_some_iff]
  have passes : (∀ cert ∈ certs, ∃ result, env.checkSigCert repo cert = some result) ↔
      ∀ cert ∈ certs, env.Passes repo cert :=
    forall₂_congr fun cert _ =>
      ⟨fun ⟨_, check⟩ => passes_of_checkSigCert check, fun pass => ⟨_, checkSigCert_passes pass⟩⟩
  rw [passes]
  refine and_congr_right fun all => ?_
  have same : (certs.map fun cert => (env.checkSigCert repo cert).getD cert) =
      certs.map (env.checkedCert repo) := by
    refine List.map_congr_left fun cert member => ?_
    rw [checkSigCert_passes (all cert member), Option.getD_some]
  rw [same]

theorem trusted_checkedCert (passes : env.Passes repo cert) :
    (env.checkedCert repo cert).trusted = true ↔
      ∃ data, firstCert repo cert = some data ∧ env.sha256 data ∈ repo.trustedFp := by
  obtain ⟨_, data, found, _⟩ := passes
  simp only [checkedCert, found, List.contains_iff_mem, Option.some.injEq, exists_eq_left']

theorem checkFingerprint_iff (loads : (env.fingerprintTables repo).1 = true) :
    env.pkgRepoCheckFingerprint repo certs = (some checked, after) ↔
      after = (env.fingerprintTables repo).2 ∧ (∀ cert ∈ certs, env.Passes after cert) ∧
        checked = certs.map (env.checkedCert after) ∧
        ∃ cert ∈ certs, ∃ data, firstCert after cert = some data ∧
          env.sha256 data ∈ after.trustedFp := by
  unfold pkgRepoCheckFingerprint
  have tables : (if repo.trustedFp = [] then env.pkgRepoLoadFingerprints repo else (true, repo)) =
      (true, (env.fingerprintTables repo).2) := Prod.ext loads rfl
  rw [tables]
  generalize (env.fingerprintTables repo).2 = found
  by_cases empty : certs = []
  · rw [if_pos empty]
    refine iff_of_false nofun ?_
    rintro ⟨-, -, -, cert, member, -⟩
    rw [empty] at member
    cases member
  rw [if_neg empty]
  dsimp only
  rw [if_pos rfl]
  cases run : certs.mapM (env.checkSigCert found) with
  | none =>
      refine iff_of_false nofun ?_
      rintro ⟨rfl, passes, same, -⟩
      exact Option.some_ne_none _ ((mapM_checkSigCert.mpr ⟨passes, rfl⟩).symm.trans run)
  | some results =>
      obtain ⟨passes, rfl⟩ := mapM_checkSigCert.mp run
      have trusted : (certs.map (env.checkedCert found)).any SigCert.trusted = true ↔
          ∃ cert ∈ certs, ∃ data, firstCert found cert = some data ∧
            env.sha256 data ∈ found.trustedFp := by
        rw [List.any_map, List.any_eq_true]
        exact exists_congr fun cert => and_congr_right fun member =>
          trusted_checkedCert (passes cert member)
      dsimp only
      split
      · next isTrusted =>
          rw [Prod.mk.injEq, Option.some.injEq]
          constructor
          · rintro ⟨rfl, rfl⟩
            exact ⟨rfl, passes, rfl, trusted.mp isTrusted⟩
          · rintro ⟨rfl, -, rfl, -⟩
            exact ⟨rfl, rfl⟩
      · next notTrusted =>
          refine iff_of_false nofun ?_
          rintro ⟨rfl, -, -, isTrusted⟩
          exact notTrusted (trusted.mpr isTrusted)

/-! ## The second check -/

/-- The certificate between the checks. -/
def filledCert (env : MetaEnv) (repo : PkgRepo) (content : Bytes) (cert : SigCert) : SigCert :=
  { cert with
    cert := env.secondCert repo content cert
    trusted := (env.checkedCert repo cert).trusted }

theorem checkedCert_of_found {data : Bytes} (found : firstCert repo cert = some data) :
    env.checkedCert repo cert =
      { cert with cert := some data, trusted := repo.trustedFp.contains (env.sha256 data) } := by
  rw [checkedCert, found]

theorem fillSigCert_checked (passes : env.Passes repo cert) :
    env.fillSigCert content (env.checkedCert repo cert) =
      (env.secondCert repo content cert).map fun _ => env.filledCert repo content cert := by
  obtain ⟨_, data, found, _⟩ := passes
  unfold fillSigCert filledCert secondCert
  rw [checkedCert_of_found found, found, Option.bind_some, Option.getD_some]
  split
  · cases env.extractPubkey content cert.name with
    | none => rfl
    | some extracted => rfl
  · rfl

theorem mapM_fillSigCert {filled : List SigCert} (passes : ∀ cert ∈ certs, env.Passes repo cert) :
    (certs.map (env.checkedCert repo)).mapM (env.fillSigCert content) = some filled ↔
      (∀ cert ∈ certs, ∃ data, env.secondCert repo content cert = some data) ∧
        filled = certs.map (env.filledCert repo content) := by
  rw [mapM_eq_some_iff, List.forall_mem_map, List.map_map]
  have fills : (∀ cert ∈ certs, ∃ result,
        env.fillSigCert content (env.checkedCert repo cert) = some result) ↔
      ∀ cert ∈ certs, ∃ data, env.secondCert repo content cert = some data := by
    refine forall₂_congr fun cert member => ?_
    rw [fillSigCert_checked (passes cert member)]
    simp only [Option.map_eq_some_iff]
    exact ⟨fun ⟨_, data, found, _⟩ => ⟨data, found⟩, fun ⟨data, found⟩ => ⟨_, data, found, rfl⟩⟩
  rw [fills]
  refine and_congr_right fun all => ?_
  have same : certs.map ((fun cert => (env.fillSigCert content cert).getD cert) ∘
      env.checkedCert repo) = certs.map (env.filledCert repo content) := by
    refine List.map_congr_left fun cert member => ?_
    obtain ⟨data, found⟩ := all cert member
    rw [Function.comp_apply, fillSigCert_checked (passes cert member), found, Option.map_some,
      Option.getD_some]
  rw [same]

theorem firstCert_filledCert {data : Bytes}
    (found : env.secondCert repo content cert = some data) :
    firstCert repo (env.filledCert repo content cert) = some data := by
  unfold firstCert filledCert
  rw [found]
  rfl

theorem passes_filledCert (passes : env.Passes repo cert) {data : Bytes}
    (found : env.secondCert repo content cert = some data) :
    env.Passes repo (env.filledCert repo content cert) ↔ env.sha256 data ∉ repo.revokedFp := by
  have sig : (env.filledCert repo content cert).sig = cert.sig := rfl
  unfold Passes
  rw [sig, firstCert_filledCert found]
  simp only [Option.some.injEq, exists_eq_left', and_iff_right_iff_imp]
  exact fun _ => passes.1

theorem verifies_checked
    (filled : ∀ cert ∈ certs, ∃ data, env.secondCert repo content cert = some data) :
    env.verifies content ((certs.map (env.filledCert repo content)).map (env.checkedCert repo)) =
        true ↔
      ∃ cert ∈ certs, ∃ data, env.secondCert repo content cert = some data ∧
        env.sha256 data ∈ repo.trustedFp ∧
          env.rsa.verifyCert content data (cert.sig.getD []) = true := by
  unfold verifies
  rw [List.map_map, List.any_map, List.any_eq_true]
  refine exists_congr fun cert => and_congr_right fun member => ?_
  obtain ⟨data, found⟩ := filled cert member
  have sig : (env.filledCert repo content cert).sig = cert.sig := rfl
  simp only [Function.comp_apply, checkedCert, firstCert_filledCert found, sig, found,
    Option.getD_some, Bool.and_eq_true, List.contains_iff_mem, Option.some.injEq, exists_eq_left']
  exact and_comm

theorem checkFetchedMeta_iff (passes : ∀ cert ∈ certs, env.Passes repo cert)
    (loaded : repo.trustedFp ≠ []) :
    (env.checkFetchedMeta repo content (certs.map (env.checkedCert repo))).1.isSome = true ↔
      (∀ cert ∈ certs, ∃ data, env.secondCert repo content cert = some data ∧
        env.sha256 data ∉ repo.revokedFp) ∧
      ∃ cert ∈ certs, ∃ data, env.secondCert repo content cert = some data ∧
        env.sha256 data ∈ repo.trustedFp ∧
          env.rsa.verifyCert content data (cert.sig.getD []) = true := by
  have tables : env.fingerprintTables repo = (true, repo) := if_neg loaded
  unfold checkFetchedMeta
  cases fills : (certs.map (env.checkedCert repo)).mapM (env.fillSigCert content) with
  | none =>
      refine iff_of_false nofun ?_
      rintro ⟨usable, -⟩
      have all := (mapM_fillSigCert passes).mpr
        ⟨fun cert member => (usable cert member).imp fun _ => And.left, rfl⟩
      exact Option.some_ne_none _ (all.symm.trans fills)
  | some filled =>
      obtain ⟨found, rfl⟩ := (mapM_fillSigCert passes).mp fills
      have passesAgain : (∀ cert ∈ certs.map (env.filledCert repo content), env.Passes repo cert) ↔
          ∀ cert ∈ certs, ∃ data, env.secondCert repo content cert = some data ∧
            env.sha256 data ∉ repo.revokedFp := by
        rw [List.forall_mem_map]
        refine forall₂_congr fun cert member => ?_
        obtain ⟨data, isData⟩ := found cert member
        rw [passes_filledCert (passes cert member) isData]
        simp only [isData, Option.some.injEq, exists_eq_left']
      have verified := verifies_checked found
      have second (checked : List SigCert) (after : PkgRepo) :=
        @checkFingerprint_iff env repo after (certs.map (env.filledCert repo content)) checked
          (congrArg Prod.fst tables)
      rw [tables] at second
      cases check : env.pkgRepoCheckFingerprint repo
          (certs.map (env.filledCert repo content)) with
      | mk result after =>
          dsimp only
          rw [check]
          cases result with
          | none =>
              refine iff_of_false nofun ?_
              rintro ⟨usable, cert, member, data, isData, trusted, -⟩
              have again := (second _ repo).mpr ⟨rfl, passesAgain.mpr usable, rfl,
                env.filledCert repo content cert, List.mem_map_of_mem member, data,
                firstCert_filledCert isData, trusted⟩
              rw [check] at again
              cases again
          | some checked =>
              obtain ⟨rfl, again, rfl, -⟩ := (second checked after).mp check
              have usable := passesAgain.mp again
              dsimp only
              split
              · next signs => exact iff_of_true rfl ⟨usable, verified.mp signs⟩
              · next unsigned =>
                  exact iff_of_false nofun fun both => unsigned (verified.mpr both.2)

end Checks

/-! ## Archives that are accepted -/

/-- What the child writes to the path of `.meta`. -/
def metaContent (entries : List ArchiveEntry) : Bytes :=
  (pkgRepoMetaExtractSignatureFingerprints metaName entries).written

/-- Nothing but the keys is in the way: the archive arrives and can be read, the files can be
removed, opened and mapped, the fingerprints are there, and the meta file is one. -/
structure Undisturbed (env : MetaEnv) (repo : PkgRepo) (entries : List ArchiveEntry) : Prop where
  archive : env.archive = .file entries
  unlinks : env.unlinks = true
  opens : env.opens = true
  maps : env.maps = true
  lives : env.died = none
  type : repo.signatureType = .fingerprint
  readable : ∀ entry ∈ entries, entry.data ≠ none
  fingerprints : (env.fingerprintTables repo).1 = true
  loads : env.metaLoad (metaContent entries) ≠ none

theorem extractFingerprints_ok {entries : List ArchiveEntry}
    (readable : ∀ entry ∈ entries, entry.data ≠ none)
    (replied : (pkgRepoMetaExtractSignatureFingerprints metaName entries).reply ≠ []) :
    (pkgRepoMetaExtractSignatureFingerprints metaName entries).ok = true := by
  have turn (run : ChildRun) (entry : ArchiveEntry) (data : entry.data ≠ none)
      (goesOn : run.ended = false) (good : run.reply ≠ [] → run.ok = true) :
      (extractFingerprintsEntry metaName run entry).ended = false ∧
        ((extractFingerprintsEntry metaName run entry).reply ≠ [] →
          (extractFingerprintsEntry metaName run entry).ok = true) := by
    obtain ⟨content, isContent⟩ := Option.ne_none_iff_exists'.mp data
    simp only [extractFingerprintsEntry, goesOn, isContent, Bool.false_eq_true, if_false]
    split
    · exact ⟨rfl, fun _ => rfl⟩
    · split
      · exact ⟨rfl, fun _ => rfl⟩
      · split
        · exact ⟨rfl, good⟩
        · exact ⟨goesOn, good⟩
  have runs (run : ChildRun) (goesOn : run.ended = false) (good : run.reply ≠ [] → run.ok = true) :
      (entries.foldl (extractFingerprintsEntry metaName) run).reply ≠ [] →
        (entries.foldl (extractFingerprintsEntry metaName) run).ok = true := by
    clear replied
    induction entries generalizing run with
    | nil => exact good
    | cons entry entries ih =>
        obtain ⟨data, others⟩ := List.forall_mem_cons.mp readable
        obtain ⟨goesOn, good⟩ := turn run entry data goesOn good
        exact ih others _ goesOn good
  exact runs {} rfl (fun replied => absurd rfl replied) replied

section Accepted

variable {env : MetaEnv} {repo : PkgRepo} {entries : List ArchiveEntry} {certs : List SigCert}
  {content : Bytes}

theorem fingerprintsChild_eq (undisturbed : env.Undisturbed repo entries) :
    env.fingerprintsChild entries = pkgRepoMetaExtractSignatureFingerprints metaName entries := by
  unfold fingerprintsChild SignatureEnv.sandbox
  rw [undisturbed.lives]

theorem knownBefore_iff :
    env.KnownBefore repo content certs ↔
      (∀ cert ∈ certs, env.Passes repo cert) ∧
      (∃ cert ∈ certs, ∃ data, firstCert repo cert = some data ∧
        env.sha256 data ∈ repo.trustedFp) ∧
      (∀ cert ∈ certs, ∃ data, env.secondCert repo content cert = some data ∧
        env.sha256 data ∉ repo.revokedFp) ∧
      ∃ cert ∈ certs, ∃ data, env.secondCert repo content cert = some data ∧
        env.sha256 data ∈ repo.trustedFp ∧
          env.rsa.verifyCert content data (cert.sig.getD []) = true := by
  constructor
  · intro known
    exact ⟨fun cert member => ⟨known.signed cert member, known.known cert member⟩, known.trusted,
      known.usable, known.verifies⟩
  · rintro ⟨passes, trusted, usable, verifies⟩
    exact ⟨fun cert member => (passes cert member).1, fun cert member => (passes cert member).2,
      trusted, usable, verifies⟩

/-- Exactly the archives whose keys are known before the meta file is read. -/
theorem fetchMeta_ok_iff (undisturbed : env.Undisturbed repo entries) (old : Option Bytes) :
    (env.pkgRepoFetchMeta repo old).rc = .ok ↔
      ∃ certs, pkgRepoParseSigkeys
          (pkgRepoMetaExtractSignatureFingerprints metaName entries).reply = some certs ∧
        env.KnownBefore (env.fingerprintTables repo).2 (metaContent entries) certs := by
  have child := fingerprintsChild_eq undisturbed
  have stage : env.fetchMetaStage repo old = env.extractMeta repo entries := by
    simp only [fetchMetaStage, undisturbed.archive, undisturbed.unlinks, if_true]
  by_cases passes : ∃ checked tables, env.FirstCheck repo entries checked tables
  · obtain ⟨checked, tables, first⟩ := passes
    obtain ⟨_, _, certs, parsed, check⟩ := id first
    have loaded := checkFingerprint_trustedFp check
    obtain ⟨isTables, all, rfl, trusted⟩ :=
      (checkFingerprint_iff undisturbed.fingerprints).mp check
    have second := @checkFetchedMeta_iff env tables certs (metaContent entries) all loaded
    have extract := extractMeta_checked undisturbed.type undisturbed.opens first
    rw [child] at parsed extract
    rw [if_pos undisturbed.maps, ← stage] at extract
    have accepted : (env.pkgRepoFetchMeta repo old).rc = .ok ↔
        (env.checkFetchedMeta tables (metaContent entries)
          (certs.map (env.checkedCert tables))).1.isSome = true := by
      obtain ⟨nmeta, loads⟩ := Option.ne_none_iff_exists'.mp undisturbed.loads
      unfold metaContent at loads ⊢
      cases found : env.checkFetchedMeta tables
          (pkgRepoMetaExtractSignatureFingerprints metaName entries).written
          (certs.map (env.checkedCert tables)) with
      | mk result after =>
          rw [found] at extract
          cases result with
          | none => simp only [pkgRepoFetchMeta, extract, Option.isSome_none, reduceCtorEq]
          | some results =>
              simp only [pkgRepoFetchMeta, extract, loads, Option.isSome_some]
    rw [accepted, second]
    constructor
    · rintro ⟨usable, verifies⟩
      exact ⟨certs, parsed, isTables ▸ knownBefore_iff.mpr ⟨all, trusted, usable, verifies⟩⟩
    · rintro ⟨others, othersParsed, known⟩
      obtain rfl := Option.some.inj (parsed.symm.trans othersParsed)
      obtain ⟨-, -, usable, verifies⟩ := knownBefore_iff.mp (isTables ▸ known)
      exact ⟨usable, verifies⟩
  · obtain ⟨after, refused⟩ := extractMeta_refused undisturbed.type undisturbed.opens passes
    have fails : (env.pkgRepoFetchMeta repo old).rc = .fatal := by
      simp only [pkgRepoFetchMeta, stage, refused]
    rw [fails]
    refine iff_of_false (by decide) ?_
    rintro ⟨certs, parsed, known⟩
    obtain ⟨all, trusted, -, -⟩ := knownBefore_iff.mp known
    have replied : (pkgRepoMetaExtractSignatureFingerprints metaName entries).reply ≠ [] := by
      intro nothing
      rw [nothing] at parsed
      obtain rfl : [] = certs := Option.some.inj parsed
      obtain ⟨cert, member, -⟩ := trusted
      cases member
    refine passes ⟨_, _, ?_, ?_, certs, ?_, (checkFingerprint_iff undisturbed.fingerprints).mpr
      ⟨rfl, all, rfl, trusted⟩⟩
    · rw [child]
      exact extractFingerprints_ok undisturbed.readable replied
    · rw [child]
      exact replied
    · rw [child]
      exact parsed

end Accepted

end MetaEnv

namespace CarriedEnv

open MetaEnv

/-- The certificate of a name: that of the archive, or the one in the enclosed meta file. -/
def carriedCert (env : CarriedEnv) (entries : List ArchiveEntry) (name : Bytes) : Option Bytes :=
  lastData 1 (signatureRecords entries) name <|> (env.certSection (metaContent entries)).find name

/-- The archive carries the keys of its signatures; none is revoked, and one is trusted and has
signed the meta file. -/
structure CarriesKeys (env : CarriedEnv) (repo : PkgRepo) (entries : List ArchiveEntry) : Prop where
  undisturbed : env.Undisturbed repo entries
  carried : ∀ name, lastData 0 (signatureRecords entries) name ≠ none →
    ∃ data, env.carriedCert entries name = some data ∧
      env.sha256 data ∉ (env.fingerprintTables repo).2.revokedFp
  verifies : ∃ name sig data, lastData 0 (signatureRecords entries) name = some sig ∧
    env.carriedCert entries name = some data ∧
      env.sha256 data ∈ (env.fingerprintTables repo).2.trustedFp ∧
        env.rsa.verifyCert (metaContent entries) data sig = true

/-- An archive that carries its keys is accepted. -/
def KeysUsable (env : CarriedEnv) (repo : PkgRepo) (entries : List ArchiveEntry)
    (old : Option Bytes) : Prop :=
  env.CarriesKeys repo entries → (env.pkgRepoFetchMeta repo old).rc = .ok

/-- It is accepted if every signature has its certificate in the archive or in the meta file that
was loaded before. -/
theorem keysUsable_iff (env : CarriedEnv) (repo : PkgRepo) (entries : List ArchiveEntry)
    (old : Option Bytes) :
    env.KeysUsable repo entries old ↔
      (env.CarriesKeys repo entries → ∃ certs, pkgRepoParseSigkeys
          (pkgRepoMetaExtractSignatureFingerprints metaName entries).reply = some certs ∧
        env.KnownBefore (env.fingerprintTables repo).2 (metaContent entries) certs) :=
  forall_congr' fun carries => fetchMeta_ok_iff carries.undisturbed old

/-- The entries `A.sig` and `meta`. -/
def enclosedEntries : List ArchiveEntry :=
  [{ pathname := 65 :: sigExt, data := some [9, 1, 2] }, { pathname := metaName, data := some [1, 2] }]

/-- The meta file has the certificate of `A`, which is trusted. -/
def enclosedEnv : CarriedEnv where
  rsa := sampleRsa
  sha256 data := data
  trustedDir := some [[9]]
  archive := .file enclosedEntries
  extractPubkey _ name := pkgRepoMetaExtractPubkey (.cert [⟨some [65], some [9]⟩]) name
  metaLoad content := some { body := content }
  certSection _ := .cert [⟨some [65], some [9]⟩]
  extracts := rfl

/-- No meta file has been loaded, so the first check does not find the certificate. -/
theorem enclosedKey_not_keysUsable : ¬enclosedEnv.KeysUsable sampleRepo enclosedEntries none := by
  have records : signatureRecords enclosedEntries = [⟨0, [65], [9, 1, 2]⟩] := by decide
  have tables : enclosedEnv.fingerprintTables sampleRepo =
      (true, { sampleRepo with trustedFp := [[9]] }) := rfl
  have key : enclosedEnv.carriedCert enclosedEntries [65] = some [9] := by decide
  have carries : enclosedEnv.CarriesKeys sampleRepo enclosedEntries :=
    { undisturbed :=
        { archive := rfl
          unlinks := rfl
          opens := rfl
          maps := rfl
          lives := rfl
          type := rfl
          readable := by decide
          fingerprints := rfl
          loads := Option.some_ne_none _ }
      carried := by
        intro name given
        have isName : [65] = name := by
          by_contra other
          rw [records] at given
          exact given (congrArg (fun list : List SigRecord => list.getLast?.map SigRecord.data)
            (List.filter_cons_of_neg fun both => other (of_decide_eq_true both).2))
        exact ⟨[9], isName ▸ key, by rw [tables]; exact List.not_mem_nil⟩
      verifies := ⟨[65], [9, 1, 2], [9], by rw [records]; rfl, key, by rw [tables]; decide, rfl⟩ }
  intro usable
  have fails : (enclosedEnv.pkgRepoFetchMeta sampleRepo none).rc = .fatal := rfl
  rw [usable carries] at fails
  cases fails

end CarriedEnv

end Pkgng
