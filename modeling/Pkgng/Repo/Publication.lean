import Pkgng.Repo.DigestsFile
import Pkgng.Repo.Incremental

/-!
# What a publisher leaves for its clients

The digests file and the manifests file that a creation writes, and what the update of a client
makes of them: an item for every package, and under each item the manifest of its package.
-/

set_option autoImplicit false

namespace Pkgng

open Lib

/-- A run of `pkg_create_repo` that has come to its end without losing a package. -/
structure Creation where
  accepts : RepoPackage → Bool
  readFiles : Bool
  numWorkers : Nat
  files : List RepoPackage
  tasks : List (List RepoPackage)
  split : splitTasks numWorkers files = some tasks
  origins : (files.map RepoPackage.origin).Nodup
  events : List (CreateEvent (Fin tasks.length))
  final : CreateState (Fin tasks.length)
  run : runEvents (createStep readFiles) (CreateState.start tasks.get) events = some final
  opens : MeetsAlong (createStep readFiles) (OpensAs accepts) (CreateState.start tasks.get) events
  careful : MeetsAlong (createStep readFiles) (LosesNothing accepts) (CreateState.start tasks.get)
    events
  created : final.Created

/-- The packages of a repository, with the list of their digests and their manifests. -/
structure Publication where
  packages : List RepoPackage
  dlist : List DigestEntry
  manifests : Text

def Creation.publication (creation : Creation) : Publication where
  packages := creation.files.filter creation.accepts
  dlist := creation.final.dlist
  manifests := creation.final.manifests

/-! ## The records of a creation -/

/-- The record of a package gives the place of its manifest. -/
def Region.Within (manifests : Text) (region : Region) : Prop :=
  region.mpos + region.pkg.manifest.length ≤ manifests.length ∧
    (manifests.drop region.mpos).take region.pkg.manifest.length = region.pkg.manifest

/-- What the invariants of the places and of the packages say together. -/
structure CreationInv {count : Nat} (accepts : RepoPackage → Bool)
    (split : Fin count → List RepoPackage) (state : CreateState (Fin count)) : Prop where
  places : ∃ received flight, CreateInv split state received flight
  packages : ∃ received flight, CompleteInv accepts split state received flight

theorem CreationInv.step {count : Nat} {accepts : RepoPackage → Bool}
    {split : Fin count → List RepoPackage} {readFiles : Bool}
    {state next : CreateState (Fin count)} {event : CreateEvent (Fin count)}
    (inv : CreationInv accepts split state) (opens : OpensAs accepts state event)
    (careful : LosesNothing accepts state event)
    (step : createStep readFiles state event = some next) : CreationInv accepts split next := by
  obtain ⟨⟨received, flight, places⟩, ⟨own, ownFlight, packages⟩⟩ := inv
  cases event with
  | step worker =>
      exact ⟨⟨received, places.workerStep careful step⟩, packages.workerStep opens careful step⟩
  | fail worker =>
      exact ⟨⟨received, flight, places.workerFail step⟩, packages.workerFail opens careful step⟩
  | poll worker =>
      simp only [createStep, Option.ite_none_right_eq_some] at step
      cases Option.some.inj step.2
      have fresh : ∀ other pipe, ParentPc.reading worker {} = .reading other pipe →
          pipe.field = .setOrigin := by
        intro other pipe same
        cases same
        rfl
      exact ⟨⟨received, flight, places.parent fresh⟩,
        ⟨own, ownFlight, packages.keeps, packages.dlist, fresh⟩⟩
  | read =>
      simp only [createStep] at step
      split at step
      · next worker pipe reading =>
          cases Option.some.inj step
          exact ⟨places.parentRead reading, packages.parentRead reading⟩
      · cases step

theorem Creation.inv (creation : Creation) :
    CreationInv creation.accepts creation.tasks.get creation.final := by
  apply runEvents_invariant _ creation.run (creation.opens.and creation.careful)
    ⟨⟨_, _, CreateInv.start _⟩, ⟨_, _, CompleteInv.start _⟩⟩
  intro state event next inv meets step
  exact inv.step meets.1 meets.2 step

theorem Creation.mem_files (creation : Creation) {worker : Fin creation.tasks.length}
    {pkg : RepoPackage} (member : pkg ∈ creation.tasks.get worker) : pkg ∈ creation.files := by
  rw [← (splitTasks_spec creation.split).1]
  exact List.mem_flatten_of_mem (List.get_mem ..) member

/-- One record for each package, each at the place of its manifest. -/
theorem Creation.records (creation : Creation) :
    ∃ regions : List Region, creation.final.dlist.Perm (regions.map Region.entry) ∧
      regions.map Region.pkg = creation.publication.packages ∧
      ∀ region ∈ regions, region.Within creation.final.manifests := by
  obtain ⟨⟨_, _, places⟩, ⟨received, flight, packages⟩⟩ := creation.inv
  have all : (List.finRange creation.tasks.length).flatMap creation.tasks.get = creation.files := by
    rw [← (splitTasks_spec creation.split).1, List.flatMap_def, List.map_get_finRange]
  have each : ∀ worker, (received worker).map Region.pkg =
      (creation.tasks.get worker).filter creation.accepts :=
    fun worker => (packages.keeps worker).received_of_finished (creation.created.2 worker)
  have listed : ((List.finRange creation.tasks.length).flatMap received).map Region.pkg =
      creation.publication.packages := by
    rw [List.map_flatMap]
    simp only [each]
    rw [← List.filter_flatMap, all]
    rfl
  have dlist := packages.dlist
  rw [← List.map_flatMap] at dlist
  refine ⟨_, dlist, listed, fun region member => ?_⟩
  obtain ⟨worker, pkg, inTask, origin, -, -, pos, length, isPos, isLength, fits, slice⟩ :=
    places.recordsRight.right region.entry (dlist.mem_iff.mpr (List.mem_map_of_mem member))
  -- The origins tell the packages apart.
  have own : region.pkg ∈ creation.files :=
    List.mem_of_mem_filter (listed ▸ List.mem_map_of_mem member)
  have same : region.pkg = pkg := List.inj_on_of_nodup_map creation.origins own
    (creation.mem_files inTask) (Option.some.inj origin)
  have isPos : region.mpos = pos := Int.ofNat.inj isPos
  have isLength : region.pkg.manifest.length = length := Int.ofNat.inj isLength
  subst isPos isLength
  rw [← same] at slice
  exact ⟨fits, slice⟩

/-! ## What a client reads -/

/-- The functions that the update calls on texts. -/
structure ClientCalls where
  /-- `pkg_parse_manifest` and what is asked of its package. -/
  parse : Text → Option Manifest
  checksumIsValid : Text → Bool
  isValidAbi : Text → Bool

/-- The statements as they end in `env`, with the functions of the client. -/
def ClientCalls.env (calls : ClientCalls) (env : UpdateEnv) : UpdateEnv :=
  { env with
    strtoul := strtoulErrno
    checksumIsValid := calls.checksumIsValid
    isValidAbi := calls.isValidAbi }

/-- The texts of the package are read back. -/
structure ClientCalls.Reads (calls : ClientCalls) (pkg : RepoPackage) : Prop where
  origin : PlainText pkg.origin
  digest : PlainText pkg.digest
  checksum : ∀ c ∈ pkg.checksum, hexadecimal c = true
  validDigest : calls.checksumIsValid pkg.digest = true
  manifest : pkg.manifest ≠ []
  parsed : ∃ parsed arch, calls.parse pkg.manifest = some parsed ∧
    parsed.origin = some pkg.origin ∧ parsed.arch = some arch ∧
    calls.isValidAbi arch = true ∧ parsed.cksum = some pkg.checksum ∧ parsed.valid = true

/-- The row of a package in the tables of a client. -/
def ClientCalls.row (calls : ClientCalls) (pkg : RepoPackage) : RepoRow where
  origin := pkg.origin
  manifestdigest := some pkg.digest
  cksum := some pkg.checksum
  body := ((calls.parse pkg.manifest).map Manifest.body).getD []

namespace Publication

variable {calls : ClientCalls} {pub : Publication}

/-- The lines that the loop over the digests file gets. -/
def lines (pub : Publication) : List Text := digestLines (digestsFile pub.dlist)

def catalogue (calls : ClientCalls) (pub : Publication) : Catalogue where
  size := pub.manifests.length
  manifestAt offset length := calls.parse ((pub.manifests.drop offset).take length)

/-- What the client relies on: no two packages have an origin or a manifest digest in common, each
is read back, and lines and numbers are of the sizes that the readers have. -/
structure Readable (calls : ClientCalls) (pub : Publication) : Prop where
  origins : (pub.packages.map RepoPackage.origin).Nodup
  digests : (pub.packages.map RepoPackage.digest).Nodup
  packages : ∀ pkg ∈ pub.packages, calls.Reads pkg
  lines : ∀ entry ∈ pub.dlist, entry.text.length + 1 < digestBufSize
  filesPos : ∀ entry ∈ pub.dlist, entry.filesPos < 9223372036854775808
  size : pub.manifests.length < ssizeMax

/-- The records of the publication. -/
structure Recorded (pub : Publication) (regions : List Region) : Prop where
  dlist : pub.dlist.Perm (regions.map Region.entry)
  packages : regions.map Region.pkg = pub.packages
  within : ∀ region ∈ regions, region.Within pub.manifests

section Recorded

variable {regions : List Region} (recorded : pub.Recorded regions)
  (readable : pub.Readable calls)

include recorded in
theorem Recorded.mem_packages {region : Region} (member : region ∈ regions) :
    region.pkg ∈ pub.packages :=
  recorded.packages ▸ List.mem_map_of_mem member

include recorded readable in
theorem Recorded.sound {region : Region} (member : region ∈ regions) : region.Sound := by
  have reads := readable.packages _ (recorded.mem_packages member)
  have listed := recorded.dlist.mem_iff.mpr (List.mem_map_of_mem member)
  have short := readable.lines _ listed
  have filesPos := readable.filesPos _ listed
  have size := readable.size
  have fits := (recorded.within region member).1
  unfold ssizeMax at size
  refine ⟨?_, reads.origin, reads.digest, reads.checksum, by omega, ?_, by omega⟩
  · rw [← region.entry_text, List.length_append]
    exact short
  · exact Int.ofNat_lt.mp filesPos

include recorded readable in
/-- The items of the update are those of the records. -/
theorem Recorded.readItems (env : UpdateEnv) :
    ∃ items, digestItems (calls.env env) pub.lines = some items ∧
      items.Perm (regions.map Region.item) := by
  have each : ∀ entry ∈ pub.dlist, ∃ region : Region, region.Sound ∧ entry = region.entry := by
    intro entry member
    obtain ⟨region, inRegions, rfl⟩ := List.mem_map.mp (recorded.dlist.mem_iff.mp member)
    exact ⟨region, recorded.sound readable inRegions, rfl⟩
  obtain ⟨items, read, perm⟩ := @digestItems_digestsFile (calls.env env) pub.dlist each
  refine ⟨items, read, perm.trans ?_⟩
  have same : (regions.map Region.entry).map DigestEntry.item = regions.map Region.item := by
    rw [List.map_map]
    rfl
  exact same ▸ recorded.dlist.map DigestEntry.item

include recorded readable in
theorem Recorded.eq_of_mem_lines {line : Text} (member : line ∈ pub.lines) :
    ∃ region ∈ regions, line = digestLine region := by
  have sorted := listSort_perm (fun d1 d2 => decide (pkgDigestSortCompareFunc d1 d2 ≤ 0)) pub.dlist
  have each : ∀ entry ∈ listSort (fun d1 d2 => decide (pkgDigestSortCompareFunc d1 d2 ≤ 0))
      pub.dlist, ∃ region ∈ regions, entry = region.entry := by
    intro entry listed
    obtain ⟨region, inRegions, same⟩ :=
      List.mem_map.mp (recorded.dlist.mem_iff.mp (sorted.mem_iff.mp listed))
    exact ⟨region, inRegions, same.symm⟩
  have texts := digestLines_eq fun entry listed =>
    let ⟨region, inRegions, same⟩ := each entry listed
    ⟨region, recorded.sound readable inRegions, same⟩
  rw [lines, digestsFile, texts] at member
  obtain ⟨entry, listed, rfl⟩ := List.mem_map.mp member
  obtain ⟨region, inRegions, rfl⟩ := each entry listed
  exact ⟨region, inRegions, region.entry_text⟩

include recorded readable in
/-- The digests have the format of the repositories of today. -/
theorem Recorded.notLegacy (env : UpdateEnv) :
    legacyRepo (calls.env env) pub.lines = some false := by
  unfold legacyRepo
  cases first : pub.lines.head? with
  | none => rfl
  | some line =>
      obtain ⟨region, inRegions, rfl⟩ :=
        recorded.eq_of_mem_lines readable (List.mem_of_mem_head? first)
      have reads := readable.packages _ (recorded.mem_packages inRegions)
      simp [digestLine, strsep_colon reads.origin, strsep_colon reads.digest, ClientCalls.env,
        reads.validDigest]

include recorded readable in
/-- What an item of the digests takes out of the catalogue is the manifest of its package. -/
theorem Recorded.builtRow (env : UpdateEnv) {region : Region} (member : region ∈ regions) :
    manifestRow (calls.env env) false (pub.catalogue calls) region.item =
      some { calls.row region.pkg with added := true } := by
  have reads := readable.packages _ (recorded.mem_packages member)
  obtain ⟨parsed, arch, isParsed, origin, isArch, abi, cksum, valid⟩ := reads.parsed
  have nonempty : region.pkg.manifest.length ≠ 0 := fun empty =>
    reads.manifest (List.length_eq_zero_iff.mp empty)
  have found : (pub.catalogue calls).manifestAt region.mpos region.pkg.manifest.length =
      some parsed := by
    rw [← isParsed]
    exact congrArg calls.parse (recorded.within region member).2
  unfold manifestRow
  simp [Region.item, nonempty, found, isArch, origin, valid, abi, cksum, ClientCalls.env,
    ClientCalls.row, isParsed]

end Recorded

end Publication

theorem Creation.recorded (creation : Creation) :
    ∃ regions, creation.publication.Recorded regions := by
  obtain ⟨regions, dlist, packages, within⟩ := creation.records
  exact ⟨regions, dlist, packages, within⟩

end Pkgng
