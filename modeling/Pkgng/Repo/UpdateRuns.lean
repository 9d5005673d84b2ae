import Pkgng.Repo.Update

/-!
# Interrupted updates

A run that returns `EPKG_OK` or `EPKG_UPTODATE` leaves a database without the marker
`repo_update` whose rows are those of a committed update.  The up-to-date answer of the
server is taken without a look at the database, so this holds in the runs that get it
on a settled database only.
-/

set_option autoImplicit false

namespace Pkgng

open Lib

/-! ## The rows of a release -/

/-- The row is what the catalogue of the release has for one of the items. -/
def Release.Builds (release : Release) (items : List TaskItem) (row : RepoRow) : Prop :=
  ∃ item ∈ items, ∃ built, manifestRow release.env release.legacy release.catalogue item =
    some built ∧ row = { built with added := false }

/-- The origins are those of the digests, and each item has a row that records its
checksum or comes from the catalogue. -/
def RepoTable.Holds (table : RepoTable) (release : Release) : Prop :=
  ∃ items, digestItems release.env release.lines = some items ∧
    (∀ origin, origin ∈ table.origins ↔ origin ∈ items.map TaskItem.origin) ∧
    ∀ item ∈ items, ∃ row ∈ table.rows, row.origin = item.origin ∧
      (item.checksum.isSome = true ∧ row.cksum = item.checksum ∨ release.Builds items row)

/-- The database is there, without the marker, and its rows are those of the update
that was committed into it. -/
def RepoDisk.Completed (disk : RepoDisk) : Prop :=
  ∃ db release, disk.db = some db ∧ db.repoUpdate = false ∧ db.release = some release ∧
    db.packages.Holds release

/-- What a run may return `EPKG_OK` or `EPKG_UPTODATE` with. -/
def RepoState.Repaired (state : RepoState) : Prop :=
  state.pc = .returned .ok ∨ state.pc = .returned .uptodate → state.disk.Completed

/-! ## The condition -/

/-- No update of the database is left unfinished: it has no marker, and an update was
committed into it. -/
def RepoDisk.Settled (disk : RepoDisk) : Prop :=
  ∃ db, disk.db = some db ∧ db.repoUpdate = false ∧ db.release.isSome = true

/-- Where the update of the rows goes through, no row to be added takes the manifest
digest of the last row of another origin, and nothing has to be added from a catalogue
that is empty or too large. -/
def RowsSafe (env : UpdateEnv) (files : UpdateFiles) (table : RepoTable) : Prop :=
  ∀ items, digestItems env files.lines = some items →
    GoesThrough env files.legacy files.lines files.catalogue table →
      if files.catalogue.Usable then
        LastOfKeyStays RepoRow.origin RepoRow.Clashes
          (table.kept items ++ newRows env files.legacy files.catalogue (updateTasks table items))
      else ∀ item ∈ items, table.Unchanged item

/-- A step that does not go wrong: the server has a newer copy than the time sent where
the database is not settled, the marker is dropped, and the rows are safe to update.
A repository is disabled on a settled database only. -/
def RepairStep (state : RepoState) : RepoEvent → Prop
  | .update enabled _ => enabled = true ∨ state.disk.Settled
  | .kill => True
  | .exec answer =>
      match state.pc with
      | .fetchDigests vars =>
          ∀ file, answer.digests = some file → file.NotModified vars.t → state.disk.Settled
      | .fetchManifests vars _ _ =>
          ∀ file, answer.manifests = some file → file.NotModified vars.t → state.disk.Settled
      | .rows _ files => ∀ db, state.disk.db = some db → RowsSafe answer.env files db.packages
      | .updateFinish _ => answer.succeeds = true
      | _ => True

/-! ## The rows after an update -/

section Rows

variable {env : UpdateEnv} {legacy : Bool} {lines : List Text} {catalogue : Catalogue}
  {items : List TaskItem} {table after : RepoTable}

theorem settled_origins (table : RepoTable) : table.settled.origins = table.origins := by
  simp [RepoTable.settled, RepoTable.origins, Function.comp_def]

theorem mem_settled {row : RepoRow} :
    row ∈ table.settled.rows ↔ ∃ old ∈ table.rows, { old with added := false } = row :=
  List.mem_map

theorem settled_fresh (table : RepoTable) : ∀ row ∈ table.settled.rows, row.added = false := by
  intro row member
  obtain ⟨old, _, rfl⟩ := mem_settled.mp member
  rfl

theorem RepoTable.ext_rows {other : RepoTable} (rows : table.rows = other.rows) :
    table = other := by
  cases table
  cases other
  cases rows
  rfl

theorem settled_of_fresh (fresh : ∀ row ∈ table.rows, row.added = false) :
    table.settled = table := by
  apply RepoTable.ext_rows
  rw [RepoTable.settled]
  conv_rhs => rw [← List.map_id table.rows]
  apply List.map_congr_left
  intro row member
  rw [← fresh row member]
  rfl

theorem eq_of_origin {row other : RepoRow} (member : row ∈ table.rows)
    (otherMember : other ∈ table.rows) (same : row.origin = other.origin) : row = other :=
  List.inj_on_of_nodup_map table.origins_nodup member otherMember same

/-- After an update there are kept and new rows only. -/
theorem mem_kept_or_new {row : RepoRow}
    (member : row ∈ ((updateTasks table items).added env legacy catalogue table).rows) :
    row ∈ table.kept items ∨ row ∈ newRows env legacy catalogue (updateTasks table items) := by
  by_cases usable : catalogue.Usable
  · exact List.mem_append.mp ((mem_added_iff usable row).mp member).mem
  · rw [added_rows_of_unusable usable] at member
    exact Or.inl member

theorem updatedExactly_of_safe (fresh : ∀ row ∈ table.rows, row.added = false)
    (safe : RowsSafe env { lines, catalogue, legacy } table)
    (read : digestItems env lines = some items)
    (goes : GoesThrough env legacy lines catalogue table) :
    UpdatedExactly env legacy catalogue items table
      ((updateTasks table items).added env legacy catalogue table) := by
  have condition := safe items read goes
  obtain ⟨_, listed, sameItems, commits⟩ := goes
  rw [read] at sameItems
  cases sameItems
  by_cases usable : catalogue.Usable
  · rw [if_pos usable] at condition
    exact (updatedExactly_iff_of_usable commits usable fun _ member => member).mpr condition
  · rw [if_neg usable] at condition
    exact (updatedExactly_iff_of_unusable usable (Or.inl rfl) fresh).mpr condition

/-- A safe update leaves the rows of its release. -/
theorem holds_of_updateRows (fresh : ∀ row ∈ table.rows, row.added = false)
    (safe : RowsSafe env { lines, catalogue, legacy } table)
    (run : updateRows env legacy lines catalogue table = (.ok, after)) :
    after.settled.Holds { env, legacy, lines, catalogue } := by
  obtain ⟨through, stuck⟩ := @updateRows_spec env table legacy lines catalogue
  by_cases goes : GoesThrough env legacy lines catalogue table
  · obtain ⟨_, items, read, commits⟩ := id goes
    have exactly := updatedExactly_of_safe fresh safe read goes
    have result := through items read goes
    rw [run] at result
    cases result
    refine ⟨items, read, ?_, ?_⟩
    · rw [settled_origins]
      exact exactly.origins
    · intro item member
      by_cases unchanged : table.Unchanged item
      · have listed := (exactly.origins item.origin).mpr (List.mem_map_of_mem member)
        obtain ⟨row, inAfter, origin⟩ := List.mem_map.mp listed
        refine ⟨{ row with added := false }, mem_settled.mpr ⟨row, inAfter, rfl⟩, origin, ?_⟩
        rcases mem_kept_or_new inAfter with kept | new
        · obtain ⟨old, inTable, oldOrigin, recorded⟩ := unchanged
          have inRows := (RepoTable.mem_kept.mp kept).1
          cases eq_of_origin inRows inTable (origin.trans oldOrigin.symm)
          exact Or.inl recorded
        · obtain ⟨_, other, toAdd, _, parsed⟩ := mem_newRows new
          exact Or.inr ⟨other, (updateTasks_spec table items).2.1 other toAdd, row, parsed, rfl⟩
      · obtain ⟨row, inAfter, origin, _, other, listed, parsed⟩ :=
          exactly.readded item member unchanged
        exact ⟨{ row with added := false }, mem_settled.mpr ⟨row, inAfter, rfl⟩, origin,
          Or.inr ⟨other, listed, row, parsed, rfl⟩⟩
  · exact absurd (congrArg Prod.fst run) (stuck goes).1

theorem updateRows_failed (failed : (updateRows env legacy lines catalogue table).1 ≠ .ok) :
    (updateRows env legacy lines catalogue table).2 = table := by
  obtain ⟨through, stuck⟩ := @updateRows_spec env table legacy lines catalogue
  apply (stuck _).2
  intro goes
  obtain ⟨_, items, read, _⟩ := id goes
  exact failed (by rw [through items read goes])

/-! ### The codes of an update -/

theorem foldl_codes {α : Type} {f : RepoRc × Connection RepoTable → α →
      RepoRc × Connection RepoTable}
    (codes : ∀ state x, state.1 ≠ .uptodate → (f state x).1 ≠ .uptodate) (xs : List α)
    {state : RepoRc × Connection RepoTable} (code : state.1 ≠ .uptodate) :
    (xs.foldl f state).1 ≠ .uptodate := by
  induction xs generalizing state with
  | nil => exact code
  | cons x xs ih => exact ih (codes state x code)

theorem removeTask_code (state : RepoRc × Connection RepoTable) (task : TaskItem × Nat)
    (code : state.1 ≠ .uptodate) : (removeTask env state task).1 ≠ .uptodate := by
  unfold removeTask
  split
  · split <;> nofun
  · exact code

theorem addTask_code (state : RepoRc × Connection RepoTable) (task : TaskItem × Nat)
    (code : state.1 ≠ .uptodate) :
    (addTask env legacy catalogue state task).1 ≠ .uptodate := by
  unfold addTask
  split
  · split
    · nofun
    · unfold pkgRepoBinaryAddPkg
      split
      · nofun
      · split <;> nofun
      · dsimp only
        split <;> nofun
  · exact code

theorem finishTransaction_code (state : RepoRc × Connection RepoTable)
    (code : state.1 ≠ .uptodate) : (finishTransaction env state).1 ≠ .uptodate := by
  unfold finishTransaction
  dsimp only
  split
  · split
    · exact code
    · nofun
  · nofun

/-- The update of the rows never says that they are up to date. -/
theorem updateRows_code : (updateRows env legacy lines catalogue table).1 ≠ .uptodate := by
  unfold updateRows
  split
  · split
    · nofun
    · unfold updateTransaction
      split
      · have removed := @foldl_codes _ (removeTask env) removeTask_code
        dsimp only
        split
        · apply finishTransaction_code
          apply foldl_codes addTask_code
          exact removed _ nofun
        · apply finishTransaction_code
          exact removed _ nofun
      · nofun
  · nofun

end Rows

/-! ## The invariant -/

/-- The rows are settled, and are those of the release that was committed. -/
structure RepoDb.Good (db : RepoDb) : Prop where
  fresh : ∀ row ∈ db.packages.rows, row.added = false
  holds : ∀ release, db.release = some release → db.packages.Holds release

def RepoDisk.Good (disk : RepoDisk) : Prop := ∀ db, disk.db = some db → db.Good

/-- What the place a run has reached says about the database. -/
def UpdatePc.Expects (disk : RepoDisk) : UpdatePc → Prop
  | .updateFinish _ => ∃ db, disk.db = some db ∧ db.release.isSome = true
  | .utimes _ => disk.Settled
  | .utimesMeta _ => disk.Settled
  | .returned .ok => disk.Settled
  | .returned .uptodate => disk.Settled
  | _ => True

structure RepairInv (state : RepoState) : Prop where
  good : state.disk.Good
  expects : state.pc.Expects state.disk

section Invariant

variable {disk : RepoDisk} {state next : RepoState} {answer : UpdateAnswer}

theorem RepoDisk.Good.of_db (good : disk.Good) {other : RepoDisk}
    (db : other.db = disk.db ∨ other.db = none) : other.Good := by
  intro found here
  rcases db with same | nothing
  · exact good found (same ▸ here)
  · rw [nothing] at here
    cases here

theorem RepoDisk.Good.withDb (good : disk.Good) {change : RepoDb → RepoDb}
    (packages : ∀ db, (change db).packages = db.packages)
    (release : ∀ db, (change db).release = db.release) : (disk.withDb change).Good := by
  intro found here
  obtain ⟨db, before, rfl⟩ := Option.map_eq_some_iff.mp here
  obtain ⟨fresh, holds⟩ := good db before
  constructor
  · rwa [packages]
  · rwa [packages, release]

theorem RepoDisk.Good.created (clock : Nat) :
    RepoDisk.Good { disk with db := some { mtime := clock } } := by
  intro found here
  cases here
  constructor
  · intro row inRows
    cases inRows
  · intro release recorded
    cases recorded

theorem pkgRepoBinaryOpen_db (result : OpenResult) (disk : RepoDisk) :
    (pkgRepoBinaryOpen result disk).2.db = disk.db ∨
      (pkgRepoBinaryOpen result disk).2.db = none := by
  unfold pkgRepoBinaryOpen
  split
  · exact Or.inl rfl
  · split
    · exact Or.inl rfl
    · split
      · cases result
        · exact Or.inl rfl
        · exact Or.inl rfl
        · exact Or.inr rfl
      · exact Or.inl rfl

theorem RepoDisk.Good.opened (good : disk.Good) (result : OpenResult) :
    (pkgRepoBinaryOpen result disk).2.Good :=
  good.of_db (pkgRepoBinaryOpen_db result disk)

theorem RepoDisk.Settled.withDb (settled : disk.Settled) {change : RepoDb → RepoDb}
    (marker : ∀ db, (change db).repoUpdate = db.repoUpdate)
    (release : ∀ db, (change db).release = db.release) : (disk.withDb change).Settled := by
  obtain ⟨db, here, unmarked, committed⟩ := settled
  refine ⟨change db, ?_, ?_, ?_⟩
  · rw [RepoDisk.withDb, here]
    rfl
  · rwa [marker]
  · rwa [release]

theorem RepoDisk.Settled.completed (settled : disk.Settled) (good : disk.Good) :
    disk.Completed := by
  obtain ⟨db, here, unmarked, committed⟩ := settled
  obtain ⟨release, committed⟩ := Option.isSome_iff_exists.mp committed
  exact ⟨db, release, here, unmarked, committed, (good db here).holds release committed⟩

theorem fetch_uptodate {α : Type} {t : Nat} {file : Option (ServerFile α)}
    (fetched : pkgRepoFetchRemoteExtractTmp t file = .uptodate) :
    ∃ copy, file = some copy ∧ copy.NotModified t := by
  cases file with
  | none => cases fetched
  | some copy =>
      refine ⟨copy, rfl, ?_⟩
      by_contra newer
      simp only [pkgRepoFetchRemoteExtractTmp, if_neg newer] at fetched
      split at fetched <;> cases fetched

theorem RepairInv.goto (inv : RepairInv state) {pc : UpdatePc}
    (expects : pc.Expects state.disk) : RepairInv (state.goto pc) :=
  ⟨inv.good, expects⟩

theorem RepairInv.rows (inv : RepairInv state) {vars : UpdateVars} {files : UpdateFiles}
    (here : state.pc = .rows vars files) (repairs : RepairStep state (.exec answer))
    (run : state.exec answer = some next) : RepairInv next := by
  simp only [RepoState.exec, here] at run
  split at run
  · cases run
  · next db found =>
      have safe : RowsSafe answer.env files db.packages := by
        simp only [RepairStep, here] at repairs
        exact repairs db found
      obtain ⟨fresh, holds⟩ := inv.good db found
      obtain ⟨lines, catalogue, legacy⟩ := files
      cases rows : updateRows answer.env legacy lines catalogue db.packages with
      | mk rc packages =>
          simp only [rows, Option.some.injEq] at run
          subst run
          by_cases code : rc = .ok
          · subst code
            constructor
            · intro changed same
              simp only [RepoDisk.withDb, found, Option.map_some, Option.some.injEq] at same
              subst same
              refine ⟨settled_fresh packages, ?_⟩
              intro release committed
              cases committed
              exact holds_of_updateRows fresh safe rows
            · simp [UpdatePc.Expects, RepoDisk.withDb, found]
          · have unchanged := @updateRows_failed answer.env legacy lines catalogue db.packages
            have other := @updateRows_code answer.env legacy lines catalogue db.packages
            rw [rows] at unchanged other
            have same := unchanged code
            dsimp only at same
            subst same
            constructor
            · intro changed same
              simp only [RepoDisk.withDb, found, Option.map_some, Option.some.injEq] at same
              subst same
              rw [if_neg code, settled_of_fresh fresh]
              exact ⟨fresh, holds⟩
            · rw [if_neg code]
              cases rc with
              | ok => exact absurd rfl code
              | uptodate => exact absurd rfl other
              | fatal => trivial
              | finished => trivial

/-- A step of a run. -/
theorem RepairInv.exec (inv : RepairInv state) (repairs : RepairStep state (.exec answer))
    (run : state.exec answer = some next) : RepairInv next := by
  cases here : state.pc with
  | idle => simp [RepoState.exec, here] at run
  | returned rc => simp [RepoState.exec, here] at run
  | rows vars files => exact inv.rows here repairs run
  | verify force =>
      simp only [RepoState.exec, here] at run
      split at run <;> cases run <;> exact ⟨inv.good.opened answer.opened, trivial⟩
  | stat force =>
      simp only [RepoState.exec, here] at run
      cases run
      exact inv.goto trivial
  | fetchMeta vars =>
      simp only [RepoState.exec, here] at run
      cases run
      exact ⟨inv.good.of_db (Or.inl rfl), trivial⟩
  | fetchDigests vars =>
      simp only [RepoState.exec, here] at run
      simp only [RepairStep, here] at repairs
      split at run
      · next fetched =>
          cases run
          obtain ⟨copy, answered, notModified⟩ := fetch_uptodate fetched
          exact inv.goto (repairs copy answered notModified)
      · cases run
        exact inv.goto trivial
      · cases run
        exact inv.goto trivial
  | fetchManifests vars digestT lines =>
      simp only [RepoState.exec, here] at run
      simp only [RepairStep, here] at repairs
      split at run
      · next fetched =>
          cases run
          obtain ⟨copy, answered, notModified⟩ := fetch_uptodate fetched
          exact inv.goto (repairs copy answered notModified)
      · cases run
        exact inv.goto trivial
      · split at run
        · cases run
          exact inv.goto trivial
        · cases run
          unfold RepoState.initUpdate
          split <;> exact inv.goto trivial
  | initOpen vars files =>
      simp only [RepoState.exec, here] at run
      split at run <;> cases run <;> exact ⟨inv.good.opened answer.opened, trivial⟩
  | initUnlink vars files =>
      simp only [RepoState.exec, here] at run
      cases run
      refine ⟨?_, trivial⟩
      dsimp only
      split
      · exact inv.good.of_db (Or.inr rfl)
      · exact inv.good
  | create vars files =>
      simp only [RepoState.exec, here] at run
      split at run
      · cases run
        exact inv.goto trivial
      · split at run
        · cases run
          exact ⟨RepoDisk.Good.created answer.clock, trivial⟩
        · cases run
          exact inv.goto trivial
  | register vars files =>
      simp only [RepoState.exec, here] at run
      split at run
      · cases run
        exact ⟨inv.good.withDb (fun _ => rfl) (fun _ => rfl), trivial⟩
      · cases run
        exact inv.goto trivial
  | reopen vars files =>
      simp only [RepoState.exec, here] at run
      split at run <;> cases run <;> exact ⟨inv.good.opened answer.opened, trivial⟩
  | updateCheck vars files =>
      simp only [RepoState.exec, here] at run
      split at run
      · cases run
        exact ⟨inv.good.withDb (fun _ => rfl) (fun _ => rfl), trivial⟩
      · cases run
        exact inv.goto trivial
  | updateStart vars files =>
      simp only [RepoState.exec, here] at run
      cases run
      refine ⟨?_, trivial⟩
      dsimp only
      split
      · exact inv.good.withDb (fun _ => rfl) (fun _ => rfl)
      · exact inv.good
  | updateFinish vars =>
      simp only [RepoState.exec, here] at run
      simp only [RepairStep, here] at repairs
      rw [if_pos repairs] at run
      have expects := inv.expects
      rw [here] at expects
      obtain ⟨db, found, committed⟩ := expects
      have settled : (state.disk.withDb fun db =>
          { db with repoUpdate := false, mtime := answer.clock }).Settled := by
        refine ⟨{ db with repoUpdate := false, mtime := answer.clock }, ?_, rfl, committed⟩
        rw [RepoDisk.withDb, found]
        rfl
      cases run
      refine ⟨inv.good.withDb (fun _ => rfl) (fun _ => rfl), ?_⟩
      dsimp only
      split <;> exact settled
  | utimes vars =>
      simp only [RepoState.exec, here] at run
      have expects := inv.expects
      rw [here] at expects
      cases run
      by_cases succeeds : answer.succeeds = true
      · rw [if_pos succeeds]
        have settled : (state.disk.withDb fun db => { db with mtime := vars.t }).Settled :=
          RepoDisk.Settled.withDb expects (fun _ => rfl) (fun _ => rfl)
        refine ⟨inv.good.withDb (fun _ => rfl) (fun _ => rfl), ?_⟩
        dsimp only
        split <;> exact settled
      · rw [if_neg succeeds]
        refine ⟨inv.good, ?_⟩
        dsimp only
        split <;> exact expects
  | utimesMeta vars =>
      simp only [RepoState.exec, here] at run
      have expects := inv.expects
      rw [here] at expects
      cases run
      constructor
      · dsimp only
        split
        · exact inv.good.of_db (Or.inl rfl)
        · exact inv.good
      · dsimp only
        split
        · exact expects
        · exact expects

theorem RepairInv.step {event : RepoEvent} (inv : RepairInv state)
    (repairs : RepairStep state event) (run : repoStep state event = some next) :
    RepairInv next := by
  cases event with
  | exec answer => exact inv.exec repairs run
  | kill =>
      simp only [repoStep] at run
      split at run <;> cases run
      exact inv.goto trivial
  | update enabled force =>
      simp only [repoStep] at run
      split at run
      · split at run
        · cases run
          exact inv.goto trivial
        · next disabled =>
            cases run
            apply inv.goto
            rcases repairs with enabled | settled
            · exact absurd enabled disabled
            · exact settled
      · cases run

theorem RepairInv.initial : RepairInv {} := by
  refine ⟨fun db found => ?_, trivial⟩
  cases found

theorem RepairInv.repaired (inv : RepairInv state) : state.Repaired := by
  have expects := inv.expects
  intro returned
  apply RepoDisk.Settled.completed _ inv.good
  rcases returned with here | here
  · rwa [here] at expects
  · rwa [here] at expects

end Invariant

/-! ## Runs -/

/-- In every state of a careful run, what has returned without an error has left a
completed database. -/
theorem carefulUpdates_repaired (events : List RepoEvent) (final : RepoState)
    (run : runEvents repoStep {} events = some final)
    (careful : MeetsAlong repoStep RepairStep {} events) : final.Repaired := by
  apply RepairInv.repaired
  apply runEvents_invariant _ run careful RepairInv.initial
  intro state event next inv repairs step
  exact inv.step repairs step

/-- The files of a repository with one package. -/
def sampleFiles : UpdateFiles where
  lines := ["a/b:d:0:0:1:c\n".toList]
  catalogue :=
    { size := 1
      manifestAt := fun _ _ => some { origin := some "a/b".toList, arch := some [], cksum := none } }
  legacy := false

/-- Copies from the time 100, met at another time. -/
def sampleAnswer (clock : Nat) (metaFetch : MetaFetch) : UpdateAnswer where
  env := sampleEnv 1
  clock
  metaFetch
  digests := some { mtime := 100, content := some sampleFiles.lines }
  manifests := some { mtime := 100, content := some sampleFiles.catalogue }

def firstUpdate (steps : Nat) : List RepoEvent :=
  .update true false :: List.replicate steps (.exec (sampleAnswer 200 (.extracted true)))

def secondUpdate : List RepoEvent :=
  .update true false :: List.replicate 4 (.exec (sampleAnswer 300 .kept))

theorem sampleRows_safe : RowsSafe (sampleEnv 1) sampleFiles RepoTable.empty := by
  intro items read _
  have items_eq : digestItems (sampleEnv 1) sampleFiles.lines = some
      [{ origin := "a/b".toList, digest := "d".toList, checksum := some "c".toList }] := by
    decide
  rw [items_eq] at read
  cases read
  rw [if_pos (by decide)]
  exact lastOfKeyStays_of_pairwise (by decide)

/-- The second update finds the first one finished, and the server without news. -/
theorem finishedUpdate_repaired :
    ∃ final, runEvents repoStep {} (firstUpdate 13 ++ secondUpdate) = some final ∧
      final.pc = .returned .uptodate ∧ final.disk.Completed := by
  obtain ⟨final, run, returned⟩ : ∃ final,
      runEvents repoStep {} (firstUpdate 13 ++ secondUpdate) = some final ∧
        final.pc = .returned .uptodate := ⟨_, rfl, rfl⟩
  refine ⟨final, run, returned, carefulUpdates_repaired _ final run ?_ (Or.inr returned)⟩
  -- The first run sends no time.
  refine meetsAlong_cons (Or.inl rfl) rfl ?_
  iterate 2 refine meetsAlong_cons trivial rfl ?_
  iterate 2 refine meetsAlong_cons (fun _ _ sent => absurd rfl sent.1) rfl ?_
  iterate 6 refine meetsAlong_cons trivial rfl ?_
  have rows : ∀ db : RepoDb, some { registered := true, repoUpdate := true, mtime := 200 } =
      some db → RowsSafe (sampleEnv 1) sampleFiles db.packages := by
    intro db found
    cases found
    exact sampleRows_safe
  refine meetsAlong_cons rows rfl ?_
  refine meetsAlong_cons rfl rfl ?_
  refine meetsAlong_cons trivial rfl ?_
  -- The second one sends the time of `.meta`, with the database settled.
  refine meetsAlong_cons (Or.inl rfl) rfl ?_
  iterate 3 refine meetsAlong_cons trivial rfl ?_
  refine meetsAlong_cons (fun _ _ _ => ⟨_, rfl, rfl, rfl⟩) rfl ?_
  exact trivial

/-- An update killed before it commits its rows leaves an empty database, and the time
of the fresh `.meta` makes the next one take it for up to date. -/
theorem killedUpdate_not_repaired :
    ¬∀ (events : List RepoEvent) (final : RepoState),
      runEvents repoStep {} events = some final → final.Repaired := by
  intro claim
  obtain ⟨final, run, returned, marked⟩ : ∃ final,
      runEvents repoStep {} (firstUpdate 10 ++ .kill :: secondUpdate) = some final ∧
        final.pc = .returned .uptodate ∧ final.disk.db.map RepoDb.repoUpdate = some true :=
    ⟨_, rfl, rfl, rfl⟩
  obtain ⟨db, release, here, unmarked, _⟩ := claim _ final run (Or.inr returned)
  rw [here, Option.map_some, unmarked] at marked
  cases marked

end Pkgng
