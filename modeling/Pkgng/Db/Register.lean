import Pkgng.Lib.Fallible
import Pkgng.Lib.Savepoint
import Pkgng.Package

/-!
# Registering a package

`pkgdb_register_pkg` opens a transaction and runs its statements, `pkg_add_common` calls
`pkgdb_register_finale` at the label `cleanup_reg`.  What SQLite answers is a parameter; the
answers are noted in the order in which they come.
-/

set_option autoImplicit false

namespace Pkgng

open Lib

/-! ## Statements -/

/-- The arguments of the statement `PKG`. -/
structure PkgColumns where
  origin : String
  name : String
  version : String
  comment : Option String
  desc : Option String
  message : Option String
  arch : Option String
  maintainer : Option String
  www : Option String
  pkgPrefix : Option String
  flatsize : Int
  automatic : Bool
  licenselogic : Int
  mtree : Option String
  digest : Option String
deriving DecidableEq, Repr

/-- `sql_prstmt_index` with the arguments that are bound. -/
inductive PrStmt
  | mtree (content : Option String)
  | pkg (row : PkgColumns)
  | ftsAppend (id : Int) (name version origin : String)
  | depsUpdate (name version origin : String)
  | deps (origin name version : String) (packageId : Int)
  | files (path : String) (sum : Option String) (packageId : Int)
  | filesReplace (path : String) (sum : Option String) (packageId : Int)
  | dirs1 (path : String)
  | dirs2 (packageId : Int) (path : String) (try_ : Bool)
  | category1 (name : String)
  | category2 (packageId : Int) (name : String)
  | licenses1 (name : String)
  | licenses2 (packageId : Int) (name : String)
  | users1 (name : String)
  | users2 (packageId : Int) (name : String)
  | groups1 (name : String)
  | groups2 (packageId : Int) (name : String)
  | script1 (script : String)
  | script2 (script : String) (packageId : Int) (type : Nat)
  | option1 (opt : String)
  | option2 (packageId : Int) (opt value : String)
  | shlibs1 (name : String)
  | shlibsReqd (packageId : Int) (name : String)
  | shlibsProv (packageId : Int) (name : String)
  | annotate1 (text : String)
  | annotate2 (packageId : Int) (tag value : String)
  | conflict (packageId : Int) (uniqueid : String)
  | provide (name : String)
  | pkgProvide (packageId : Int) (name : String)
deriving DecidableEq, Repr

/-- The statements with the conflict clause `OR ROLLBACK`. -/
def PrStmt.orRollback : PrStmt → Bool
  | .ftsAppend .. => true
  | .annotate2 .. => true
  | _ => false

/-- What `sqlite3_step` returns; some errors end the transaction. -/
inductive SqliteCode
  | done
  | constraint
  | error (rolledBack : Bool)
deriving DecidableEq, Repr

/-- What the query for the owner of a path gives. -/
inductive WhichCode
  | found
  | stray
  | error (rolledBack : Bool)
deriving DecidableEq, Repr

/-- An answer of SQLite. -/
inductive SqlEvent
  | begin (ok : Bool)
  | ran (stmt : PrStmt) (code : SqliteCode)
  | which (path : String) (code : WhichCode)
deriving DecidableEq, Repr

/-- The statement is undone together with the transaction. -/
def rollsBack (stmt : PrStmt) : SqliteCode → Bool
  | .done => false
  | .constraint => stmt.orRollback
  | .error rolledBack => rolledBack

/-- No transaction is open behind the answer. -/
def SqlEvent.endsTransaction : SqlEvent → Bool
  | .begin ok => !ok
  | .ran stmt code => rollsBack stmt code
  | .which _ (.error rolledBack) => rolledBack
  | .which _ _ => false

/-- SQLite under the handle: what it answers to the `n`th call, and the tables that a
statement leaves. -/
structure Sqlite (σ : Type) where
  begins : Nat → σ → Bool
  step : Nat → PrStmt → σ → SqliteCode × σ
  which : Nat → String → σ → WhichCode
  commits : Nat → σ → Bool
  lastInsertRowid : σ → Int

/-- `struct pkgdb`, with the answers that have come on the handle, the latest first. -/
structure PkgdbHandle (σ : Type) where
  conn : Connection σ
  log : List SqlEvent := []

/-! ## The transaction -/

section Statements

variable {σ : Type} (sql : Sqlite σ)

/-- `pkgdb_transaction_begin`; there is no transaction within a transaction. -/
def pkgdbTransactionBegin : Fallible (PkgdbHandle σ) Unit := do
  let h ← get
  if h.conn.savepoint.isNone && sql.begins h.log.length h.conn.now then
    set { h with conn := h.conn.begin, log := .begin true :: h.log }
  else
    set { h with log := .begin false :: h.log }
    throw ()

/-- What is left of the connection. -/
def afterStep (conn : Connection σ) (stmt : PrStmt) (answer : SqliteCode × σ) : Connection σ :=
  if answer.1 = .done then conn.write answer.2
  else if rollsBack stmt answer.1 then conn.abort
  else conn

def runPrstmt (stmt : PrStmt) : Fallible (PkgdbHandle σ) SqliteCode := do
  let h ← get
  let answer := sql.step h.log.length stmt h.conn.now
  set { h with conn := afterStep h.conn stmt answer, log := .ran stmt answer.1 :: h.log }
  pure answer.1

/-- A statement that goes to `cleanup` unless it is done. -/
def mustRun (stmt : PrStmt) : Fallible (PkgdbHandle σ) Unit := do
  let code ← runPrstmt sql stmt
  if code = .done then pure () else throw ()

def afterWhich (conn : Connection σ) (code : WhichCode) : Connection σ :=
  if code = WhichCode.error true then conn.abort else conn

/-- `pkgdb_query_which` and the first `pkgdb_it_next`. -/
def pkgdbQueryWhich (path : String) : Fallible (PkgdbHandle σ) WhichCode := do
  let h ← get
  let code := sql.which h.log.length path h.conn.now
  set { h with conn := afterWhich h.conn code, log := .which path code :: h.log }
  pure code

/-! ## The package -/

/-- What `pkgdb_register_pkg` reads of a package; a dependency has an origin, a name and a
version, an annotation and an option a key and a value. -/
structure RegisteredPkg where
  row : PkgColumns
  deps : List (String × String × String) := []
  files : List (String × Option String) := []
  dirs : List (String × Bool) := []
  categories : List String := []
  licenses : List String := []
  users : List String := []
  groups : List String := []
  /-- The scripts by their number, as far as there are some. -/
  scripts : List (Nat × String) := []
  options : List (String × String) := []
  shlibsRequired : List String := []
  shlibsProvided : List String := []
  annotations : List (String × String) := []
  conflicts : List String := []
  provides : List String := []

/-- The configuration that is read on the way. -/
structure RegisterConfig where
  developerMode : Bool := false
  permissive : Bool := false

/-- One file; a constraint may be met in several ways. -/
def registerFile (config : RegisterConfig) (forced : Bool) (packageId : Int)
    (file : String × Option String) : Fallible (PkgdbHandle σ) Unit := do
  let ret ← runPrstmt sql (.files file.1 file.2 packageId)
  match ret with
  | .done => pure ()
  | .error _ => throw ()
  | .constraint =>
      let owner ← pkgdbQueryWhich sql file.1
      match owner with
      | .error _ => throw ()
      -- A stray entry in the table is overwritten.
      | .stray => mustRun sql (.filesReplace file.1 file.2 packageId)
      | .found =>
          if forced then pure ()
          else if !config.developerMode && config.permissive then pure ()
          else throw ()

/-- `pkgdb_register_pkg` of a valid package. -/
def pkgdbRegisterPkg (config : RegisterConfig) (pkg : RegisteredPkg) (complete forced : Bool) :
    Fallible (PkgdbHandle σ) Unit := do
  let row := pkg.row
  if complete then pure () else pkgdbTransactionBegin sql
  mustRun sql (.mtree row.mtree)
  mustRun sql (.pkg row)
  let packageId := sql.lastInsertRowid (← get).conn.now
  mustRun sql (.ftsAppend packageId row.name row.version row.origin)
  mustRun sql (.depsUpdate row.name row.version row.origin)
  pkg.deps.forM fun (origin, name, version) => mustRun sql (.deps origin name version packageId)
  pkg.files.forM (registerFile sql config forced packageId)
  pkg.dirs.forM fun (path, try_) => do
    mustRun sql (.dirs1 path)
    mustRun sql (.dirs2 packageId path try_)
  pkg.categories.forM fun name => do
    mustRun sql (.category1 name)
    mustRun sql (.category2 packageId name)
  pkg.licenses.forM fun name => do
    mustRun sql (.licenses1 name)
    mustRun sql (.licenses2 packageId name)
  pkg.users.forM fun name => do
    mustRun sql (.users1 name)
    mustRun sql (.users2 packageId name)
  pkg.groups.forM fun name => do
    mustRun sql (.groups1 name)
    mustRun sql (.groups2 packageId name)
  -- `pkgdb_insert_scripts`
  pkg.scripts.forM fun (type, script) => do
    mustRun sql (.script1 script)
    mustRun sql (.script2 script packageId type)
  pkg.options.forM fun (opt, value) => do
    mustRun sql (.option1 opt)
    mustRun sql (.option2 packageId opt value)
  -- `pkgdb_update_shlibs_required`, `pkgdb_update_shlibs_provided`
  pkg.shlibsRequired.forM fun name => do
    mustRun sql (.shlibs1 name)
    mustRun sql (.shlibsReqd packageId name)
  pkg.shlibsProvided.forM fun name => do
    mustRun sql (.shlibs1 name)
    mustRun sql (.shlibsProv packageId name)
  -- `pkgdb_insert_annotations`
  pkg.annotations.forM fun (key, value) => do
    mustRun sql (.annotate1 key)
    mustRun sql (.annotate1 value)
    mustRun sql (.annotate2 packageId key value)
  pkg.conflicts.forM fun uniqueid => mustRun sql (.conflict packageId uniqueid)
  -- `pkgdb_update_provides`
  pkg.provides.forM fun name => do
    mustRun sql (.provide name)
    mustRun sql (.pkgProvide packageId name)

/-! ## Adding -/

/-- `pkgdb_register_finale`; a rollback without a transaction does nothing. -/
def pkgdbRegisterFinale (retcode : Epkg) (h : PkgdbHandle σ) : PkgdbHandle σ :=
  if retcode = .ok then
    match h.conn.release with
    | some conn => if sql.commits h.log.length h.conn.now then { h with conn := conn } else h
    | none => h
  else if h.conn.savepoint.isSome then { h with conn := h.conn.abort }
  else h

/-- What else happens in `pkg_add_common`. -/
structure AddEnv where
  /-- `pkg_open2`. -/
  opened : Epkg := .ok
  /-- `pkg_open2` has not returned `EPKG_END`. -/
  hasFiles : Bool := true
  valid : Bool := true
  /-- `pkg_add_check_pkg_archive`. -/
  checked : Epkg := .ok
  disableMtree : Bool := false
  extractMtree : Epkg := .ok
  extract : Epkg := .ok
  config : RegisterConfig := {}

/-- The flags of `pkg_add` that matter here. -/
structure AddFlags where
  upgrade : Bool := false
  force : Bool := false

/-- `pkg_add`, which calls `pkg_add_common` without an old package. -/
def pkgAdd (env : AddEnv) (pkg : RegisteredPkg) (flags : AddFlags) (h : PkgdbHandle σ) :
    Epkg × PkgdbHandle σ :=
  if env.opened ≠ .ok then (env.opened, h)
  else if env.valid = false then (.fatal, h)
  else if env.checked ≠ .ok then (env.checked, h)
  else
    match pkgdbRegisterPkg sql env.config pkg flags.upgrade flags.force h with
    -- `goto cleanup` goes past `pkgdb_register_finale`.
    | .error _ h => (.fatal, h)
    | .ok _ h =>
        let retcode :=
          if env.disableMtree = false ∧ env.extractMtree ≠ .ok then env.extractMtree
          else if env.hasFiles then env.extract
          else .ok
        (retcode, if flags.upgrade then h else pkgdbRegisterFinale sql retcode h)

end Statements

/-! ## What a statement leaves -/

section Registering

variable {σ : Type} {sql : Sqlite σ}

/-- The transaction that was begun over `old` is open. -/
def Registering (old : σ) (h : PkgdbHandle σ) : Prop :=
  h.conn.committed = old ∧ h.conn.savepoint = some old

/-- Behind a failure the last answer decides whether the transaction is still open. -/
def GivenUp (old : σ) (h : PkgdbHandle σ) : Prop :=
  ∃ event earlier, h.log = event :: earlier ∧
    if event.endsTransaction then h.conn = .connect old else Registering old h

/-- A step of the registration. -/
def KeepsRegistering {α : Type} (step : Fallible (PkgdbHandle σ) α) : Prop :=
  ∀ old, Keeps (Registering old) (GivenUp old) step

theorem abort_registering {old : σ} {h : PkgdbHandle σ} (registering : Registering old h) :
    h.conn.abort = .connect old := by
  rw [Connection.abort, Connection.connect, registering.1]

theorem runPrstmt_eq (stmt : PrStmt) (h : PkgdbHandle σ) :
    runPrstmt sql stmt h =
      .ok (sql.step h.log.length stmt h.conn.now).1
        { h with
          conn := afterStep h.conn stmt (sql.step h.log.length stmt h.conn.now)
          log := .ran stmt (sql.step h.log.length stmt h.conn.now).1 :: h.log } := rfl

/-- The transaction stays open exactly if the statement does not roll back. -/
theorem afterStep_registering {old : σ} {h : PkgdbHandle σ} (registering : Registering old h)
    (stmt : PrStmt) (answer : SqliteCode × σ) (log : List SqlEvent) :
    if rollsBack stmt answer.1 then afterStep h.conn stmt answer = .connect old
    else Registering old { h with conn := afterStep h.conn stmt answer, log := log } := by
  obtain ⟨code, tables⟩ := answer
  unfold afterStep
  dsimp only
  by_cases done : code = .done
  · rw [done, if_neg (by simp [rollsBack]), if_pos rfl]
    simp [Registering, Connection.write, registering.1, registering.2]
  · by_cases rolled : rollsBack stmt code = true
    · rw [if_pos rolled, if_neg done, if_pos rolled]
      exact abort_registering registering
    · rw [if_neg rolled, if_neg done, if_neg rolled]
      exact registering

theorem mustRun_keeps (stmt : PrStmt) : KeepsRegistering (mustRun sql stmt) := by
  intro old h registering
  have left := afterStep_registering registering stmt (sql.step h.log.length stmt h.conn.now)
    (.ran stmt (sql.step h.log.length stmt h.conn.now).1 :: h.log)
  simp only [mustRun, bind, EStateM.bind, runPrstmt_eq]
  generalize sql.step h.log.length stmt h.conn.now = answer at left ⊢
  by_cases done : answer.1 = .done
  · rw [if_pos done]
    rw [done, if_neg (by simp [rollsBack])] at left
    rw [done]
    exact left
  · rw [if_neg done]
    exact ⟨_, _, rfl, left⟩

theorem mustRun_each {α : Type} (list : List α) (stmt : α → PrStmt) :
    KeepsRegistering (list.forM fun x => mustRun sql (stmt x)) := fun old =>
  Keeps.forM fun x _ => mustRun_keeps (stmt x) old

/-- Two statements for each element. -/
theorem mustRun_pairs {α : Type} (list : List α) (first second : α → PrStmt) :
    KeepsRegistering (list.forM fun x => do
      mustRun sql (first x)
      mustRun sql (second x)) := fun old =>
  Keeps.forM fun x _ => (mustRun_keeps (first x) old).bind fun _ => mustRun_keeps (second x) old

theorem pkgdbQueryWhich_eq (path : String) (h : PkgdbHandle σ) :
    pkgdbQueryWhich sql path h =
      .ok (sql.which h.log.length path h.conn.now)
        { h with
          conn := afterWhich h.conn (sql.which h.log.length path h.conn.now)
          log := .which path (sql.which h.log.length path h.conn.now) :: h.log } := rfl

/-- A file that is refused, replaced or passed over. -/
theorem registerFile_keeps (config : RegisterConfig) (forced : Bool) (packageId : Int)
    (file : String × Option String) :
    KeepsRegistering (registerFile sql config forced packageId file) := by
  intro old h registering
  have left := afterStep_registering registering (.files file.1 file.2 packageId)
    (sql.step h.log.length (.files file.1 file.2 packageId) h.conn.now)
    (.ran (.files file.1 file.2 packageId)
      (sql.step h.log.length (.files file.1 file.2 packageId) h.conn.now).1 :: h.log)
  simp only [registerFile, bind, EStateM.bind, runPrstmt_eq]
  generalize sql.step h.log.length (.files file.1 file.2 packageId) h.conn.now = answer at left ⊢
  obtain ⟨code, tables⟩ := answer
  cases code with
  | done => exact left
  | error rolledBack => exact ⟨_, _, rfl, left⟩
  | constraint =>
      simp only [EStateM.bind, pkgdbQueryWhich_eq]
      generalize afterStep h.conn _ _ = conn at left ⊢
      generalize sql.which _ _ _ = owner
      cases owner with
      | error rolledBack =>
          refine ⟨_, _, rfl, ?_⟩
          cases rolledBack with
          | true => exact abort_registering left
          | false => exact left
      | stray => exact mustRun_keeps _ old _ left
      | found =>
          dsimp only
          split
          · exact left
          · split
            · exact left
            · exact ⟨_, _, rfl, left⟩

/-- Whatever happens, the transaction stays open up to the failure. -/
theorem registerFiles_keeps (config : RegisterConfig) (forced : Bool) (packageId : Int)
    (files : List (String × Option String)) :
    KeepsRegistering (files.forM (registerFile sql config forced packageId)) := fun old =>
  Keeps.forM fun file _ => registerFile_keeps config forced packageId file old

/-- Inside a transaction that is already open. -/
theorem pkgdbRegisterPkg_keeps (config : RegisterConfig) (pkg : RegisteredPkg) (forced : Bool) :
    KeepsRegistering (pkgdbRegisterPkg sql config pkg true forced) := by
  intro old
  have mtree := @mustRun_keeps _ sql (.mtree pkg.row.mtree) old
  have row := @mustRun_keeps _ sql (.pkg pkg.row) old
  refine (Keeps.pure ()).bind fun _ => mtree.bind fun _ => row.bind fun _ => Keeps.read fun h => ?_
  refine (mustRun_keeps _ old).bind fun _ => (mustRun_keeps _ old).bind fun _ => ?_
  refine (mustRun_each _ _ old).bind fun _ => ?_
  refine (registerFiles_keeps _ _ _ _ old).bind fun _ => ?_
  -- From the directories to the shared libraries that are provided.
  iterate 9 refine (mustRun_pairs _ _ _ old).bind fun _ => ?_
  refine Keeps.bind ?_ fun _ => ?_
  · refine Keeps.forM fun note _ => ?_
    exact (mustRun_keeps _ old).bind fun _ => (mustRun_keeps _ old).bind fun _ =>
      mustRun_keeps _ old
  · exact (mustRun_each _ _ old).bind fun _ => mustRun_pairs _ _ _ old

theorem pkgdbRegisterPkg_begins (config : RegisterConfig) (pkg : RegisteredPkg) (forced : Bool) :
    pkgdbRegisterPkg sql config pkg false forced =
      pkgdbTransactionBegin sql >>= fun _ => pkgdbRegisterPkg sql config pkg true forced := rfl

theorem pkgdbTransactionBegin_idle {old : σ} {h : PkgdbHandle σ} (idle : h.conn = .connect old) :
    Ends (Registering old) (GivenUp old) (pkgdbTransactionBegin sql h) := by
  simp only [pkgdbTransactionBegin, read_bind]
  split
  · exact ⟨by rw [idle]; rfl, by rw [idle]; rfl⟩
  · exact ⟨.begin false, h.log, rfl, idle⟩

/-- The registration from a handle without a transaction. -/
theorem pkgdbRegisterPkg_idle {old : σ} {h : PkgdbHandle σ} (idle : h.conn = .connect old)
    (config : RegisterConfig) (pkg : RegisteredPkg) (forced : Bool) :
    Ends (Registering old) (GivenUp old) (pkgdbRegisterPkg sql config pkg false forced h) := by
  have began := @pkgdbTransactionBegin_idle _ sql old h idle
  rw [pkgdbRegisterPkg_begins]
  show Ends _ _ (EStateM.bind (pkgdbTransactionBegin sql) _ h)
  unfold EStateM.bind
  cases ran : pkgdbTransactionBegin sql h with
  | ok a s =>
      rw [ran] at began
      exact pkgdbRegisterPkg_keeps config pkg forced old s began
  | error e s =>
      rw [ran] at began
      exact began

/-! ## Failing -/

/-- `pkg_add` comes to the registration of a package that is not an upgrade. -/
structure Registers (env : AddEnv) (flags : AddFlags) : Prop where
  opened : env.opened = .ok
  valid : env.valid = true
  checked : env.checked = .ok
  notUpgrade : flags.upgrade = false

/-- An error is returned, and the handle is what it was before: the same tables, and no
transaction. -/
def FailsAtomically (sql : Sqlite σ) (env : AddEnv) (pkg : RegisteredPkg) (flags : AddFlags)
    (h : PkgdbHandle σ) : Prop :=
  (pkgAdd sql env pkg flags h).1 ≠ .ok ∧ (pkgAdd sql env pkg flags h).2.conn = h.conn

theorem pkgAdd_failed {env : AddEnv} {pkg : RegisteredPkg} {flags : AddFlags}
    {h after : PkgdbHandle σ} (registers : Registers env flags)
    (failed : pkgdbRegisterPkg sql env.config pkg false flags.force h = .error () after) :
    pkgAdd sql env pkg flags h = (.fatal, after) := by
  unfold pkgAdd
  rw [registers.opened, registers.valid, registers.checked, registers.notUpgrade, failed]
  rfl

/-- A failed registration is undone exactly if SQLite itself has ended the transaction, or has
not begun one. -/
theorem failsAtomically_iff {env : AddEnv} {pkg : RegisteredPkg} {flags : AddFlags} {old : σ}
    {h after : PkgdbHandle σ} (idle : h.conn = .connect old) (registers : Registers env flags)
    (failed : pkgdbRegisterPkg sql env.config pkg false flags.force h = .error () after) :
    FailsAtomically sql env pkg flags h ↔
      ∃ event, after.log.head? = some event ∧ event.endsTransaction = true := by
  have outcome := @pkgdbRegisterPkg_idle _ sql old h idle env.config pkg flags.force
  rw [failed] at outcome
  obtain ⟨event, earlier, log, left⟩ := outcome
  rw [FailsAtomically, pkgAdd_failed registers failed, log, idle]
  by_cases ends : event.endsTransaction = true
  · rw [if_pos ends] at left
    exact iff_of_true ⟨by simp, left⟩ ⟨event, rfl, ends⟩
  · rw [if_neg ends] at left
    refine iff_of_false (fun atomic => ?_) ?_
    · have saved := left.2
      rw [atomic.2] at saved
      cases saved
    · rintro ⟨last, isLast, lastEnds⟩
      cases isLast
      exact ends lastEnds

/-! ## Afterwards -/

theorem pkgdbTransactionBegin_open {h : PkgdbHandle σ} (inside : h.conn.savepoint ≠ none) :
    pkgdbTransactionBegin sql h = .error () { h with log := .begin false :: h.log } := by
  have refused : h.conn.savepoint.isNone = false := by
    rw [Option.isNone_eq_false_iff]
    exact Option.isSome_iff_ne_none.mpr inside
  simp only [pkgdbTransactionBegin, read_bind, refused, Bool.false_and]
  rfl

/-- While a transaction is open nothing can be added. -/
theorem pkgAdd_inside (env : AddEnv) (pkg : RegisteredPkg) (flags : AddFlags)
    {h : PkgdbHandle σ} (notUpgrade : flags.upgrade = false) (inside : h.conn.savepoint ≠ none) :
    (pkgAdd sql env pkg flags h).1 ≠ .ok ∧ (pkgAdd sql env pkg flags h).2.conn = h.conn := by
  have refused : pkgdbRegisterPkg sql env.config pkg flags.upgrade flags.force h =
      .error () { h with log := .begin false :: h.log } := by
    rw [notUpgrade, pkgdbRegisterPkg_begins]
    show EStateM.bind (pkgdbTransactionBegin sql) _ h = _
    rw [EStateM.bind, pkgdbTransactionBegin_open inside]
  unfold pkgAdd
  split
  · next notOpened => exact ⟨notOpened, rfl⟩
  · split
    · exact ⟨by simp, rfl⟩
    · split
      · next refusedArchive => exact ⟨refusedArchive, rfl⟩
      · rw [refused]
        exact ⟨by simp, rfl⟩

/-- Calls of `pkg_add` one after the other on a handle. -/
def runAdds (sql : Sqlite σ) (calls : List (AddEnv × RegisteredPkg × AddFlags))
    (h : PkgdbHandle σ) : PkgdbHandle σ :=
  calls.foldl (fun h call => (pkgAdd sql call.1 call.2.1 call.2.2 h).2) h

/-- A registration whose failure leaves the transaction open is the last on its handle. -/
theorem runAdds_stuck {calls : List (AddEnv × RegisteredPkg × AddFlags)} {h : PkgdbHandle σ}
    (notUpgrades : ∀ call ∈ calls, call.2.2.upgrade = false)
    (inside : h.conn.savepoint ≠ none) : (runAdds sql calls h).conn = h.conn := by
  induction calls generalizing h with
  | nil => rfl
  | cons call calls ih =>
      have first := (@pkgAdd_inside _ sql call.1 call.2.1 call.2.2 h
        (notUpgrades call (List.mem_cons_self ..)) inside).2
      have rest := @ih (pkgAdd sql call.1 call.2.1 call.2.2 h).2
        (fun other member => notUpgrades other (List.mem_cons_of_mem _ member))
        (by rw [first]; exact inside)
      exact rest.trans first

end Registering

/-! ## Samples -/

/-- A database of which only the paths in `files` are kept; everything but a file that is
already there succeeds. -/
def fileTable : Sqlite (List String) where
  begins _ _ := true
  step _ stmt tables :=
    match stmt with
    | .files path _ _ =>
        if path ∈ tables then (.constraint, tables) else (.done, path :: tables)
    | .ftsAppend _ name _ _ => if name = "" then (.constraint, tables) else (.done, tables)
    | _ => (.done, tables)
  which _ _ _ := .found
  commits _ _ := true
  lastInsertRowid _ := 1

/-- A package with a name and files. -/
def samplePackage (name : String) (files : List String) : RegisteredPkg where
  row :=
    { origin := "misc/sample", name := name, version := "1", comment := none, desc := none
      message := none, arch := none, maintainer := none, www := none, pkgPrefix := none
      flatsize := 0, automatic := false, licenselogic := 1, mtree := none, digest := none }
  files := files.map fun path => (path, none)

theorem fileConflict_not_atomic :
    ∃ after, Registers {} {} ∧
      pkgdbRegisterPkg fileTable {} (samplePackage "sample" ["/a", "/b"]) false false
        { conn := .connect ["/b"] } = .error () after ∧
      ¬FailsAtomically fileTable {} (samplePackage "sample" ["/a", "/b"]) {}
        { conn := .connect ["/b"] } := by
  refine ⟨_, ⟨rfl, rfl, rfl, rfl⟩, rfl, fun atomic => ?_⟩
  have saved := congrArg Connection.savepoint atomic.2
  cases saved

theorem unnamed_atomic :
    FailsAtomically fileTable {} (samplePackage "" []) {} { conn := .connect ["/b"] } :=
  (failsAtomically_iff rfl ⟨rfl, rfl, rfl, rfl⟩ rfl).mpr ⟨_, rfl, rfl⟩

end Pkgng
