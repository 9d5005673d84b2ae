import Pkgng.Db.RegisterViews

/-!
# The local database over its calls

What is on disk is read as a registry of whole packages.  A call that reports success has changed
the registry in one piece, a call that reports an error has left it; the handle may have been left
within a transaction, and then nothing reaches the disk until it is closed.
-/

set_option autoImplicit false

namespace Pkgng

open Lib

/-! ## Calls -/

section Calls

variable {σ : Type} (sql : Sqlite σ)

/-- `pkgdb_register_ports`. -/
def pkgdbRegisterPorts (config : RegisterConfig) (pkg : RegisteredPkg) (h : PkgdbHandle σ) :
    Epkg × PkgdbHandle σ :=
  match pkgdbRegisterPkg sql config pkg false false h with
  | .ok _ h => (.ok, pkgdbRegisterFinale sql .ok h)
  | .error _ h => (.fatal, pkgdbRegisterFinale sql .fatal h)

end Calls

inductive RegistryCall
  | add (env : AddEnv) (pkg : RegisteredPkg) (force : Bool)
  | registerPorts (config : RegisterConfig) (pkg : RegisteredPkg)
  | unregister (id : Int)
  /-- `pkgdb_close` and `pkgdb_open`; an open transaction is rolled back. -/
  | reopen

namespace RegistryCall

/-- The call on a handle; an upgrade runs within the transaction of another call. -/
def run (rowIds : RowIds) (call : RegistryCall) (h : PkgdbHandle Store) :
    Epkg × PkgdbHandle Store :=
  match call with
  | .add env pkg force => pkgAdd (Store.sqlite rowIds) env pkg { force := force } h
  | .registerPorts config pkg => pkgdbRegisterPorts (Store.sqlite rowIds) config pkg h
  | .unregister id => (.ok, { h with conn := h.conn.write (h.conn.now.pkgdbUnregisterPkg id) })
  | .reopen => (.ok, { conn := .connect h.conn.committed })

/-- The calls one after the other, with what they return. -/
def runAll (rowIds : RowIds) : List RegistryCall → PkgdbHandle Store →
    List (RegistryCall × Epkg) × PkgdbHandle Store
  | [], h => ([], h)
  | call :: rest, h =>
      let (code, between) := call.run rowIds h
      let (history, h') := runAll rowIds rest between
      ((call, code) :: history, h')

/-- The package that the call is to register. -/
def pkg? : RegistryCall → Option RegisteredPkg
  | .add _ pkg _ => some pkg
  | .registerPorts _ pkg => some pkg
  | _ => none

end RegistryCall

/-! ## What the calls are for -/

/-- The registry, and whether the handle is within a transaction. -/
structure Ledger where
  registry : Registry
  stuck : Bool

namespace Ledger

/-- The package has been registered. -/
def Accepts (config : RegisterConfig) (pkg : RegisteredPkg) (forced : Bool)
    (r r' : Registry) : Prop :=
  (∃ id, r id = none ∧ r' = r.register pkg id) ∧
    (forced = false → config.developerMode = true ∨ config.permissive = false →
      (r.makeRoom pkg.row).unowned pkg.files = pkg.files)

/-- What a call with this result may do. -/
def Step (call : RegistryCall) (code : Epkg) (before after : Ledger) : Prop :=
  match call with
  | .add env pkg force =>
      if code = .ok then
        before.stuck = false ∧ after.stuck = false ∧
          Accepts env.config pkg force before.registry after.registry
      else after.registry = before.registry ∧ (before.stuck = true → after.stuck = true)
  | .registerPorts config pkg =>
      after.stuck = false ∧
        if code = .ok then
          before.stuck = false ∧ Accepts config pkg false before.registry after.registry
        else after.registry = before.registry
  | .unregister id =>
      code = .ok ∧ after.stuck = before.stuck ∧
        after.registry =
          if before.stuck = true then before.registry
          else before.registry.remove fun other _ => other = id
  | .reopen => code = .ok ∧ after.stuck = false ∧ after.registry = before.registry

/-- A history of calls and their results. -/
def Run : List (RegistryCall × Epkg) → Ledger → Ledger → Prop
  | [], before, after => after = before
  | (call, code) :: rest, before, after => ∃ between, Step call code before between ∧
      Run rest between after

end Ledger

def PkgdbHandle.ledger (h : PkgdbHandle Store) : Ledger where
  registry := h.conn.committed.registry
  stuck := h.conn.savepoint.isSome

/-- What is on disk is joined, and seen by a handle outside of a transaction. -/
structure PkgdbHandle.Consistent (h : PkgdbHandle Store) : Prop where
  sound : h.conn.committed.Sound
  idle : h.conn.savepoint = none → h.conn = .connect h.conn.committed

theorem PkgdbHandle.consistent_iff {h : PkgdbHandle Store} : h.Consistent ↔
    h.conn.committed.Sound ∧ (h.conn.savepoint = none → h.conn = .connect h.conn.committed) :=
  ⟨fun consistent => ⟨consistent.sound, consistent.idle⟩, fun both => ⟨both.1, both.2⟩⟩

/-! ## Each call is one step -/

section Steps

variable {rowIds : RowIds} {h : PkgdbHandle Store}

theorem pkgdbTransactionBegin_ok {h h' : PkgdbHandle Store}
    (began : pkgdbTransactionBegin (Store.sqlite rowIds) h = .ok () h') :
    h'.conn.now = h.conn.now := by
  unfold pkgdbTransactionBegin at began
  rw [read_bind] at began
  split at began
  · cases began
    rfl
  · cases began

theorem PkgdbHandle.Consistent.now (consistent : h.Consistent) (idle : h.conn.savepoint = none) :
    h.conn.now = h.conn.committed := by
  rw [consistent.idle idle]
  rfl

/-- A registration that has returned is committed or undone. -/
theorem finale_registered {config : RegisterConfig} {pkg : RegisteredPkg} {forced : Bool}
    (consistent : h.Consistent) (idle : h.conn.savepoint = none) {between : PkgdbHandle Store}
    (returned : pkgdbRegisterPkg (Store.sqlite rowIds) config pkg false forced h = .ok () between)
    (code : Epkg) :
    (pkgdbRegisterFinale (Store.sqlite rowIds) code between).Consistent ∧
      (pkgdbRegisterFinale (Store.sqlite rowIds) code between).ledger.stuck = false ∧
      if code = .ok then
        Ledger.Accepts config pkg forced h.ledger.registry
          (pkgdbRegisterFinale (Store.sqlite rowIds) code between).ledger.registry
      else
        (pkgdbRegisterFinale (Store.sqlite rowIds) code between).ledger.registry =
          h.ledger.registry := by
  have registering := @pkgdbRegisterPkg_idle _ (Store.sqlite rowIds) _ _ (consistent.idle idle)
    config pkg forced
  rw [returned] at registering
  obtain ⟨committed, saved⟩ : Registering h.conn.committed between := registering
  have seen := consistent.now idle
  have registered : Registered config pkg forced h.conn.now between.conn.now := by
    rw [pkgdbRegisterPkg_begins] at returned
    obtain ⟨_, began, begins, returned⟩ := bind_ok returned
    have same := pkgdbTransactionBegin_ok begins
    rw [← same]
    exact pkgdbRegisterPkg_inside (by rw [same, seen]; exact consistent.sound) returned
  rw [seen] at registered
  by_cases success : code = .ok
  · have released : pkgdbRegisterFinale (Store.sqlite rowIds) code between =
        { between with conn := .connect between.conn.now } := by
      rw [pkgdbRegisterFinale, if_pos success, Connection.release, saved]
      rfl
    rw [released, if_pos success]
    exact ⟨⟨registered.sound, fun _ => rfl⟩, rfl, registered.registered, registered.recorded⟩
  · have aborted : pkgdbRegisterFinale (Store.sqlite rowIds) code between =
        { between with conn := .connect h.conn.committed } := by
      rw [pkgdbRegisterFinale, if_neg success, saved, Option.isSome_some, if_pos rfl,
        abort_registering ⟨committed, saved⟩]
    rw [aborted, if_neg success]
    exact ⟨⟨consistent.sound, fun _ => rfl⟩, rfl, rfl⟩

/-- One that has failed has left the disk as it was. -/
theorem finale_refused {config : RegisterConfig} {pkg : RegisteredPkg} {forced : Bool}
    (consistent : h.Consistent) (idle : h.conn.savepoint = none) {after : PkgdbHandle Store}
    (failed : pkgdbRegisterPkg (Store.sqlite rowIds) config pkg false forced h = .error () after) :
    after.Consistent ∧ after.conn.committed = h.conn.committed := by
  have outcome := @pkgdbRegisterPkg_idle _ (Store.sqlite rowIds) _ _ (consistent.idle idle)
    config pkg forced
  rw [failed] at outcome
  obtain ⟨event, earlier, _, left⟩ : GivenUp h.conn.committed after := outcome
  split at left
  · rw [PkgdbHandle.consistent_iff, left]
    exact ⟨⟨consistent.sound, fun _ => rfl⟩, rfl⟩
  · obtain ⟨committed, saved⟩ := left
    refine ⟨⟨by rw [committed]; exact consistent.sound, fun ended => ?_⟩, committed⟩
    rw [saved] at ended
    cases ended

/-- The handle and its ledger depend on the connection alone. -/
theorem ledger_of_conn {h' : PkgdbHandle Store} (same : h'.conn = h.conn) :
    h'.ledger = h.ledger := by
  rw [PkgdbHandle.ledger, PkgdbHandle.ledger, same]

theorem PkgdbHandle.Consistent.of_conn {h' : PkgdbHandle Store} (consistent : h.Consistent)
    (same : h'.conn = h.conn) : h'.Consistent := by
  rw [PkgdbHandle.consistent_iff, same]
  exact ⟨consistent.sound, consistent.idle⟩

theorem add_step (env : AddEnv) (pkg : RegisteredPkg) (force : Bool)
    (consistent : h.Consistent) :
    (RegistryCall.run rowIds (.add env pkg force) h).2.Consistent ∧
      Ledger.Step (.add env pkg force) (RegistryCall.run rowIds (.add env pkg force) h).1 h.ledger
        (RegistryCall.run rowIds (.add env pkg force) h).2.ledger := by
  have unchanged : ∀ {code : Epkg} {h' : PkgdbHandle Store}, code ≠ .ok → h'.conn = h.conn →
      h'.Consistent ∧ Ledger.Step (.add env pkg force) code h.ledger h'.ledger := by
    intro code h' failed same
    refine ⟨consistent.of_conn same, ?_⟩
    rw [ledger_of_conn same, Ledger.Step, if_neg failed]
    exact ⟨rfl, id⟩
  by_cases idle : h.conn.savepoint = none
  · have notStuck : h.ledger.stuck = false := by
      rw [PkgdbHandle.ledger, idle]
      rfl
    dsimp only [RegistryCall.run, pkgAdd]
    split
    · next notOpened => exact unchanged notOpened rfl
    split
    · exact unchanged nofun rfl
    split
    · next refused => exact unchanged refused rfl
    split
    · next after failed =>
        obtain ⟨left, committed⟩ := finale_refused consistent idle failed
        refine ⟨left, ?_⟩
        rw [Ledger.Step, if_neg nofun]
        refine ⟨?_, fun stuck => by rw [notStuck] at stuck; cases stuck⟩
        rw [PkgdbHandle.ledger, PkgdbHandle.ledger, committed]
    · next between returned =>
        simp only [Bool.false_eq_true, if_false]
        generalize (if env.disableMtree = false ∧ env.extractMtree ≠ .ok then env.extractMtree
          else if env.hasFiles = true then env.extract else .ok : Epkg) = code
        obtain ⟨left, closed, effect⟩ := finale_registered consistent idle returned code
        refine ⟨left, ?_⟩
        rw [Ledger.Step]
        split
        · next success =>
            rw [if_pos success] at effect
            exact ⟨notStuck, closed, effect⟩
        · next failed =>
            rw [if_neg failed] at effect
            exact ⟨effect, fun stuck => by rw [notStuck] at stuck; cases stuck⟩
  · obtain ⟨failed, same⟩ := @pkgAdd_inside _ (Store.sqlite rowIds) env pkg
      { force := force } _ rfl idle
    exact unchanged failed same

theorem registerPorts_step (config : RegisterConfig) (pkg : RegisteredPkg)
    (consistent : h.Consistent) :
    (RegistryCall.run rowIds (.registerPorts config pkg) h).2.Consistent ∧
      Ledger.Step (.registerPorts config pkg)
        (RegistryCall.run rowIds (.registerPorts config pkg) h).1 h.ledger
        (RegistryCall.run rowIds (.registerPorts config pkg) h).2.ledger := by
  have undone : ∀ {after : PkgdbHandle Store}, after.Consistent →
      after.conn.committed = h.conn.committed →
      (pkgdbRegisterFinale (Store.sqlite rowIds) .fatal after).Consistent ∧
        Ledger.Step (.registerPorts config pkg) .fatal h.ledger
          (pkgdbRegisterFinale (Store.sqlite rowIds) .fatal after).ledger := by
    intro after left committed
    have closed : (pkgdbRegisterFinale (Store.sqlite rowIds) .fatal after).conn =
        .connect h.conn.committed := by
      rw [pkgdbRegisterFinale, if_neg nofun, ← committed]
      split
      · rfl
      · next ended =>
          exact left.idle (Option.not_isSome_iff_eq_none.mp ended)
    refine ⟨?_, ?_, ?_⟩
    · rw [PkgdbHandle.consistent_iff, closed]
      exact ⟨consistent.sound, fun _ => rfl⟩
    · rw [PkgdbHandle.ledger, closed]
      rfl
    · rw [if_neg nofun, PkgdbHandle.ledger, PkgdbHandle.ledger, closed]
      rfl
  dsimp only [RegistryCall.run, pkgdbRegisterPorts]
  by_cases idle : h.conn.savepoint = none
  · have notStuck : h.ledger.stuck = false := by
      rw [PkgdbHandle.ledger, idle]
      rfl
    split
    · next between returned =>
        obtain ⟨left, closed, effect⟩ := finale_registered consistent idle returned .ok
        exact ⟨left, closed, by rw [if_pos rfl] at effect ⊢; exact ⟨notStuck, effect⟩⟩
    · next after failed =>
        obtain ⟨left, committed⟩ := finale_refused consistent idle failed
        exact undone left committed
  · -- The transaction that was left open is rolled back instead.
    have refused : pkgdbRegisterPkg (Store.sqlite rowIds) config pkg false false h =
        .error () { h with log := .begin false :: h.log } := by
      rw [pkgdbRegisterPkg_begins]
      show EStateM.bind (pkgdbTransactionBegin _) _ h = _
      rw [EStateM.bind, pkgdbTransactionBegin_open idle]
    rw [refused]
    exact undone (consistent.of_conn rfl) rfl

theorem write_idle (idle : h.conn.savepoint = none) (new : Store) :
    h.conn.write new = .connect new := by
  unfold Connection.write
  rw [idle]
  rfl

theorem write_inside (inside : h.conn.savepoint ≠ none) (new : Store) :
    h.conn.write new = { h.conn with now := new } := by
  obtain ⟨old, saved⟩ := Option.ne_none_iff_exists'.mp inside
  unfold Connection.write
  rw [saved]
  exact congrArg (fun savepoint => ({ h.conn with now := new, savepoint } : Connection Store))
    saved.symm

theorem unregister_step (id : Int) (consistent : h.Consistent) :
    (RegistryCall.run rowIds (.unregister id) h).2.Consistent ∧
      Ledger.Step (.unregister id) (RegistryCall.run rowIds (.unregister id) h).1 h.ledger
        (RegistryCall.run rowIds (.unregister id) h).2.ledger := by
  dsimp only [RegistryCall.run]
  by_cases idle : h.conn.savepoint = none
  · obtain ⟨sound, registry⟩ := Store.pkgdbUnregisterPkg_spec consistent.sound id
    rw [consistent.now idle]
    generalize h.conn.committed.pkgdbUnregisterPkg id = new at sound registry ⊢
    have written := write_idle idle new
    have notStuck : h.ledger.stuck = false := by
      rw [PkgdbHandle.ledger, idle]
      rfl
    refine ⟨?_, rfl, ?_, ?_⟩
    · rw [PkgdbHandle.consistent_iff, written]
      exact ⟨sound, fun _ => rfl⟩
    · rw [notStuck, PkgdbHandle.ledger, written]
      rfl
    · rw [notStuck, if_neg nofun, PkgdbHandle.ledger, written]
      exact registry
  · generalize h.conn.now.pkgdbUnregisterPkg id = new
    have written := write_inside idle new
    have stuck : h.ledger.stuck = true := Option.isSome_iff_ne_none.mpr idle
    refine ⟨?_, rfl, ?_, ?_⟩
    · rw [PkgdbHandle.consistent_iff, written]
      exact ⟨consistent.sound, fun ended => absurd ended idle⟩
    · rw [PkgdbHandle.ledger, PkgdbHandle.ledger, written]
    · rw [stuck, if_pos rfl, PkgdbHandle.ledger, PkgdbHandle.ledger, written]

theorem run_step (call : RegistryCall) (consistent : h.Consistent) :
    (call.run rowIds h).2.Consistent ∧
      Ledger.Step call (call.run rowIds h).1 h.ledger (call.run rowIds h).2.ledger := by
  cases call with
  | add env pkg force => exact add_step env pkg force consistent
  | registerPorts config pkg => exact registerPorts_step config pkg consistent
  | unregister id => exact unregister_step id consistent
  | reopen => exact ⟨⟨consistent.sound, fun _ => rfl⟩, rfl, rfl, rfl⟩

end Steps

/-! ## What is in the registry -/

/-- The package is what the call was given, up to files that others own and later versions of its
dependencies. -/
structure Installed.From (p : Installed) (pkg : RegisteredPkg) : Prop where
  row : p.row = pkg.row
  links : p.links = pkg.links
  files : p.files.Sublist pkg.files
  deps : p.deps.map Prod.fst = pkg.deps.map Prod.fst

/-- Every package comes from a call that has reported success, and no two packages share an origin
and a name, or a file. -/
structure Registry.Grounded (history : List (RegistryCall × Epkg)) (r : Registry) : Prop where
  origin : ∀ id p, r id = some p →
    ∃ call pkg, (call, Epkg.ok) ∈ history ∧ call.pkg? = some pkg ∧ p.From pkg
  uid : ∀ id p id' p', r id = some p → r id' = some p' → p.row.origin = p'.row.origin →
    p.row.name = p'.row.name → id = id'
  owner : ∀ id p id' p' path, r id = some p → r id' = some p' → path ∈ p.files.map Prod.fst →
    path ∈ p'.files.map Prod.fst → id = id'
  once : ∀ id p, r id = some p → (p.files.map Prod.fst).Nodup

namespace Registry

variable {history : List (RegistryCall × Epkg)} {r : Registry}

/-- What a registry keeps of another, with other versions in the dependencies. -/
def Keeps (r r' : Registry) : Prop :=
  ∀ id p', r' id = some p' → ∃ p, r id = some p ∧ p'.row = p.row ∧ p'.links = p.links ∧
    p'.files = p.files ∧ p'.deps.map Prod.fst = p.deps.map Prod.fst

theorem keeps_remove (gone : Int → Installed → Bool) : r.Keeps (r.remove gone) := by
  intro id p' loaded
  obtain ⟨found, _⟩ := Option.filter_eq_some_iff.mp loaded
  exact ⟨p', found, rfl, rfl, rfl, rfl⟩

theorem Keeps.map {r' : Registry} (keeps : r.Keeps r') (name version origin : String) :
    r.Keeps (r'.map fun p => p.renameDeps name version origin) := by
  intro id p' loaded
  obtain ⟨q, found, rfl⟩ := Option.map_eq_some_iff.mp loaded
  obtain ⟨p, there, row, links, files, deps⟩ := keeps id q found
  refine ⟨p, there, row, links, files, ?_⟩
  rw [← deps, Installed.renameDeps, List.map_map]
  refine List.map_congr_left fun dep _ => ?_
  rw [Function.comp_apply]
  split
  · rfl
  · rfl

theorem Grounded.keeps {r' : Registry} (grounded : r.Grounded history) (keeps : r.Keeps r') :
    r'.Grounded history where
  origin := by
    intro id p' loaded
    obtain ⟨p, there, row, links, files, deps⟩ := keeps id p' loaded
    obtain ⟨call, pkg, listed, isPkg, comes⟩ := grounded.origin id p there
    exact ⟨call, pkg, listed, isPkg, ⟨row.trans comes.row, links.trans comes.links,
      files ▸ comes.files, deps.trans comes.deps⟩⟩
  uid := by
    intro id p' id' q' loaded loaded' origin name
    obtain ⟨p, there, row, _⟩ := keeps id p' loaded
    obtain ⟨q, there', row', _⟩ := keeps id' q' loaded'
    rw [row, row'] at origin name
    exact grounded.uid id p id' q there there' origin name
  owner := by
    intro id p' id' q' path loaded loaded' listed listed'
    obtain ⟨p, there, _, _, files, _⟩ := keeps id p' loaded
    obtain ⟨q, there', _, _, files', _⟩ := keeps id' q' loaded'
    rw [files] at listed
    rw [files'] at listed'
    exact grounded.owner id p id' q path there there' listed listed'
  once := by
    intro id p' loaded
    obtain ⟨p, there, _, _, files, _⟩ := keeps id p' loaded
    rw [files]
    exact grounded.once id p there

theorem grounded_nil : Grounded [] fun _ => none where
  origin := fun _ _ loaded => by cases loaded
  uid := fun _ _ _ _ loaded => by cases loaded
  owner := fun _ _ _ _ _ loaded => by cases loaded
  once := fun _ _ loaded => by cases loaded

theorem Grounded.later {event : RegistryCall × Epkg} (grounded : r.Grounded history) :
    r.Grounded (history ++ [event]) where
  origin := fun id p loaded =>
    have ⟨call, pkg, listed, isPkg, comes⟩ := grounded.origin id p loaded
    ⟨call, pkg, List.mem_append_left _ listed, isPkg, comes⟩
  uid := grounded.uid
  owner := grounded.owner
  once := grounded.once

/-- The files that are claimed have no owner, and each is claimed once. -/
theorem unowned_spec (r : Registry) (files : List (String × Option String)) :
    (r.unowned files).Sublist files ∧ ((r.unowned files).map Prod.fst).Nodup ∧
      ∀ path ∈ (r.unowned files).map Prod.fst, ¬r.Owns path := by
  induction files using List.reverseRecOn with
  | nil => exact ⟨List.Sublist.refl _, List.nodup_nil, nofun⟩
  | append_singleton files file ih =>
      obtain ⟨sublist, nodup, free⟩ := ih
      have step : r.unowned (files ++ [file]) = r.claim (r.unowned files) file := by
        rw [unowned, List.foldl_append]
        rfl
      rw [step, claim]
      split
      · exact ⟨sublist.trans (List.sublist_append_left _ _), nodup, free⟩
      · next new =>
          rw [not_or] at new
          refine ⟨sublist.append (List.Sublist.refl _), ?_, ?_⟩
          · rw [List.map_append]
            exact List.Nodup.append nodup (List.nodup_singleton _)
              (List.disjoint_singleton.mpr new.2)
          · intro path listed
            rw [List.map_append, List.mem_append] at listed
            rcases listed with old | last
            · exact free path old
            · rw [List.mem_singleton.mp last]
              exact new.1

theorem makeRoom_uid (r : Registry) {row : PkgColumns} {id : Int} {p : Installed}
    (loaded : r.makeRoom row id = some p) :
    ¬(p.row.origin = row.origin ∧ p.row.name = row.name) := by
  obtain ⟨q, found, rfl⟩ := Option.map_eq_some_iff.mp loaded
  obtain ⟨_, stays⟩ := Option.filter_eq_some_iff.mp found
  rintro ⟨origin, name⟩
  simp only [Installed.sameUid, Bool.not_eq_true', Bool.and_eq_false_iff,
    decide_eq_false_iff_not] at stays
  rcases stays with other | other
  · exact other origin
  · exact other name

/-- The registration of a package is noted in the history. -/
theorem Grounded.register {call : RegistryCall} {pkg : RegisteredPkg} {id : Int}
    (grounded : r.Grounded history) (isPkg : call.pkg? = some pkg) :
    (r.register pkg id).Grounded (history ++ [(call, .ok)]) := by
  have room : (r.makeRoom pkg.row).Grounded history :=
    grounded.keeps ((keeps_remove _).map _ _ _)
  obtain ⟨sublist, nodup, free⟩ := unowned_spec (r.makeRoom pkg.row) pkg.files
  have cases : ∀ other p, r.register pkg id other = some p →
      other = id ∧ p = pkg.installed ((r.makeRoom pkg.row).unowned pkg.files) ∨
        r.makeRoom pkg.row other = some p := by
    intro other p loaded
    rw [Registry.register, set] at loaded
    split at loaded
    · next here => exact Or.inl ⟨here, (Option.some.inj loaded).symm⟩
    · exact Or.inr loaded
  constructor
  · intro other p loaded
    rcases cases other p loaded with ⟨_, rfl⟩ | old
    · exact ⟨call, pkg, List.mem_append_right _ (List.mem_singleton_self _), isPkg,
        ⟨rfl, rfl, sublist, rfl⟩⟩
    · exact room.later.origin other p old
  · intro first p second q loaded loaded' origin name
    rcases cases first p loaded with ⟨rfl, rfl⟩ | old
    · rcases cases second q loaded' with ⟨rfl, _⟩ | old'
      · rfl
      · exact absurd ⟨origin.symm, name.symm⟩ (makeRoom_uid r old')
    · rcases cases second q loaded' with ⟨rfl, rfl⟩ | old'
      · exact absurd ⟨origin, name⟩ (makeRoom_uid r old)
      · exact room.uid first p second q old old' origin name
  · intro first p second q path loaded loaded' listed listed'
    rcases cases first p loaded with ⟨rfl, rfl⟩ | old
    · rcases cases second q loaded' with ⟨rfl, _⟩ | old'
      · rfl
      · exact absurd ⟨second, q, old', listed'⟩ (free path listed)
    · rcases cases second q loaded' with ⟨rfl, rfl⟩ | old'
      · exact absurd ⟨first, p, old, listed⟩ (free path listed')
      · exact room.owner first p second q path old old' listed listed'
  · intro other p loaded
    rcases cases other p loaded with ⟨_, rfl⟩ | old
    · exact nodup
    · exact room.once other p old

end Registry

/-! ## Histories -/

theorem Ledger.Step.grounded {call : RegistryCall} {code : Epkg} {before after : Ledger}
    {history : List (RegistryCall × Epkg)} (step : Ledger.Step call code before after)
    (grounded : before.registry.Grounded history) :
    after.registry.Grounded (history ++ [(call, code)]) := by
  have accepted : ∀ {config : RegisterConfig} {pkg : RegisteredPkg} {forced : Bool},
      call.pkg? = some pkg → code = .ok →
      Ledger.Accepts config pkg forced before.registry after.registry →
      after.registry.Grounded (history ++ [(call, code)]) := by
    rintro config pkg forced isPkg rfl ⟨⟨id, _, registered⟩, _⟩
    rw [registered]
    exact grounded.register isPkg
  have unchanged : after.registry = before.registry →
      after.registry.Grounded (history ++ [(call, code)]) := by
    intro same
    rw [same]
    exact grounded.later
  cases call with
  | add env pkg force =>
      rw [Ledger.Step] at step
      split at step
      · next success => exact accepted rfl success step.2.2
      · exact unchanged step.1
  | registerPorts config pkg =>
      obtain ⟨_, effect⟩ := step
      split at effect
      · next success => exact accepted rfl success effect.2
      · exact unchanged effect
  | unregister id =>
      obtain ⟨_, _, effect⟩ := step
      split at effect
      · exact unchanged effect
      · rw [effect]
        exact (grounded.keeps (Registry.keeps_remove _)).later
  | reopen => exact unchanged step.2.2

theorem Ledger.Run.grounded {events history : List (RegistryCall × Epkg)} {before after : Ledger}
    (run : Ledger.Run events before after) (grounded : before.registry.Grounded history) :
    after.registry.Grounded (history ++ events) := by
  induction events generalizing before history with
  | nil =>
      cases run
      rwa [List.append_nil]
  | cons event rest ih =>
      obtain ⟨between, step, ran⟩ := run
      have here := ih ran (step.grounded grounded)
      rwa [List.append_assoc] at here

theorem runAll_simulated {rowIds : RowIds} (calls : List RegistryCall) {h : PkgdbHandle Store}
    (consistent : h.Consistent) :
    (RegistryCall.runAll rowIds calls h).2.Consistent ∧
      Ledger.Run (RegistryCall.runAll rowIds calls h).1 h.ledger
        (RegistryCall.runAll rowIds calls h).2.ledger := by
  induction calls generalizing h with
  | nil => exact ⟨consistent, rfl⟩
  | cons call rest ih =>
      obtain ⟨between, stepped⟩ := @run_step rowIds _ call consistent
      obtain ⟨after, ran⟩ := ih between
      exact ⟨after, _, stepped, ran⟩

/-- `pkgdb_open` of a new database. -/
def newDatabase : PkgdbHandle Store := { conn := .connect {} }

theorem newDatabase_consistent : newDatabase.Consistent := by
  have sound : ({} : Store).Sound := by
    constructor
    · exact List.nodup_nil
    · exact List.nodup_nil
    · exact fun _ => List.nodup_nil
    · exact fun _ _ => List.nodup_nil
    · exact fun p member => absurd member List.not_mem_nil
    · exact fun _ row member => absurd member List.not_mem_nil
    · exact fun _ row member => absurd member List.not_mem_nil
    · exact fun row member => absurd member List.not_mem_nil
    · exact fun row member => absurd member List.not_mem_nil
    · exact List.nodup_nil
  exact ⟨sound, fun _ => rfl⟩

theorem newDatabase_ledger : newDatabase.ledger = ⟨fun _ => none, false⟩ := rfl

end Pkgng
