import Pkgng.Package

/-!
# Upgrading the schema of the local database

`pkgdb_upgrade` with `get_pragma`, over what each of its statements may do when it fails.
-/

set_option autoImplicit false

namespace Pkgng

/-- The database file: `user_version` and everything else. -/
structure SchemaDb (Content : Type) where
  content : Content
  userVersion : Int

/-- A connection: what is committed, and what it sees inside of a transaction. -/
structure SchemaConn (Content : Type) where
  committed : SchemaDb Content
  inside : Option (SchemaDb Content) := none

/-- How a statement ends: it may leave some of its changes in the transaction when it fails, or
end the transaction. -/
inductive StatementResult (Content : Type)
  | done
  | failed (leaves : SchemaDb Content)
  | rolledBack

inductive PragmaResult
  | notPrepared
  | noRow
  | row
deriving DecidableEq, Repr

/-- The file system and SQLite under `pkgdb_upgrade`: the results of the statements, those in the
loop by the version they are for, and what the statements of a version make of a database. -/
structure SchemaEnv (Content : Type) where
  effect : Int → Content → Content
  readPragma : PragmaResult
  readonly : Bool
  begin : Int → Bool
  exec : Int → StatementResult Content
  setVersion : Int → StatementResult Content
  commit : Int → StatementResult Content
  rollback : Int → Bool

namespace SchemaConn

variable {Content : Type}

/-- What the connection reads. -/
def view (conn : SchemaConn Content) : SchemaDb Content := conn.inside.getD conn.committed

def transactionBegin (conn : SchemaConn Content) : SchemaConn Content :=
  { conn with inside := some conn.view }

/-- A statement that writes within the transaction. -/
def write (conn : SchemaConn Content) (change : SchemaDb Content → SchemaDb Content) :
    SchemaConn Content :=
  { conn with inside := conn.inside.map change }

def transactionCommit (conn : SchemaConn Content) : SchemaConn Content := { committed := conn.view }

def discard (conn : SchemaConn Content) : SchemaConn Content := { conn with inside := none }

/-- A statement that failed. -/
def fail (conn : SchemaConn Content) (leaves : SchemaDb Content) : SchemaConn Content :=
  { conn with inside := some leaves }

def transactionRollback (conn : SchemaConn Content) (succeeds : Bool) : SchemaConn Content :=
  if succeeds then conn.discard else conn

end SchemaConn

def dbSchemaMajor : Int := 0

def dbVersion : Int := dbSchemaMajor * 1000 + 27

/-- The versions of `db_upgrades`; behind them stands the -1 that ends the search. -/
def dbUpgradeVersions : List Int :=
  [1, 2, 3, 4, 5, 6, 7, 8, 9, 10, 11, 12, 13, 14, 15, 16, 17, 18, 19, 20, 21, 22, 23, 24, 25, 26, 27]

section Upgrade

variable {Content : Type} (env : SchemaEnv Content)

/-- `get_pragma` of `user_version`; a statement that is not prepared leaves the -1 it is called
with, and is no error. -/
def getUserVersion (conn : SchemaConn Content) : Option Int :=
  match env.readPragma with
  | .notPrepared => some (-1)
  | .noRow => none
  | .row => some conn.view.userVersion

/-- One turn of the loop, to the version; `none` for the connection of a next turn. -/
def upgradeStep (conn : SchemaConn Content) (version : Int) :
    Except (SchemaConn Content) (SchemaConn Content) :=
  if env.readonly then .error conn
  else if version ∉ dbUpgradeVersions then .error conn
  else if !env.begin version then .error conn
  else
    let conn := conn.transactionBegin
    match env.exec version with
    | .failed leaves => .error ((conn.fail leaves).transactionRollback (env.rollback version))
    | .rolledBack => .error conn.discard
    | .done =>
        let conn := conn.write fun db => { db with content := env.effect version db.content }
        match env.setVersion version with
        | .failed leaves => .error ((conn.fail leaves).transactionRollback (env.rollback version))
        | .rolledBack => .error conn.discard
        | .done =>
            let conn := conn.write fun db => { db with userVersion := version }
            match env.commit version with
            | .failed _ => .error conn
            | .rolledBack => .error conn.discard
            | .done => .ok conn.transactionCommit

/-- The loop of `pkgdb_upgrade`. -/
def upgradeLoop (conn : SchemaConn Content) (version : Int) : SchemaConn Content × Epkg :=
  if version < dbVersion then
    match upgradeStep env conn (version + 1) with
    | .error conn => (conn, .fatal)
    | .ok conn => upgradeLoop conn (version + 1)
  else (conn, .ok)
termination_by (dbVersion - version).toNat
decreasing_by omega

def pkgdbUpgrade (conn : SchemaConn Content) : SchemaConn Content × Epkg :=
  match getUserVersion env conn with
  | none => (conn, .fatal)
  | some version =>
      if version = dbVersion then (conn, .ok)
      else if dbVersion < version then
        if version.tdiv 1000 ≤ dbSchemaMajor then (conn, .ok) else (conn, .fatal)
      else upgradeLoop env conn version

end Upgrade

/-! ## Prefixes of the upgrade -/

section Prefixes

variable {Content : Type} {env : SchemaEnv Content}

/-- The database after its next step. -/
def SchemaDb.upgrade (env : SchemaEnv Content) (db : SchemaDb Content) : SchemaDb Content :=
  ⟨env.effect (db.userVersion + 1) db.content, db.userVersion + 1⟩

/-- The database after some steps of the upgrade, in the order of the versions. -/
inductive UpgradePrefix (env : SchemaEnv Content) (start : SchemaDb Content) :
    SchemaDb Content → Prop
  | start : UpgradePrefix env start start
  | step {db : SchemaDb Content} (before : UpgradePrefix env start db)
      (known : db.userVersion + 1 ∈ dbUpgradeVersions) :
      UpgradePrefix env start (db.upgrade env)

/-- The schema is the one of this library, or a newer one of the same major version. -/
def SchemaDb.UpToDate (db : SchemaDb Content) : Prop :=
  db.userVersion = dbVersion ∨
    dbVersion < db.userVersion ∧ db.userVersion.tdiv 1000 ≤ dbSchemaMajor

/-- What an upgrade of the database may end with: on disk and, unless a rollback fails, for the
connection itself. -/
structure Upgraded (env : SchemaEnv Content) (start : SchemaDb Content)
    (result : SchemaConn Content × Epkg) : Prop where
  committed : UpgradePrefix env start result.1.committed
  view : (∀ version, env.rollback version = true) → UpgradePrefix env start result.1.view
  ok : result.2 = .ok → result.1.inside = none ∧ result.1.committed.UpToDate

/-- A connection without a transaction. -/
theorem upgraded_fatal {start : SchemaDb Content} {conn : SchemaConn Content}
    (committed : UpgradePrefix env start conn.committed)
    (view : (∀ version, env.rollback version = true) → UpgradePrefix env start conn.view) :
    Upgraded env start (conn, .fatal) where
  committed := committed
  view := view
  ok := nofun

/-- A turn that goes on has committed exactly the next step. -/
theorem upgradeStep_ok {db : SchemaDb Content} {conn : SchemaConn Content}
    (ok : upgradeStep env ⟨db, none⟩ (db.userVersion + 1) = .ok conn) :
    db.userVersion + 1 ∈ dbUpgradeVersions ∧ conn = ⟨db.upgrade env, none⟩ := by
  unfold upgradeStep at ok
  split at ok
  · cases ok
  split at ok
  · cases ok
  next known =>
  split at ok
  · cases ok
  dsimp only at ok
  split at ok
  · cases ok
  · cases ok
  split at ok
  · cases ok
  · cases ok
  split at ok
  · cases ok
  · cases ok
  cases ok
  exact ⟨not_not.mp known, rfl⟩

/-- A turn that ends the loop has committed nothing. -/
theorem upgradeStep_error {start db : SchemaDb Content} {conn : SchemaConn Content}
    (before : UpgradePrefix env start db)
    (error : upgradeStep env ⟨db, none⟩ (db.userVersion + 1) = .error conn) :
    Upgraded env start (conn, .fatal) := by
  have unchanged : Upgraded env start (⟨db, none⟩, .fatal) :=
    upgraded_fatal before fun _ => before
  have undone (leaves : SchemaDb Content) :
      Upgraded env start ((SchemaConn.fail ⟨db, none⟩ leaves).transactionRollback
        (env.rollback (db.userVersion + 1)), .fatal) := by
    cases rolled : env.rollback (db.userVersion + 1) with
    | true => exact unchanged
    | false =>
        refine upgraded_fatal before fun all => ?_
        exact absurd (rolled.symm.trans (all _)) Bool.false_ne_true
  unfold upgradeStep at error
  split at error
  · cases error
    exact unchanged
  split at error
  · cases error
    exact unchanged
  next known =>
  split at error
  · cases error
    exact unchanged
  dsimp only at error
  split at error
  · cases error
    exact undone _
  · cases error
    exact unchanged
  split at error
  · cases error
    exact undone _
  · cases error
    exact unchanged
  split at error
  -- the transaction stays open, with the whole step in it
  · cases error
    exact upgraded_fatal before fun _ => before.step (not_not.mp known)
  · cases error
    exact unchanged
  · cases error

theorem upgradeLoop_upgraded {start db : SchemaDb Content} (before : UpgradePrefix env start db)
    (old : db.userVersion ≤ dbVersion) :
    Upgraded env start (upgradeLoop env ⟨db, none⟩ db.userVersion) := by
  induction left : (dbVersion - db.userVersion).toNat generalizing db with
  | zero =>
      have last : db.userVersion = dbVersion := by omega
      rw [upgradeLoop, if_neg (by omega)]
      exact ⟨before, fun _ => before, fun _ => ⟨rfl, .inl last⟩⟩
  | succ left ih =>
      rw [upgradeLoop, if_pos (by omega)]
      cases turn : upgradeStep env ⟨db, none⟩ (db.userVersion + 1) with
      | error conn => exact upgradeStep_error before turn
      | ok conn =>
          obtain ⟨known, rfl⟩ := upgradeStep_ok turn
          have next : (db.upgrade env).userVersion = db.userVersion + 1 := rfl
          rw [← next]
          exact ih (before.step known) (by omega) (by omega)

/-- The -1 of a `user_version` that could not be read. -/
theorem upgradeLoop_notPrepared {start : SchemaDb Content} :
    Upgraded env start (upgradeLoop env ⟨start, none⟩ (-1)) := by
  have refused : upgradeStep env ⟨start, none⟩ (-1 + 1) = .error ⟨start, none⟩ := by
    unfold upgradeStep
    rw [if_pos (by decide : (-1 : Int) + 1 ∉ dbUpgradeVersions), ite_self]
  rw [upgradeLoop, if_pos (by decide), refused]
  exact upgraded_fatal .start fun _ => .start

end Prefixes

/-- Whatever fails, the database is left after a prefix of the upgrade, and success means that the
schema is up to date. -/
theorem pkgdbUpgrade_upgraded {Content : Type} (env : SchemaEnv Content)
    (start : SchemaDb Content) : Upgraded env start (pkgdbUpgrade env { committed := start }) := by
  have fatal : Upgraded env start (⟨start, none⟩, .fatal) := upgraded_fatal .start fun _ => .start
  have ok (upToDate : start.UpToDate) : Upgraded env start (⟨start, none⟩, .ok) :=
    ⟨.start, fun _ => .start, fun _ => ⟨rfl, upToDate⟩⟩
  unfold pkgdbUpgrade getUserVersion
  cases env.readPragma with
  | notPrepared => exact upgradeLoop_notPrepared
  | noRow => exact fatal
  | row =>
      have read : (SchemaConn.mk start none).view.userVersion = start.userVersion := rfl
      dsimp only
      rw [read]
      split
      · next same => exact ok (.inl same)
      · split
        · next newer =>
            split
            · next compatible => exact ok (.inr ⟨newer, compatible⟩)
            · exact fatal
        · next notNewer => exact upgradeLoop_upgraded .start (Int.not_lt.mp notNewer)

end Pkgng
