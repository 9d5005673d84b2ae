import Mathlib.Data.List.Nodup
import Pkgng.Package

/-!
# The table of the registered packages

The rows of `packages` in the local database, and a connection to it with the
savepoint of `pkgdb_transaction_begin`.
-/

set_option autoImplicit false

namespace Pkgng

/-- A row of `packages`; the name and the origin make up the uid. -/
structure PackageRow where
  id : Nat
  uid : Uid
  version : String
deriving DecidableEq, Repr

/-- The table, with its primary key and the index `packages_unique`. -/
structure PackageTable where
  rows : List PackageRow
  ids : (rows.map PackageRow.id).Nodup
  uids : (rows.map PackageRow.uid).Nodup

namespace PackageTable

variable (table : PackageTable)

/-- The registered packages. -/
def Registered (uid : Uid) (version : String) : Prop :=
  ∃ row ∈ table.rows, row.uid = uid ∧ row.version = version

/-- The `rowid` of the next row. -/
def nextId : Nat := (table.rows.map PackageRow.id).foldr max 0 + 1

theorem lt_nextId {row : PackageRow} (member : row ∈ table.rows) : row.id < table.nextId := by
  have bound : ∀ ids : List Nat, ∀ id ∈ ids, id ≤ ids.foldr max 0 := by
    intro ids
    induction ids with
    | nil => exact nofun
    | cons first rest ih =>
        intro id listed
        rw [List.foldr_cons]
        rcases List.mem_cons.mp listed with rfl | inRest
        · exact Nat.le_max_left _ _
        · exact Nat.le_trans (ih id inRest) (Nat.le_max_right _ _)
  exact Nat.lt_succ_of_le (bound _ row.id (List.mem_map_of_mem member))

/-- `INSERT OR REPLACE INTO packages`. -/
def register (uid : Uid) (version : String) : PackageTable where
  rows := table.rows.filter (·.uid ≠ uid) ++ [⟨table.nextId, uid, version⟩]
  ids := by
    rw [List.map_append, List.nodup_append]
    refine ⟨table.ids.sublist (List.Sublist.map _ List.filter_sublist), List.nodup_singleton _, ?_⟩
    intro id old new isNew same
    rw [List.map_singleton, List.mem_singleton] at isNew
    obtain ⟨row, member, rfl⟩ := List.mem_map.mp old
    have below := table.lt_nextId (List.mem_filter.mp member).1
    dsimp only at isNew
    omega
  uids := by
    rw [List.map_append, List.nodup_append]
    refine ⟨table.uids.sublist (List.Sublist.map _ List.filter_sublist),
      List.nodup_singleton _, ?_⟩
    intro old listed new isNew same
    rw [List.map_singleton, List.mem_singleton] at isNew
    obtain ⟨row, kept, rfl⟩ := List.mem_map.mp listed
    have different := (List.mem_filter.mp kept).2
    rw [same, isNew] at different
    simp at different

/-- `DELETE FROM packages WHERE id = ?1`. -/
def unregister (id : Nat) : PackageTable where
  rows := table.rows.filter (·.id ≠ id)
  ids := table.ids.sublist (List.Sublist.map _ List.filter_sublist)
  uids := table.uids.sublist (List.Sublist.map _ List.filter_sublist)

/-- Two tables register the same packages. -/
def SamePackages (other : PackageTable) : Prop :=
  ∀ uid version, table.Registered uid version ↔ other.Registered uid version

variable {table}

theorem SamePackages.refl (table : PackageTable) : table.SamePackages table :=
  fun _ _ => Iff.rfl

theorem SamePackages.comm {other : PackageTable} :
    table.SamePackages other ↔ other.SamePackages table :=
  ⟨fun same uid version => (same uid version).symm,
    fun same uid version => (same uid version).symm⟩

theorem eq_of_uid {row other : PackageRow} (member : row ∈ table.rows)
    (memberOther : other ∈ table.rows) (same : row.uid = other.uid) : row = other :=
  List.inj_on_of_nodup_map table.uids member memberOther same

theorem unregister_eq_self {id : Nat} (missing : ∀ row ∈ table.rows, row.id ≠ id) :
    (table.unregister id).rows = table.rows := by
  rw [unregister, List.filter_eq_self]
  intro row member
  simpa using missing row member

/-- Deleting a row that is there unregisters its package. -/
theorem not_registered_unregister {row : PackageRow} (member : row ∈ table.rows) :
    ¬(table.unregister row.id).Registered row.uid row.version := by
  rintro ⟨other, kept, uid, _⟩
  obtain ⟨memberOther, different⟩ := List.mem_filter.mp kept
  have same := eq_of_uid memberOther member uid
  rw [same] at different
  simp at different

/-- A deletion changes the registered packages exactly when its row is there. -/
theorem unregister_samePackages_iff {id : Nat} :
    (table.unregister id).SamePackages table ↔ ∀ row ∈ table.rows, row.id ≠ id := by
  constructor
  · rintro same row member rfl
    exact not_registered_unregister member
      ((same row.uid row.version).mpr ⟨row, member, rfl, rfl⟩)
  · intro missing uid version
    unfold Registered
    rw [unregister_eq_self missing]

end PackageTable

/-- A connection: the table as the transaction sees it, as it is on disk, and the
table at the savepoint. -/
structure PkgDb where
  table : PackageTable
  committed : PackageTable
  savepoint : Option PackageTable := none

namespace PkgDb

/-- Outside of a transaction. -/
def connect (table : PackageTable) : PkgDb := { table := table, committed := table }

/-- A statement; without a transaction it commits at once. -/
def write (db : PkgDb) (table : PackageTable) : PkgDb :=
  match db.savepoint with
  | none => { db with table := table, committed := table }
  | some _ => { db with table := table }

/-- `SAVEPOINT`. -/
def transactionBegin (db : PkgDb) : PkgDb := { db with savepoint := some db.table }

/-- `ROLLBACK TO SAVEPOINT`, which keeps the savepoint; an error without one. -/
def transactionRollback (db : PkgDb) : PkgDb :=
  match db.savepoint with
  | none => db
  | some table => { db with table := table }

/-- `RELEASE SAVEPOINT`; an error without one. -/
def transactionCommit (db : PkgDb) : PkgDb :=
  match db.savepoint with
  | none => db
  | some _ => { db with committed := db.table, savepoint := none }

/-- An `INSERT OR ROLLBACK` that violates its constraint ends the transaction. -/
def abort (db : PkgDb) : PkgDb :=
  { db with table := db.committed, savepoint := none }

end PkgDb

end Pkgng
