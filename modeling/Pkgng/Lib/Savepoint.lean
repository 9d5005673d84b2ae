/-!
# A connection with a savepoint

What a connection to a database sees and what is on disk.  Outside of a savepoint a
statement commits at once; `ROLLBACK TO` keeps the savepoint, and `RELEASE` of the
outermost one commits.
-/

set_option autoImplicit false

namespace Pkgng.Lib

structure Connection (σ : Type) where
  now : σ
  committed : σ
  savepoint : Option σ := none

namespace Connection

variable {σ : Type}

/-- A connection outside of a transaction. -/
def connect (state : σ) : Connection σ := { now := state, committed := state }

def write (conn : Connection σ) (state : σ) : Connection σ :=
  match conn.savepoint with
  | none => { conn with now := state, committed := state }
  | some _ => { conn with now := state }

/-- `SAVEPOINT`. -/
def begin (conn : Connection σ) : Connection σ := { conn with savepoint := some conn.now }

/-- `ROLLBACK TO SAVEPOINT`, an error without one. -/
def rollbackTo (conn : Connection σ) : Connection σ :=
  match conn.savepoint with
  | none => conn
  | some state => { conn with now := state }

/-- `RELEASE SAVEPOINT`, an error without one. -/
def release (conn : Connection σ) : Option (Connection σ) :=
  conn.savepoint.map fun _ => { conn with committed := conn.now, savepoint := none }

/-- A conflict clause `OR ROLLBACK` ends the transaction. -/
def abort (conn : Connection σ) : Connection σ :=
  { conn with now := conn.committed, savepoint := none }

/-- A savepoint keeps `old` is open, or has been aborted. -/
def Over (old : σ) (conn : Connection σ) : Prop :=
  conn.committed = old ∧ (conn.savepoint = some old ∨ conn.savepoint = none ∧ conn.now = old)

variable {old : σ} {conn : Connection σ}

theorem Over.abort (keeps : Over old conn) : Over old conn.abort :=
  ⟨keeps.1, Or.inr ⟨rfl, keeps.1⟩⟩

/-- Rolling back restores what the connection sees, whichever way it went. -/
theorem Over.rollbackTo (keeps : Over old conn) :
    Over old conn.rollbackTo ∧ conn.rollbackTo.now = old := by
  obtain ⟨committed, saved | ⟨ended, now⟩⟩ := keeps
  · simp [Connection.rollbackTo, Over, saved, committed]
  · simp [Connection.rollbackTo, Over, ended, committed, now]

end Connection

end Pkgng.Lib
