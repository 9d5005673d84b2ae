import Pkgng.Universe.Items

/-!
# Jobs

`struct pkg_jobs` as far as the solver, the ordering of the jobs and the
conflict resolution read it.
-/

set_option autoImplicit false

namespace Pkgng

/-- `pkg_solved_t`. -/
inductive SolvedType
  | install
  | delete
  | upgrade
  | upgradeRemove
  | fetch
deriving DecidableEq, Repr

/-- `struct pkg_solved`. -/
structure Solved where
  items0 : Addr
  items1 : Option Addr := none
  type : SolvedType
  alreadyDeleted : Bool := false
deriving DecidableEq, Repr

/-- The universe items that occur in a job. -/
def Solved.units (job : Solved) : List Addr := job.items0 :: job.items1.toList

/-- The requests are keyed by the address of the requested item. -/
structure Jobs where
  univ : JobsUniverse
  type : JobsType := .install
  requestAdd : List Addr := []
  requestDelete : List Addr := []
  jobs : List Solved := []
  count : Nat := 0
  solved : Nat := 0
  needFetch : Bool := false
  conflictsRegistered : Nat := 0
  /-- The messages handed to `pkg_emit_error`. -/
  errors : List String := []

namespace Jobs

def pkg (j : Jobs) (item : Addr) : Pkg := j.univ.pkg item

def emitError (j : Jobs) (message : String) : Jobs := { j with errors := j.errors ++ [message] }

def schedule (j : Jobs) (job : Solved) : Jobs :=
  { j with jobs := j.jobs ++ [job], count := j.count + 1 }

end Jobs

end Pkgng
