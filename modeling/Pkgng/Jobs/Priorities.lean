import Pkgng.Jobs.Basic
import Mathlib.Data.List.Sort

/-!
# Job priorities

`pkg_jobs_set_priorities` gives the items of the jobs priorities, which the
recursion of `pkg_jobs_update_universe_item_priority` carries along the
dependencies, and sorts the jobs by them.  The priorities of the items are a map
of their own; they start at the zero of `calloc`.
-/

set_option autoImplicit false

namespace Pkgng

open Lib

def recursionLimit : Nat := 1024

/-- `enum pkg_priority_update_type`. -/
inductive PriorityUpdate
  | request
  | conflict
  | delete
deriving DecidableEq, Repr

/-- The `priority` fields of the items, and the warnings printed. -/
structure Priorities where
  of : Addr → Nat := fun _ => 0
  warnings : List String := []

namespace Priorities

def set (prio : Priorities) (item : Addr) (priority : Nat) : Priorities :=
  { prio with of := Function.update prio.of item priority }

def warn (prio : Priorities) : Priorities :=
  { prio with warnings := prio.warnings ++ ["recursion limit has been reached, " ++
      "something is bad with dependencies/conflicts graph"] }

@[simp] theorem set_warnings (prio : Priorities) (item : Addr) (priority : Nat) :
    (prio.set item priority).warnings = prio.warnings := rfl

@[simp] theorem set_self (prio : Priorities) (item : Addr) (priority : Nat) :
    (prio.set item priority).of item = priority := Function.update_self ..

theorem set_other (prio : Priorities) {item other : Addr} (priority : Nat) (apart : other ≠ item) :
    (prio.set item priority).of other = prio.of other := Function.update_of_ne apart ..

@[simp] theorem warn_of (prio : Priorities) : prio.warn.of = prio.of := rfl

end Priorities

/-- For deletions the two directions are exchanged. -/
def PriorityUpdate.depsFunc (type : PriorityUpdate) (pkg : Pkg) : List Dep :=
  if type = .delete then pkg.rdeps else pkg.deps

def PriorityUpdate.rdepsFunc (type : PriorityUpdate) (pkg : Pkg) : List Dep :=
  if type = .delete then pkg.deps else pkg.rdeps

/-- Items that an update of the type passes over.  The source also asks for a
neighbour in the chain, but the `prev` link of an item is never null. -/
def PriorityUpdate.skips (type : PriorityUpdate) (pkg : Pkg) : Bool :=
  !pkg.isInstalled && (decide (type = .conflict) || decide (type = .delete))

@[simp] theorem PriorityUpdate.skips_request (pkg : Pkg) :
    PriorityUpdate.request.skips pkg = false := by
  simp [skips]

/-- A call of `pkg_jobs_update_universe_item_priority`. -/
abbrev UpdatePriority := Priorities → Addr → Nat → PriorityUpdate → Priorities

section Update

variable (u : JobsUniverse) (self : UpdatePriority)

/-- The loop over `deps_func`. -/
def raiseDeps (type : PriorityUpdate) (priority : Nat) (deps : List Dep) (prio : Priorities) :
    Priorities :=
  deps.foldl (fun prio d =>
    (u.chainOf d.uid).foldl (fun prio cur =>
      if prio.of cur < priority + 1 then self prio cur (priority + 1) type else prio) prio) prio

/-- The loop over `rdeps_func`. -/
def maxPriority (rdeps : List Dep) (prio : Priorities) (priority : Nat) : Nat :=
  rdeps.foldl (fun maxpri d =>
    (u.chainOf d.uid).foldl (fun maxpri cur =>
      if maxpri ≤ prio.of cur then prio.of cur + 1 else maxpri) maxpri) priority

/-- The loop over the conflicts of a remote package. -/
def raiseConflicts (it : Addr) (conflicts : List Conflict) (prio : Priorities) : Priorities :=
  conflicts.foldl (fun prio c =>
    (u.chainOf c.uniqueid).foldl (fun prio cur =>
      if (u.pkg cur).isInstalled then
        if prio.of cur ≤ prio.of it then self prio cur (prio.of it + 1) .conflict else prio
      else prio) prio) prio

/-- The `LL_FOREACH` over the items of a chain from a given one on. -/
def updateItems (priority : Nat) (type : PriorityUpdate) : List Addr → Priorities → Priorities
  | [], prio => prio
  | it :: rest, prio =>
      if type.skips (u.pkg it) then updateItems priority type rest prio
      else if priority < prio.of it then updateItems priority type rest prio
      else
        let prio := prio.set it priority
        let prio := raiseDeps u self type priority (type.depsFunc (u.pkg it)) prio
        let maxpri := maxPriority u (type.rdepsFunc (u.pkg it)) prio priority
        if maxpri ≠ priority then self prio it maxpri type
        else if (u.pkg it).isInstalled then updateItems priority type rest prio
        else
          updateItems priority type rest (raiseConflicts u self it (u.pkg it).conflicts prio)

end Update

/-- `pkg_jobs_update_universe_item_priority`.  Every recursive call is made with
a higher priority, so the depth that the recursion limit leaves is enough. -/
def updateItemPriority (u : JobsUniverse) : Nat → UpdatePriority
  | 0, prio, _, _, _ => prio.warn
  | depth + 1, prio, item, priority, type =>
      if recursionLimit < priority then prio.warn
      else updateItems u (updateItemPriority u depth) priority type (u.chain item) prio

def pkgJobsUpdateUniverseItemPriority (u : JobsUniverse) : UpdatePriority :=
  updateItemPriority u (recursionLimit + 1)

def pkgJobsUpdateUniversePriority (u : JobsUniverse) (prio : Priorities) (item : Addr)
    (type : PriorityUpdate) : Priorities :=
  pkgJobsUpdateUniverseItemPriority u prio item 0 type

/-- One turn of the loop of `pkg_jobs_update_conflict_priority`; `none` where an
assertion fails. -/
def updateConflictPriority (u : JobsUniverse) (items0 items1 : Addr) (prio : Priorities)
    (c : Conflict) : Option Priorities := do
  let found ← u.find c.uniqueid
  let rit ← (u.chain found).find? fun cur => !(u.pkg cur).isInstalled
  if prio.of items1 ≤ prio.of rit then
    let prio := pkgJobsUpdateUniverseItemPriority u prio items1 (prio.of rit + 1) .conflict
    pure (pkgJobsUpdateUniverseItemPriority u prio items0 (prio.of items0) .request)
  else pure prio

def pkgJobsUpdateConflictPriority (u : JobsUniverse) (items0 items1 : Addr) (prio : Priorities) :
    Option Priorities :=
  (u.pkg items1).conflicts.foldlM (updateConflictPriority u items0 items1) prio

/-- The installed half of an upgrade whose package holds conflicts. -/
def conflictingLocal (u : JobsUniverse) (req : Solved) : Option Addr :=
  if req.type = .upgrade then req.items1.filter fun lp => (u.pkg lp).conflicts ≠ [] else none

/-- The job that removes the installed half of an upgrade beforehand. -/
def removalOf (lp : Addr) : Solved := { items0 := lp, type := .upgradeRemove }

/-- `pkg_jobs_set_request_priority`: the priorities, and the installed item if
the request has to be split. -/
def pkgJobsSetRequestPriority (u : JobsUniverse) (req : Solved) (prio : Priorities) :
    Option (Priorities × Option Addr) :=
  match conflictingLocal u req with
  | some lp => do
      let prio ←
        if prio.of req.items0 = 0 then pkgJobsUpdateConflictPriority u req.items0 lp prio
        else some prio
      if prio.of req.items0 < prio.of lp && !req.alreadyDeleted then pure (prio, some lp)
      else pure (prio, none)
  | none =>
      if prio.of req.items0 = 0 then
        let type := if req.type = .delete then PriorityUpdate.delete else .request
        some (pkgJobsUpdateUniversePriority u prio req.items0 type, none)
      else some (prio, none)

theorem conflictingLocal_eq_some {u : JobsUniverse} {req : Solved} {lp : Addr} :
    conflictingLocal u req = some lp ↔
      req.type = .upgrade ∧ req.items1 = some lp ∧ (u.pkg lp).conflicts ≠ [] := by
  unfold conflictingLocal
  split
  · next upgrade => simp [upgrade, Option.filter_eq_some_iff]
  · next other => simp [other]

/-- The type of the update that a request without a split makes. -/
def requestUpdate (req : Solved) : PriorityUpdate :=
  if req.type = .delete then .delete else .request

/-- The second `LL_FOREACH` of `pkg_jobs_set_priorities`, with the requests
already seen in front: the list, with a request split if one had to be. -/
def setRequestPriorities (u : JobsUniverse) : List Solved → List Solved → Priorities →
    Option (List Solved × Priorities × Bool)
  | seen, [], prio => some (seen, prio, false)
  | seen, req :: rest, prio => do
      let (prio, split) ← pkgJobsSetRequestPriority u req prio
      match split with
      | some lp =>
          pure (seen ++ { req with alreadyDeleted := true } :: rest ++ [removalOf lp], prio, true)
      | none => setRequestPriorities u (seen ++ [req]) rest prio

/-- The first `LL_FOREACH`. -/
def resetPriorities (jobs : List Solved) (prio : Priorities) : Priorities :=
  jobs.foldl (fun prio req => req.units.foldl (fun prio item => prio.set item 0) prio) prio

theorem resetPriorities_of (jobs : List Solved) (prio : Priorities) (item : Addr) :
    (resetPriorities jobs prio).of item =
      if ∃ req ∈ jobs, item ∈ req.units then 0 else prio.of item := by
  have units : ∀ (items : List Addr) (prio : Priorities),
      (items.foldl (fun prio item => prio.set item 0) prio).of item =
        if item ∈ items then 0 else prio.of item := by
    intro items
    induction items with
    | nil => simp
    | cons first rest ih =>
        intro prio
        rw [List.foldl_cons, ih]
        by_cases same : item = first
        · simp [same]
        · simp [same, Priorities.set_other prio 0 same]
  rw [resetPriorities, ← List.foldl_flatMap, units]
  simp only [List.mem_flatMap]

/-- The code from the label `iter_again` up to the sort.  A turn more than there
are requests to split is enough. -/
def iterPriorities (u : JobsUniverse) : Nat → List Solved → Priorities →
    Option (List Solved × Priorities)
  | 0, _, _ => none
  | turns + 1, jobs, prio => do
      let (jobs, prio, again) ← setRequestPriorities u [] jobs (resetPriorities jobs prio)
      if again then iterPriorities u turns jobs prio else pure (jobs, prio)

def pkgJobsSortPriority (prio : Priorities) (r1 r2 : Solved) : Int :=
  if prio.of r1.items0 = prio.of r2.items0 then
    if r1.type = .delete ∧ r2.type ≠ .delete then -1
    else if r2.type = .delete ∧ r1.type ≠ .delete then 1
    else 0
  else (prio.of r2.items0 : Int) - prio.of r1.items0

/-- `DL_SORT`, which is stable. -/
def sortJobs (prio : Priorities) (jobs : List Solved) : List Solved :=
  jobs.insertionSort fun r1 r2 => pkgJobsSortPriority prio r1 r2 ≤ 0

/-- `pkg_jobs_set_priorities`; `none` where an assertion fails. -/
def pkgJobsSetPriorities (u : JobsUniverse) (jobs : List Solved) (prio : Priorities) :
    Option (List Solved × Priorities) := do
  let (jobs, prio) ← iterPriorities u (jobs.length + 1) jobs prio
  pure (sortJobs prio jobs, prio)

/-- The jobs and the priorities after a number of passes over a fresh universe.
A job that stops at a conflict sets the priorities once more when it is applied
again. -/
def passes (u : JobsUniverse) (jobs : List Solved) : Nat → Option (List Solved × Priorities)
  | 0 => some (jobs, {})
  | n + 1 => do
      let (jobs, prio) ← passes u jobs n
      pkgJobsSetPriorities u jobs prio

/-! ## The sort -/

section Sorting

variable {prio : Priorities} {jobs : List Solved}

instance (prio : Priorities) :
    Std.Total fun r1 r2 => pkgJobsSortPriority prio r1 r2 ≤ 0 where
  total r1 r2 := by
    unfold pkgJobsSortPriority
    split <;> split <;> grind

instance (prio : Priorities) :
    IsTrans Solved fun r1 r2 => pkgJobsSortPriority prio r1 r2 ≤ 0 where
  trans r1 r2 r3 first second := by
    unfold pkgJobsSortPriority at *
    grind

theorem sortJobs_perm (prio : Priorities) (jobs : List Solved) : (sortJobs prio jobs).Perm jobs :=
  List.perm_insertionSort _ jobs

/-- A job of higher priority comes first. -/
theorem sortJobs_precedes {i k : Nat} {a b : Solved} (atI : (sortJobs prio jobs)[i]? = some a)
    (atK : (sortJobs prio jobs)[k]? = some b) (higher : prio.of a.items0 < prio.of b.items0) :
    k < i := by
  have sorted : (sortJobs prio jobs).Pairwise fun r1 r2 => pkgJobsSortPriority prio r1 r2 ≤ 0 :=
    List.pairwise_insertionSort _ jobs
  by_contra notBefore
  rcases Nat.lt_or_eq_of_le (Nat.le_of_not_lt notBefore) with before | same
  · obtain ⟨iBelow, atI⟩ := List.getElem?_eq_some_iff.mp atI
    obtain ⟨kBelow, atK⟩ := List.getElem?_eq_some_iff.mp atK
    have inOrder := List.pairwise_iff_getElem.mp sorted i k iBelow kBelow before
    rw [atI, atK, pkgJobsSortPriority, if_neg (Nat.ne_of_lt higher)] at inOrder
    omega
  · rw [same, atK] at atI
    cases atI
    exact Nat.lt_irrefl _ higher

end Sorting

end Pkgng
