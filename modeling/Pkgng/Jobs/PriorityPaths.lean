import Pkgng.Jobs.Reach
import Pkgng.Lib.Depth

/-!
# Priorities are path lengths

The updates that the requests of a job list start raise priorities one step at
a time: along a dependency, to clear a reverse dependency, from a remote package
to an installed one it conflicts with, and from the remote half of a conflict to
the installed half of an upgrade.  So each priority is the length of a path of
such steps, whatever the order of the requests.
-/

set_option autoImplicit false

namespace Pkgng

open Lib

/-- The remote item that `pkg_jobs_update_conflict_priority` looks up. -/
def remotePartner (u : JobsUniverse) (c : Conflict) : Option Addr :=
  (u.chainOf c.uniqueid).find? fun cur => !(u.pkg cur).isInstalled

/-- The updates that the requests start themselves, once upgrades may have been
split. -/
inductive Starts (u : JobsUniverse) (jobs : List Solved) : PriorityUpdate → Addr → Prop
  | plain {req : Solved} (member : req ∈ jobs) (whole : conflictingLocal u req = none) :
      Starts u jobs (requestUpdate req) req.items0
  | remote {req : Solved} {lp : Addr} (member : req ∈ jobs)
      (split : conflictingLocal u req = some lp) : Starts u jobs .request req.items0
  | raised {req : Solved} {lp : Addr} (member : req ∈ jobs)
      (split : conflictingLocal u req = some lp) : Starts u jobs .conflict lp
  | removal {req : Solved} {lp : Addr} (member : req ∈ jobs)
      (split : conflictingLocal u req = some lp) : Starts u jobs .request lp

/-- Some request starts an update that may set the item. -/
def Visits (u : JobsUniverse) (jobs : List Solved) (kind : PriorityUpdate) (it : Addr) : Prop :=
  ∃ type item, Starts u jobs type item ∧ Reaches u type item kind it

/-- The priority of the first item may put that of the second one step above
it. -/
inductive Raises (u : JobsUniverse) (jobs : List Solved) : Addr → Addr → Prop
  | dep {kind : PriorityUpdate} {a b : Addr} {d : Dep} (visited : Visits u jobs kind a)
      (listed : d ∈ kind.depsFunc (u.pkg a)) (inChain : b ∈ u.chainOf d.uid)
      (active : kind.skips (u.pkg b) = false) : Raises u jobs a b
  | rdep {kind : PriorityUpdate} {it a b : Addr} {d : Dep} (visited : Visits u jobs kind it)
      (listed : d ∈ kind.rdepsFunc (u.pkg it)) (inChain : a ∈ u.chainOf d.uid)
      (later : b ∈ u.chain it) (active : kind.skips (u.pkg b) = false) : Raises u jobs a b
  | conflict {kind : PriorityUpdate} {a cur b : Addr} {c : Conflict} (visited : Visits u jobs kind a)
      (remote : (u.pkg a).isInstalled = false) (listed : c ∈ (u.pkg a).conflicts)
      (inChain : cur ∈ u.chainOf c.uniqueid) (installed : (u.pkg cur).isInstalled = true)
      (later : b ∈ u.chain cur) (active : PriorityUpdate.conflict.skips (u.pkg b) = false) :
      Raises u jobs a b
  | partner {req : Solved} {lp a b : Addr} {c : Conflict} (member : req ∈ jobs)
      (split : conflictingLocal u req = some lp) (listed : c ∈ (u.pkg lp).conflicts)
      (found : remotePartner u c = some a) (later : b ∈ u.chain lp)
      (active : PriorityUpdate.conflict.skips (u.pkg b) = false) : Raises u jobs a b

/-- Every priority is the length of a path of raises. -/
def Paths (u : JobsUniverse) (jobs : List Solved) (prio : Priorities) : Prop :=
  ∀ it, prio.of it ∈ edgesTo (Raises u jobs) it

theorem Starts.reachable {u : JobsUniverse} {jobs : List Solved} {type : PriorityUpdate}
    {item : Addr} (reachable : ∀ req ∈ jobs, ∀ item ∈ req.units, item ∈ u.units)
    (starts : Starts u jobs type item) : item ∈ u.units := by
  cases starts with
  | plain member _ => exact reachable _ member _ (List.mem_cons_self ..)
  | remote member _ => exact reachable _ member _ (List.mem_cons_self ..)
  | raised member split =>
      have second := (conflictingLocal_eq_some.mp split).2.1
      exact reachable _ member _ (by simp [Solved.units, second])
  | removal member split =>
      have second := (conflictingLocal_eq_some.mp split).2.1
      exact reachable _ member _ (by simp [Solved.units, second])

section Calls

variable {u : JobsUniverse} {jobs : List Solved} {self : UpdatePriority} {type : PriorityUpdate}
  {item it : Addr} {priority : Nat} {prio : Priorities}

/-- A call may be made: it only sets items that the requests lead to, and its
priority is the length of a path. -/
structure Allowed (u : JobsUniverse) (jobs : List Solved) (type : PriorityUpdate) (item : Addr)
    (priority : Nat) : Prop where
  visits : ∀ kind it, Reaches u type item kind it → Visits u jobs kind it
  path : ∀ it ∈ u.chain item, type.skips (u.pkg it) = false →
    priority ∈ edgesTo (Raises u jobs) it

theorem Starts.allowed (starts : Starts u jobs type item)
    (path : ∀ it ∈ u.chain item, type.skips (u.pkg it) = false →
      priority ∈ edgesTo (Raises u jobs) it) : Allowed u jobs type item priority :=
  ⟨fun _ _ reached => ⟨type, item, starts, reached⟩, path⟩

theorem Paths.set (paths : Paths u jobs prio) (path : priority ∈ edgesTo (Raises u jobs) it) :
    Paths u jobs (prio.set it priority) := by
  intro other
  by_cases same : other = it
  · rw [same, Priorities.set_self]
    exact path
  · rw [Priorities.set_other prio priority same]
    exact paths other

/-- The priority that `rdeps_func` asks for. -/
theorem maxPriority_cases (u : JobsUniverse) (rdeps : List Dep) (prio : Priorities)
    (priority : Nat) :
    maxPriority u rdeps prio priority = priority ∨
      ∃ d ∈ rdeps, ∃ cur ∈ u.chainOf d.uid,
        maxPriority u rdeps prio priority = prio.of cur + 1 := by
  unfold maxPriority
  refine List.foldlRecOn (motive := fun maxpri => maxpri = priority ∨
    ∃ d ∈ rdeps, ∃ cur ∈ u.chainOf d.uid, maxpri = prio.of cur + 1) rdeps _ (Or.inl rfl)
    fun maxpri sofar d member => ?_
  refine List.foldlRecOn (motive := fun maxpri => maxpri = priority ∨
    ∃ d ∈ rdeps, ∃ cur ∈ u.chainOf d.uid, maxpri = prio.of cur + 1) (u.chainOf d.uid) _ sofar
    fun maxpri sofar cur inChain => ?_
  split
  · exact Or.inr ⟨d, member, cur, inChain, rfl⟩
  · exact sofar

/-- Whatever raises a remote item raises what follows it in the chain. -/
theorem Raises.later (inv : u.Chained)
    (reachable : ∀ req ∈ jobs, ∀ item ∈ req.units, item ∈ u.units) {a b other : Addr}
    (raises : Raises u jobs a b) (remote : (u.pkg b).isInstalled = false)
    (after : other ∈ u.chain b) : Raises u jobs a other := by
  have request : ∀ {kind : PriorityUpdate}, kind.skips (u.pkg b) = false →
      kind.skips (u.pkg other) = false := fun active => by
    rw [active_of_remote remote active, PriorityUpdate.skips_request]
  cases raises with
  | dep visited listed inChain active =>
      exact .dep visited listed (JobsUniverse.mem_chainOf_of_mem_chain inv inChain after)
        (request active)
  | rdep visited listed inChain inIt active =>
      refine .rdep visited listed inChain ?_ (request active)
      obtain ⟨root, item, starts, reached⟩ := visited
      have itReachable := reached.mem_units inv (starts.reachable reachable)
      exact (JobsUniverse.spells_chain inv itReachable).chain_subset inIt _ after
  | conflict _ _ _ _ _ _ active => cases active_of_remote remote active
  | partner _ _ _ _ _ active => cases active_of_remote remote active

/-- An allowed call keeps priorities path lengths. -/
def PathsSpec (u : JobsUniverse) (jobs : List Solved) (self : UpdatePriority) : Prop :=
  ∀ (prio : Priorities) (item : Addr) (priority : Nat) (type : PriorityUpdate), item ∈ u.units →
    Allowed u jobs type item priority → Paths u jobs prio →
      Paths u jobs (self prio item priority type)

variable (inv : u.Chained) (reachable : ∀ req ∈ jobs, ∀ item ∈ req.units, item ∈ u.units)

include inv

theorem Visits.of_dep (visited : Visits u jobs type it) {d : Dep} {cur : Addr}
    (listed : d ∈ type.depsFunc (u.pkg it)) (inChain : cur ∈ u.chainOf d.uid) :
    ∀ kind other, Reaches u type cur kind other → Visits u jobs kind other := by
  obtain ⟨root, item, starts, reached⟩ := visited
  exact fun kind other further => ⟨root, item, starts, .of_dep inv reached listed inChain further⟩

omit inv in
theorem Visits.of_conflict (visited : Visits u jobs type it) {c : Conflict} {cur : Addr}
    (remote : (u.pkg it).isInstalled = false) (listed : c ∈ (u.pkg it).conflicts)
    (inChain : cur ∈ u.chainOf c.uniqueid) (installed : (u.pkg cur).isInstalled = true) :
    ∀ kind other, Reaches u .conflict cur kind other → Visits u jobs kind other := by
  obtain ⟨root, item, starts, reached⟩ := visited
  exact fun kind other further =>
    ⟨root, item, starts, .of_conflict reached remote listed inChain installed further⟩

include reachable in
theorem Visits.allowed_again (visited : Visits u jobs type it) (paths : Paths u jobs prio)
    (raised : maxPriority u (type.rdepsFunc (u.pkg it)) prio priority ≠ priority) :
    Allowed u jobs type it (maxPriority u (type.rdepsFunc (u.pkg it)) prio priority) := by
  constructor
  · obtain ⟨root, item, starts, reached⟩ := visited
    exact fun kind other further =>
      ⟨root, item, starts, reached.trans inv (starts.reachable reachable) further⟩
  · intro other later active
    obtain ⟨d, listed, cur, inChain, above⟩ :=
      (maxPriority_cases u _ prio priority).resolve_left raised
    rw [above]
    exact succ_mem_edgesTo (.rdep visited listed inChain later active) (paths cur)

variable (calls : PathsSpec u jobs self)

include calls

theorem paths_raiseDeps (visited : Visits u jobs type it)
    (path : priority ∈ edgesTo (Raises u jobs) it) {deps : List Dep}
    (listed : ∀ d ∈ deps, d ∈ type.depsFunc (u.pkg it)) (paths : Paths u jobs prio) :
    Paths u jobs (raiseDeps u self type priority deps prio) := by
  refine List.foldlRecOn (motive := Paths u jobs) deps _ paths fun prio paths d member => ?_
  refine List.foldlRecOn (motive := Paths u jobs) (u.chainOf d.uid) _ paths
    fun prio paths cur inChain => ?_
  split
  · exact calls prio cur _ type (JobsUniverse.mem_chainOf inv inChain).1
      ⟨visited.of_dep inv (listed d member) inChain, fun other later active =>
        succ_mem_edgesTo (.dep visited (listed d member)
          (JobsUniverse.mem_chainOf_of_mem_chain inv inChain later) active) path⟩ paths
  · exact paths

theorem paths_raiseConflicts (visited : Visits u jobs type it)
    (remote : (u.pkg it).isInstalled = false) {conflicts : List Conflict}
    (listed : ∀ c ∈ conflicts, c ∈ (u.pkg it).conflicts) (paths : Paths u jobs prio) :
    Paths u jobs (raiseConflicts u self it conflicts prio) := by
  refine List.foldlRecOn (motive := Paths u jobs) conflicts _ paths fun prio paths c member => ?_
  refine List.foldlRecOn (motive := Paths u jobs) (u.chainOf c.uniqueid) _ paths
    fun prio paths cur inChain => ?_
  split
  · next installed =>
      split
      · exact calls prio cur _ .conflict (JobsUniverse.mem_chainOf inv inChain).1
          ⟨visited.of_conflict remote (listed c member) inChain installed, fun other later active =>
            succ_mem_edgesTo (.conflict visited remote (listed c member) inChain installed later
              active) (paths it)⟩ paths
      · exact paths
  · exact paths

include reachable

theorem paths_updateItems : ∀ {items : List Addr} {prio : Priorities},
    (∀ it ∈ items, it ∈ u.units ∧ (type.skips (u.pkg it) = false →
      Visits u jobs type it ∧ priority ∈ edgesTo (Raises u jobs) it)) →
    Paths u jobs prio → Paths u jobs (updateItems u self priority type items prio) := by
  intro items
  induction items with
  | nil => exact fun _ paths => paths
  | cons it rest ih =>
      intro prio here paths
      have later : ∀ {mid}, Paths u jobs mid →
          Paths u jobs (updateItems u self priority type rest mid) :=
        ih fun other member => here other (List.mem_cons_of_mem _ member)
      obtain ⟨itReachable, justified⟩ := here it (List.mem_cons_self ..)
      rw [updateItems]
      split
      · exact later paths
      · next active =>
          obtain ⟨visited, path⟩ := justified (by simpa using active)
          split
          · exact later paths
          · dsimp only
            have raised := paths_raiseDeps inv calls visited path
              (fun _ member => member) (paths.set path)
            split
            · next above =>
                exact calls _ it _ type itReachable
                  (visited.allowed_again inv reachable raised above) raised
            · split
              · exact later raised
              · next remote =>
                  exact later (paths_raiseConflicts inv calls visited (by simpa using remote)
                    (fun _ member => member) raised)

omit calls in
/-- `pkg_jobs_update_universe_item_priority`. -/
theorem paths_updateItemPriority : ∀ depth, PathsSpec u jobs (updateItemPriority u depth) := by
  intro depth
  induction depth with
  | zero => exact fun _ _ _ _ _ _ paths => paths
  | succ depth ih =>
      intro prio item priority type itemReachable allowed paths
      rw [updateItemPriority]
      split
      · exact paths
      · exact paths_updateItems inv reachable ih
          (fun it later => ⟨(JobsUniverse.mem_chain inv itemReachable later).1, fun active =>
            ⟨allowed.visits type it (.here later active), allowed.path it later active⟩⟩) paths

end Calls

end Pkgng
