import Pkgng.Jobs.PriorityPaths
import Pkgng.Lib.StableSort

/-!
# Split upgrades

An upgrade whose installed half holds conflicts is split when its installed half
gets the higher priority: the removal of the installed half becomes a job of its
own, which has to come before the upgrade.  The priority of the remote half may
be raised by later requests, while that of the installed half follows its
conflicts only; this module says when nothing of the kind happens.
-/

set_option autoImplicit false

namespace Pkgng

open Lib

/-- A job list as the solver leaves it: no two packages of one uid to install,
an upgrade from an installed to a remote package, and nothing split yet. -/
structure SolverJobs (u : JobsUniverse) (jobs : List Solved) : Prop where
  reachable : ∀ req ∈ jobs, ∀ item ∈ req.units, item ∈ u.units
  distinct : ((jobs.filter fun req => decide (req.type ≠ .delete)).map
    fun req => (u.pkg req.items0).uid).Nodup
  upgrades : ∀ req ∈ jobs, req.type = .upgrade → ∀ lp ∈ req.items1,
    (u.pkg lp).isInstalled = true ∧ (u.pkg req.items0).isInstalled = false ∧
      (u.pkg lp).uid = (u.pkg req.items0).uid
  unsplit : ∀ req ∈ jobs, req.type ≠ .upgradeRemove ∧ req.alreadyDeleted = false

/-- Nothing that the requests lead to depends on the uid of the upgrade, no
package of its chain lists a reverse dependency that is in the universe, its
installed half apart, and the remote halves of its conflicts stay below the
recursion limit. -/
structure Undisturbed (u : JobsUniverse) (jobs : List Solved) (remote lp : Addr) : Prop where
  noDependent : ∀ it, Visits u jobs .request it → (u.pkg remote).uid ∉ (u.pkg it).depUids
  noReverse : ∀ it ∈ u.chainOf (u.pkg remote).uid, it ≠ lp → ∀ d ∈ (u.pkg it).rdeps,
    u.chainOf d.uid = []
  belowLimit : ∀ c ∈ (u.pkg lp).conflicts, ∀ rit, remotePartner u c = some rit →
    ∀ edges ∈ edgesTo (Raises u jobs) rit, edges < recursionLimit

theorem upgrade_kept {u : JobsUniverse} {req : Solved} {lp : Addr}
    (split : conflictingLocal u req = some lp) : req.type ≠ .delete := fun deletes => by
  rw [(conflictingLocal_eq_some.mp split).1] at deletes
  cases deletes

/-- A call within the limit gives its item at least its priority. -/
theorem le_updateItemPriority {u : JobsUniverse} (inv : u.Chained) {prio : Priorities} {item : Addr}
    {priority : Nat} {type : PriorityUpdate} (depth : Nat) (reachable : item ∈ u.units)
    (within : priority ≤ recursionLimit) (active : type.skips (u.pkg item) = false) :
    priority ≤ (updateItemPriority u (depth + 1) prio item priority type).of item := by
  obtain ⟨rest, here, _⟩ := JobsUniverse.exists_chain_cons inv reachable
  have spells := JobsUniverse.spells_chain inv reachable
  have units : ∀ it ∈ u.chain item, it ∈ u.units := fun it later =>
    (JobsUniverse.mem_chain inv reachable later).1
  rw [here] at spells units
  have calls := touches_updateItemPriority inv depth
  have later : ∀ mid : Priorities, priority ≤ mid.of item →
      priority ≤ (updateItems u (updateItemPriority u depth) priority type rest mid).of item :=
    fun mid high => Nat.le_trans high ((touches_updateItems inv calls spells.2
      fun it member => units it (List.mem_cons_of_mem _ member)).mono item)
  rw [updateItemPriority, if_neg (Nat.not_lt.mpr within), here, updateItems, if_neg (by simp [active])]
  split
  · next above => exact later prio (Nat.le_of_lt above)
  · dsimp only
    have raised : priority ≤ (raiseDeps u (updateItemPriority u depth) type priority
        (type.depsFunc (u.pkg item)) (prio.set item priority)).of item := by
      have mono : (prio.set item priority).of item ≤ (raiseDeps u (updateItemPriority u depth) type
          priority (type.depsFunc (u.pkg item)) (prio.set item priority)).of item :=
        (touches_raiseDeps inv calls _).mono item
      rwa [Priorities.set_self] at mono
    split
    · exact Nat.le_trans raised ((calls _ item _ type reachable).mono item)
    · split
      · exact later _ raised
      · exact later _ (Nat.le_trans raised ((touches_raiseConflicts inv calls item _).mono item))

section Pair

variable {u : JobsUniverse} {jobs : List Solved} {self : UpdatePriority} {req : Solved} {lp : Addr}
  {type kind : PriorityUpdate} {item it : Addr} {priority bound : Nat} {prio : Priorities}
variable (inv : u.Chained) (solved : SolverJobs u jobs) (member : req ∈ jobs)
  (split : conflictingLocal u req = some lp) (undisturbed : Undisturbed u jobs req.items0 lp)

include split solved member in
theorem halves : req.items0 ∈ u.units ∧ lp ∈ u.units ∧ (u.pkg lp).isInstalled = true ∧
    (u.pkg req.items0).isInstalled = false ∧ (u.pkg lp).uid = (u.pkg req.items0).uid := by
  obtain ⟨upgrade, second, _⟩ := conflictingLocal_eq_some.mp split
  exact ⟨solved.reachable req member _ (List.mem_cons_self ..),
    solved.reachable req member _ (by simp [Solved.units, second]),
    solved.upgrades req member upgrade lp second⟩

include inv undisturbed in
/-- The chain of the upgrade is reached by a request from inside the chain
only. -/
theorem reaches_inside (visits : ∀ kind it, Reaches u type item kind it → Visits u jobs kind it)
    (reached : Reaches u type item .request it) (inChain : it ∈ u.chainOf (u.pkg req.items0).uid) :
    type = .request ∧ it ∈ u.chain item := by
  cases reached with
  | here later _ => exact ⟨rfl, later⟩
  | dep before listed inDep _ =>
      have sameUid := (JobsUniverse.mem_chainOf inv inChain).2.1
      rw [(JobsUniverse.mem_chainOf inv inDep).2.1] at sameUid
      refine absurd ?_ (undisturbed.noDependent _ (visits _ _ before))
      rw [← sameUid]
      exact List.mem_map_of_mem listed

include inv solved member split undisturbed in
theorem reaches_remote (visits : ∀ kind it, Reaches u type item kind it → Visits u jobs kind it)
    (reached : Reaches u type item kind req.items0) :
    type = .request ∧ req.items0 ∈ u.chain item := by
  obtain ⟨reachable, _, _, remote, _⟩ := halves solved member split
  have request := active_of_remote remote reached.active
  rw [request] at reached
  exact reaches_inside inv undisturbed visits reached (JobsUniverse.mem_chainOf_uid inv reachable)

variable (calls : FrameSpec u self)

include inv solved member split undisturbed calls in
theorem raiseDeps_remote (visited : Visits u jobs .request it) :
    (raiseDeps u self .request priority (PriorityUpdate.request.depsFunc (u.pkg it)) prio).of
        req.items0 =
      prio.of req.items0 := by
  obtain ⟨reachable, _⟩ := halves solved member split
  refine (touches_raiseDeps inv calls _).unchanged ?_
  rintro ⟨d, listed, cur, inChain, kind, reached⟩
  obtain ⟨_, later⟩ := reaches_remote inv solved member split undisturbed
    (visited.of_dep inv listed inChain) reached
  have curUid := (JobsUniverse.mem_chainOf inv inChain).2.1
  have sameUid := (JobsUniverse.mem_chain inv (JobsUniverse.mem_chainOf inv inChain).1 later).2
  refine undisturbed.noDependent _ visited ?_
  rw [sameUid, curUid]
  exact List.mem_map_of_mem listed

include inv solved member split undisturbed calls in
theorem raiseConflicts_remote (visited : Visits u jobs type it)
    (remote : (u.pkg it).isInstalled = false) :
    (raiseConflicts u self it (u.pkg it).conflicts prio).of req.items0 = prio.of req.items0 := by
  refine (touches_raiseConflicts inv calls it _).unchanged ?_
  rintro ⟨c, listed, cur, inChain, installed, kind, reached⟩
  obtain ⟨request, _⟩ := reaches_remote inv solved member split undisturbed
    (visited.of_conflict remote listed inChain installed) reached
  cases request

omit calls in
include undisturbed in
theorem maxPriority_inside (inChain : it ∈ u.chainOf (u.pkg req.items0).uid) (apart : it ≠ lp) :
    maxPriority u (PriorityUpdate.request.rdepsFunc (u.pkg it)) prio priority = priority := by
  rcases maxPriority_cases u (u.pkg it).rdeps prio priority with same | ⟨d, listed, cur, inDep, _⟩
  · exact same
  · rw [undisturbed.noReverse it inChain apart d listed] at inDep
    cases inDep

include inv solved member split undisturbed calls in
/-- The rest of a walk along the chain, past the installed half, leaves the
remote half at the priority of the walk. -/
theorem updateItems_inside : ∀ {items : List Addr} {prio : Priorities}, u.Spells items →
    (∀ it ∈ items, it ∈ u.chainOf (u.pkg req.items0).uid ∧ it ≠ lp ∧ Visits u jobs .request it) →
    priority ≤ bound → prio.of req.items0 ≤ bound →
    (updateItems u self priority .request items prio).of req.items0 ≤ bound := by
  intro items
  induction items with
  | nil => exact fun _ _ _ low => low
  | cons it rest ih =>
      intro prio spells inside within low
      have later : ∀ {mid : Priorities}, mid.of req.items0 ≤ bound →
          (updateItems u self priority .request rest mid).of req.items0 ≤ bound :=
        ih spells.2 (fun other member => inside other (List.mem_cons_of_mem _ member)) within
      obtain ⟨inChain, apart, visited⟩ := inside it (List.mem_cons_self ..)
      rw [updateItems, if_neg (by simp)]
      split
      · exact later low
      · dsimp only
        have set : (prio.set it priority).of req.items0 ≤ bound := by
          by_cases same : req.items0 = it
          · rw [same, Priorities.set_self]
            exact within
          · rw [Priorities.set_other prio priority same]
            exact low
        have raised : (raiseDeps u self .request priority
            (PriorityUpdate.request.depsFunc (u.pkg it)) (prio.set it priority)).of req.items0 ≤
              bound := Nat.le_trans (Nat.le_of_eq
                (raiseDeps_remote inv solved member split undisturbed calls visited)) set
        rw [if_neg (not_not.mpr (maxPriority_inside undisturbed inChain apart))]
        split
        · exact later raised
        · next remote =>
            refine later (Nat.le_trans (Nat.le_of_eq ?_) raised)
            exact raiseConflicts_remote inv solved member split undisturbed calls visited
              (by simpa using remote)

omit calls in
include inv solved member split undisturbed in
/-- The request of the removal raises the remote half no higher than the
installed one. -/
theorem updateItemPriority_removal : ∀ {depth priority : Nat} {prio : Priorities},
    prio.of req.items0 ≤ prio.of lp →
    (updateItemPriority u depth prio lp priority .request).of req.items0 ≤
      (updateItemPriority u depth prio lp priority .request).of lp := by
  obtain ⟨reachable, lpReachable, installed, remote, sameUid⟩ := halves solved member split
  obtain ⟨rest, here, apart⟩ := JobsUniverse.exists_chain_cons inv lpReachable
  have spells := JobsUniverse.spells_chain inv lpReachable
  have inChain : ∀ it ∈ u.chain lp, it ∈ u.chainOf (u.pkg req.items0).uid := fun it later => by
    rw [← sameUid]
    exact JobsUniverse.mem_chainOf_of_mem_chain inv
      (JobsUniverse.mem_chainOf_uid inv lpReachable) later
  have visited : ∀ it ∈ u.chain lp, Visits u jobs .request it := fun it later =>
    ⟨.request, lp, .removal member split, .here later (by simp)⟩
  have lpVisited := visited lp (JobsUniverse.mem_chain_self inv lpReachable)
  have different : req.items0 ≠ lp := fun same => by
    rw [same, installed] at remote
    cases remote
  rw [here] at spells inChain visited
  intro depth
  induction depth with
  | zero => exact fun low => low
  | succ depth ih =>
      intro priority prio low
      have calls := touches_updateItemPriority inv depth
      -- The walk over what follows the installed half.
      have later : ∀ mid : Priorities, mid.of req.items0 ≤ mid.of lp → priority ≤ mid.of lp →
          (updateItems u (updateItemPriority u depth) priority .request rest mid).of req.items0 ≤
            (updateItems u (updateItemPriority u depth) priority .request rest mid).of lp :=
        fun mid low within => Nat.le_trans
          (updateItems_inside inv solved member split undisturbed calls spells.2
            (fun it member => ⟨inChain it (List.mem_cons_of_mem _ member),
              fun same => apart (same ▸ member), visited it (List.mem_cons_of_mem _ member)⟩)
            within low)
          ((touches_updateItems inv calls spells.2 fun it member =>
            (JobsUniverse.mem_chain inv lpReachable
              (here ▸ List.mem_cons_of_mem _ member)).1).mono lp)
      rw [updateItemPriority]
      split
      · exact low
      · rw [here, updateItems, if_neg (by simp)]
        split
        · next above => exact later prio low (Nat.le_of_lt above)
        · next old =>
            dsimp only
            generalize result : raiseDeps u (updateItemPriority u depth) .request priority
              (PriorityUpdate.request.depsFunc (u.pkg lp)) (prio.set lp priority) = mid
            have kept : mid.of req.items0 = prio.of req.items0 := by
              rw [← result, raiseDeps_remote inv solved member split undisturbed calls lpVisited]
              exact Priorities.set_other prio priority different
            have within : priority ≤ mid.of lp := by
              have mono : (prio.set lp priority).of lp ≤ mid.of lp := by
                rw [← result]
                exact (touches_raiseDeps inv calls _).mono lp
              rwa [Priorities.set_self] at mono
            have midLow : mid.of req.items0 ≤ mid.of lp := by omega
            split
            · exact ih midLow
            · exact later mid midLow within

omit calls in
include inv solved member split undisturbed in
/-- The update of the remote half itself leaves it at zero. -/
theorem updateItemPriority_upgrade {depth : Nat} (zero : prio.of req.items0 = 0) :
    (updateItemPriority u (depth + 1) prio req.items0 0 .request).of req.items0 = 0 := by
  obtain ⟨reachable, lpReachable, installed, remote, sameUid⟩ := halves solved member split
  obtain ⟨rest, here, apart⟩ := JobsUniverse.exists_chain_cons inv reachable
  have spells := JobsUniverse.spells_chain inv reachable
  have calls := touches_updateItemPriority inv depth
  have visited : ∀ it ∈ u.chain req.items0, Visits u jobs .request it := fun it later =>
    ⟨.request, req.items0, .remote member split, .here later (by simp)⟩
  have visitedSelf := visited _ (JobsUniverse.mem_chain_self inv reachable)
  have different : req.items0 ≠ lp := fun same => by
    rw [same, installed] at remote
    cases remote
  have units : ∀ it ∈ rest, it ∈ u.units := fun it member =>
    (JobsUniverse.mem_chain inv reachable (here ▸ List.mem_cons_of_mem _ member)).1
  rw [here] at spells visited
  -- The walk over what follows the remote half does not come back to it.
  have later : ∀ mid : Priorities,
      (updateItems u (updateItemPriority u depth) 0 .request rest mid).of req.items0 =
        mid.of req.items0 := by
    intro mid
    refine (touches_updateItems inv calls spells.2 units).unchanged ?_
    rintro ⟨it, inRest, kind, reached⟩
    have visits : ∀ kind other, Reaches u .request it kind other → Visits u jobs kind other :=
      fun kind other further => ⟨.request, req.items0, .remote member split,
        further.of_later fun x deeper => by
          rw [here]
          exact List.mem_cons_of_mem _ (spells.2.chain_subset inRest x deeper)⟩
    obtain ⟨_, back⟩ := reaches_remote inv solved member split undisturbed visits reached
    exact apart (spells.2.chain_subset inRest _ back)
  rw [updateItemPriority, if_neg (by omega), here, updateItems,
    if_neg (by simp), if_neg (by omega)]
  dsimp only
  rw [if_neg (not_not.mpr (maxPriority_inside undisturbed
    (JobsUniverse.mem_chainOf_uid inv reachable) different)), if_neg (by simp [remote]), later,
    raiseConflicts_remote inv solved member split undisturbed calls visitedSelf remote]
  refine (raiseDeps_remote inv solved member split undisturbed calls visitedSelf).trans ?_
  exact Priorities.set_self ..

end Pair

/-! ## The turn of a request -/

/-- The requests that the list holds while it is worked on. -/
inductive Listed (u : JobsUniverse) (jobs : List Solved) : Solved → Prop
  | job {req : Solved} (flag : Bool) (member : req ∈ jobs) :
      Listed u jobs { req with alreadyDeleted := flag }
  | removal {req : Solved} {lp : Addr} (member : req ∈ jobs)
      (split : conflictingLocal u req = some lp) : Listed u jobs (removalOf lp)

theorem updateConflictPriority_cases {u : JobsUniverse} {items0 items1 : Addr}
    {prio prio' : Priorities} {c : Conflict}
    (ran : updateConflictPriority u items0 items1 prio c = some prio') :
    ∃ rit, remotePartner u c = some rit ∧
      ((prio.of rit < prio.of items1 ∧ prio' = prio) ∨
        (prio.of items1 ≤ prio.of rit ∧ prio' =
          let mid := pkgJobsUpdateUniverseItemPriority u prio items1 (prio.of rit + 1) .conflict
          pkgJobsUpdateUniverseItemPriority u mid items0 (mid.of items0) .request)) := by
  unfold updateConflictPriority at ran
  obtain ⟨found, isFound, ran⟩ := Option.bind_eq_some_iff.mp ran
  obtain ⟨rit, isRit, ran⟩ := Option.bind_eq_some_iff.mp ran
  refine ⟨rit, by simpa [remotePartner, JobsUniverse.chainOf, isFound] using isRit, ?_⟩
  split at ran
  · next high => exact Or.inr ⟨high, (Option.some.inj ran).symm⟩
  · next low => exact Or.inl ⟨Nat.lt_of_not_le low, (Option.some.inj ran).symm⟩

/-- Everything the turn of a request can do. -/
theorem pkgJobsSetRequestPriority_cases {u : JobsUniverse} {req : Solved}
    {prio prio' : Priorities} {result : Option Addr}
    (ran : pkgJobsSetRequestPriority u req prio = some (prio', result)) :
    (result = none ∨ result = conflictingLocal u req ∧ req.alreadyDeleted = false) ∧
    ((prio.of req.items0 ≠ 0 ∧ prio' = prio) ∨
      (prio.of req.items0 = 0 ∧ conflictingLocal u req = none ∧
        prio' = pkgJobsUpdateUniverseItemPriority u prio req.items0 0 (requestUpdate req)) ∨
      ∃ lp, prio.of req.items0 = 0 ∧ conflictingLocal u req = some lp ∧
        pkgJobsUpdateConflictPriority u req.items0 lp prio = some prio') := by
  unfold pkgJobsSetRequestPriority at ran
  cases split : conflictingLocal u req with
  | none =>
      rw [split] at ran
      dsimp only at ran
      split at ran
      · next zero =>
          obtain ⟨rfl, rfl⟩ := Prod.mk.inj (Option.some.inj ran)
          exact ⟨Or.inl rfl, Or.inr (Or.inl ⟨zero, rfl, rfl⟩)⟩
      · next positive =>
          obtain ⟨rfl, rfl⟩ := Prod.mk.inj (Option.some.inj ran)
          exact ⟨Or.inl rfl, Or.inl ⟨positive, rfl⟩⟩
  | some lp =>
      rw [split] at ran
      dsimp only at ran
      have ending : ∀ mid, (if mid.of req.items0 < mid.of lp && !req.alreadyDeleted then
            some (mid, some lp) else some (mid, none)) = some (prio', result) →
          prio' = mid ∧ (result = none ∨ result = some lp ∧ req.alreadyDeleted = false) := by
        intro mid ran
        split at ran
        · next isSplit =>
            obtain ⟨rfl, rfl⟩ := Prod.mk.inj (Option.some.inj ran)
            exact ⟨rfl, Or.inr ⟨rfl, by simpa using (Bool.and_eq_true_iff.mp isSplit).2⟩⟩
        · obtain ⟨rfl, rfl⟩ := Prod.mk.inj (Option.some.inj ran)
          exact ⟨rfl, Or.inl rfl⟩
      split at ran
      · next zero =>
          obtain ⟨mid, update, ran⟩ := Option.bind_eq_some_iff.mp ran
          obtain ⟨rfl, results⟩ := ending mid ran
          exact ⟨results, Or.inr (Or.inr ⟨lp, zero, rfl, update⟩)⟩
      · next positive =>
          obtain ⟨rfl, results⟩ := ending prio ran
          exact ⟨results, Or.inl ⟨positive, rfl⟩⟩

section Turn

variable {u : JobsUniverse} {jobs : List Solved} {req other : Solved} {lp : Addr}
  {prio prio' : Priorities} {result : Option Addr} {c : Conflict}
/-- A request that may be split is one of the original ones. -/
theorem Listed.original (listed : Listed u jobs other)
    (split : conflictingLocal u other = some lp) :
    ∃ req ∈ jobs, conflictingLocal u req = some lp ∧ req.items0 = other.items0 := by
  cases listed with
  | job flag member => exact ⟨_, member, split, rfl⟩
  | removal _ _ => cases split

theorem Listed.flag (listed : Listed u jobs other) (flag : Bool)
    (split : conflictingLocal u other = some lp) :
    Listed u jobs { other with alreadyDeleted := flag } := by
  cases listed with
  | job _ member =>
      have flagged := Listed.job (u := u) flag member
      exact flagged
  | removal _ _ => cases split

/-- What a listed request starts, some original request starts. -/
theorem Listed.starts (listed : Listed u jobs other) {type : PriorityUpdate} {item : Addr}
    (starts : Starts u [other] type item) : Starts u jobs type item := by
  cases starts with
  | plain own whole =>
      obtain rfl := List.mem_singleton.mp own
      cases listed with
      | job flag member =>
          have original := Starts.plain member whole
          exact original
      | removal member split => exact .removal member split
  | remote own split =>
      obtain rfl := List.mem_singleton.mp own
      obtain ⟨req, member, splitReq, same⟩ := listed.original split
      exact same ▸ .remote member splitReq
  | raised own split =>
      obtain rfl := List.mem_singleton.mp own
      obtain ⟨req, member, splitReq, _⟩ := listed.original split
      exact .raised member splitReq
  | removal own split =>
      obtain rfl := List.mem_singleton.mp own
      obtain ⟨req, member, splitReq, _⟩ := listed.original split
      exact .removal member splitReq

variable (inv : u.Chained) (solved : SolverJobs u jobs)

include inv solved

omit inv in
theorem Listed.reachable (listed : Listed u jobs other) : other.items0 ∈ u.units := by
  cases listed with
  | job flag member => exact solved.reachable _ member _ (List.mem_cons_self ..)
  | removal member split => exact (halves solved member split).2.1

/-- One conflict of an upgrade. -/
theorem updateConflictPriority_spec (listed : Listed u jobs other)
    (split : conflictingLocal u other = some lp) (conflicting : c ∈ (u.pkg lp).conflicts)
    (paths : Paths u jobs prio)
    (ran : updateConflictPriority u other.items0 lp prio c = some prio') :
    Paths u jobs prio' ∧ Touches (fun it => ∃ kind, Visits u [other] kind it) prio prio' := by
  obtain ⟨req, member, splitReq, same⟩ := listed.original split
  obtain ⟨reachable, lpReachable, _, remote, _⟩ := halves solved member splitReq
  rw [same] at reachable remote
  have own : other ∈ [other] := List.mem_singleton_self other
  obtain ⟨rit, found, ⟨_, rfl⟩ | ⟨_, rfl⟩⟩ := updateConflictPriority_cases ran
  · exact ⟨paths, .refl _ _⟩
  · dsimp only
    unfold pkgJobsUpdateUniverseItemPriority
    generalize raised : updateItemPriority u (recursionLimit + 1) prio lp (prio.of rit + 1)
      .conflict = mid
    have first : Touches (fun it => ∃ kind, Visits u [other] kind it) prio mid := by
      rw [← raised]
      exact (touches_updateItemPriority inv _ prio lp _ .conflict lpReachable).widen
        fun it ⟨kind, reached⟩ => ⟨kind, .conflict, lp, .raised own split, reached⟩
    have midPaths : Paths u jobs mid := by
      rw [← raised]
      refine paths_updateItemPriority inv solved.reachable _ prio lp _ .conflict lpReachable
        ((listed.starts (.raised own split)).allowed fun it later active => ?_) paths
      exact succ_mem_edgesTo (.partner member splitReq conflicting found later active) (paths rit)
    constructor
    · refine paths_updateItemPriority inv solved.reachable _ mid other.items0 _ .request reachable
        ((listed.starts (.remote own split)).allowed fun it later _ => ?_) midPaths
      exact edgesTo_subset (fun a raises => raises.later inv solved.reachable remote later)
        (midPaths other.items0)
    · exact first.trans
        ((touches_updateItemPriority inv _ mid other.items0 _ .request reachable).widen
          fun it ⟨kind, reached⟩ => ⟨kind, .request, other.items0, .remote own split, reached⟩)

theorem updateConflictPriorities_spec (listed : Listed u jobs other)
    (split : conflictingLocal u other = some lp) : ∀ {conflicts : List Conflict}
    {prio : Priorities}, (∀ c ∈ conflicts, c ∈ (u.pkg lp).conflicts) → Paths u jobs prio →
    conflicts.foldlM (updateConflictPriority u other.items0 lp) prio = some prio' →
    Paths u jobs prio' ∧ Touches (fun it => ∃ kind, Visits u [other] kind it) prio prio' := by
  intro conflicts
  induction conflicts with
  | nil =>
      intro prio _ paths ran
      cases ran
      exact ⟨paths, .refl _ _⟩
  | cons c rest ih =>
      intro prio conflicting paths ran
      obtain ⟨mid, first, ran⟩ := Option.bind_eq_some_iff.mp ran
      obtain ⟨midPaths, touches⟩ := updateConflictPriority_spec inv solved listed split
        (conflicting c (List.mem_cons_self ..)) paths first
      obtain ⟨lastPaths, later⟩ :=
        ih (fun d member => conflicting d (List.mem_cons_of_mem _ member)) midPaths ran
      exact ⟨lastPaths, touches.trans later⟩

/-- The turn of any listed request. -/
theorem pkgJobsSetRequestPriority_spec (listed : Listed u jobs other) (paths : Paths u jobs prio)
    (ran : pkgJobsSetRequestPriority u other prio = some (prio', result)) :
    Paths u jobs prio' ∧ Touches (fun it => ∃ kind, Visits u [other] kind it) prio prio' := by
  have own : other ∈ [other] := List.mem_singleton_self other
  obtain ⟨_, ⟨_, rfl⟩ | ⟨_, whole, rfl⟩ | ⟨lp, _, split, ran⟩⟩ :=
    pkgJobsSetRequestPriority_cases ran
  · exact ⟨paths, .refl _ _⟩
  · have reachable := listed.reachable solved
    constructor
    · exact paths_updateItemPriority inv solved.reachable _ prio other.items0 0 _ reachable
        ((listed.starts (.plain own whole)).allowed fun it _ _ => zero_mem_edgesTo _ it) paths
    · exact (touches_updateItemPriority inv _ prio other.items0 0 _ reachable).widen
        fun it ⟨kind, reached⟩ => ⟨kind, _, _, .plain own whole, reached⟩
  · exact updateConflictPriorities_spec inv solved listed split (fun _ member => member) paths ran

end Turn

/-- An upgrade with the installed half. -/
def UpgradeOf (lp : Addr) (req : Solved) : Prop := req.type = .upgrade ∧ req.items1 = some lp

/-- A job that removes the installed half beforehand. -/
def RemovalOf (lp : Addr) (req : Solved) : Prop := req.type = .upgradeRemove ∧ req.items0 = lp

section PairTurn

variable {u : JobsUniverse} {jobs : List Solved} {req other : Solved} {lp : Addr}
  {prio prio' : Priorities} {result : Option Addr} {c : Conflict}
variable (inv : u.Chained) (solved : SolverJobs u jobs) (member : req ∈ jobs)
  (split : conflictingLocal u req = some lp) (undisturbed : Undisturbed u jobs req.items0 lp)

include solved member split

theorem SolverJobs.eq_of_uid (otherMember : other ∈ jobs) (kept : other.type ≠ .delete)
    (sameUid : (u.pkg other.items0).uid = (u.pkg req.items0).uid) : other = req := by
  have type := (conflictingLocal_eq_some.mp split).1
  refine List.inj_on_of_nodup_map solved.distinct ?_ ?_ sameUid
  · exact List.mem_filter.mpr ⟨otherMember, decide_eq_true kept⟩
  · exact List.mem_filter.mpr ⟨member, by simp [type]⟩

/-- Only the upgrade itself and its removal start a request inside its chain. -/
theorem Listed.inside (listed : Listed u jobs other) {item : Addr}
    (starts : Starts u [other] .request item)
    (sameUid : (u.pkg item).uid = (u.pkg req.items0).uid) :
    UpgradeOf lp other ∨ RemovalOf lp other := by
  have halvesOf : ∀ {req' lp'}, req' ∈ jobs → conflictingLocal u req' = some lp' →
      (u.pkg lp').uid = (u.pkg req.items0).uid → lp' = lp := fun member' split' same => by
    rw [(halves solved member' split').2.2.2.2] at same
    have kept := upgrade_kept split'
    rw [solved.eq_of_uid member split member' kept same, split] at split'
    exact (Option.some.inj split').symm
  have upgrade : ∀ {lp'}, conflictingLocal u other = some lp' → lp' = lp →
      UpgradeOf lp other := fun split' same =>
    have ⟨type, second, _⟩ := conflictingLocal_eq_some.mp (same ▸ split')
    ⟨type, second⟩
  generalize request : PriorityUpdate.request = type at starts
  cases starts with
  | plain own whole =>
      obtain rfl := List.mem_singleton.mp own
      cases listed with
      | @job req' flag member' =>
          have kept : req'.type ≠ .delete := fun deletes => by
            simp [requestUpdate, deletes] at request
          rw [solved.eq_of_uid member split member' kept sameUid] at whole
          have unsplit : conflictingLocal u req = none := whole
          rw [split] at unsplit
          cases unsplit
      | removal member' split' => exact Or.inr ⟨rfl, halvesOf member' split' sameUid⟩
  | remote own split' =>
      obtain rfl := List.mem_singleton.mp own
      obtain ⟨req', member', splitReq, same⟩ := listed.original split'
      refine Or.inl (upgrade split' (halvesOf member' splitReq ?_))
      rw [(halves solved member' splitReq).2.2.2.2, same, sameUid]
  | raised => cases request
  | removal own split' =>
      obtain rfl := List.mem_singleton.mp own
      obtain ⟨req', member', splitReq, _⟩ := listed.original split'
      exact Or.inl (upgrade split' (halvesOf member' splitReq sameUid))

/-- The listed request that upgrades the installed half. -/
theorem Listed.upgrade (listed : Listed u jobs other) (upgrade : UpgradeOf lp other) :
    conflictingLocal u other = some lp ∧ other.items0 = req.items0 := by
  have conflicting := (conflictingLocal_eq_some.mp split).2.2
  have splitOther := conflictingLocal_eq_some.mpr ⟨upgrade.1, upgrade.2, conflicting⟩
  obtain ⟨req', member', split', same⟩ := listed.original splitOther
  have sameUid := (halves solved member' split').2.2.2.2
  rw [(halves solved member split).2.2.2.2] at sameUid
  rw [← solved.eq_of_uid member split member' (upgrade_kept split') sameUid.symm]
  exact ⟨splitOther, same.symm⟩

include inv undisturbed

/-- The turn of any other request leaves the remote half alone. -/
theorem pkgJobsSetRequestPriority_other (listed : Listed u jobs other) (paths : Paths u jobs prio)
    (notUpgrade : ¬ UpgradeOf lp other) (notRemoval : ¬ RemovalOf lp other)
    (ran : pkgJobsSetRequestPriority u other prio = some (prio', result)) :
    prio'.of req.items0 = prio.of req.items0 := by
  refine (pkgJobsSetRequestPriority_spec inv solved listed paths ran).2.unchanged ?_
  rintro ⟨kind, type, item, starts, reached⟩
  have startsJobs := listed.starts starts
  obtain ⟨rfl, later⟩ := reaches_remote inv solved member split undisturbed
    (fun kind it further => ⟨type, item, startsJobs, further⟩) reached
  have sameUid := (JobsUniverse.mem_chain inv (startsJobs.reachable solved.reachable) later).2
  exact (listed.inside solved member split starts sameUid.symm).elim notUpgrade notRemoval

/-- One conflict of the upgrade puts its installed half above zero, its remote
half stays there. -/
theorem updateConflictPriority_upgrade (conflicting : c ∈ (u.pkg lp).conflicts)
    (paths : Paths u jobs prio) (zero : prio.of req.items0 = 0)
    (ran : updateConflictPriority u req.items0 lp prio c = some prio') :
    prio'.of req.items0 = 0 ∧ 0 < prio'.of lp := by
  obtain ⟨reachable, lpReachable, installed, remote, _⟩ := halves solved member split
  obtain ⟨rit, found, ⟨low, rfl⟩ | ⟨_, rfl⟩⟩ := updateConflictPriority_cases ran
  · exact ⟨zero, Nat.lt_of_le_of_lt (Nat.zero_le _) low⟩
  · dsimp only
    unfold pkgJobsUpdateUniverseItemPriority
    generalize raised : updateItemPriority u (recursionLimit + 1) prio lp (prio.of rit + 1)
      .conflict = mid
    have within : prio.of rit + 1 ≤ recursionLimit :=
      undisturbed.belowLimit c conflicting rit found _ (paths rit)
    have midZero : mid.of req.items0 = 0 := by
      rw [← raised, ← zero]
      refine (touches_updateItemPriority inv _ prio lp _ .conflict lpReachable).unchanged ?_
      rintro ⟨kind, reached⟩
      obtain ⟨request, _⟩ := reaches_remote inv solved member split undisturbed
        (fun kind it further => ⟨.conflict, lp, .raised member split, further⟩) reached
      cases request
    have positive : prio.of rit + 1 ≤ mid.of lp := by
      rw [← raised]
      exact le_updateItemPriority inv recursionLimit lpReachable within
        (by simp [PriorityUpdate.skips, installed])
    rw [midZero]
    refine ⟨updateItemPriority_upgrade inv solved member split undisturbed midZero, ?_⟩
    have mono := (touches_updateItemPriority inv (recursionLimit + 1) mid req.items0 0 .request
      reachable).mono lp
    omega

/-- The turn of the upgrade itself. -/
theorem pkgJobsSetRequestPriority_upgrade (listed : Listed u jobs other)
    (paths : Paths u jobs prio) (upgrade : UpgradeOf lp other)
    (ran : pkgJobsSetRequestPriority u other prio = some (prio', result)) :
    (prio.of req.items0 = 0 → prio'.of req.items0 = 0 ∧ 0 < prio'.of lp) ∧
      (prio.of req.items0 ≠ 0 → prio' = prio) := by
  obtain ⟨splitOther, same⟩ := listed.upgrade solved member split upgrade
  obtain ⟨_, ⟨positive, rfl⟩ | ⟨_, whole, _⟩ | ⟨lp', zero, split', ran⟩⟩ :=
    pkgJobsSetRequestPriority_cases ran
  · rw [same] at positive
    exact ⟨fun zero => absurd zero positive, fun _ => rfl⟩
  · rw [splitOther] at whole
    cases whole
  · rw [splitOther] at split'
    obtain rfl := Option.some.inj split'
    rw [same] at zero ran
    refine ⟨fun _ => ?_, fun positive => absurd zero positive⟩
    have nonempty := (conflictingLocal_eq_some.mp split).2.2
    have turns : ∀ (conflicts : List Conflict) (prio : Priorities),
        (∀ c ∈ conflicts, c ∈ (u.pkg lp).conflicts) → Paths u jobs prio →
        prio.of req.items0 = 0 → 0 < prio.of lp ∨ conflicts ≠ [] →
        conflicts.foldlM (updateConflictPriority u req.items0 lp) prio = some prio' →
        prio'.of req.items0 = 0 ∧ 0 < prio'.of lp := by
      intro conflicts
      induction conflicts with
      | nil =>
          intro prio _ _ zero positive ran
          cases ran
          exact ⟨zero, positive.resolve_right (not_not.mpr rfl)⟩
      | cons c rest ih =>
          intro prio conflicting paths zero _ ran
          obtain ⟨mid, first, ran⟩ := Option.bind_eq_some_iff.mp ran
          have here := conflicting c (List.mem_cons_self ..)
          have reqListed : Listed u jobs req := by
            have listed := Listed.job (u := u) req.alreadyDeleted member
            exact listed
          have midPaths := (updateConflictPriority_spec inv solved reqListed split here paths
            first).1
          obtain ⟨midZero, midPositive⟩ := updateConflictPriority_upgrade inv solved member split
            undisturbed here paths zero first
          exact ih mid (fun d member => conflicting d (List.mem_cons_of_mem _ member)) midPaths
            midZero (Or.inl midPositive) ran
    exact turns _ prio (fun _ member => member) paths zero (Or.inr nonempty) ran

/-- The turn of the removal. -/
theorem pkgJobsSetRequestPriority_removal
    (removal : RemovalOf lp other) (low : prio.of req.items0 ≤ prio.of lp)
    (ran : pkgJobsSetRequestPriority u other prio = some (prio', result)) :
    prio'.of req.items0 ≤ prio'.of lp ∧ (0 < prio.of lp → prio' = prio) := by
  have whole : conflictingLocal u other = none := by
    unfold conflictingLocal
    simp [removal.1]
  obtain ⟨_, ⟨_, rfl⟩ | ⟨zero, _, rfl⟩ | ⟨lp', _, split', _⟩⟩ :=
    pkgJobsSetRequestPriority_cases ran
  · exact ⟨low, fun _ => rfl⟩
  · have request : requestUpdate other = .request := by simp [requestUpdate, removal.1]
    rw [removal.2] at zero ⊢
    rw [request]
    exact ⟨updateItemPriority_removal inv solved member split undisturbed low,
      fun positive => by omega⟩
  · rw [whole] at split'
    cases split'

end PairTurn

end Pkgng
