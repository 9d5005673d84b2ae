import Pkgng.Jobs.Resolve
import Pkgng.Solve.Requests
import Pkgng.Universe.Evolve

/-!
# Locked packages

A lock is looked at only while requests are collected: `jobs_solve_deinstall` makes
none for a locked package, and `pkg_jobs_universe_process_upgrade_chains` takes those
of a locked package's chain away.  The clauses do not know of locks, so a locked
package survives exactly where every choice that grants the remaining requests needs
it.
-/

set_option autoImplicit false

namespace Pkgng

open Lib

/-! ## The requests of a deinstall job -/

/-- `pkg_jobs_add_req`; `none` where one of its assertions fails. -/
def pkgJobsAddReq (j : Jobs) (item : Option Addr) : Option Jobs := do
  let item ← item
  if j.type = .deinstall ∨ j.type = .autoremove then
    if (j.pkg item).isInstalled then
      if item ∈ j.requestDelete then some j
      else some { j with requestDelete := j.requestDelete ++ [item] }
    else none
  else if (j.pkg item).isInstalled then none
  else if item ∈ j.requestAdd then some j
  else some { j with requestAdd := j.requestAdd ++ [item] }

/-- The loop of `jobs_solve_deinstall` over the rows that match one pattern.  The
local `unit` keeps its value where `pkg_jobs_universe_process_item` leaves it. -/
def deinstallRows (env : Env) (fuel : Nat) :
    List Pkg → Option Addr → Jobs → Option (Option Addr × Jobs)
  | [], unit, j => some (unit, j)
  | pkg :: rest, unit, j => do
      let (_, result, univ) ← pkgJobsUniverseProcessItem env fuel j.univ pkg
      let unit := result.or unit
      let j := { j with univ := univ }
      if pkg.locked then deinstallRows env fuel rest unit j
      else deinstallRows env fuel rest unit (← pkgJobsAddReq j unit)

/-- The loop of `jobs_solve_deinstall` over the patterns, each given by the answer of
`pkgdb_query`, which is null where the query fails. -/
def deinstallPatterns (env : Env) (fuel : Nat) :
    List (Option (List Pkg)) → Option Addr → Jobs → Option (Epkg × Jobs)
  | [], _, j => some (.ok, { j with solved := 1 })
  | none :: _, _, j => some (.fatal, j)
  | some rows :: rest, unit, j => do
      let (unit, j) ← deinstallRows env fuel rows unit j
      deinstallPatterns env fuel rest unit j

def jobsSolveDeinstall (env : Env) (fuel : Nat) (patterns : List (Option (List Pkg)))
    (j : Jobs) : Option (Epkg × Jobs) :=
  deinstallPatterns env fuel patterns none j

/-! ## What is asked of the jobs -/

/-- The jobs whose table of requests one of the two functions has left. -/
inductive RequestsLeft : Jobs → Prop
  | deinstall {env : Env} {fuel : Nat} {patterns : List (Option (List Pkg))} {univ : JobsUniverse}
      {j : Jobs} (type : env.type = .deinstall)
      (ran : jobsSolveDeinstall env fuel patterns { univ, type := .deinstall } = some (.ok, j)) :
      RequestsLeft j
  | chains {versionCmp : String → String → Int} {before j : Jobs}
      (ran : pkgJobsUniverseProcessUpgradeChains versionCmp before = some j) : RequestsLeft j

/-- A locked installed package of the universe. -/
def Jobs.Locked (j : Jobs) (item : Addr) : Prop :=
  item ∈ j.univ.units ∧ (j.pkg item).isInstalled = true ∧ (j.pkg item).locked = true

/-- No assignment that the solver may find deletes or replaces a locked package. -/
def LeavesLockedAlone (j : Jobs) : Prop :=
  ∀ problem, pkgSolveJobsToSat j = some problem → ∀ σ, problem.Satisfied σ →
    problem.Assumed σ →
      ∀ job ∈ (pkgSolveSatToJobs j (problem.decided σ)).jobs.drop j.jobs.length,
        (job.type = .delete → ¬j.Locked job.items0) ∧
          (job.type = .upgrade → ∀ replaced, job.items1 = some replaced → ¬j.Locked replaced)

/-- Every choice of packages that grants the requests and meets the dependencies,
conflicts and library requirements contains the item. -/
def Jobs.Needs (j : Jobs) (item : Addr) : Prop :=
  ∀ selected, j.univ.Admissible selected → j.MeetsRequests selected → selected item = true

/-! ## The tables that are left -/

/-- At most one remote item of the chain is requested if it has an installed item. -/
def Jobs.RequestsOne (j : Jobs) (head : Addr) : Prop :=
  ∀ installed ∈ j.univ.chain head, (j.pkg installed).isInstalled = true →
    ∀ a ∈ j.univ.chain head, ∀ b ∈ j.univ.chain head,
      (j.pkg a).isInstalled = false → (j.pkg b).isInstalled = false →
        a ∈ j.requestAdd → b ∈ j.requestAdd → a = b

section Deinstall

variable {env : Env} {fuel : Nat} {j j' : Jobs}

theorem pkgJobsAddReq_requestAdd {item : Option Addr} (deletes : j.type = .deinstall)
    (ran : pkgJobsAddReq j item = some j') :
    j'.type = .deinstall ∧ j'.requestAdd = j.requestAdd := by
  obtain ⟨unit, _, added⟩ := Option.bind_eq_some_iff.mp ran
  rw [if_pos (Or.inl deletes)] at added
  split at added
  · split at added
    · cases added
      exact ⟨deletes, rfl⟩
    · cases added
      exact ⟨deletes, rfl⟩
  · cases added

theorem deinstallRows_requestAdd {rows : List Pkg} {unit unit' : Option Addr}
    (deletes : j.type = .deinstall)
    (ran : deinstallRows env fuel rows unit j = some (unit', j')) :
    j'.type = .deinstall ∧ j'.requestAdd = j.requestAdd := by
  induction rows generalizing j unit with
  | nil =>
      cases ran
      exact ⟨deletes, rfl⟩
  | cons pkg rest ih =>
      simp only [deinstallRows, Option.bind_eq_bind, Option.bind_eq_some_iff] at ran
      obtain ⟨⟨rc, result, univ⟩, _, later⟩ := ran
      dsimp only at later
      have filled : ({ j with univ := univ } : Jobs).type = .deinstall := deletes
      split at later
      · exact @ih { j with univ := univ } _ filled later
      · obtain ⟨mid, added, rest⟩ := Option.bind_eq_some_iff.mp later
        obtain ⟨midDeletes, midAdd⟩ := pkgJobsAddReq_requestAdd filled added
        obtain ⟨lastDeletes, lastAdd⟩ := ih midDeletes rest
        exact ⟨lastDeletes, lastAdd.trans midAdd⟩

/-- A deinstall job requests no installation. -/
theorem deinstallPatterns_requestAdd {patterns : List (Option (List Pkg))} {unit : Option Addr}
    {rc : Epkg} (deletes : j.type = .deinstall)
    (ran : deinstallPatterns env fuel patterns unit j = some (rc, j')) :
    j'.requestAdd = j.requestAdd := by
  induction patterns generalizing j unit with
  | nil =>
      cases ran
      rfl
  | cons answer rest ih =>
      cases answer with
      | none =>
          cases ran
          rfl
      | some rows =>
          obtain ⟨⟨unit', mid⟩, first, later⟩ := Option.bind_eq_some_iff.mp ran
          obtain ⟨midDeletes, midAdd⟩ := deinstallRows_requestAdd deletes first
          exact (ih midDeletes later).trans midAdd

end Deinstall

section UpgradeChains

variable {versionCmp : String → String → Int} {j j' : Jobs}

/-- The universe stays, and no request is new. -/
structure Trims (j j' : Jobs) : Prop where
  univ : j'.univ = j.univ
  requests : ∀ item ∈ j'.requestAdd, item ∈ j.requestAdd

theorem Trims.requestsOne (trims : Trims j j') {head : Addr} (one : j.RequestsOne head) :
    j'.RequestsOne head := by
  unfold Jobs.RequestsOne Jobs.pkg at one ⊢
  rw [trims.univ]
  intro installed inChain isInstalled a inA b inB remoteA remoteB requestedA requestedB
  exact one installed inChain isInstalled a inA b inB remoteA remoteB
    (trims.requests a requestedA) (trims.requests b requestedB)

/-- Removing the requests of `items` leaves those of the other items. -/
theorem trims_removeRequests (j : Jobs) (items : List Addr) :
    Trims j { j with requestAdd := removeRequests items j.requestAdd } where
  univ := rfl
  requests _ member := List.mem_of_mem_filter member

theorem requestsOne_of_selected {head selected : Addr} :
    ({ j with
        requestAdd := removeRequests ((j.univ.chain head).filter fun cur => cur ≠ selected)
          j.requestAdd } : Jobs).RequestsOne head := by
  intro _ _ _ a inA b inB _ _ requestedA requestedB
  have only : ∀ item ∈ j.univ.chain head, item ∈ removeRequests
      ((j.univ.chain head).filter fun cur => cur ≠ selected) j.requestAdd → item = selected := by
    intro item inChain requested
    by_contra different
    have kept := (List.mem_filter.mp requested).2
    simp [inChain, different] at kept
  rw [only a inA requestedA, only b inB requestedB]

/-- A chain of two items has no room for two remote ones beside an installed one. -/
theorem requestsOne_of_length_le_two {head : Addr}
    (short : (j.univ.chain head).length ≤ 2) : j.RequestsOne head := by
  intro installed inChain isInstalled a inA b inB remoteA remoteB _ _
  by_contra different
  have three : [installed, a, b].Nodup := by
    have apartA : installed ≠ a := fun same => by
      rw [← same, isInstalled] at remoteA
      cases remoteA
    have apartB : installed ≠ b := fun same => by
      rw [← same, isInstalled] at remoteB
      cases remoteB
    simp [apartA, apartB, different]
  have inside : [installed, a, b] ⊆ j.univ.chain head := by
    intro item member
    simp only [List.mem_cons, List.not_mem_nil, or_false] at member
    rcases member with rfl | rfl | rfl
    · exact inChain
    · exact inA
    · exact inB
  have longer := (three.subperm inside).length_le
  simp only [List.length_cons, List.length_nil] at longer
  omega

theorem processUpgradeChain_trims {head : Addr}
    (ran : processUpgradeChain versionCmp j head = some j') :
    Trims j j' ∧ j'.RequestsOne head := by
  unfold processUpgradeChain at ran
  dsimp only at ran
  split at ran
  · next lastLocal _ =>
      split at ran
      · cases ran
        constructor
        · exact trims_removeRequests j _
        · intro _ _ _ a inA _ _ _ _ requestedA
          have kept := (List.mem_filter.mp requestedA).2
          simp only [decide_eq_true_eq] at kept
          exact absurd inA kept
      · split at ran
        · obtain ⟨selected, _, rfl⟩ := Option.map_eq_some_iff.mp ran
          exact ⟨trims_removeRequests j _, requestsOne_of_selected⟩
        · cases ran
          exact ⟨⟨rfl, fun _ member => member⟩,
            requestsOne_of_length_le_two (by omega)⟩
  · next noLocal =>
      have remote : ∀ item ∈ j.univ.chain head, (j.pkg item).isInstalled = false := by
        intro item member
        have absent := List.find?_eq_none.mp noLocal item (List.mem_reverse.mpr member)
        simpa using absent
      have vacuous : ∀ other : Jobs, other.univ = j.univ → other.RequestsOne head := by
        intro other same installed inChain isInstalled
        rw [same] at inChain
        rw [Jobs.pkg, same] at isInstalled
        have isRemote := remote installed inChain
        rw [Jobs.pkg, isInstalled] at isRemote
        cases isRemote
      split at ran
      · obtain ⟨selected, _, rfl⟩ := Option.map_eq_some_iff.mp ran
        exact ⟨trims_removeRequests j _, vacuous _ rfl⟩
      · cases ran
        exact ⟨⟨rfl, fun _ member => member⟩, vacuous _ rfl⟩

/-- Every chain that has been processed keeps one request, whatever the later turns
remove. -/
theorem upgradeChains_trims (entries : List (Uid × Addr))
    (ran : entries.foldlM (fun j entry => processUpgradeChain versionCmp j entry.2) j = some j') :
    Trims j j' ∧ ∀ entry ∈ entries, j'.RequestsOne entry.2 := by
  induction entries generalizing j with
  | nil =>
      cases ran
      exact ⟨⟨rfl, fun _ member => member⟩, by simp⟩
  | cons entry rest ih =>
      rw [List.foldlM_cons, Option.bind_eq_bind, Option.bind_eq_some_iff] at ran
      obtain ⟨mid, first, later⟩ := ran
      obtain ⟨trims, one⟩ := processUpgradeChain_trims first
      obtain ⟨trimsRest, oneRest⟩ := ih later
      constructor
      · exact ⟨trimsRest.univ.trans trims.univ,
          fun item member => trims.requests item (trimsRest.requests item member)⟩
      · intro other member
        rcases List.mem_cons.mp member with rfl | inRest
        · exact trimsRest.requestsOne one
        · exact oneRest other inRest

end UpgradeChains

/-- Whichever function has left the table, one remote item of a chain with an
installed item is requested at most. -/
theorem RequestsLeft.requestsOne {j : Jobs} (left : RequestsLeft j) :
    ∀ entry ∈ j.univ.items, j.RequestsOne entry.2 := by
  intro entry member
  cases left with
  | deinstall _ ran =>
      have none := deinstallPatterns_requestAdd rfl ran
      intro _ _ _ a _ _ _ _ _ requested
      rw [none] at requested
      cases requested
  | @chains _ before _ ran =>
      obtain ⟨trims, one⟩ := upgradeChains_trims before.univ.items ran
      rw [trims.univ] at member
      exact one entry member

/-! ## Thinning a chain -/

section Thin

variable {u : JobsUniverse} {selected : Addr → Bool} {entry : Uid × Addr} {keep : Addr}

/-- Dependencies and library requirements name a chain, never one of its items, so a
selection may drop items of a chain in which it keeps one. -/
theorem JobsUniverse.Admissible.without (admissible : u.Admissible selected) (inv : u.Chained)
    (member : entry ∈ u.items) (inChain : keep ∈ u.chain entry.2) (chosen : selected keep = true)
    (dropped : Addr → Bool) (within : ∀ item, dropped item = true → item ∈ u.chain entry.2)
    (kept : dropped keep = false) : u.Admissible fun item => selected item && !dropped item where
  depends item reachable stays dep inDeps head found := by
    rw [Bool.and_eq_true] at stays
    obtain ⟨other, inOther, chosenOther⟩ :=
      admissible.depends item reachable stays.1 dep inDeps head found
    cases isDropped : dropped other with
    | false => exact ⟨other, inOther, by simp [chosenOther, isDropped]⟩
    | true =>
        have headMember := (find_eq_some_iff inv).mp found
        have same := entry_unique inv member headMember (within other isDropped) inOther
        refine ⟨keep, ?_, by simp [chosen, kept]⟩
        rw [same] at inChain
        exact inChain
  conflicts item reachable stays conflict inConflicts head found other inOther covers := by
    rw [Bool.and_eq_true] at stays
    rw [admissible.conflicts item reachable stays.1 conflict inConflicts head found other inOther
      covers, Bool.false_and]
  requires item reachable stays remote shlib inShlibs providers found recorded := by
    rw [Bool.and_eq_true] at stays
    obtain ⟨other, provides, chosenOther⟩ := admissible.requires item reachable stays.1 remote
      shlib inShlibs providers found recorded
    cases isDropped : dropped other with
    | false => exact ⟨other, provides, by simp [chosenOther, isDropped]⟩
    | true =>
        obtain ⟨un, isProvider, filed, filedMember, inFiled, inOther⟩ := provides
        have same := entry_unique inv member filedMember (within other isDropped) inOther
        rw [same] at inChain
        exact ⟨keep, ⟨un, isProvider, filed, filedMember, inFiled, inChain⟩,
          by simp [chosen, kept]⟩
  firstAlone first firstMember stays other inTail := by
    rw [Bool.and_eq_true] at stays
    rw [admissible.firstAlone first firstMember stays.1 other inTail, Bool.false_and]

/-- The item to keep of a chain: one that is requested, or else any. -/
theorem exists_keep {j : Jobs} (one : j.RequestsOne entry.2) {locked add : Addr}
    (inChain : locked ∈ j.univ.chain entry.2) (installed : (j.pkg locked).isInstalled = true)
    (inAdds : add ∈ j.univ.adds selected (j.univ.chain entry.2)) :
    ∃ keep ∈ j.univ.adds selected (j.univ.chain entry.2),
      ∀ item ∈ j.univ.adds selected (j.univ.chain entry.2), item ∈ j.requestAdd → item = keep := by
  have remote : ∀ item ∈ j.univ.adds selected (j.univ.chain entry.2),
      item ∈ j.univ.chain entry.2 ∧ (j.pkg item).isInstalled = false := by
    intro item member
    obtain ⟨inChain, chosen⟩ := List.mem_filter.mp member
    rw [Bool.and_eq_true, Bool.not_eq_true'] at chosen
    exact ⟨inChain, chosen.2⟩
  by_cases requested : ∃ item ∈ j.univ.adds selected (j.univ.chain entry.2), item ∈ j.requestAdd
  · obtain ⟨keep, inKeep, request⟩ := requested
    refine ⟨keep, inKeep, fun item member alsoRequested => ?_⟩
    exact one locked inChain installed item (remote item member).1 keep (remote keep inKeep).1
      (remote item member).2 (remote keep inKeep).2 alsoRequested request
  · refine ⟨add, inAdds, fun item member request => ?_⟩
    exact absurd ⟨item, member, request⟩ requested

/-- A selection that does without a locked item can be cut down to one that installs at
most one item of its chain. -/
theorem exists_single {j : Jobs} (inv : j.univ.Chained) (member : entry ∈ j.univ.items)
    (one : j.RequestsOne entry.2) {locked : Addr} (inChain : locked ∈ j.univ.chain entry.2)
    (installed : (j.pkg locked).isInstalled = true) (admissible : j.univ.Admissible selected)
    (granted : j.MeetsRequests selected) (without : selected locked = false) :
    ∃ thinned, j.univ.Admissible thinned ∧ j.MeetsRequests thinned ∧ thinned locked = false ∧
      (j.univ.adds thinned (j.univ.chain entry.2)).length ≤ 1 := by
  by_cases several : 1 < (j.univ.adds selected (j.univ.chain entry.2)).length
  · obtain ⟨add, inAdds⟩ := List.exists_mem_of_length_pos (Nat.lt_of_succ_lt several)
    obtain ⟨keep, inKeep, only⟩ := exists_keep one inChain installed inAdds
    obtain ⟨keepInChain, keepChosen⟩ := List.mem_filter.mp inKeep
    rw [Bool.and_eq_true, Bool.not_eq_true'] at keepChosen
    let dropped : Addr → Bool := fun item =>
      decide (item ∈ j.univ.adds selected (j.univ.chain entry.2)) && item != keep
    have within : ∀ item, dropped item = true → item ∈ j.univ.chain entry.2 := by
      intro item isDropped
      rw [Bool.and_eq_true, decide_eq_true_eq] at isDropped
      exact List.mem_of_mem_filter isDropped.1
    have kept : dropped keep = false := by simp [dropped]
    refine ⟨_, admissible.without inv member keepInChain keepChosen.1 dropped within kept,
      ?_, ?_, ?_⟩
    · intro item reachable
      obtain ⟨adds, deletes⟩ := granted item reachable
      constructor
      · intro requested
        have stays : dropped item = false := by
          by_cases inAdds : item ∈ j.univ.adds selected (j.univ.chain entry.2)
          · rw [only item inAdds requested]
            exact kept
          · simp [dropped, inAdds]
        simp [adds requested, stays]
      · intro requested
        simp [deletes requested]
    · simp [without]
    · have all : ∀ item ∈ j.univ.adds (fun item => selected item && !dropped item)
          (j.univ.chain entry.2), item = keep := by
        intro item inThinned
        obtain ⟨inChain, chosen⟩ := List.mem_filter.mp inThinned
        simp only [Bool.and_eq_true, Bool.not_eq_true'] at chosen
        have inAdds : item ∈ j.univ.adds selected (j.univ.chain entry.2) := by
          simp [JobsUniverse.adds, inChain, chosen]
        by_contra different
        simp [dropped, inAdds, different] at chosen
      have nodup : (j.univ.adds (fun item => selected item && !dropped item)
          (j.univ.chain entry.2)).Nodup := (inv.linked entry member).nodup.filter _
      have inside : j.univ.adds (fun item => selected item && !dropped item)
          (j.univ.chain entry.2) ⊆ [keep] :=
        fun item inThinned => List.mem_singleton.mpr (all item inThinned)
      exact (nodup.subperm inside).length_le
  · exact ⟨selected, admissible, granted, without, by omega⟩

end Thin

/-! ## The jobs of any assignment -/

section Produced

variable {j : Jobs} {problem : SolveProblem} {σ : Nat → Bool}

/-- The jobs of one chain; none where two remote items are chosen. -/
def JobsUniverse.chainJobs (u : JobsUniverse) (type : JobsType) (selected : Addr → Bool)
    (head : Addr) : List Solved :=
  if (u.adds selected (u.chain head)).length ≤ 1 then
    Pkgng.resJobs type (u.adds selected (u.chain head)) (u.dels selected (u.chain head))
  else []

theorem pkgSolveInsertResJob_appends (inv : j.univ.Chained)
    (mirrors : Mirrors j.univ problem.toSolveVariables) {entry : Uid × Addr}
    (member : entry ∈ j.univ.items) :
    (pkgSolveInsertResJob j problem (j.univ.varOf entry.2)).univ = j.univ ∧
      (pkgSolveInsertResJob j problem (j.univ.varOf entry.2)).type = j.type ∧
      (pkgSolveInsertResJob j problem (j.univ.varOf entry.2)).jobs =
        j.jobs ++ j.univ.chainJobs j.type (problem.chosen j.univ) entry.2 := by
  by_cases single : (j.univ.adds (problem.chosen j.univ) (j.univ.chain entry.2)).length ≤ 1
  · rw [pkgSolveInsertResJob_spec inv mirrors member single, JobsUniverse.chainJobs,
      if_pos single]
    exact ⟨rfl, rfl, rfl⟩
  · have reachable : ∀ item ∈ j.univ.chain entry.2, item ∈ j.univ.units := fun item inChain =>
      JobsUniverse.mem_units.mpr ⟨entry, member, inChain⟩
    have several : 1 < 0 + (j.univ.adds (problem.chosen j.univ) (j.univ.chain entry.2)).length := by
      omega
    rw [JobsUniverse.chainJobs, if_neg single, List.append_nil]
    unfold pkgSolveInsertResJob
    rw [mirrors.chainFrom_head inv member]
    simp only [visit_foldl mirrors _ _ reachable, if_pos several, and_self]

/-- The jobs of `pkg_solve_sat_to_jobs`, also where a chain ends in the error branch. -/
theorem pkgSolveSatToJobs_jobs (inv : j.univ.Chained)
    (mirrors : Mirrors j.univ problem.toSolveVariables) :
    (pkgSolveSatToJobs j problem).jobs = j.jobs ++
      j.univ.items.flatMap fun entry =>
        j.univ.chainJobs j.type (problem.chosen j.univ) entry.2 := by
  have loop : ∀ (entries : List (Uid × Addr)) (j' : Jobs), j'.univ = j.univ →
      j'.type = j.type → (∀ entry ∈ entries, entry ∈ j.univ.items) →
      (entries.foldl (fun j' entry => pkgSolveInsertResJob j' problem (j.univ.varOf entry.2))
          j').jobs =
        j'.jobs ++ entries.flatMap fun entry =>
          j.univ.chainJobs j.type (problem.chosen j.univ) entry.2 := by
    intro entries
    induction entries with
    | nil => simp
    | cons entry rest ih =>
        intro j' univ type members
        have member := members entry (List.mem_cons_self ..)
        have turn : Mirrors j'.univ problem.toSolveVariables := by rwa [univ]
        obtain ⟨univ', type', jobs⟩ := @pkgSolveInsertResJob_appends j' problem (by rwa [univ])
          turn entry (by rwa [univ])
        rw [univ] at univ' type' jobs
        rw [List.foldl_cons, ih _ univ' (type'.trans type)
          fun other inRest => members other (List.mem_cons_of_mem _ inRest), jobs, type,
          List.flatMap_cons, List.append_assoc]
  rw [pkgSolveSatToJobs, mirrors.byUid, List.foldl_map]
  exact loop j.univ.items j rfl rfl fun _ member => member

/-- What a job takes out of the system has been dropped from its chain. -/
theorem resJobs_removes {type : JobsType} {adds dels : List Addr} {job : Solved}
    (member : job ∈ resJobs type adds dels) :
    (job.type = .delete → job.items0 ∈ dels) ∧
      ∀ replaced, job.items1 = some replaced → replaced ∈ dels := by
  match adds with
  | [] =>
      obtain ⟨item, inDels, rfl⟩ := List.mem_map.mp member
      exact ⟨fun _ => inDels, by simp⟩
  | add :: rest =>
      cases last : dels.getLast? with
      | none =>
          simp only [resJobs, last, List.mem_singleton] at member
          subst member
          constructor
          · intro deletes
            dsimp only at deletes
            split at deletes <;> cases deletes
          · simp
      | some del =>
          simp only [resJobs, last, List.mem_cons] at member
          rcases member with rfl | inRest
          · exact ⟨by simp, fun replaced same => by
              rw [← Option.some.inj same]
              exact List.mem_of_getLast? last⟩
          · obtain ⟨item, inDels, rfl⟩ := List.mem_map.mp inRest
            exact ⟨fun _ => List.mem_of_mem_filter inDels, by simp⟩

/-- The assignment that makes the variables of the selected items true. -/
def JobsUniverse.assignment (u : JobsUniverse) (selected : Addr → Bool) (var : Nat) : Bool :=
  (u.units.map selected).getD var false

/-- What an assignment produces leaves a locked package alone if the assignment chooses
it. -/
theorem leavesLockedAlone_of_needs (ready : j.univ.Solvable)
    (needs : ∀ item, j.Locked item → j.Needs item) : LeavesLockedAlone j := by
  intro problem built σ satisfied assumed job member
  obtain ⟨problem', built', mirrors, meaning⟩ := pkgSolveJobsToSat_spec ready
  rw [built] at built'
  cases built'
  have admissible := (meaning σ).mp satisfied
  have granted := (assumed_iff ready built).mp assumed
  rw [@pkgSolveSatToJobs_jobs j (problem.decided σ) ready.toChained mirrors,
    List.drop_left] at member
  obtain ⟨entry, _, inChain⟩ := List.mem_flatMap.mp member
  rw [JobsUniverse.chainJobs] at inChain
  split at inChain
  · obtain ⟨deletes, replaces⟩ := resJobs_removes inChain
    have stays : ∀ item ∈ j.univ.dels ((problem.decided σ).chosen j.univ)
        (j.univ.chain entry.2), ¬j.Locked item := by
      intro item inDels locked
      have chosen : σ (j.univ.varOf item) = true := needs item locked _ admissible granted
      have dropped := (List.mem_filter.mp inDels).2
      rw [Bool.and_eq_true, Bool.not_eq_true'] at dropped
      have notChosen : σ (j.univ.varOf item) = false := dropped.1
      rw [chosen] at notChosen
      cases notChosen
    exact ⟨fun delete => stays _ (deletes delete),
      fun _ replaced same => stays replaced (replaces replaced same)⟩
  · cases inChain

/-- A locked package that some choice does without is deleted or replaced under the
assignment of that choice, cut down to one installation from its chain. -/
theorem needs_of_leavesLockedAlone (ready : j.univ.Solvable)
    (one : ∀ entry ∈ j.univ.items, j.RequestsOne entry.2) (alone : LeavesLockedAlone j) :
    ∀ item, j.Locked item → j.Needs item := by
  intro item locked selected admissible granted
  by_contra dropped
  rw [Bool.not_eq_true] at dropped
  have inv := ready.toChained
  obtain ⟨reachable, installed, isLocked⟩ := locked
  obtain ⟨entry, member, inChain⟩ := JobsUniverse.mem_units.mp reachable
  obtain ⟨thinned, thinAdmissible, thinGranted, thinDropped, single⟩ :=
    exists_single inv member (one entry member) inChain installed admissible granted dropped
  obtain ⟨problem, built, mirrors, meaning⟩ := pkgSolveJobsToSat_spec ready
  have read : ∀ other ∈ j.univ.units,
      j.univ.assignment thinned (j.univ.varOf other) = thinned other :=
    fun other inUnits => JobsUniverse.getD_varOf thinned inUnits
  have satisfied : problem.Satisfied (j.univ.assignment thinned) := by
    rw [meaning]
    exact (JobsUniverse.admissible_congr inv read).mpr thinAdmissible
  have assumed : problem.Assumed (j.univ.assignment thinned) := by
    rw [assumed_iff ready built]
    intro other inUnits
    simp only [read other inUnits]
    exact thinGranted other inUnits
  have inUnits : ∀ other ∈ j.univ.chain entry.2, other ∈ j.univ.units := fun other inOther =>
    JobsUniverse.mem_units.mpr ⟨entry, member, inOther⟩
  have chosenEq : ∀ other ∈ j.univ.chain entry.2,
      (problem.decided (j.univ.assignment thinned)).chosen j.univ other = thinned other :=
    fun other inOther => read other (inUnits other inOther)
  have addsEq : j.univ.adds ((problem.decided (j.univ.assignment thinned)).chosen j.univ)
      (j.univ.chain entry.2) = j.univ.adds thinned (j.univ.chain entry.2) :=
    List.filter_congr fun other inOther => by rw [chosenEq other inOther]
  have inDels : item ∈ j.univ.dels
      ((problem.decided (j.univ.assignment thinned)).chosen j.univ) (j.univ.chain entry.2) := by
    apply List.mem_filter.mpr
    constructor
    · exact inChain
    · rw [chosenEq item inChain, thinDropped]
      exact installed
  rw [← addsEq] at single
  obtain ⟨job, produced, removes⟩ := resJobs_dels j.type single inDels
  have inJobs : job ∈ (pkgSolveSatToJobs j (problem.decided (j.univ.assignment thinned))).jobs.drop
      j.jobs.length := by
    rw [@pkgSolveSatToJobs_jobs j (problem.decided (j.univ.assignment thinned)) inv mirrors,
      List.drop_left]
    apply List.mem_flatMap.mpr
    refine ⟨entry, member, ?_⟩
    rw [JobsUniverse.chainJobs, if_pos single]
    exact produced
  obtain ⟨deletes, upgrades⟩ := alone problem built _ satisfied assumed job inJobs
  rcases removes with ⟨upgrade, replaced, _⟩ | ⟨delete, same, _⟩
  · exact upgrades upgrade item replaced ⟨reachable, installed, isLocked⟩
  · apply deletes delete
    rw [same]
    exact ⟨reachable, installed, isLocked⟩

/-- Selecting nothing meets every clause. -/
theorem admissible_nothing (u : JobsUniverse) : u.Admissible fun _ => false where
  depends _ _ chosen := absurd chosen Bool.false_ne_true
  conflicts _ _ _ _ _ _ _ _ _ _ := rfl
  requires _ _ chosen := absurd chosen Bool.false_ne_true
  firstAlone _ _ _ _ _ := rfl

/-- Where nothing is requested to be installed, no package is needed. -/
theorem not_needs_of_requestAdd (none : j.requestAdd = []) (item : Addr) : ¬j.Needs item := by
  intro needs
  have granted : j.MeetsRequests fun _ => false := by
    intro other _
    rw [none]
    exact ⟨fun requested => absurd requested List.not_mem_nil, fun _ => rfl⟩
  exact Bool.false_ne_true (needs _ (admissible_nothing j.univ) granted)

/-- The locked packages are left alone exactly when every choice that grants the
requests needs each of them; without requests to install, as after
`jobs_solve_deinstall`, exactly when there are none. -/
theorem leavesLockedAlone_iff (ready : j.univ.Solvable) (left : RequestsLeft j) :
    (LeavesLockedAlone j ↔ ∀ item, j.Locked item → j.Needs item) ∧
      (j.requestAdd = [] → (LeavesLockedAlone j ↔ ∀ item, ¬j.Locked item)) := by
  have needed : LeavesLockedAlone j ↔ ∀ item, j.Locked item → j.Needs item :=
    ⟨needs_of_leavesLockedAlone ready left.requestsOne, leavesLockedAlone_of_needs ready⟩
  refine ⟨needed, fun none => ?_⟩
  rw [needed]
  constructor
  · intro needs item locked
    exact not_needs_of_requestAdd none item (needs item locked)
  · intro unlocked item locked
    exact absurd locked (unlocked item)

end Produced

/-! ## Two universes with a locked package -/

/-- A requested package that depends on a locked one. -/
def neededJobs : Jobs where
  univ := JobsUniverse.ofPackages Pkg.digest
    [{ type := .installed, uid := "lib", digest := some "d1", locked := true },
     { type := .remote, uid := "app", digest := some "d2", deps := [⟨"lib", "lib", ""⟩] }]
  requestAdd := [1]

/-- The request keeps the locked package. -/
theorem neededJobs_leftAlone : LeavesLockedAlone neededJobs := by
  have ready : neededJobs.univ.Solvable :=
    (JobsUniverse.repInv_ofPackages _ _).solvable (by decide)
  have left : RequestsLeft neededJobs := @RequestsLeft.chains (fun _ _ => 0) neededJobs _ rfl
  apply (leavesLockedAlone_iff ready left).1.mpr
  rintro item ⟨reachable, _, locked⟩ selected admissible granted
  have chosen : selected 1 = true := (granted 1 (by decide)).1 (by decide)
  obtain ⟨other, inChain, needed⟩ :=
    admissible.depends 1 (by decide) chosen ⟨"lib", "lib", ""⟩ (by decide) 0 (by decide)
  have only : neededJobs.univ.chain 0 = [0] := by decide
  rw [only, List.mem_singleton] at inChain
  have first : ∀ item ∈ neededJobs.univ.units, (neededJobs.pkg item).locked = true → item = 0 := by
    decide
  rw [first item reachable locked, ← inChain]
  exact needed

/-- The installed packages: a locked package and the one it depends on. -/
def lockedDependentEnv : Env where
  type := .deinstall
  recursive := true
  query uid :=
    if uid = "app" then
      [{ type := .installed, uid := "app", digest := some "d2", locked := true,
         deps := [⟨"lib", "lib", ""⟩] }]
    else []
  repoQuery _ := []
  shlibProvide _ := none
  versionCmp _ _ := 0
  checksum := Pkg.digest

/-- Deleting the dependency recursively schedules the deletion of the locked package. -/
theorem lockedDependent_not_leftAlone :
    ¬∀ j : Jobs, j.univ.Solvable → RequestsLeft j → LeavesLockedAlone j := by
  intro claim
  let j : Jobs :=
    { univ := JobsUniverse.ofPackages Pkg.digest
        [{ type := .installed, uid := "lib", digest := some "d1", rdeps := [⟨"app", "app", ""⟩] },
         { type := .installed, uid := "app", digest := some "d2", locked := true,
           deps := [⟨"lib", "lib", ""⟩] }]
      type := .deinstall
      requestDelete := [0]
      solved := 1 }
  have ready : j.univ.Solvable := (JobsUniverse.repInv_ofPackages _ _).solvable (by decide)
  have ran : jobsSolveDeinstall lockedDependentEnv 3
      [some [{ type := .installed, uid := "lib", digest := some "d1",
               rdeps := [⟨"app", "app", ""⟩] }]] { univ := {}, type := .deinstall } =
        some (.ok, j) := rfl
  have left : RequestsLeft j := .deinstall rfl ran
  have needs := needs_of_leavesLockedAlone ready left.requestsOne (claim j ready left)
  exact not_needs_of_requestAdd rfl 1 (needs 1 ⟨by decide, by decide, by decide⟩)

end Pkgng
