import Pkgng.Solve.Encoding

/-!
# From an assignment to jobs

`pkg_solve_sat_to_jobs` and `pkg_solve_insert_res_job`.  A chain contributes one
job for its chosen remote item, if it has one, and a deletion for each installed
item that is dropped and not consumed by an upgrade; so the jobs of a chain hold
each item whose state changes exactly once.
-/

set_option autoImplicit false

namespace Pkgng

open Lib

/-- The assignment that `pkg_solve_sat_problem` reads back from the solver. -/
def SolveProblem.decided (problem : SolveProblem) (σ : Nat → Bool) : SolveProblem :=
  { problem with toInstall := σ }

/-- `var->unit`, for a variable that may be null. -/
def SolveVariables.unitOf (sv : SolveVariables) (var : Option Nat) : Addr :=
  (var.bind sv.unit).getD 0

def SolveVariables.uid (sv : SolveVariables) (var : Nat) : Uid :=
  match sv.vars.getD var none with
  | some v => v.uid
  | none => ""

/-- The four locals of `pkg_solve_insert_res_job` that its first loop fills. -/
structure SeenVars where
  addVar : Option Nat := none
  delVar : Option Nat := none
  seenAdd : Nat := 0
  seenDel : Nat := 0

def SeenVars.visit (u : JobsUniverse) (problem : SolveProblem) (seen : SeenVars) (curVar : Nat) :
    SeenVars :=
  if problem.toInstall curVar && !(problem.pkg u curVar).isInstalled then
    { seen with addVar := some curVar, seenAdd := seen.seenAdd + 1 }
  else if !problem.toInstall curVar && (problem.pkg u curVar).isInstalled then
    { seen with delVar := some curVar, seenDel := seen.seenDel + 1 }
  else seen

/-- The job for the chosen remote package. -/
def addJob (type : JobsType) (problem : SolveProblem) (seen : SeenVars) : Solved :=
  if seen.seenDel = 0 then
    { items0 := problem.unitOf seen.addVar
      type := if type = .fetch then .fetch else .install }
  else
    { items0 := problem.unitOf seen.addVar
      items1 := some (problem.unitOf seen.delVar)
      type := .upgrade }

/-- One turn of the second loop. -/
def insertDelete (problem : SolveProblem) (seen : SeenVars) (j : Jobs) (curVar : Nat) : Jobs :=
  if !problem.toInstall curVar && (problem.pkg j.univ curVar).isInstalled then
    if 0 < seen.seenAdd ∧ some curVar = seen.delVar then j
    else j.schedule { items0 := problem.unitOf (some curVar), type := .delete }
  else j

def pkgSolveInsertResJob (j : Jobs) (problem : SolveProblem) (var : Nat) : Jobs :=
  let chain := problem.chainFrom (some var)
  let seen := chain.foldl (SeenVars.visit j.univ problem) {}
  if 1 < seen.seenAdd then
    { j with
      errors := j.errors ++ ["internal solver error: more than two packages to install(" ++
        toString seen.seenAdd ++ ") from the same uid: " ++ problem.uid var] }
  else if seen.seenAdd ≠ 0 ∨ seen.seenDel ≠ 0 then
    let j := if 0 < seen.seenAdd then j.schedule (addJob j.type problem seen) else j
    chain.foldl (insertDelete problem seen) j
  else j

def pkgSolveSatToJobs (j : Jobs) (problem : SolveProblem) : Jobs :=
  problem.variablesByUid.foldl (fun j entry => pkgSolveInsertResJob j problem entry.2) j

/-! ## The jobs of a chain, by its items -/

/-- The job list of a chain whose chosen remote items and dropped installed
items are given. -/
def resJobs (type : JobsType) : List Addr → List Addr → List Solved
  | [], dels => dels.map fun item => { items0 := item, type := .delete }
  | add :: _, dels =>
      match dels.getLast? with
      | none => [{ items0 := add, type := if type = .fetch then .fetch else .install }]
      | some del =>
          { items0 := add, items1 := some del, type := .upgrade } ::
            (dels.filter (· ≠ del)).map fun item => { items0 := item, type := .delete }

def Jobs.extend (j : Jobs) (new : List Solved) : Jobs :=
  { j with jobs := j.jobs ++ new, count := j.count + new.length }

namespace JobsUniverse

variable (u : JobsUniverse) (selected : Addr → Bool)

/-- The items of a chain to be installed. -/
def adds (chain : List Addr) : List Addr :=
  chain.filter fun item => selected item && !(u.pkg item).isInstalled

/-- The items of a chain to be removed. -/
def dels (chain : List Addr) : List Addr :=
  chain.filter fun item => !selected item && (u.pkg item).isInstalled

end JobsUniverse

section ResJobs

theorem extend_nil (j : Jobs) : j.extend [] = j := by simp [Jobs.extend]

theorem extend_extend (j : Jobs) (first second : List Solved) :
    (j.extend first).extend second = j.extend (first ++ second) := by
  simp [Jobs.extend, Nat.add_assoc]

theorem schedule_eq_extend (j : Jobs) (job : Solved) : j.schedule job = j.extend [job] := rfl

/-- The jobs of a chain hold its changed items once each. -/
theorem resJobs_units (type : JobsType) {adds dels : List Addr} (single : adds.length ≤ 1)
    (nodup : dels.Nodup) :
    ((resJobs type adds dels).flatMap Solved.units).Perm (adds ++ dels) := by
  have deletions : ∀ items : List Addr, (items.map fun item =>
      ({ items0 := item, type := .delete } : Solved)).flatMap Solved.units = items := by
    intro items
    induction items with
    | nil => rfl
    | cons item rest ih => simp [ih, Solved.units]
  match adds, single with
  | [], _ => rw [resJobs, deletions, List.nil_append]
  | [add], _ =>
      cases last : dels.getLast? with
      | none =>
          rw [List.getLast?_eq_none_iff] at last
          simp [resJobs, last, Solved.units]
      | some del =>
          have member := List.mem_of_getLast? last
          have rest : (dels.filter (· ≠ del)) = dels.erase del := by
            rw [nodup.erase_eq_filter]
            exact List.filter_congr fun item _ => by simp [bne, beq_eq_decide]
          simp only [resJobs, last, rest, List.flatMap_cons, deletions, Solved.units,
            Option.toList_some, List.cons_append, List.nil_append]
          exact ((List.perm_cons_erase member).symm).cons add

/-- The chosen item leads a job. -/
theorem resJobs_adds (type : JobsType) {dels : List Addr} (add : Addr) :
    ∃ job ∈ resJobs type [add] dels, job.items0 = add ∧
      (job.type = .install ∨ job.type = .upgrade ∨ job.type = .fetch) := by
  cases last : dels.getLast? with
  | none =>
      refine ⟨_, by simp only [resJobs, last]; exact List.mem_cons_self .., rfl, ?_⟩
      by_cases fetching : type = .fetch <;> simp [fetching]
  | some del =>
      exact ⟨_, by simp only [resJobs, last]; exact List.mem_cons_self .., rfl, Or.inr (Or.inl rfl)⟩

/-- A dropped item is replaced by an upgrade or deleted. -/
theorem resJobs_dels (type : JobsType) {adds dels : List Addr} (single : adds.length ≤ 1)
    {del : Addr} (member : del ∈ dels) :
    ∃ job ∈ resJobs type adds dels,
      (job.type = .upgrade ∧ job.items1 = some del ∧ job.items0 ∈ adds) ∨
      (job.type = .delete ∧ job.items0 = del ∧ job.items1 = none) := by
  match adds, single with
  | [], _ =>
      exact ⟨_, List.mem_map_of_mem member, Or.inr ⟨rfl, rfl, rfl⟩⟩
  | [add], _ =>
      cases last : dels.getLast? with
      | none =>
          rw [List.getLast?_eq_none_iff] at last
          rw [last] at member
          cases member
      | some consumed =>
          by_cases same : del = consumed
          · refine ⟨_, by simp only [resJobs, last]; exact List.mem_cons_self .., Or.inl ?_⟩
            exact ⟨rfl, by rw [same], List.mem_singleton_self _⟩
          · have remains : del ∈ dels.filter (· ≠ consumed) := by simp [member, same]
            refine ⟨{ items0 := del, type := .delete }, ?_, Or.inr ⟨rfl, rfl, rfl⟩⟩
            simp only [resJobs, last]
            exact List.mem_cons_of_mem _ (List.mem_map_of_mem remains)

/-- A job that installs without replacing anything comes from a chain that keeps
all its installed items. -/
theorem resJobs_plain (type : JobsType) {adds dels : List Addr} {job : Solved}
    (member : job ∈ resJobs type adds dels)
    (plain : job.type = .install ∨ job.type = .fetch) : dels = [] ∧ job.items0 ∈ adds := by
  match adds with
  | [] =>
      obtain ⟨item, _, rfl⟩ := List.mem_map.mp member
      simp at plain
  | add :: rest =>
      cases last : dels.getLast? with
      | none =>
          simp only [resJobs, last, List.mem_singleton] at member
          rw [List.getLast?_eq_none_iff] at last
          exact ⟨last, by rw [member]; exact List.mem_cons_self ..⟩
      | some del =>
          simp only [resJobs, last, List.mem_cons] at member
          rcases member with rfl | inRest
          · simp at plain
          · obtain ⟨item, _, rfl⟩ := List.mem_map.mp inRest
            simp at plain

end ResJobs

/-! ## The loops of `pkg_solve_insert_res_job` -/

section Loops

variable {j : Jobs} {problem : SolveProblem}

/-- The items whose variables the solver made true. -/
def SolveProblem.chosen (problem : SolveProblem) (u : JobsUniverse) (item : Addr) : Bool :=
  problem.toInstall (u.varOf item)

theorem visit_foldl (mirrors : Mirrors j.univ problem.toSolveVariables) :
    ∀ (items : List Addr) (seen : SeenVars), (∀ item ∈ items, item ∈ j.univ.units) →
      (items.map j.univ.varOf).foldl (SeenVars.visit j.univ problem) seen =
        { addVar :=
            ((j.univ.adds (problem.chosen j.univ) items).getLast?.map j.univ.varOf).or seen.addVar
          delVar :=
            ((j.univ.dels (problem.chosen j.univ) items).getLast?.map j.univ.varOf).or seen.delVar
          seenAdd := seen.seenAdd + (j.univ.adds (problem.chosen j.univ) items).length
          seenDel := seen.seenDel + (j.univ.dels (problem.chosen j.univ) items).length }
  | [], seen, _ => by simp [JobsUniverse.adds, JobsUniverse.dels]
  | item :: rest, seen, reachable => by
      have pkgEq := mirrors.pkg_varOf (reachable item (List.mem_cons_self ..))
      have later := visit_foldl mirrors rest (seen.visit j.univ problem (j.univ.varOf item))
        fun other inRest => reachable other (List.mem_cons_of_mem _ inRest)
      rw [List.map_cons, List.foldl_cons, later]
      simp only [SeenVars.visit, pkgEq, JobsUniverse.adds, JobsUniverse.dels, List.filter_cons,
        SolveProblem.chosen]
      cases chosen : problem.toInstall (j.univ.varOf item) <;>
        cases installed : (j.univ.pkg item).isInstalled <;>
        simp [List.getLast?_cons, Nat.add_assoc, Nat.add_comm 1]

theorem unitOf_varOf (mirrors : Mirrors j.univ problem.toSolveVariables) {item : Addr}
    (reachable : item ∈ j.univ.units) :
    problem.unitOf (some (j.univ.varOf item)) = item := by
  simp [SolveVariables.unitOf, mirrors.unit_varOf reachable]

/-- The second loop deletes the dropped items that the upgrade has not consumed. -/
theorem insertDelete_foldl (mirrors : Mirrors j.univ problem.toSolveVariables) (seen : SeenVars) :
    ∀ (items : List Addr) (new : List Solved), (∀ item ∈ items, item ∈ j.univ.units) →
      (items.map j.univ.varOf).foldl (insertDelete problem seen) (j.extend new) =
        j.extend (new ++
          ((j.univ.dels (problem.chosen j.univ) items).filter fun item =>
            !decide (0 < seen.seenAdd ∧ some (j.univ.varOf item) = seen.delVar)).map
            fun item => { items0 := item, type := .delete })
  | [], new, _ => by simp [JobsUniverse.dels]
  | item :: rest, new, reachable => by
      have here := reachable item (List.mem_cons_self ..)
      have later := fun new => insertDelete_foldl mirrors seen rest new
        fun other inRest => reachable other (List.mem_cons_of_mem _ inRest)
      have univEq : (j.extend new).univ = j.univ := rfl
      have pkgEq : problem.pkg (j.extend new).univ (j.univ.varOf item) = j.univ.pkg item :=
        mirrors.pkg_varOf here
      rw [List.map_cons, List.foldl_cons, insertDelete, pkgEq, unitOf_varOf mirrors here]
      simp only [JobsUniverse.dels, List.filter_cons, SolveProblem.chosen]
      by_cases dropped : (!problem.toInstall (j.univ.varOf item) &&
          (j.univ.pkg item).isInstalled) = true
      · by_cases consumed : 0 < seen.seenAdd ∧ some (j.univ.varOf item) = seen.delVar
        · rw [if_pos dropped, if_pos consumed, if_pos dropped, later]
          simp [consumed, JobsUniverse.dels, SolveProblem.chosen]
        · have kept : (!decide (0 < seen.seenAdd ∧ some (j.univ.varOf item) = seen.delVar)) = true := by
            simp only [consumed, decide_false, Bool.not_false]
          rw [if_pos dropped, if_neg consumed, if_pos dropped, schedule_eq_extend,
            extend_extend, later]
          simp only [List.filter_cons, kept, if_true, List.map_cons, List.append_assoc,
            List.singleton_append]
          rfl
      · rw [if_neg dropped, if_neg dropped, later]
        rfl

/-- One chain with at most one chosen remote item. -/
theorem pkgSolveInsertResJob_spec (inv : j.univ.Chained)
    (mirrors : Mirrors j.univ problem.toSolveVariables) {entry : Uid × Addr}
    (member : entry ∈ j.univ.items)
    (single : (j.univ.adds (problem.chosen j.univ) (j.univ.chain entry.2)).length ≤ 1) :
    pkgSolveInsertResJob j problem (j.univ.varOf entry.2) =
      j.extend (resJobs j.type (j.univ.adds (problem.chosen j.univ) (j.univ.chain entry.2))
        (j.univ.dels (problem.chosen j.univ) (j.univ.chain entry.2))) := by
  have reachable : ∀ item ∈ j.univ.chain entry.2, item ∈ j.univ.units := fun item inChain =>
    JobsUniverse.mem_units.mpr ⟨entry, member, inChain⟩
  have delsReachable : ∀ item ∈ j.univ.dels (problem.chosen j.univ) (j.univ.chain entry.2),
      item ∈ j.univ.units := fun item inDels =>
    reachable item (List.mem_of_mem_filter inDels)
  have addsReachable : ∀ item ∈ j.univ.adds (problem.chosen j.univ) (j.univ.chain entry.2),
      item ∈ j.univ.units := fun item inAdds =>
    reachable item (List.mem_of_mem_filter inAdds)
  unfold pkgSolveInsertResJob
  rw [mirrors.chainFrom_head inv member]
  simp only [visit_foldl mirrors _ _ reachable, Option.or_none, Nat.zero_add]
  rw [if_neg (Nat.not_lt.mpr single)]
  have deletes := fun seen new => insertDelete_foldl mirrors seen (j.univ.chain entry.2) new reachable
  generalize j.univ.adds (problem.chosen j.univ) (j.univ.chain entry.2) = adds at *
  generalize j.univ.dels (problem.chosen j.univ) (j.univ.chain entry.2) = dels at *
  match adds, single with
  | [], _ =>
      by_cases idle : dels = []
      · simp [idle, resJobs, extend_nil]
      · have several : dels.length ≠ 0 := fun zero => idle (List.eq_nil_of_length_eq_zero zero)
        simp only [List.length_nil, List.getLast?_nil, Option.map_none]
        rw [if_pos (Or.inr several), if_neg (Nat.lt_irrefl 0)]
        have all := deletes { delVar := dels.getLast?.map j.univ.varOf, seenDel := dels.length } []
        rw [extend_nil] at all
        simpa [resJobs] using all
  | [add], _ =>
      have addUnit := unitOf_varOf mirrors (addsReachable add (List.mem_singleton_self add))
      simp only [List.length_singleton, List.getLast?_singleton, Option.map_some]
      rw [if_pos (Or.inl Nat.one_ne_zero), if_pos Nat.one_pos, schedule_eq_extend, deletes, addJob]
      cases last : dels.getLast? with
      | none =>
          rw [List.getLast?_eq_none_iff] at last
          simp [last, resJobs, addUnit]
      | some del =>
          have delIn := List.mem_of_getLast? last
          have delUnit := unitOf_varOf mirrors (delsReachable del delIn)
          have several : dels.length ≠ 0 := fun zero => by
            rw [List.eq_nil_of_length_eq_zero zero] at delIn
            cases delIn
          have consumed : ∀ item ∈ dels,
              (!decide (0 < 1 ∧ some (j.univ.varOf item) = some (j.univ.varOf del))) =
                decide (item ≠ del) := by
            intro item inDels
            have same : j.univ.varOf item = j.univ.varOf del ↔ item = del :=
              List.idxOf_inj (delsReachable item inDels)
            simp [same]
          simp only [several, if_false, Option.map_some, addUnit, delUnit, resJobs, last,
            List.filter_congr consumed, List.singleton_append]

/-- The jobs of all chains, in the order of the table. -/
def JobsUniverse.resJobs (u : JobsUniverse) (type : JobsType) (selected : Addr → Bool) :
    List Solved :=
  u.items.flatMap fun entry =>
    Pkgng.resJobs type (u.adds selected (u.chain entry.2)) (u.dels selected (u.chain entry.2))

theorem pkgSolveSatToJobs_spec (inv : j.univ.Chained)
    (mirrors : Mirrors j.univ problem.toSolveVariables)
    (single : ∀ entry ∈ j.univ.items,
      (j.univ.adds (problem.chosen j.univ) (j.univ.chain entry.2)).length ≤ 1) :
    pkgSolveSatToJobs j problem =
      j.extend (j.univ.resJobs j.type (problem.chosen j.univ)) := by
  have loop : ∀ (entries : List (Uid × Addr)) (new : List Solved),
      (∀ entry ∈ entries, entry ∈ j.univ.items) →
      entries.foldl (fun j' entry => pkgSolveInsertResJob j' problem (j.univ.varOf entry.2))
          (j.extend new) =
        j.extend (new ++ entries.flatMap fun entry =>
          resJobs j.type (j.univ.adds (problem.chosen j.univ) (j.univ.chain entry.2))
            (j.univ.dels (problem.chosen j.univ) (j.univ.chain entry.2))) := by
    intro entries
    induction entries with
    | nil => intro new _; simp
    | cons entry rest ih =>
        intro new members
        have member := members entry (List.mem_cons_self ..)
        have first : pkgSolveInsertResJob (j.extend new) problem (j.univ.varOf entry.2) =
            (j.extend new).extend _ :=
          @pkgSolveInsertResJob_spec (j.extend new) problem inv mirrors entry member
            (single entry member)
        rw [List.foldl_cons, first, extend_extend,
          ih _ fun other inRest => members other (List.mem_cons_of_mem _ inRest)]
        simp only [List.flatMap_cons, List.append_assoc]
        rfl
  rw [pkgSolveSatToJobs, mirrors.byUid, List.foldl_map, JobsUniverse.resJobs]
  have whole := loop j.univ.items [] fun _ member => member
  rw [extend_nil, List.nil_append] at whole
  exact whole

end Loops

/-! ## The jobs realise the assignment -/

section Realise

variable {u : JobsUniverse} {selected : Addr → Bool}

/-- A chosen remote item or a dropped installed one. -/
def JobsUniverse.changes (u : JobsUniverse) (selected : Addr → Bool) (item : Addr) : Bool :=
  selected item != (u.pkg item).isInstalled

theorem adds_append_dels_perm (chain : List Addr) :
    (u.adds selected chain ++ u.dels selected chain).Perm (chain.filter (u.changes selected)) := by
  induction chain with
  | nil => simp [JobsUniverse.adds, JobsUniverse.dels]
  | cons item rest ih =>
      simp only [JobsUniverse.adds, JobsUniverse.dels, JobsUniverse.changes, List.filter_cons] at ih ⊢
      by_cases chosen : selected item = true
      · by_cases installed : (u.pkg item).isInstalled = true
        · simpa [chosen, installed] using ih
        · simpa [chosen, installed] using ih
      · by_cases installed : (u.pkg item).isInstalled = true
        · simp only [chosen, installed]
          exact List.perm_middle.trans (ih.cons item)
        · simpa [chosen, installed] using ih

/-- The scheduled jobs hold exactly the items that change, once each. -/
theorem resJobs_units_perm (inv : u.Chained) (type : JobsType)
    (single : ∀ entry ∈ u.items, (u.adds selected (u.chain entry.2)).length ≤ 1) :
    ((u.resJobs type selected).flatMap Solved.units).Perm (u.units.filter (u.changes selected)) := by
  have loop : ∀ entries : List (Uid × Addr), (∀ entry ∈ entries, entry ∈ u.items) →
      ((entries.flatMap fun entry =>
        resJobs type (u.adds selected (u.chain entry.2))
          (u.dels selected (u.chain entry.2))).flatMap Solved.units).Perm
        ((entries.map fun entry => u.chain entry.2).flatten.filter (u.changes selected)) := by
    intro entries
    induction entries with
    | nil => intro _; simp
    | cons entry rest ih =>
        intro members
        have member := members entry (List.mem_cons_self ..)
        have nodup := (inv.linked entry member).nodup.filter
          fun item => !selected item && (u.pkg item).isInstalled
        rw [List.flatMap_cons, List.flatMap_append, List.map_cons, List.flatten_cons,
          List.filter_append]
        refine List.Perm.append ?_ (ih fun other inRest => members other (List.mem_cons_of_mem _ inRest))
        exact (resJobs_units type (single entry member) nodup).trans (adds_append_dels_perm _)
  exact loop u.items fun _ member => member

theorem count_resJobs (inv : u.Chained) (type : JobsType)
    (single : ∀ entry ∈ u.items, (u.adds selected (u.chain entry.2)).length ≤ 1) (item : Addr) :
    ((u.resJobs type selected).flatMap Solved.units).count item =
      if item ∈ u.units ∧ u.changes selected item = true then 1 else 0 := by
  rw [(resJobs_units_perm inv type single).count_eq]
  split
  · next occurs =>
      exact List.count_eq_one_of_mem (inv.unitsNodup.filter _) (List.mem_filter.mpr occurs)
  · next absent =>
      exact List.count_eq_zero_of_not_mem fun occurs => absent (List.mem_filter.mp occurs)

theorem mem_resJobs {type : JobsType} {job : Solved} :
    job ∈ u.resJobs type selected ↔ ∃ entry ∈ u.items,
      job ∈ resJobs type (u.adds selected (u.chain entry.2)) (u.dels selected (u.chain entry.2)) :=
  List.mem_flatMap

/-- How often an item occurs in a list of jobs, in either place of a job. -/
def occurrences (jobs : List Solved) (item : Addr) : Nat :=
  (jobs.flatMap Solved.units).count item

variable {j : Jobs} {problem : SolveProblem} {σ : Nat → Bool}

theorem chosen_iff_selected (inv : j.univ.Chained)
    (mirrors : Mirrors j.univ problem.toSolveVariables) {item : Addr}
    (reachable : item ∈ j.univ.units) :
    (problem.decided σ).chosen j.univ item = true ↔ problem.Selected σ item :=
  (mirrors.selected_iff inv reachable).symm

theorem mem_adds_iff (inv : j.univ.Chained) (mirrors : Mirrors j.univ problem.toSolveVariables)
    {entry : Uid × Addr} (member : entry ∈ j.univ.items) {item : Addr} :
    item ∈ j.univ.adds ((problem.decided σ).chosen j.univ) (j.univ.chain entry.2) ↔
      item ∈ j.univ.chain entry.2 ∧ (j.pkg item).isInstalled = false ∧
        problem.Selected σ item := by
  rw [JobsUniverse.adds, List.mem_filter, Bool.and_eq_true, Bool.not_eq_true']
  constructor
  · rintro ⟨inChain, chosen, remote⟩
    have reachable := JobsUniverse.mem_units.mpr ⟨entry, member, inChain⟩
    exact ⟨inChain, remote, (chosen_iff_selected inv mirrors reachable).mp chosen⟩
  · rintro ⟨inChain, remote, isSelected⟩
    have reachable := JobsUniverse.mem_units.mpr ⟨entry, member, inChain⟩
    exact ⟨inChain, (chosen_iff_selected inv mirrors reachable).mpr isSelected, remote⟩

theorem eq_singleton_of_mem {items : List Addr} {item : Addr} (member : item ∈ items)
    (single : items.length ≤ 1) : items = [item] := by
  match items, member, single with
  | [_], member, _ => rw [List.mem_singleton.mp member]

/-- A chain in which no two remote variables are true has at most one item to
install. -/
theorem adds_length_le_one (inv : j.univ.Chained)
    (mirrors : Mirrors j.univ problem.toSolveVariables) {entry : Uid × Addr}
    (member : entry ∈ j.univ.items)
    (single : ∀ a ∈ j.univ.chain entry.2, ∀ b ∈ j.univ.chain entry.2,
      (j.pkg a).isInstalled = false → (j.pkg b).isInstalled = false →
        problem.Selected σ a → problem.Selected σ b → a = b) :
    (j.univ.adds ((problem.decided σ).chosen j.univ) (j.univ.chain entry.2)).length ≤ 1 := by
  have nodup : (j.univ.adds ((problem.decided σ).chosen j.univ) (j.univ.chain entry.2)).Nodup :=
    (inv.linked entry member).nodup.filter _
  have same : ∀ a ∈ j.univ.adds ((problem.decided σ).chosen j.univ) (j.univ.chain entry.2),
      ∀ b ∈ j.univ.adds ((problem.decided σ).chosen j.univ) (j.univ.chain entry.2), a = b := by
    intro a inA b inB
    obtain ⟨chainA, remoteA, selectedA⟩ := (mem_adds_iff inv mirrors member).mp inA
    obtain ⟨chainB, remoteB, selectedB⟩ := (mem_adds_iff inv mirrors member).mp inB
    exact single a chainA b chainB remoteA remoteB selectedA selectedB
  match j.univ.adds ((problem.decided σ).chosen j.univ) (j.univ.chain entry.2), nodup, same with
  | [], _, _ => exact Nat.zero_le 1
  | [_], _, _ => exact Nat.le_refl 1
  | a :: b :: rest, nodup, same =>
      have equal := same a (List.mem_cons_self ..) b (List.mem_cons_of_mem _ (List.mem_cons_self ..))
      rw [equal] at nodup
      exact absurd (List.mem_cons_self ..) (List.nodup_cons.mp nodup).1

/-- The jobs appended for an assignment are the assignment: each chosen remote
item leads one job, each dropped installed item is upgraded or deleted once, and
no other item occurs. -/
theorem pkgSolveSatToJobs_realises (ready : j.univ.Solvable)
    (built : pkgSolveJobsToSat j = some problem)
    (single : ∀ entry ∈ j.univ.items, ∀ a ∈ j.univ.chain entry.2, ∀ b ∈ j.univ.chain entry.2,
      (j.pkg a).isInstalled = false → (j.pkg b).isInstalled = false →
        problem.Selected σ a → problem.Selected σ b → a = b) :
    ∃ new, (pkgSolveSatToJobs j (problem.decided σ)).jobs = j.jobs ++ new ∧
      (pkgSolveSatToJobs j (problem.decided σ)).count = j.count + new.length ∧
      (∀ item ∈ j.univ.units, (j.pkg item).isInstalled = false → problem.Selected σ item →
        occurrences new item = 1 ∧ ∃ job ∈ new, job.items0 = item ∧
          (job.type = .install ∨ job.type = .upgrade ∨ job.type = .fetch)) ∧
      (∀ entry ∈ j.univ.items, ∀ item ∈ j.univ.chain entry.2, (j.pkg item).isInstalled = true →
        ¬ problem.Selected σ item → occurrences new item = 1 ∧ ∃ job ∈ new,
          (job.type = .upgrade ∧ job.items1 = some item ∧ job.items0 ∈ j.univ.chain entry.2) ∨
          (job.type = .delete ∧ job.items0 = item ∧ job.items1 = none)) ∧
      ∀ item, (item ∈ j.univ.units →
          ((j.pkg item).isInstalled = true ↔ problem.Selected σ item)) →
        occurrences new item = 0 := by
  obtain ⟨problem', built', mirrors, _⟩ := pkgSolveJobsToSat_spec ready
  rw [built'] at built
  cases built
  have inv := ready.toChained
  have short := fun entry member =>
    adds_length_le_one inv mirrors member (single entry member)
  have ran := @pkgSolveSatToJobs_spec j (problem.decided σ) inv mirrors short
  have counted := count_resJobs inv j.type short
  have changes : ∀ item ∈ j.univ.units,
      (j.univ.changes ((problem.decided σ).chosen j.univ) item = true ↔
        ¬ ((j.pkg item).isInstalled = true ↔ problem.Selected σ item)) := by
    intro item reachable
    rw [← chosen_iff_selected inv mirrors reachable, JobsUniverse.changes, Jobs.pkg]
    cases (problem.decided σ).chosen j.univ item <;> cases (j.univ.pkg item).isInstalled <;> simp
  refine ⟨_, congrArg Jobs.jobs ran, congrArg Jobs.count ran, ?_, ?_, ?_⟩
  · intro item reachable remote isSelected
    obtain ⟨entry, member, inChain⟩ := JobsUniverse.mem_units.mp reachable
    refine ⟨?_, ?_⟩
    · have changed := (changes item reachable).mpr (by simp [remote, isSelected])
      rw [occurrences, counted, if_pos ⟨reachable, changed⟩]
    · have isAdd := (mem_adds_iff inv mirrors member).mpr ⟨inChain, remote, isSelected⟩
      obtain ⟨job, inJobs, leads, kind⟩ : ∃ job ∈ resJobs j.type
          (j.univ.adds ((problem.decided σ).chosen j.univ) (j.univ.chain entry.2))
          (j.univ.dels ((problem.decided σ).chosen j.univ) (j.univ.chain entry.2)),
          job.items0 = item ∧ (job.type = .install ∨ job.type = .upgrade ∨ job.type = .fetch) := by
        have only := eq_singleton_of_mem isAdd (short entry member)
        rw [only]
        exact resJobs_adds j.type item
      exact ⟨job, mem_resJobs.mpr ⟨entry, member, inJobs⟩, leads, kind⟩
  · intro entry member item inChain installed dropped
    have reachable := JobsUniverse.mem_units.mpr ⟨entry, member, inChain⟩
    refine ⟨?_, ?_⟩
    · have changed := (changes item reachable).mpr (by simp [installed, dropped])
      rw [occurrences, counted, if_pos ⟨reachable, changed⟩]
    · have notChosen : (problem.decided σ).chosen j.univ item = false := by
        rw [← Bool.not_eq_true, chosen_iff_selected inv mirrors reachable]
        exact dropped
      have isDel : item ∈ j.univ.dels ((problem.decided σ).chosen j.univ)
          (j.univ.chain entry.2) := by
        have installed' : (j.univ.pkg item).isInstalled = true := installed
        simp [JobsUniverse.dels, inChain, notChosen, installed']
      obtain ⟨job, inJobs, kind⟩ := resJobs_dels j.type (short entry member) isDel
      refine ⟨job, mem_resJobs.mpr ⟨entry, member, inJobs⟩, kind.imp_left ?_⟩
      rintro ⟨upgrades, replaced, leads⟩
      exact ⟨upgrades, replaced, ((mem_adds_iff inv mirrors member).mp leads).1⟩
  · intro item unchanged
    rw [occurrences, counted, if_neg]
    rintro ⟨reachable, changed⟩
    exact (changes item reachable).mp changed (unchanged reachable)

/-- The newer version and its dependency in, the older version out. -/
theorem upgradeJobs_realised : ∃ problem, pkgSolveJobsToSat upgradeJobs = some problem ∧
    ∃ new, (pkgSolveSatToJobs upgradeJobs (problem.decided (· ≠ 0))).jobs = new ∧
      occurrences new 0 = 1 ∧ occurrences new 1 = 1 ∧ occurrences new 2 = 1 := by
  obtain ⟨problem, built, mirrors, _⟩ := pkgSolveJobsToSat_spec upgradeJobs_solvable
  have single : ∀ entry ∈ upgradeJobs.univ.items, ∀ a ∈ upgradeJobs.univ.chain entry.2,
      ∀ b ∈ upgradeJobs.univ.chain entry.2, (upgradeJobs.pkg a).isInstalled = false →
        (upgradeJobs.pkg b).isInstalled = false → a = b := by decide
  have selected := fun item (reachable : item ∈ upgradeJobs.univ.units) =>
    @Mirrors.selected_iff _ _ mirrors upgradeJobs_solvable.toChained (· ≠ 0) item reachable
  obtain ⟨new, jobsEq, _, installs, removes, _⟩ := pkgSolveSatToJobs_realises
    upgradeJobs_solvable built fun entry member a inA b inB remoteA remoteB _ _ =>
      single entry member a inA b inB remoteA remoteB
  refine ⟨problem, built, new, jobsEq, ?_, ?_, ?_⟩
  · exact (removes ("app", 0) (by decide) 0 (by decide) (by decide)
      ((selected 0 (by decide)).not.mpr (by decide))).1
  · exact (installs 1 (by decide) (by decide) ((selected 1 (by decide)).mpr (by decide))).1
  · exact (installs 2 (by decide) (by decide) ((selected 2 (by decide)).mpr (by decide))).1

end Realise

end Pkgng
