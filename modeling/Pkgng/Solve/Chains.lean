import Pkgng.Solve.ResultJobs

/-!
# One package of each uid

The chain rule is meant to keep two packages of one uid from being chosen
together, and `pkg_solve_insert_res_job` relies on it.  Only the first variable
of a chain adds the rule, so the later ones exclude each other only where their
own dependencies and conflicts do.
-/

set_option autoImplicit false

namespace Pkgng

open Lib

/-- What `pkg_solve_insert_res_job` relies on, for one assignment: one variable
of each chain, no run into the error branch, and no installation beside a kept
installed package of the uid. -/
structure OneOfEachUid (j : Jobs) (problem : SolveProblem) (σ : Nat → Bool) : Prop where
  atMostOne : ∀ entry ∈ j.univ.items, ∀ a ∈ j.univ.chain entry.2, ∀ b ∈ j.univ.chain entry.2,
    problem.Selected σ a → problem.Selected σ b → a = b
  noError : (pkgSolveSatToJobs j (problem.decided σ)).errors = j.errors
  noPlainInstall : ∀ job ∈ (pkgSolveSatToJobs j (problem.decided σ)).jobs.drop j.jobs.length,
    (job.type = .install ∨ job.type = .fetch) → ∀ entry ∈ j.univ.items,
      job.items0 ∈ j.univ.chain entry.2 → ∀ item ∈ j.univ.chain entry.2,
        (j.pkg item).isInstalled = true → ¬ problem.Selected σ item

/-- Some choice of packages meets the dependencies, conflicts and library
requirements, takes the first item of a chain alone, and contains both items. -/
def JobsUniverse.Compatible (u : JobsUniverse) (a b : Addr) : Prop :=
  ∃ selected, u.Admissible selected ∧ selected a = true ∧ selected b = true

section Chains

variable {j : Jobs} {problem : SolveProblem} {σ : Nat → Bool}

/-- With one variable of each chain true, the jobs come out as intended. -/
theorem oneOfEachUid_of_atMostOne (ready : j.univ.Solvable)
    (mirrors : Mirrors j.univ problem.toSolveVariables)
    (atMostOne : ∀ entry ∈ j.univ.items, ∀ a ∈ j.univ.chain entry.2,
      ∀ b ∈ j.univ.chain entry.2, problem.Selected σ a → problem.Selected σ b → a = b) :
    OneOfEachUid j problem σ := by
  have inv := ready.toChained
  have short : ∀ entry ∈ j.univ.items, (j.univ.adds ((problem.decided σ).chosen j.univ)
      (j.univ.chain entry.2)).length ≤ 1 := fun entry member =>
    adds_length_le_one inv mirrors member fun a inA b inB _ _ chosenA chosenB =>
      atMostOne entry member a inA b inB chosenA chosenB
  have ran := @pkgSolveSatToJobs_spec j (problem.decided σ) inv mirrors short
  refine ⟨atMostOne, by rw [ran]; rfl, ?_⟩
  rw [ran]
  intro job inNew plain entry member leads item inChain installed kept
  have inJobs : job ∈ j.univ.resJobs j.type ((problem.decided σ).chosen j.univ) := by
    simpa [Jobs.extend] using inNew
  obtain ⟨other, otherMember, inOther⟩ := mem_resJobs.mp inJobs
  obtain ⟨_, isAdd⟩ := resJobs_plain j.type inOther plain
  obtain ⟨_, remote, selected⟩ := (mem_adds_iff inv mirrors otherMember).mp isAdd
  have same := atMostOne entry member job.items0 leads item inChain selected kept
  rw [same] at remote
  rw [remote] at installed
  cases installed

/-- Satisfying assignments choose at most one item of a chain when no two later
items of a chain are compatible. -/
theorem atMostOne_of_incompatible (ready : j.univ.Solvable)
    (mirrors : Mirrors j.univ problem.toSolveVariables)
    (admissible : j.univ.Admissible fun item => σ (j.univ.varOf item))
    (apart : ∀ entry ∈ j.univ.items, ∀ a ∈ (j.univ.chain entry.2).tail,
      ∀ b ∈ (j.univ.chain entry.2).tail, a ≠ b → ¬ j.univ.Compatible a b) :
    ∀ entry ∈ j.univ.items, ∀ a ∈ j.univ.chain entry.2, ∀ b ∈ j.univ.chain entry.2,
      problem.Selected σ a → problem.Selected σ b → a = b := by
  intro entry member a inA b inB selectedA selectedB
  have inv := ready.toChained
  have reachable : ∀ {item}, item ∈ j.univ.chain entry.2 → item ∈ j.univ.units :=
    fun inChain => JobsUniverse.mem_units.mpr ⟨_, member, inChain⟩
  have chosenA := (mirrors.selected_iff inv (reachable inA)).mp selectedA
  have chosenB := (mirrors.selected_iff inv (reachable inB)).mp selectedB
  have one : AtMostOne (fun item => σ (j.univ.varOf item)) (j.univ.chain entry.2) := by
    rw [JobsUniverse.chain_eq_cons inv member,
      atMostOne_cons (JobsUniverse.head_notMem_tail inv member)]
    refine ⟨fun chosen other inTail => admissible.firstAlone entry member chosen other inTail, ?_⟩
    intro c inC d inD chosenC chosenD
    by_contra differ
    exact apart entry member c inC d inD differ ⟨_, admissible, chosenC, chosenD⟩
  exact one a inA b inB chosenA chosenB

/-- Two compatible items are chosen by a satisfying assignment. -/
theorem satisfied_of_compatible (ready : j.univ.Solvable)
    (mirrors : Mirrors j.univ problem.toSolveVariables)
    (satisfied : ∀ σ, problem.Satisfied σ ↔
      j.univ.Admissible fun item => σ (j.univ.varOf item))
    {a b : Addr} (reachA : a ∈ j.univ.units) (reachB : b ∈ j.univ.units)
    (compatible : j.univ.Compatible a b) :
    ∃ σ, problem.Satisfied σ ∧ problem.Selected σ a ∧ problem.Selected σ b := by
  obtain ⟨selected, admissible, chosenA, chosenB⟩ := compatible
  have inv := ready.toChained
  have read : ∀ item ∈ j.univ.units,
      (j.univ.units.map selected).getD (j.univ.varOf item) false = selected item :=
    fun item reachable => JobsUniverse.getD_varOf selected reachable
  refine ⟨fun var => (j.univ.units.map selected).getD var false, ?_, ?_, ?_⟩
  · rw [satisfied]
    exact (JobsUniverse.admissible_congr inv read).mpr admissible
  · exact (mirrors.selected_iff inv reachA).mpr ((read a reachA).trans chosenA)
  · exact (mirrors.selected_iff inv reachB).mpr ((read b reachB).trans chosenB)

/-- Chains of at most two items leave the missing pairs no room. -/
theorem incompatible_of_short (short : ∀ entry ∈ j.univ.items, (j.univ.chain entry.2).length ≤ 2) :
    ∀ entry ∈ j.univ.items, ∀ a ∈ (j.univ.chain entry.2).tail,
      ∀ b ∈ (j.univ.chain entry.2).tail, a ≠ b → ¬ j.univ.Compatible a b := by
  intro entry member a inA b inB differ
  have shortTail : (j.univ.chain entry.2).tail.length ≤ 1 := by
    rw [List.length_tail]
    have := short entry member
    omega
  have only := eq_singleton_of_mem inA shortTail
  rw [only, List.mem_singleton] at inB
  exact absurd inB.symm differ

/-- The clauses keep the packages of a uid apart exactly when the packages
themselves do, outside the first of each chain. -/
theorem oneOfEachUid_iff (ready : j.univ.Solvable) :
    (∃ problem, pkgSolveJobsToSat j = some problem ∧
      ∀ σ, problem.Satisfied σ → OneOfEachUid j problem σ) ↔
    ∀ entry ∈ j.univ.items, ∀ a ∈ (j.univ.chain entry.2).tail,
      ∀ b ∈ (j.univ.chain entry.2).tail, a ≠ b → ¬ j.univ.Compatible a b := by
  obtain ⟨problem, built, mirrors, satisfied⟩ := pkgSolveJobsToSat_spec ready
  constructor
  · rintro ⟨problem', built', exclusive⟩ entry member a inA b inB differ compatible
    rw [built] at built'
    cases built'
    have chainA := List.mem_of_mem_tail inA
    have chainB := List.mem_of_mem_tail inB
    obtain ⟨σ, holds, chosenA, chosenB⟩ :=
      satisfied_of_compatible ready mirrors satisfied
        (JobsUniverse.mem_units.mpr ⟨_, member, chainA⟩)
        (JobsUniverse.mem_units.mpr ⟨_, member, chainB⟩) compatible
    exact differ ((exclusive σ holds).atMostOne entry member a chainA b chainB chosenA chosenB)
  · intro apart
    refine ⟨problem, built, fun σ holds => oneOfEachUid_of_atMostOne ready mirrors ?_⟩
    exact atMostOne_of_incompatible ready mirrors ((satisfied σ).mp holds) apart

/-- `oneOfEachUid_iff` for the two versions of `upgradeJobs`. -/
theorem upgradeJobs_oneOfEachUid : ∃ problem, pkgSolveJobsToSat upgradeJobs = some problem ∧
    ∀ σ, problem.Satisfied σ → OneOfEachUid upgradeJobs problem σ :=
  (oneOfEachUid_iff upgradeJobs_solvable).mpr (incompatible_of_short (by decide))

/-- One installed package and a newer version of it in each of two repositories. -/
def twoRepositoryJobs : Jobs where
  univ := JobsUniverse.ofPackages Pkg.digest
    [{ type := .installed, uid := "app", version := "1", digest := some "d1" },
     { type := .remote, uid := "app", version := "2", digest := some "d2", reponame := "first" },
     { type := .remote, uid := "app", version := "2", digest := some "d3", reponame := "second" }]

/-- Both newer versions may be chosen at once. -/
theorem twoRepositoryJobs_not_oneOfEachUid :
    ¬ ∃ problem, pkgSolveJobsToSat twoRepositoryJobs = some problem ∧
      ∀ σ, problem.Satisfied σ → OneOfEachUid twoRepositoryJobs problem σ := by
  have ready : twoRepositoryJobs.univ.Solvable :=
    (JobsUniverse.repInv_ofPackages _ _).solvable (by decide)
  have newer : twoRepositoryJobs.univ.Admissible (· ≠ 0) :=
    JobsUniverse.admissible_of_chains (by decide) (by decide) (by decide) (by decide)
  rintro ⟨problem, built, exclusive⟩
  obtain ⟨problem', built', mirrors, satisfied⟩ := pkgSolveJobsToSat_spec ready
  rw [built'] at built
  cases built
  obtain ⟨σ, holds, first, second⟩ := satisfied_of_compatible ready mirrors satisfied
    (show 1 ∈ twoRepositoryJobs.univ.units by decide)
    (show 2 ∈ twoRepositoryJobs.univ.units by decide) ⟨_, newer, by decide, by decide⟩
  exact absurd ((exclusive σ holds).atMostOne ("app", 0) (by decide) 1 (by decide) 2 (by decide)
    first second) (by decide)

end Chains

end Pkgng
