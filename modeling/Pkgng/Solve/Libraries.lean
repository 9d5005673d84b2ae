import Pkgng.Jobs.LockedPackages

/-!
# Shared libraries

The clause of a required library has a literal for every item of the chain of each recorded
provider.  It is met by a package that does not provide the library but shares the uid of
one that does.
-/

set_option autoImplicit false

namespace Pkgng

open Lib

/-- The universe records providers of a library that the remote package requires. -/
def JobsUniverse.RequiresLibrary (u : JobsUniverse) (item : Addr) (shlib : String)
    (providers : List (Option Addr)) : Prop :=
  (u.pkg item).isInstalled = false ∧ shlib ∈ (u.pkg item).shlibsRequired ∧
    HashTable.find shlib u.provides = some providers ∧ providers ≠ []

/-- Under every satisfying assignment a required library that has recorded providers is
provided by a true variable's package. -/
def LibrariesProvided (j : Jobs) : Prop :=
  ∀ problem, pkgSolveJobsToSat j = some problem → ∀ σ, problem.Satisfied σ →
    ∀ item ∈ j.univ.units, problem.Selected σ item → ∀ shlib providers,
      j.univ.RequiresLibrary item shlib providers →
        ∃ other ∈ j.univ.units, problem.Selected σ other ∧
          shlib ∈ (j.pkg other).shlibsProvided

/-- Where an admissible selection takes a package of a provider's chain that does not provide
the required library itself, it takes another one that does. -/
def StandInsCovered (u : JobsUniverse) : Prop :=
  ∀ selected, u.Admissible selected → ∀ item ∈ u.units, selected item = true →
    ∀ shlib providers, u.RequiresLibrary item shlib providers →
      ∀ standIn, u.IsProvider providers standIn → selected standIn = true →
        shlib ∉ (u.pkg standIn).shlibsProvided →
          ∃ other ∈ u.units, selected other = true ∧ shlib ∈ (u.pkg other).shlibsProvided

/-- Every package filed under the uid of a recorded provider provides the library. -/
def ChainsProvide (u : JobsUniverse) : Prop :=
  ∀ shlib providers, HashTable.find shlib u.provides = some providers →
    ∀ other, u.IsProvider providers other → shlib ∈ (u.pkg other).shlibsProvided

theorem standInsCovered_of_chainsProvide {u : JobsUniverse} (provide : ChainsProvide u) :
    StandInsCovered u := by
  intro selected _ item _ _ shlib providers requires standIn isProvider _ lacking
  exact absurd (provide shlib providers requires.2.2.1 standIn isProvider) lacking

theorem JobsUniverse.IsProvider.mem_units {u : JobsUniverse} {providers : List (Option Addr)}
    {item : Addr} (isProvider : u.IsProvider providers item) : item ∈ u.units := by
  obtain ⟨_, _, entry, member, _, inChain⟩ := isProvider
  exact JobsUniverse.mem_units.mpr ⟨entry, member, inChain⟩

/-- A selection that is not covered is a satisfying assignment without a provider. -/
theorem standInsCovered_of_librariesProvided {j : Jobs} (ready : j.univ.Solvable)
    (provided : LibrariesProvided j) : StandInsCovered j.univ := by
  obtain ⟨problem, built, mirrors, meaning⟩ := pkgSolveJobsToSat_spec ready
  intro selected admissible item reachable chosen shlib providers requires _ _ _ _
  have read : ∀ other ∈ j.univ.units,
      j.univ.assignment selected (j.univ.varOf other) = selected other :=
    fun other inUnits => JobsUniverse.getD_varOf selected inUnits
  have selectedIff : ∀ other ∈ j.univ.units,
      (problem.Selected (j.univ.assignment selected) other ↔ selected other = true) := by
    intro other inUnits
    rw [mirrors.selected_iff ready.toChained inUnits, read other inUnits]
  have satisfied : problem.Satisfied (j.univ.assignment selected) := by
    rw [meaning]
    exact (JobsUniverse.admissible_congr ready.toChained read).mpr admissible
  obtain ⟨other, inUnits, chosenOther, provides⟩ := provided problem built _ satisfied item
    reachable ((selectedIff item reachable).mpr chosen) shlib providers requires
  exact ⟨other, inUnits, (selectedIff other inUnits).mp chosenOther, provides⟩

/-- The item that meets the clause provides the library or is covered. -/
theorem librariesProvided_of_standInsCovered {j : Jobs} (ready : j.univ.Solvable)
    (covered : StandInsCovered j.univ) : LibrariesProvided j := by
  intro problem built σ satisfied item reachable chosen shlib providers requires
  obtain ⟨problem', built', mirrors, meaning⟩ := pkgSolveJobsToSat_spec ready
  rw [built] at built'
  cases built'
  have selectedIff : ∀ other ∈ j.univ.units,
      (problem.Selected σ other ↔ σ (j.univ.varOf other) = true) :=
    fun _ inUnits => mirrors.selected_iff ready.toChained inUnits
  have admissible := (meaning σ).mp satisfied
  have chosenVar := (selectedIff item reachable).mp chosen
  obtain ⟨standIn, isProvider, chosenStandIn⟩ := admissible.requires item reachable chosenVar
    requires.1 shlib requires.2.1 providers requires.2.2.1 requires.2.2.2
  have inUnits := isProvider.mem_units
  by_cases provides : shlib ∈ (j.univ.pkg standIn).shlibsProvided
  · exact ⟨standIn, inUnits, (selectedIff standIn inUnits).mpr chosenStandIn, provides⟩
  · obtain ⟨other, inUnits, chosenOther, provides⟩ := covered _ admissible item reachable
      chosenVar shlib providers requires standIn isProvider chosenStandIn provides
    exact ⟨other, inUnits, (selectedIff other inUnits).mpr chosenOther, provides⟩

/-- An application, the version of a library package that provides what it requires, and an
older version that does not. -/
def libraryPackages : List Pkg :=
  [{ type := .remote, uid := "app", digest := some "1", shlibsRequired := ["libs.so.2"] },
   { type := .remote, uid := "lib", version := "2", digest := some "2",
     shlibsProvided := ["libs.so.2"] },
   { type := .remote, uid := "lib", version := "1", digest := some "3",
     shlibsProvided := ["libs.so.1"] }]

def libraryJobs : Jobs where
  univ :=
    { JobsUniverse.ofPackages Pkg.digest libraryPackages with
      provides := [("libs.so.2", [some 1])] }

theorem libraryJobs_solvable : libraryJobs.univ.Solvable := by
  refine JobsUniverse.RepInv.solvable ?_ (by decide)
  exact (JobsUniverse.repInv_ofPackages Pkg.digest libraryPackages).of_same rfl rfl rfl rfl rfl
    fun _ => rfl

/-- The clauses of `libraryJobs` allow the application with the older version. -/
theorem oldLibrary_admissible : libraryJobs.univ.Admissible fun item => item ≠ 1 where
  depends := by decide
  conflicts := by
    intro item reachable _ conflict member
    have plain : ∀ item ∈ libraryJobs.univ.units, (libraryJobs.univ.pkg item).conflicts = [] := by
      decide
    rw [plain item reachable] at member
    cases member
  requires := by
    intro item _ _ _ shlib _ providers recorded _
    refine ⟨2, ⟨1, ?_, ("lib", 1), by decide, by decide, by decide⟩, rfl⟩
    have recordedAt := HashTable.mem_of_find recorded
    obtain ⟨rfl, rfl⟩ : shlib = "libs.so.2" ∧ providers = [some 1] := by
      simpa [libraryJobs] using recordedAt
    exact List.mem_cons_self ..
  firstAlone := by decide

end Pkgng
