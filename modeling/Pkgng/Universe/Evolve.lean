import Pkgng.Universe.Process
import Mathlib.Logic.Relation

/-!
# What populating the universe can do

However the recursion of `pkg_jobs_universe_process_item` unfolds, it changes
the universe in four ways only: it inserts a package, records a provider, emits
a message, or lets the row iterator overwrite packages it has given away.  As
long as the last does not happen, the representation invariant stays.
-/

set_option autoImplicit false

namespace Pkgng

open Lib

inductive UniverseStep : JobsUniverse → JobsUniverse → Prop
  | insert (u : JobsUniverse) (pkg : Pkg) (digest : Digest) : UniverseStep u (u.insert pkg digest)
  | emit (u : JobsUniverse) (message : String) : UniverseStep u (u.emitError message)
  | record (u : JobsUniverse) (shlib : String) (prhead : Option Nat) (un : Option Addr) :
      UniverseStep u (u.recordProvide shlib prhead un).2
  | refill (u : JobsUniverse) (owners : List Addr) (row : Pkg) : UniverseStep u (u.refill owners row)

/-- Any number of steps. -/
abbrev Evolves : JobsUniverse → JobsUniverse → Prop := Relation.ReflTransGen UniverseStep

section Runs

variable {env : Env} {self : ProcessItem}

theorem addPkg_evolves (checksum : Pkg → Option Digest) (u : JobsUniverse) (pkg : Pkg)
    (force : Bool) : Evolves u (pkgJobsUniverseAddPkg checksum u pkg force).2.2 := by
  rcases pkgJobsUniverseAddPkg_cases checksum u pkg force with
    ⟨_, result⟩ | ⟨_, _, _, _, _, result⟩ | ⟨digest, _, _, result⟩
  · rw [result]
  · rw [result]
  · rw [result]
    exact Relation.ReflTransGen.single (.insert u pkg digest)

variable (selfEvolves : ∀ u pkg rc unit u', self u pkg = some (rc, unit, u') → Evolves u u')

include selfEvolves

theorem processDeps_evolves {flags : DepsFlags} {pkg : Pkg} : ∀ {deps : List Dep}
    {u u' : JobsUniverse} {rc : Epkg},
    processDeps env self flags pkg deps u = some (rc, u') → Evolves u u' := by
  intro deps
  induction deps with
  | nil =>
      intro u u' rc runs
      cases runs
      exact .refl
  | cons d rest ih =>
      intro u u' rc runs
      rw [processDeps] at runs
      split at runs
      · exact ih runs
      · dsimp only at runs
        split at runs
        · have emits := UniverseStep.emit u (pkg.name ++ " has a missing dependency: " ++ d.name)
          split at runs
          · exact .head emits (ih runs)
          · cases runs
            exact .single emits
        · obtain ⟨⟨_, _, u₁⟩, ran, runs⟩ := Option.bind_eq_some_iff.mp runs
          exact (selfEvolves _ _ _ _ _ ran).trans (ih runs)
        · obtain ⟨⟨rc₁, _, u₁⟩, ran, runs⟩ := Option.bind_eq_some_iff.mp runs
          refine (selfEvolves _ _ _ _ _ ran).trans ?_
          dsimp only at runs
          split at runs
          · split at runs
            · exact ih runs
            · obtain ⟨⟨_, _, u₂⟩, ran₂, runs⟩ := Option.bind_eq_some_iff.mp runs
              exact (selfEvolves _ _ _ _ _ ran₂).trans (ih runs)
          · exact ih runs

theorem processConflicts_evolves {pkg : Pkg} : ∀ {conflicts : List Conflict}
    {u u' : JobsUniverse} {rc : Epkg},
    processConflicts env self pkg conflicts u = some (rc, u') → Evolves u u' := by
  intro conflicts
  induction conflicts with
  | nil =>
      intro u u' rc runs
      cases runs
      exact .refl
  | cons c rest ih =>
      intro u u' rc runs
      rw [processConflicts] at runs
      split at runs
      · exact ih runs
      · split at runs
        · split at runs
          · exact ih runs
          · obtain ⟨⟨_, _, u₁⟩, ran, runs⟩ := Option.bind_eq_some_iff.mp runs
            exact (selfEvolves _ _ _ _ _ ran).trans (ih runs)
        · split at runs
          · exact ih runs
          · obtain ⟨⟨_, _, u₁⟩, ran, runs⟩ := Option.bind_eq_some_iff.mp runs
            refine (selfEvolves _ _ _ _ _ ran).trans ?_
            dsimp only at runs
            split at runs
            · exact ih runs
            · split at runs
              · exact ih runs
              · obtain ⟨⟨_, _, u₂⟩, ran₂, runs⟩ := Option.bind_eq_some_iff.mp runs
                exact (selfEvolves _ _ _ _ _ ran₂).trans (ih runs)

theorem processRow_evolves {u u' : JobsUniverse} {row : Pkg} {owners owners' : List Addr}
    {rc : Epkg} {unit : Option Addr}
    (runs : processRow self u row owners = some (rc, unit, owners', u')) : Evolves u u' := by
  obtain ⟨⟨_, _, u₁⟩, ran, result⟩ := Option.bind_eq_some_iff.mp runs
  cases result
  exact selfEvolves _ _ _ _ _ ran

theorem processUnseen_evolves {u u' : JobsUniverse} {pkg row : Pkg} {owners owners' : List Addr}
    {rc : Epkg} {unit : Option Addr}
    (runs : processUnseen env self u pkg row owners = some (rc, unit, owners', u')) :
    Evolves u u' := by
  rw [processUnseen] at runs
  split at runs
  · cases runs
    exact .refl
  · split at runs
    · cases runs
      exact .refl
    · obtain ⟨⟨_, _, _, u₁⟩, ran, result⟩ := Option.bind_eq_some_iff.mp runs
      cases result
      exact processRow_evolves selfEvolves ran

theorem processProvider_evolves {u u' : JobsUniverse} {pkg row : Pkg} {owners owners' : List Addr}
    {rc : Epkg} {unit : Option Addr}
    (runs : processProvider env self u pkg row owners = some (rc, unit, owners', u')) :
    Evolves u u' := by
  rw [processProvider] at runs
  split at runs
  · split at runs
    · obtain ⟨⟨_, _, _, u₁⟩, ran, result⟩ := Option.bind_eq_some_iff.mp runs
      have evolves := processRow_evolves selfEvolves ran
      dsimp only at result
      split at result <;> cases result <;> exact evolves
    · cases runs
      exact .refl
  · split at runs
    · exact processUnseen_evolves selfEvolves runs
    · obtain ⟨⟨_, _, u₁⟩, ran, result⟩ := Option.bind_eq_some_iff.mp runs
      refine (selfEvolves _ _ _ _ _ ran).trans ?_
      dsimp only at result
      split at result
      · cases result
        exact .refl
      · split at result
        · obtain ⟨⟨_, _, _, u₂⟩, ran₂, result⟩ := Option.bind_eq_some_iff.mp result
          have evolves := processRow_evolves selfEvolves ran₂
          dsimp only at result
          split at result <;> cases result <;> exact evolves
        · cases result
          exact .refl

theorem processProviders_evolves {pkg : Pkg} {shlib : String} : ∀ {rows : List Pkg}
    {owners : List Addr} {prhead : Option Nat} {u u' : JobsUniverse} {rc : Epkg},
    processProviders env self pkg shlib rows owners prhead u = some (rc, u') → Evolves u u' := by
  intro rows
  induction rows with
  | nil =>
      intro owners prhead u u' rc runs
      cases runs
      exact .refl
  | cons row rest ih =>
      intro owners prhead u u' rc runs
      rw [processProviders] at runs
      obtain ⟨⟨rc₁, unit, owners₁, u₁⟩, ran, runs⟩ := Option.bind_eq_some_iff.mp runs
      refine .head (.refill u owners row) ((processProvider_evolves selfEvolves ran).trans ?_)
      dsimp only at runs
      split at runs
      · exact .head (.record u₁ shlib prhead unit) (ih runs)
      · exact ih runs
      · cases runs
        exact .refl

theorem processShlibs_evolves {pkg : Pkg} : ∀ {shlibs : List String} {u u' : JobsUniverse}
    {rc : Epkg}, processShlibs env self pkg shlibs u = some (rc, u') → Evolves u u' := by
  intro shlibs
  induction shlibs with
  | nil =>
      intro u u' rc runs
      cases runs
      exact .refl
  | cons shlib rest ih =>
      intro u u' rc runs
      rw [processShlibs] at runs
      split at runs
      · exact ih runs
      · exact ih runs
      · obtain ⟨⟨rc₁, u₁⟩, ran, runs⟩ := Option.bind_eq_some_iff.mp runs
        refine (processProviders_evolves selfEvolves ran).trans ?_
        dsimp only at runs
        split at runs
        · cases runs
          exact .refl
        · exact ih runs

theorem processWanted_evolves {flags : DepsFlags} {pkg : Pkg} {u u' : JobsUniverse} {rc : Epkg}
    (runs : processWanted env self flags pkg u = some (rc, u')) : Evolves u u' := by
  obtain ⟨⟨rc₁, u₁⟩, ran, runs⟩ := Option.bind_eq_some_iff.mp runs
  refine (processDeps_evolves selfEvolves ran).trans ?_
  dsimp only at runs
  split at runs
  · cases runs
    exact .refl
  · obtain ⟨⟨rc₂, u₂⟩, ran₂, runs⟩ := Option.bind_eq_some_iff.mp runs
    refine (processDeps_evolves selfEvolves ran₂).trans ?_
    dsimp only at runs
    split at runs
    · cases runs
      exact .refl
    · obtain ⟨⟨rc₃, u₃⟩, ran₃, runs⟩ := Option.bind_eq_some_iff.mp runs
      refine (processConflicts_evolves selfEvolves ran₃).trans ?_
      dsimp only at runs
      split at runs
      · cases runs
        exact .refl
      · split at runs
        · exact processShlibs_evolves selfEvolves runs
        · cases runs
          exact .refl

theorem processAdded_evolves {pkg : Pkg} {u u' : JobsUniverse} {rc : Epkg}
    (runs : processAdded env self pkg u = some (rc, u')) : Evolves u u' := by
  rw [processAdded] at runs
  dsimp only at runs
  split at runs
  · split at runs
    · exact processDeps_evolves selfEvolves runs
    · cases runs
      exact .refl
  · exact processWanted_evolves selfEvolves runs
  · exact processWanted_evolves selfEvolves runs
  · cases runs
    exact .refl
  · split at runs
    · exact processDeps_evolves selfEvolves runs
    · cases runs
      exact .refl

omit selfEvolves in
/-- Every change that a call of `pkg_jobs_universe_process_item` makes. -/
theorem processItem_evolves : ∀ (fuel : Nat) (u : JobsUniverse) (pkg : Pkg) (rc : Epkg)
    (unit : Option Addr) (u' : JobsUniverse),
    pkgJobsUniverseProcessItem env fuel u pkg = some (rc, unit, u') → Evolves u u' := by
  intro fuel
  induction fuel with
  | zero =>
      intro u pkg rc unit u' runs
      cases runs
  | succ fuel ih =>
      intro u pkg rc unit u' runs
      have adds := addPkg_evolves env.checksum u pkg false
      rw [pkgJobsUniverseProcessItem] at runs
      split at runs
      · next added =>
          rw [added] at adds
          cases runs
          exact adds
      · next added =>
          rw [added] at adds
          obtain ⟨⟨rc₁, u₁⟩, ran, result⟩ := Option.bind_eq_some_iff.mp runs
          cases result
          exact adds.trans (processAdded_evolves ih ran)
      · next added =>
          rw [added] at adds
          cases runs
          exact adds

end Runs

/-! ## What the steps keep -/

/-- What a refill changes: some packages are replaced by the row. -/
structure Replaced (row : Pkg) (u u' : JobsUniverse) : Prop where
  links : u'.links = u.links
  items : u'.items = u.items
  seen : u'.seen = u.seen
  length : u'.pkgs.length = u.pkgs.length
  pkg : ∀ item, u'.pkg item = u.pkg item ∨ u'.pkg item = row

theorem replaced_modifyPkg (u : JobsUniverse) (owner : Addr) (row : Pkg) :
    Replaced row u (u.modifyPkg owner fun _ => row) where
  links := rfl
  items := rfl
  seen := rfl
  length := by simp [JobsUniverse.modifyPkg]
  pkg item := by
    simp only [JobsUniverse.pkg, JobsUniverse.modifyPkg, List.getD_eq_getElem?_getD,
      List.getElem?_modify]
    cases u.pkgs[item]? with
    | none => exact Or.inl rfl
    | some pkg =>
        by_cases same : owner = item
        · exact Or.inr (by simp [same])
        · exact Or.inl (by simp [same])

theorem replaced_refill (u : JobsUniverse) (owners : List Addr) (row : Pkg) :
    Replaced row u (u.refill owners row) := by
  have loop : ∀ u : JobsUniverse,
      Replaced row u (owners.foldl (fun u owner => u.modifyPkg owner fun _ => row) u) := by
    induction owners with
    | nil => exact fun u => ⟨rfl, rfl, rfl, rfl, fun _ => Or.inl rfl⟩
    | cons owner rest ih =>
        intro u
        have first := replaced_modifyPkg u owner row
        have second := ih (u.modifyPkg owner fun _ => row)
        refine ⟨second.links.trans first.links, second.items.trans first.items,
          second.seen.trans first.seen, second.length.trans first.length, fun item => ?_⟩
        rcases second.pkg item with same | replaced
        · rcases first.pkg item with old | replaced
          · exact Or.inl (same.trans old)
          · exact Or.inr (same.trans replaced)
        · exact Or.inr replaced
  have whole := loop u
  exact ⟨whole.links, whole.items, whole.seen, whole.length, whole.pkg⟩

section Keep

variable {u u' : JobsUniverse}

theorem refill_nil (u : JobsUniverse) (row : Pkg) : u.refill [] row = u := by
  simp [JobsUniverse.refill]

theorem UniverseStep.refilled_prefix (step : UniverseStep u u') : u.refilled <+: u'.refilled := by
  cases step with
  | insert pkg digest => exact List.prefix_refl _
  | emit message => exact List.prefix_refl _
  | record shlib prhead un => cases prhead <;> exact List.prefix_refl _
  | refill owners row => exact List.prefix_append ..

theorem Evolves.refilled_prefix (evolves : Evolves u u') : u.refilled <+: u'.refilled := by
  induction evolves with
  | refl => exact List.prefix_refl _
  | tail _ step ih => exact ih.trans step.refilled_prefix

/-- Where nothing has been refilled at the end, nothing has been before. -/
theorem Evolves.quiet_before {start : List Addr} (evolves : Evolves u u')
    (longer : start <+: u.refilled) (quiet : u'.refilled = start) : u.refilled = start :=
  (longer.eq_of_length_le (quiet ▸ evolves.refilled_prefix.length_le)).symm

/-- A run that refills nothing refills nothing on the way. -/
theorem Evolves.quiet_mid {mid : JobsUniverse} (first : Evolves u mid) (second : Evolves mid u')
    (quiet : u'.refilled = u.refilled) :
    mid.refilled = u.refilled ∧ u'.refilled = mid.refilled := by
  have same := second.quiet_before first.refilled_prefix quiet
  exact ⟨same, quiet.trans same.symm⟩

/-- A refilling step that refills nothing does nothing. -/
theorem refill_of_quiet {owners : List Addr} {row : Pkg}
    (quiet : (u.refill owners row).refilled = u.refilled) : u.refill owners row = u := by
  have empty : owners = [] := by simpa [JobsUniverse.refill] using quiet
  rw [empty, refill_nil]

/-- The representation invariant survives everything but a refill. -/
theorem Evolves.repInv (evolves : Evolves u u') (quiet : u'.refilled = u.refilled)
    (inv : u.RepInv) : u'.RepInv := by
  induction evolves with
  | refl => exact inv
  | @tail mid last first step ih =>
      obtain ⟨quietFirst, quietStep⟩ := Evolves.quiet_mid first (.single step) quiet
      have midInv := ih quietFirst
      cases step with
      | insert pkg digest => exact JobsUniverse.repInv_insert pkg digest midInv
      | emit message => exact midInv.of_same rfl rfl rfl rfl rfl fun _ => rfl
      | record shlib prhead un =>
          cases prhead <;> exact midInv.of_same rfl rfl rfl rfl rfl fun _ => rfl
      | refill owners row =>
          rw [refill_of_quiet quietStep]
          exact midInv

/-- Without refills no item disappears and no package changes. -/
theorem Evolves.keeps (evolves : Evolves u u') (quiet : u'.refilled = u.refilled) :
    u.pkgs.length ≤ u'.pkgs.length ∧ ∀ item, item < u.pkgs.length → u'.pkg item = u.pkg item := by
  induction evolves with
  | refl => exact ⟨Nat.le_refl _, fun _ _ => rfl⟩
  | @tail mid last first step ih =>
      obtain ⟨quietFirst, quietStep⟩ := Evolves.quiet_mid first (.single step) quiet
      obtain ⟨longer, same⟩ := ih quietFirst
      cases step with
      | insert pkg digest =>
          refine ⟨Nat.le_trans longer (by simp), fun item old => ?_⟩
          rw [JobsUniverse.insert_pkg_old pkg digest (Nat.lt_of_lt_of_le old longer)]
          exact same item old
      | emit message => exact ⟨longer, same⟩
      | record shlib prhead un => cases prhead <;> exact ⟨longer, same⟩
      | refill owners row =>
          rw [refill_of_quiet quietStep]
          exact ⟨longer, same⟩

/-- A chain head stays filed. -/
theorem Evolves.items_mono (evolves : Evolves u u') {entry : Uid × Addr}
    (member : entry ∈ u.items) : entry ∈ u'.items := by
  induction evolves with
  | refl => exact member
  | @tail mid last first step ih =>
      cases step with
      | insert pkg digest =>
          simp only [JobsUniverse.insert]
          split
          · exact HashTable.mem_add.mpr (Or.inl ih)
          · exact ih
      | emit message => exact ih
      | record shlib prhead un => cases prhead <;> exact ih
      | refill owners row =>
          rw [(replaced_refill mid owners row).items]
          exact ih

end Keep

end Pkgng
