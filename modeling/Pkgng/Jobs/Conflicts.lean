import Pkgng.Solve.Chains
import Pkgng.Universe.ChangeUid

/-!
# Conflicts found in the file lists

While the jobs are checked, `pkgdb_integrity_append` and
`pkgdb_integrity_check` report pairs of uids whose packages install the same
file.  The callbacks register a conflict between packages of the two chains, so
that the next run of the solver keeps them apart.  A package holds at most one
conflict with a uid, and a conflict of the wrong type is never replaced.
-/

set_option autoImplicit false

namespace Pkgng

open Lib

namespace Pkg

/-- `HASH_FIND` in the conflicts of a package. -/
def conflictWith (pkg : Pkg) (uid : Uid) : Option Conflict :=
  pkg.conflicts.find? fun conflict => conflict.uniqueid = uid

/-- One half of `pkg_conflicts_register`. -/
def addConflict (uid : Uid) (type : ConflictType) (pkg : Pkg) : Pkg :=
  match pkg.conflictWith uid with
  | some _ => pkg
  | none => { pkg with conflicts := pkg.conflicts ++ [{ uniqueid := uid, type := type }] }

end Pkg

/-- `pkg_conflicts_register` on the packages of two items. -/
def pkgConflictsRegister (u : JobsUniverse) (p1 p2 : Addr) (type : ConflictType) : JobsUniverse :=
  let u1 := (u.pkg p1).uid
  let u2 := (u.pkg p2).uid
  (u.modifyPkg p1 (Pkg.addConflict u2 type)).modifyPkg p2 (Pkg.addConflict u1 type)

/-- A registration, counted. -/
def Jobs.registerConflict (j : Jobs) (p1 p2 : Addr) (type : ConflictType) : Jobs :=
  { j with
    univ := pkgConflictsRegister j.univ p1 p2 type
    conflictsRegistered := j.conflictsRegistered + 1 }

def pkgConflictsAddMissing (env : Env) (fuel : Nat) (j : Jobs) (uid : Uid) :
    Option (Epkg × Jobs) :=
  match (pkgJobsUniverseGetLocal env j.univ uid).or (pkgJobsUniverseGetRemote env j.univ uid) with
  | none => some (.fatal, j.emitError ("cannot register conflict with non-existing " ++ uid))
  | some npkg => do
      let (rc, _, u) ← pkgJobsUniverseProcessItem env fuel j.univ npkg
      pure (rc, { j with univ := u })

/-- The body of the nested loops of `pkg_conflicts_add_from_pkgdb_local`. -/
def registerLocal (j : Jobs) (cur1 cur2 : Addr) : Jobs :=
  if (j.pkg cur1).isInstalled && !(j.pkg cur2).isInstalled then
    j.registerConflict cur1 cur2 .remoteLocal
  else if (j.pkg cur2).isInstalled && !(j.pkg cur1).isInstalled then
    j.registerConflict cur1 cur2 .remoteLocal
  else j

def registerLocalPairs (chain1 chain2 : List Addr) (j : Jobs) : Jobs :=
  chain1.foldl (fun j cur1 => chain2.foldl (fun j cur2 => registerLocal j cur1 cur2) j) j

def pkgConflictsAddFromPkgdbLocal (env : Env) (fuel : Nat) (o1 o2 : Uid) (j : Jobs) :
    Option Jobs :=
  match j.univ.find o1, j.univ.find o2 with
  | none, none =>
      some (j.emitError ("cannot register conflict with non-existing " ++ o1 ++ " and " ++ o2))
  | none, some u2 => do
      let (rc, j) ← pkgConflictsAddMissing env fuel j o1
      if rc ≠ .ok then pure j
      else pure (registerLocalPairs (j.univ.chainOf o1) (j.univ.chain u2) j)
  | some u1, none => do
      let (rc, j) ← pkgConflictsAddMissing env fuel j o2
      if rc ≠ .ok then pure j
      else pure (registerLocalPairs (j.univ.chain u1) (j.univ.chainOf o2) j)
  | some u1, some u2 =>
      match (j.pkg u1).conflictWith o2 with
      | some _ => some j
      | none => some (registerLocalPairs (j.univ.chain u1) (j.univ.chain u2) j)

/-- The body of the outer loop of `pkg_conflicts_add_from_pkgdb_remote`: the
inner loop stops at the first package it registers. -/
def registerRemote (o1 o2 : Uid) (chain2 : List Addr) (j : Jobs) (cur1 : Addr) : Jobs :=
  if !(j.pkg cur1).isInstalled && ((j.pkg cur1).conflictWith o2).isNone then
    match chain2.find? (fun cur2 =>
      ((j.pkg cur2).conflictWith o1).isNone && !(j.pkg cur2).isInstalled) with
    | some cur2 => j.registerConflict cur1 cur2 .remoteRemote
    | none => j
  else j

def pkgConflictsAddFromPkgdbRemote (o1 o2 : Uid) (j : Jobs) : Jobs :=
  match j.univ.find o1, j.univ.find o2 with
  | some u1, some u2 =>
      match (j.pkg u1).conflictWith o2 with
      | some _ => j
      | none => (j.univ.chain u1).foldl (registerRemote o1 o2 (j.univ.chain u2)) j
  | _, _ =>
      j.emitError ("cannot register remote conflict with non-existing " ++ o1 ++ " and " ++ o2)

/-! ## Registrations only add conflicts -/

/-- The universe is the same except for conflicts of one type that some packages
got on top of those they had. -/
structure ConflictsGrow (type : ConflictType) (u u' : JobsUniverse) : Prop where
  links : u'.links = u.links
  items : u'.items = u.items
  provides : u'.provides = u.provides
  nitems : u'.nitems = u.nitems
  length : u'.pkgs.length = u.pkgs.length
  pkgs : ∀ item, ∃ new : List Conflict, (∀ conflict ∈ new, conflict.type = type) ∧
    u'.pkg item = { u.pkg item with conflicts := (u.pkg item).conflicts ++ new }

namespace ConflictsGrow

variable {type : ConflictType} {u u' u'' : JobsUniverse}

theorem refl (type : ConflictType) (u : JobsUniverse) : ConflictsGrow type u u :=
  ⟨rfl, rfl, rfl, rfl, rfl, fun _ => ⟨[], by simp⟩⟩

theorem trans (first : ConflictsGrow type u u') (second : ConflictsGrow type u' u'') :
    ConflictsGrow type u u'' := by
  refine ⟨second.links.trans first.links, second.items.trans first.items,
    second.provides.trans first.provides, second.nitems.trans first.nitems,
    second.length.trans first.length, fun item => ?_⟩
  obtain ⟨new, typed, grown⟩ := first.pkgs item
  obtain ⟨new', typed', grown'⟩ := second.pkgs item
  refine ⟨new ++ new', fun conflict member => ?_, by rw [grown', grown]; simp⟩
  exact (List.mem_append.mp member).elim (typed conflict) (typed' conflict)

theorem foldl {α : Type} {step : Jobs → α → Jobs}
    (grows : ∀ j a, ConflictsGrow type j.univ (step j a).univ) :
    ∀ (list : List α) (j : Jobs), ConflictsGrow type j.univ (list.foldl step j).univ := by
  intro list
  induction list with
  | nil => exact fun j => refl type j.univ
  | cons a rest ih => exact fun j => (grows j a).trans (ih (step j a))

variable (grow : ConflictsGrow type u u')

include grow

theorem find (uid : Uid) : u'.find uid = u.find uid := by
  rw [JobsUniverse.find, JobsUniverse.find, grow.items]

theorem chain (head : Addr) : u'.chain head = u.chain head :=
  JobsUniverse.chain_of_same grow.links grow.length head

theorem units : u'.units = u.units :=
  JobsUniverse.units_of_same grow.links grow.items grow.length

@[simp] theorem isInstalled (item : Addr) : (u'.pkg item).isInstalled = (u.pkg item).isInstalled := by
  obtain ⟨new, _, grown⟩ := grow.pkgs item
  rw [grown]
  rfl

theorem uid (item : Addr) : (u'.pkg item).uid = (u.pkg item).uid := by
  obtain ⟨new, _, grown⟩ := grow.pkgs item
  rw [grown]

theorem conflicts_subset (item : Addr) : (u.pkg item).conflicts ⊆ (u'.pkg item).conflicts := by
  obtain ⟨new, _, grown⟩ := grow.pkgs item
  rw [grown]
  exact List.subset_append_left ..

/-- A conflict that is held stays. -/
theorem conflictWith_of_some {item : Addr} {uid : Uid} {conflict : Conflict}
    (held : (u.pkg item).conflictWith uid = some conflict) :
    (u'.pkg item).conflictWith uid = some conflict := by
  obtain ⟨new, _, grown⟩ := grow.pkgs item
  rw [Pkg.conflictWith] at held ⊢
  rw [grown, List.find?_append, held]
  rfl

/-- A conflict that was not held before is of the type registered. -/
theorem type_of_new {item : Addr} {uid : Uid} {conflict : Conflict}
    (before : (u.pkg item).conflictWith uid = none)
    (after : (u'.pkg item).conflictWith uid = some conflict) : conflict.type = type := by
  obtain ⟨new, typed, grown⟩ := grow.pkgs item
  rw [Pkg.conflictWith] at before after
  rw [grown, List.find?_append, before, Option.none_or] at after
  exact typed conflict (List.mem_of_find?_eq_some after)

theorem chained (inv : u.Chained) : u'.Chained :=
  inv.of_same grow.links grow.items grow.length grow.uid

theorem solvable (ready : u.Solvable) : u'.Solvable where
  toChained := grow.chained ready.toChained
  room := by
    rw [grow.units, grow.nitems]
    exact ready.room
  recorded := by
    rw [grow.provides, grow.units]
    exact ready.recorded

/-- More conflicts admit fewer selections. -/
theorem admissible {selected : Addr → Bool} (admits : u'.Admissible selected) :
    u.Admissible selected := by
  refine ⟨fun item reachable chosen dep member head found => ?_,
    fun item reachable chosen conflict member head found other inChain covers => ?_,
    fun item reachable chosen remote shlib member providers found recorded => ?_,
    fun entry member chosen other inTail => ?_⟩
  · have depends := admits.depends item (grow.units ▸ reachable) chosen dep
    obtain ⟨new, _, grown⟩ := grow.pkgs item
    rw [grown, grow.find] at depends
    simpa only [grow.chain] using depends member head found
  · refine admits.conflicts item (grow.units ▸ reachable) chosen conflict
      (grow.conflicts_subset item member) head (grow.find _ ▸ found) other
      (grow.chain head ▸ inChain) ?_
    rw [← conflictSkips_eq_false_iff] at covers ⊢
    rw [← covers]
    cases conflict.type <;> simp [conflictSkips, grow.isInstalled]
  · have requires := admits.requires item (grow.units ▸ reachable) chosen
    obtain ⟨new, _, grown⟩ := grow.pkgs item
    rw [grown, grow.provides] at requires
    obtain ⟨other, provides, chosenOther⟩ := requires remote shlib member providers found recorded
    refine ⟨other, ?_, chosenOther⟩
    simpa only [JobsUniverse.IsProvider, grow.items, grow.chain] using provides
  · exact admits.firstAlone entry (grow.items ▸ member) chosen other (grow.chain _ ▸ inTail)

end ConflictsGrow

section Register

variable {type : ConflictType} {u : JobsUniverse}

theorem Pkg.addConflict_cases (uid : Uid) (type : ConflictType) (pkg : Pkg) :
    ∃ new : List Conflict, (∀ conflict ∈ new, conflict.type = type) ∧
      pkg.addConflict uid type = { pkg with conflicts := pkg.conflicts ++ new } := by
  unfold Pkg.addConflict
  split
  · exact ⟨[], by simp⟩
  · exact ⟨[{ uniqueid := uid, type := type }], by simp⟩

theorem Pkg.conflictWith_addConflict (uid : Uid) (type : ConflictType) (pkg : Pkg) :
    ((pkg.addConflict uid type).conflictWith uid).isSome = true := by
  unfold Pkg.addConflict
  cases held : pkg.conflictWith uid with
  | some conflict => simp [held]
  | none => simp [Pkg.conflictWith, List.find?_append]

theorem grow_modifyPkg (item : Addr) (uid : Uid) :
    ConflictsGrow type u (u.modifyPkg item (Pkg.addConflict uid type)) := by
  refine ⟨rfl, rfl, rfl, rfl, JobsUniverse.length_modifyPkg .., fun other => ?_⟩
  by_cases same : other = item
  · subst same
    by_cases inBounds : other < u.pkgs.length
    · rw [JobsUniverse.pkg_modifyPkg_self _ inBounds]
      exact Pkg.addConflict_cases uid type _
    · exact ⟨[], by simp [JobsUniverse.modifyPkg, JobsUniverse.pkg, List.getD_eq_getElem?_getD,
        inBounds]⟩
  · rw [JobsUniverse.pkg_modifyPkg_other _ same]
    exact ⟨[], by simp⟩

theorem pkgConflictsRegister_grow (u : JobsUniverse) (p1 p2 : Addr) :
    ConflictsGrow type u (pkgConflictsRegister u p1 p2 type) :=
  (grow_modifyPkg p1 _).trans (grow_modifyPkg p2 _)

/-- Both packages hold a conflict with the other's uid afterwards. -/
theorem pkgConflictsRegister_holds {p1 p2 : Addr} (inBounds1 : p1 < u.pkgs.length)
    (inBounds2 : p2 < u.pkgs.length) :
    (((pkgConflictsRegister u p1 p2 type).pkg p1).conflictWith (u.pkg p2).uid).isSome = true ∧
      (((pkgConflictsRegister u p1 p2 type).pkg p2).conflictWith (u.pkg p1).uid).isSome = true := by
  have first : (((u.modifyPkg p1 (Pkg.addConflict (u.pkg p2).uid type)).pkg p1).conflictWith
      (u.pkg p2).uid).isSome = true := by
    rw [JobsUniverse.pkg_modifyPkg_self _ inBounds1]
    exact Pkg.conflictWith_addConflict ..
  obtain ⟨conflict, held⟩ := Option.isSome_iff_exists.mp first
  constructor
  · rw [pkgConflictsRegister, (grow_modifyPkg p2 _).conflictWith_of_some held]
    rfl
  · rw [pkgConflictsRegister, JobsUniverse.pkg_modifyPkg_self _ (by simpa using inBounds2)]
    exact Pkg.conflictWith_addConflict ..

theorem registerLocal_grow (j : Jobs) (cur1 cur2 : Addr) :
    ConflictsGrow .remoteLocal j.univ (registerLocal j cur1 cur2).univ := by
  unfold registerLocal
  split
  · exact pkgConflictsRegister_grow ..
  · split
    · exact pkgConflictsRegister_grow ..
    · exact .refl ..

theorem registerRemote_grow (o1 o2 : Uid) (chain2 : List Addr) (j : Jobs) (cur1 : Addr) :
    ConflictsGrow .remoteRemote j.univ (registerRemote o1 o2 chain2 j cur1).univ := by
  unfold registerRemote
  split
  · split
    · exact pkgConflictsRegister_grow ..
    · exact .refl ..
  · exact .refl ..

theorem registerLocalPairs_grow (chain1 chain2 : List Addr) (j : Jobs) :
    ConflictsGrow .remoteLocal j.univ (registerLocalPairs chain1 chain2 j).univ :=
  ConflictsGrow.foldl (fun j cur1 =>
    ConflictsGrow.foldl (fun j cur2 => registerLocal_grow j cur1 cur2) chain2 j) chain1 j

end Register

/-! ## What a conflict forbids -/

/-- No assignment that satisfies the clauses selects both items. -/
def Jobs.Forbids (j : Jobs) (a b : Addr) : Prop :=
  ∃ problem, pkgSolveJobsToSat j = some problem ∧
    ∀ σ, problem.Satisfied σ → ¬ (problem.Selected σ a ∧ problem.Selected σ b)

section Forbids

variable {j j' : Jobs} {type : ConflictType}

theorem Jobs.Forbids.symm {a b : Addr} (forbids : j.Forbids a b) : j.Forbids b a := by
  obtain ⟨problem, built, apart⟩ := forbids
  exact ⟨problem, built, fun σ holds both => apart σ holds both.symm⟩

/-- The clauses forbid a pair of items exactly when no admissible selection has
both. -/
theorem forbids_iff (ready : j.univ.Solvable) {a b : Addr} (reachA : a ∈ j.univ.units)
    (reachB : b ∈ j.univ.units) : j.Forbids a b ↔ ¬ j.univ.Compatible a b := by
  obtain ⟨problem, built, mirrors, satisfied⟩ := pkgSolveJobsToSat_spec ready
  have inv := ready.toChained
  constructor
  · rintro ⟨problem', built', apart⟩ compatible
    rw [built] at built'
    cases built'
    obtain ⟨σ, holds, both⟩ :=
      satisfied_of_compatible ready mirrors satisfied reachA reachB compatible
    exact apart σ holds both
  · intro apart
    refine ⟨problem, built, fun σ holds ⟨chosenA, chosenB⟩ => apart ⟨_, (satisfied σ).mp holds, ?_⟩⟩
    exact ⟨(mirrors.selected_iff inv reachA).mp chosenA,
      (mirrors.selected_iff inv reachB).mp chosenB⟩

/-- What is forbidden stays forbidden when conflicts are added. -/
theorem Jobs.Forbids.mono (grow : ConflictsGrow type j.univ j'.univ) (ready : j.univ.Solvable)
    {a b : Addr} (reachA : a ∈ j.univ.units) (reachB : b ∈ j.univ.units)
    (forbids : j.Forbids a b) : j'.Forbids a b := by
  rw [forbids_iff (grow.solvable ready) (grow.units ▸ reachA) (grow.units ▸ reachB)]
  rintro ⟨selected, admissible, both⟩
  exact (forbids_iff ready reachA reachB).mp forbids ⟨selected, grow.admissible admissible, both⟩

/-- A held conflict that covers the pair forbids it. -/
theorem forbids_of_conflict (ready : j.univ.Solvable) {a b head : Addr} {uid : Uid}
    {conflict : Conflict} (reachable : a ∈ j.univ.units)
    (held : (j.univ.pkg a).conflictWith uid = some conflict)
    (found : j.univ.find uid = some head) (inChain : b ∈ j.univ.chain head)
    (covers : conflict.type.Covers (j.univ.pkg a) (j.univ.pkg b)) : j.Forbids a b := by
  have member := (JobsUniverse.find_eq_some_iff ready.toChained).mp found
  have keyed : conflict.uniqueid = uid := by
    simpa using List.find?_some held
  rw [forbids_iff ready reachable (JobsUniverse.mem_units.mpr ⟨_, member, inChain⟩)]
  rintro ⟨selected, admissible, chosenA, chosenB⟩
  have apart := admissible.conflicts a reachable chosenA conflict
    (List.mem_of_find?_eq_some held) head (keyed ▸ found) b inChain covers
  rw [apart] at chosenB
  cases chosenB

end Forbids

/-! ## The loops -/

section Loops

variable {j : Jobs} {uid1 uid2 : Uid} {u1 u2 a b : Addr}

/-- Walking a list up to one of its elements: what holds after that element's
turn and is kept by later turns holds at the end. -/
theorem foldl_of_mem {α : Type} {step : Jobs → α → Jobs} {type : ConflictType}
    (grows : ∀ j a, ConflictsGrow type j.univ (step j a).univ) {P : JobsUniverse → Prop} {j : Jobs}
    (kept : ∀ u u', ConflictsGrow type j.univ u → ConflictsGrow type u u' → P u → P u')
    {x : α} {list : List α} (member : x ∈ list)
    (turn : ∀ j', ConflictsGrow type j.univ j'.univ → P (step j' x).univ) :
    P (list.foldl step j).univ := by
  obtain ⟨pre, post, rfl⟩ := List.append_of_mem member
  rw [List.foldl_append, List.foldl_cons]
  have early := ConflictsGrow.foldl grows pre j
  have late := ConflictsGrow.foldl grows post (step (pre.foldl step j) x)
  exact kept _ _ (early.trans (grows _ x)) late (turn _ early)

theorem mem_units_of_find (inv : j.univ.Chained) (found : j.univ.find uid1 = some u1)
    (inChain : a ∈ j.univ.chain u1) : a ∈ j.univ.units :=
  JobsUniverse.mem_units.mpr ⟨_, (JobsUniverse.find_eq_some_iff inv).mp found, inChain⟩

/-- A registration leaves both packages with a conflict. -/
theorem registerConflict_holds {type : ConflictType} (inv : j.univ.Chained)
    (found1 : j.univ.find uid1 = some u1) (found2 : j.univ.find uid2 = some u2)
    (inChain1 : a ∈ j.univ.chain u1) (inChain2 : b ∈ j.univ.chain u2) :
    (((j.registerConflict a b type).pkg a).conflictWith uid2).isSome = true ∧
      (((j.registerConflict a b type).pkg b).conflictWith uid1).isSome = true := by
  have uidA := JobsUniverse.pkg_uid_of_find inv found1 inChain1
  have uidB := JobsUniverse.pkg_uid_of_find inv found2 inChain2
  rw [← uidA, ← uidB]
  exact pkgConflictsRegister_holds (inv.inBounds a (mem_units_of_find inv found1 inChain1))
    (inv.inBounds b (mem_units_of_find inv found2 inChain2))

variable (inv : j.univ.Chained) (found1 : j.univ.find uid1 = some u1)
  (found2 : j.univ.find uid2 = some u2) (inChain1 : a ∈ j.univ.chain u1)
  (inChain2 : b ∈ j.univ.chain u2)

include inv found1 found2 inChain1 inChain2

/-- After the loops of the local callback an installed and a remote package both
hold a conflict with the other's uid. -/
theorem registerLocalPairs_holds
    (mixed : (j.univ.pkg a).isInstalled ≠ (j.univ.pkg b).isInstalled) {j' : Jobs}
    (ran : registerLocalPairs (j.univ.chain u1) (j.univ.chain u2) j = j') :
    ((j'.pkg a).conflictWith uid2).isSome = true ∧
      ((j'.pkg b).conflictWith uid1).isSome = true := by
  subst ran
  have kept : ∀ u u', ConflictsGrow .remoteLocal j.univ u → ConflictsGrow .remoteLocal u u' →
      ((u.pkg a).conflictWith uid2).isSome = true ∧ ((u.pkg b).conflictWith uid1).isSome = true →
      ((u'.pkg a).conflictWith uid2).isSome = true ∧
        ((u'.pkg b).conflictWith uid1).isSome = true := by
    rintro u u' _ grow ⟨holdsA, holdsB⟩
    obtain ⟨conflictA, heldA⟩ := Option.isSome_iff_exists.mp holdsA
    obtain ⟨conflictB, heldB⟩ := Option.isSome_iff_exists.mp holdsB
    rw [grow.conflictWith_of_some heldA, grow.conflictWith_of_some heldB]
    exact ⟨rfl, rfl⟩
  refine @foldl_of_mem _ _ .remoteLocal
    (fun j cur1 => ConflictsGrow.foldl (fun j cur2 => registerLocal_grow j cur1 cur2) _ j)
    (fun u => ((u.pkg a).conflictWith uid2).isSome = true ∧
      ((u.pkg b).conflictWith uid1).isSome = true) _ kept _ _ inChain1 fun j₁ grow₁ => ?_
  refine @foldl_of_mem _ _ .remoteLocal (fun j cur2 => registerLocal_grow j a cur2)
    (fun u => ((u.pkg a).conflictWith uid2).isSome = true ∧
      ((u.pkg b).conflictWith uid1).isSome = true) _
    (fun u u' grow => kept u u' (grow₁.trans grow)) _ _ inChain2 fun j₂ grow₂ => ?_
  have grow := grow₁.trans grow₂
  have registers : registerLocal j₂ a b = j₂.registerConflict a b .remoteLocal := by
    have installedA : (j₂.pkg a).isInstalled = (j.univ.pkg a).isInstalled := grow.isInstalled a
    have installedB : (j₂.pkg b).isInstalled = (j.univ.pkg b).isInstalled := grow.isInstalled b
    unfold registerLocal
    rw [installedA, installedB]
    cases caseA : (j.univ.pkg a).isInstalled <;> cases caseB : (j.univ.pkg b).isInstalled <;>
      simp_all
  rw [registers]
  exact registerConflict_holds (grow.chained inv) (grow.find uid1 ▸ found1)
    (grow.find uid2 ▸ found2) (grow.chain u1 ▸ inChain1) (grow.chain u2 ▸ inChain2)

/-- After the loop of the remote callback one of two remote packages holds a
conflict with the other's uid. -/
theorem registerRemote_holds (remoteA : (j.univ.pkg a).isInstalled = false)
    (remoteB : (j.univ.pkg b).isInstalled = false) {j' : Jobs}
    (ran : (j.univ.chain u1).foldl (registerRemote uid1 uid2 (j.univ.chain u2)) j = j') :
    ((j'.pkg a).conflictWith uid2).isSome = true ∨
      ((j'.pkg b).conflictWith uid1).isSome = true := by
  subst ran
  refine @foldl_of_mem _ _ .remoteRemote (registerRemote_grow uid1 uid2 (j.univ.chain u2))
    (fun u => ((u.pkg a).conflictWith uid2).isSome = true ∨
      ((u.pkg b).conflictWith uid1).isSome = true) _ ?_ _ _ inChain1 fun j₁ grow => ?_
  · rintro u u' _ grow (holds | holds)
    · obtain ⟨conflict, held⟩ := Option.isSome_iff_exists.mp holds
      exact Or.inl (by rw [grow.conflictWith_of_some held]; rfl)
    · obtain ⟨conflict, held⟩ := Option.isSome_iff_exists.mp holds
      exact Or.inr (by rw [grow.conflictWith_of_some held]; rfl)
  · have installedA : (j₁.pkg a).isInstalled = false := (grow.isInstalled a).trans remoteA
    have installedB : (j₁.pkg b).isInstalled = false := (grow.isInstalled b).trans remoteB
    cases heldA : (j₁.pkg a).conflictWith uid2 with
    | some conflict =>
        have grown := (registerRemote_grow uid1 uid2 (j.univ.chain u2) j₁ a).conflictWith_of_some heldA
        exact Or.inl (by rw [grown]; rfl)
    | none =>
        unfold registerRemote
        rw [installedA, heldA]
        cases partner : (j.univ.chain u2).find? fun cur2 =>
            ((j₁.pkg cur2).conflictWith uid1).isNone && !(j₁.pkg cur2).isInstalled with
        | some cur2 =>
            refine Or.inl (registerConflict_holds (grow.chained inv) (grow.find uid1 ▸ found1)
              (grow.find uid2 ▸ found2) (grow.chain u1 ▸ inChain1) ?_).1
            rw [grow.chain]
            exact List.mem_of_find?_eq_some partner
        | none =>
            have taken := List.find?_eq_none.mp partner b inChain2
            right
            cases heldB : (j₁.pkg b).conflictWith uid1 with
            | some conflict =>
                show ((j₁.pkg b).conflictWith uid1).isSome = true
                rw [heldB]
                rfl
            | none =>
                rw [heldB, installedB] at taken
                exact absurd rfl taken

end Loops

/-! ## Runs of callbacks -/

/-- A call of one of the two callbacks. -/
inductive ConflictCallback
  | fromLocal (o1 o2 : Uid)
  | fromRemote (o1 o2 : Uid)
deriving DecidableEq

namespace ConflictCallback

def o1 : ConflictCallback → Uid
  | fromLocal o1 _ => o1
  | fromRemote o1 _ => o1

def o2 : ConflictCallback → Uid
  | fromLocal _ o2 => o2
  | fromRemote _ o2 => o2

def run (env : Env) (fuel : Nat) : ConflictCallback → Jobs → Option Jobs
  | fromLocal o1 o2, j => pkgConflictsAddFromPkgdbLocal env fuel o1 o2 j
  | fromRemote o1 o2, j => some (pkgConflictsAddFromPkgdbRemote o1 o2 j)

/-- The pairs of packages that the callback is about. -/
def Concerns (u : JobsUniverse) (a b : Addr) : ConflictCallback → Prop
  | fromLocal o1 o2 => a ∈ u.chainOf o1 ∧ b ∈ u.chainOf o2 ∧
      (u.pkg a).isInstalled ≠ (u.pkg b).isInstalled
  | fromRemote o1 o2 => a ∈ u.chainOf o1 ∧ b ∈ u.chainOf o2 ∧
      (u.pkg a).isInstalled = false ∧ (u.pkg b).isInstalled = false

/-- Both uids have a chain. -/
def Present (u : JobsUniverse) (callback : ConflictCallback) : Prop :=
  (u.find callback.o1).isSome = true ∧ (u.find callback.o2).isSome = true

/-- The pair has room for a conflict of the callback's type: a local callback
needs one package of the two that holds no conflict with the other's uid yet, a
remote callback two. -/
def HasRoom (u : JobsUniverse) (a b : Addr) : ConflictCallback → Prop
  | fromLocal o1 o2 =>
      (u.pkg a).conflictWith o2 = none ∨ (u.pkg b).conflictWith o1 = none
  | fromRemote o1 o2 =>
      (u.pkg a).conflictWith o2 = none ∧ (u.pkg b).conflictWith o1 = none

/-- The pairs that the clauses do not forbid already have room, and the callback
is not cut short by a conflict that the head of the first chain holds. -/
def Careful (j : Jobs) (callback : ConflictCallback) : Prop :=
  ∀ a b, callback.Concerns j.univ a b → j.Forbids a b ∨
    (callback.HasRoom j.univ a b ∧
      ∀ head, j.univ.find callback.o1 = some head →
        (j.pkg head).conflictWith callback.o2 = none)

end ConflictCallback

/-- Every callback of the list is careful in the state in which it is called. -/
def CarefulCallbacks (env : Env) (fuel : Nat) : List ConflictCallback → Jobs → Prop
  | [], _ => True
  | callback :: rest, j => callback.Careful j ∧
      ∀ next, callback.run env fuel j = some next → CarefulCallbacks env fuel rest next

section Callbacks

variable {env : Env} {fuel : Nat} {j j' : Jobs} {callback : ConflictCallback}

theorem chainOf_of_find {u : JobsUniverse} {uid : Uid} {head : Addr}
    (found : u.find uid = some head) : u.chainOf uid = u.chain head := by
  rw [JobsUniverse.chainOf, found]

/-- A callback on present uids only adds conflicts. -/
theorem callback_grow (present : callback.Present j.univ) (ran : callback.run env fuel j = some j') :
    ∃ type, ConflictsGrow type j.univ j'.univ := by
  obtain ⟨present1, present2⟩ := present
  cases callback with
  | fromLocal o1 o2 =>
      obtain ⟨u1, found1⟩ := Option.isSome_iff_exists.mp present1
      obtain ⟨u2, found2⟩ := Option.isSome_iff_exists.mp present2
      simp only [ConflictCallback.o1, ConflictCallback.o2] at found1 found2
      simp only [ConflictCallback.run, pkgConflictsAddFromPkgdbLocal, found1, found2] at ran
      refine ⟨.remoteLocal, ?_⟩
      split at ran <;> cases ran
      · exact .refl ..
      · exact registerLocalPairs_grow ..
  | fromRemote o1 o2 =>
      obtain ⟨u1, found1⟩ := Option.isSome_iff_exists.mp present1
      obtain ⟨u2, found2⟩ := Option.isSome_iff_exists.mp present2
      simp only [ConflictCallback.o1, ConflictCallback.o2] at found1 found2
      simp only [ConflictCallback.run, pkgConflictsAddFromPkgdbRemote, found1, found2,
        Option.some.injEq] at ran
      refine ⟨.remoteRemote, ?_⟩
      split at ran <;> cases ran
      · exact .refl ..
      · exact ConflictsGrow.foldl (registerRemote_grow o1 o2 _) _ j

/-- One local callback forbids its pairs that have room. -/
theorem fromLocal_forbids (ready : j.univ.Solvable) {o1 o2 : Uid} {u1 u2 a b : Addr}
    (found1 : j.univ.find o1 = some u1) (found2 : j.univ.find o2 = some u2)
    (inChain1 : a ∈ j.univ.chain u1) (inChain2 : b ∈ j.univ.chain u2)
    (mixed : (j.univ.pkg a).isInstalled ≠ (j.univ.pkg b).isInstalled)
    (room : (j.univ.pkg a).conflictWith o2 = none ∨ (j.univ.pkg b).conflictWith o1 = none)
    (ran : registerLocalPairs (j.univ.chain u1) (j.univ.chain u2) j = j') : j'.Forbids a b := by
  have grow : ConflictsGrow .remoteLocal j.univ j'.univ := ran ▸ registerLocalPairs_grow ..
  have inv := ready.toChained
  obtain ⟨holdsA, holdsB⟩ :=
    registerLocalPairs_holds inv found1 found2 inChain1 inChain2 mixed ran
  rcases room with room | room
  · obtain ⟨conflict, held⟩ := Option.isSome_iff_exists.mp holdsA
    refine forbids_of_conflict (grow.solvable ready)
      (grow.units ▸ mem_units_of_find inv found1 inChain1) held (grow.find o2 ▸ found2)
      (grow.chain u2 ▸ inChain2) ?_
    rw [grow.type_of_new room held]
    simpa only [ConflictType.Covers, grow.isInstalled] using mixed
  · obtain ⟨conflict, held⟩ := Option.isSome_iff_exists.mp holdsB
    refine (forbids_of_conflict (grow.solvable ready)
      (grow.units ▸ mem_units_of_find inv found2 inChain2) held (grow.find o1 ▸ found1)
      (grow.chain u1 ▸ inChain1) ?_).symm
    rw [grow.type_of_new room held]
    simpa only [ConflictType.Covers, grow.isInstalled] using mixed.symm

/-- One remote callback forbids its pairs that have room. -/
theorem fromRemote_forbids (ready : j.univ.Solvable) {o1 o2 : Uid} {u1 u2 a b : Addr}
    (found1 : j.univ.find o1 = some u1) (found2 : j.univ.find o2 = some u2)
    (inChain1 : a ∈ j.univ.chain u1) (inChain2 : b ∈ j.univ.chain u2)
    (remoteA : (j.univ.pkg a).isInstalled = false) (remoteB : (j.univ.pkg b).isInstalled = false)
    (roomA : (j.univ.pkg a).conflictWith o2 = none)
    (roomB : (j.univ.pkg b).conflictWith o1 = none)
    (ran : (j.univ.chain u1).foldl (registerRemote o1 o2 (j.univ.chain u2)) j = j') :
    j'.Forbids a b := by
  have grow : ConflictsGrow .remoteRemote j.univ j'.univ :=
    ran ▸ ConflictsGrow.foldl (registerRemote_grow o1 o2 _) _ j
  have inv := ready.toChained
  rcases registerRemote_holds inv found1 found2 inChain1 inChain2 remoteA remoteB ran with
    holds | holds
  · obtain ⟨conflict, held⟩ := Option.isSome_iff_exists.mp holds
    refine forbids_of_conflict (grow.solvable ready)
      (grow.units ▸ mem_units_of_find inv found1 inChain1) held (grow.find o2 ▸ found2)
      (grow.chain u2 ▸ inChain2) ?_
    rw [grow.type_of_new roomA held]
    exact ⟨(grow.isInstalled a).trans remoteA, (grow.isInstalled b).trans remoteB⟩
  · obtain ⟨conflict, held⟩ := Option.isSome_iff_exists.mp holds
    refine (forbids_of_conflict (grow.solvable ready)
      (grow.units ▸ mem_units_of_find inv found2 inChain2) held (grow.find o1 ▸ found1)
      (grow.chain u1 ▸ inChain1) ?_).symm
    rw [grow.type_of_new roomB held]
    exact ⟨(grow.isInstalled b).trans remoteB, (grow.isInstalled a).trans remoteA⟩

theorem concerns_mem_units (inv : j.univ.Chained) (present : callback.Present j.univ) {a b : Addr}
    (concerns : callback.Concerns j.univ a b) : a ∈ j.univ.units ∧ b ∈ j.univ.units := by
  obtain ⟨present1, present2⟩ := present
  obtain ⟨u1, found1⟩ := Option.isSome_iff_exists.mp present1
  obtain ⟨u2, found2⟩ := Option.isSome_iff_exists.mp present2
  cases callback <;>
    exact ⟨mem_units_of_find inv found1 (chainOf_of_find found1 ▸ concerns.1),
      mem_units_of_find inv found2 (chainOf_of_find found2 ▸ concerns.2.1)⟩

/-- One careful callback. -/
theorem callback_forbids (ready : j.univ.Solvable) (present : callback.Present j.univ)
    (careful : callback.Careful j) (ran : callback.run env fuel j = some j') {a b : Addr}
    (concerns : callback.Concerns j.univ a b) : j'.Forbids a b := by
  obtain ⟨type, grow⟩ := callback_grow present ran
  obtain ⟨reachA, reachB⟩ := concerns_mem_units ready.toChained present concerns
  rcases careful a b concerns with already | ⟨room, headFree⟩
  · exact already.mono grow ready reachA reachB
  · obtain ⟨u1, found1⟩ := Option.isSome_iff_exists.mp present.1
    obtain ⟨u2, found2⟩ := Option.isSome_iff_exists.mp present.2
    have free := headFree u1 found1
    cases callback with
    | fromLocal o1 o2 =>
        obtain ⟨inChain1, inChain2, mixed⟩ := concerns
        simp only [ConflictCallback.o1, ConflictCallback.o2] at found1 found2 free
        rw [chainOf_of_find found1] at inChain1
        rw [chainOf_of_find found2] at inChain2
        simp only [ConflictCallback.run, pkgConflictsAddFromPkgdbLocal, found1, found2, free,
          Option.some.injEq] at ran
        exact fromLocal_forbids ready found1 found2 inChain1 inChain2 mixed room ran
    | fromRemote o1 o2 =>
        obtain ⟨inChain1, inChain2, remoteA, remoteB⟩ := concerns
        simp only [ConflictCallback.o1, ConflictCallback.o2] at found1 found2 free
        rw [chainOf_of_find found1] at inChain1
        rw [chainOf_of_find found2] at inChain2
        simp only [ConflictCallback.run, pkgConflictsAddFromPkgdbRemote, found1, found2, free,
          Option.some.injEq] at ran
        exact fromRemote_forbids ready found1 found2 inChain1 inChain2 remoteA remoteB
          room.1 room.2 ran

theorem ConflictsGrow.concerns {type : ConflictType} {u u' : JobsUniverse}
    (grow : ConflictsGrow type u u') {a b : Addr} :
    callback.Concerns u' a b ↔ callback.Concerns u a b := by
  have chainOf : ∀ uid, u'.chainOf uid = u.chainOf uid := fun uid => by
    simp only [JobsUniverse.chainOf, grow.find, grow.chain]
  cases callback <;> simp only [ConflictCallback.Concerns, chainOf, grow.isInstalled]

/-- After careful callbacks the clauses forbid every pair that any of them was
about. -/
theorem carefulCallbacks_forbid {callbacks : List ConflictCallback} (ready : j.univ.Solvable)
    (present : ∀ callback ∈ callbacks, callback.Present j.univ)
    (careful : CarefulCallbacks env fuel callbacks j)
    (ran : callbacks.foldlM (fun j callback => callback.run env fuel j) j = some j') :
    ∀ callback ∈ callbacks, ∀ a b, callback.Concerns j'.univ a b → j'.Forbids a b := by
  -- Induction on the rest of the run, with the pairs forbidden so far carried along.
  suffices carried : ∀ (callbacks : List ConflictCallback) (j : Jobs), j.univ.Solvable →
      (∀ callback ∈ callbacks, callback.Present j.univ) →
      CarefulCallbacks env fuel callbacks j →
      callbacks.foldlM (fun j callback => callback.run env fuel j) j = some j' →
      (∀ a ∈ j.univ.units, ∀ b ∈ j.univ.units, j.Forbids a b → j'.Forbids a b) ∧
      (∀ callback : ConflictCallback, ∀ a b,
        callback.Concerns j'.univ a b ↔ callback.Concerns j.univ a b) ∧
      ∀ callback ∈ callbacks, ∀ a b, callback.Concerns j.univ a b → j'.Forbids a b by
    obtain ⟨_, same, forbids⟩ := carried callbacks j ready present careful ran
    exact fun callback member a b concerns =>
      forbids callback member a b ((same callback a b).mp concerns)
  clear ready present careful ran
  intro callbacks
  induction callbacks with
  | nil =>
      intro j _ _ _ ran
      cases ran
      exact ⟨fun _ _ _ _ forbids => forbids, fun _ _ _ => Iff.rfl, by simp⟩
  | cons callback rest ih =>
      intro j ready present careful ran
      obtain ⟨next, ranFirst, ranRest⟩ := Option.bind_eq_some_iff.mp ran
      have here := present callback (List.mem_cons_self ..)
      obtain ⟨type, grow⟩ := callback_grow here ranFirst
      obtain ⟨carefulFirst, carefulRest⟩ := careful
      obtain ⟨stays, same, forbids⟩ := ih next (grow.solvable ready)
        (fun other member => by
          have old := present other (List.mem_cons_of_mem _ member)
          rw [ConflictCallback.Present, grow.find, grow.find]
          exact old)
        (carefulRest next ranFirst) ranRest
      refine ⟨fun a reachA b reachB old => ?_, fun other a b => ?_, fun other member a b old => ?_⟩
      · exact stays a (grow.units ▸ reachA) b (grow.units ▸ reachB)
          (old.mono grow ready reachA reachB)
      · exact (same other a b).trans grow.concerns
      · rcases List.mem_cons.mp member with rfl | inRest
        · obtain ⟨reachA, reachB⟩ := concerns_mem_units ready.toChained here old
          exact stays a (grow.units ▸ reachA) b (grow.units ▸ reachB)
            (callback_forbids ready here carefulFirst ranFirst old)
        · exact forbids other inRest a b (grow.concerns.mpr old)

end Callbacks

/-- An installed package with a newer version, and a new package. -/
def newerAndNew : Jobs where
  univ := JobsUniverse.ofPackages Pkg.digest
    [{ type := .installed, uid := "app", version := "1", digest := some "d1" },
     { type := .remote, uid := "app", version := "2", digest := some "d2" },
     { type := .remote, uid := "tool", version := "1", digest := some "d3" }]

theorem newerAndNew_solvable : newerAndNew.univ.Solvable :=
  (JobsUniverse.repInv_ofPackages _ _).solvable (by decide)

/-- A single callback for the two remote packages. -/
theorem newerAndNew_forbidden :
    (pkgConflictsAddFromPkgdbRemote "app" "tool" newerAndNew).Forbids 1 2 := by
  have room : ∀ a ∈ newerAndNew.univ.chainOf "app", ∀ b ∈ newerAndNew.univ.chainOf "tool",
      (newerAndNew.univ.pkg a).conflictWith "tool" = none ∧
        (newerAndNew.univ.pkg b).conflictWith "app" = none := by decide
  refine @carefulCallbacks_forbid emptyEnv 0 newerAndNew _ [.fromRemote "app" "tool"]
    newerAndNew_solvable ?_ ⟨fun a b concerns => .inr ⟨room a concerns.1 b concerns.2.1, ?_⟩,
      fun _ _ => trivial⟩ rfl (.fromRemote "app" "tool") (by decide) 1 2 ?_
  · rintro callback member
    cases List.mem_singleton.mp member
    exact ⟨by decide, by decide⟩
  · rintro head found
    cases found
    decide
  · exact ⟨by decide, by decide, by decide, by decide⟩

/-- The installed package gets a conflict with the new one first, and that stops
the callback for the remote packages. -/
theorem newerAndNew_not_forbidden : ∃ j',
    [ConflictCallback.fromLocal "app" "tool", .fromRemote "app" "tool"].foldlM
      (fun j callback => callback.run emptyEnv 0 j) newerAndNew = some j' ∧
    (ConflictCallback.fromRemote "app" "tool").Concerns j'.univ 1 2 ∧ ¬ j'.Forbids 1 2 := by
  refine ⟨_, rfl, ⟨by decide, by decide, by decide, by decide⟩, fun forbids => ?_⟩
  have ready := (registerLocalPairs_grow [0, 1] [2] newerAndNew).solvable newerAndNew_solvable
  refine (forbids_iff ready (by decide) (by decide)).mp forbids ⟨(· ≠ 0), ?_, by decide, by decide⟩
  exact JobsUniverse.admissible_of_chains (by decide) (by decide) (by decide) (by decide)

end Pkgng
