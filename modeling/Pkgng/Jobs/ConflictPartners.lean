import Pkgng.Jobs.Conflicts
import Pkgng.Jobs.RemovalOrder
import Pkgng.Lib.Runs
import Pkgng.Universe.Digests

/-!
# Partners for the conflicts of installed packages

`pkg_jobs_update_conflict_priority` asserts that each uid which the installed
half of an upgrade conflicts with has a chain, and that a package that is not
installed is in it.  Nothing near the assertions sees to this.  It is left to
`pkg_jobs_universe_process_conflicts`, which goes on in silence where there is a
chain already, where no repository has the uid and where the candidate is not
added, and which is not reached where a dependency is missing.
-/

set_option autoImplicit false

namespace Pkgng

open Lib

/-- The conflicts of the installed half of every upgrade find what the
assertions of `pkg_jobs_update_conflict_priority` ask for. -/
def AssertionsHold (u : JobsUniverse) : Prop :=
  ∀ req : Solved, req.type = .upgrade → ∀ lp, req.items1 = some lp → lp ∈ u.units →
    (u.pkg lp).isInstalled = true →
    (∀ c ∈ (u.pkg lp).conflicts, ∃ found, u.find c.uniqueid = some found ∧
      ∃ cur ∈ u.chain found, (u.pkg cur).isInstalled = false) ∧
    ∀ prio, ∃ prio', pkgJobsUpdateConflictPriority u req.items0 lp prio = some prio'

/-- A call that adds to the universe. -/
inductive UniverseCall
  | process (depth : Nat) (pkg : Pkg)
  | register (depth : Nat) (callback : ConflictCallback)

def UniverseCall.run (env : Env) (j : Jobs) : UniverseCall → Option Jobs
  | process depth pkg =>
      (pkgJobsUniverseProcessItem env depth j.univ pkg).map fun result =>
        { j with univ := result.2.2 }
  | register depth callback => callback.run env depth j

/-! ## Checked runs -/

section Checked

variable (env : Env) (self : ProcessItem)

/-- The remote candidate for the uid of a conflict, if adding it makes a
partner: it has this uid, and its digest has not been seen. -/
def offeredPartner (u : JobsUniverse) (c : Conflict) : Option Pkg :=
  (pkgJobsUniverseGetRemote env u c.uniqueid).filter fun npkg =>
    decide (npkg.uid = c.uniqueid) && !npkg.isInstalled &&
      (digestOf env.checksum npkg).any fun digest => (HashTable.find digest u.seen).isNone

/-- Conflicts that are not looked at must have partners by then. -/
def passOver (conflicts : List Conflict) (result : Epkg × JobsUniverse) :
    Option (Epkg × JobsUniverse) :=
  if conflicts.all fun c => (remotePartner result.2 c).isSome then some result else none

/-- The loop of `pkg_jobs_universe_process_conflicts` for an installed package,
as long as each conflict has a partner or is offered one. -/
def checkedConflicts : List Conflict → JobsUniverse → Option (Epkg × JobsUniverse)
  | [], u => some (.ok, u)
  | c :: rest, u =>
      match u.find c.uniqueid with
      | some _ => if (remotePartner u c).isSome then checkedConflicts rest u else none
      | none => do
          let npkg ← offeredPartner env u c
          let (_, _, u) ← self u npkg
          checkedConflicts rest u

/-- `processWanted` for an installed package. -/
def checkedWanted (flags : DepsFlags) (pkg : Pkg) (u : JobsUniverse) :
    Option (Epkg × JobsUniverse) := do
  let (rc, u) ← pkgJobsUniverseProcessDeps env self flags pkg u
  if rc ≠ .ok then passOver pkg.conflicts (rc, u)
  else do
    let (rc, u) ← pkgJobsUniverseProcessDeps env self { flags with reverse := true } pkg u
    if rc ≠ .ok then passOver pkg.conflicts (rc, u)
    else checkedConflicts env self pkg.conflicts u

def checkedAdded (pkg : Pkg) (u : JobsUniverse) : Option (Epkg × JobsUniverse) :=
  if !pkg.isInstalled then processAdded env self pkg u
  else
    match env.type with
    | .install => checkedWanted env self { forceMissing := env.forceMissing } pkg u
    | .upgrade => checkedWanted env self { forceMissing := env.forceMissing } pkg u
    | _ => do
        let (_, u) ← passOver pkg.conflicts (.ok, u)
        processAdded env self pkg u

end Checked

/-- `pkg_jobs_universe_process_item`, given up where an installed package is left
with a conflict that has no partner. -/
def checkedItem (env : Env) : Nat → ProcessItem
  | 0, _, _ => none
  | depth + 1, u, pkg =>
      match pkgJobsUniverseAddPkg env.checksum u pkg false with
      | (.finished, unit, u) => some (.ok, unit, u)
      | (.ok, unit, u) => do
          let (rc, u) ← checkedAdded env (checkedItem env depth) pkg u
          pure (rc, unit, u)
      | (rc, unit, u) => some (rc, unit, u)

/-- The checks pass throughout the call, and no row is read into a package that
has been given to the universe. -/
def PassesChecks (env : Env) (depth : Nat) (u : JobsUniverse) (pkg : Pkg) : Prop :=
  ∃ result, checkedItem env depth u pkg = some result ∧ result.2.2.refilled = u.refilled

/-- The uid for which `pkg_conflicts_add_missing` is called. -/
def ConflictCallback.missing (u : JobsUniverse) : ConflictCallback → Option Uid
  | fromLocal o1 o2 =>
      match u.find o1, u.find o2 with
      | none, some _ => some o1
      | some _, none => some o2
      | _, _ => none
  | fromRemote _ _ => none

/-- Whatever the call adds passes the checks. -/
def UniverseCall.Checked (env : Env) (j : Jobs) : UniverseCall → Prop
  | process depth pkg => PassesChecks env depth j.univ pkg
  | register depth callback =>
      ∀ uid ∈ callback.missing j.univ,
        ∀ npkg ∈ (pkgJobsUniverseGetLocal env j.univ uid).or
            (pkgJobsUniverseGetRemote env j.univ uid),
          PassesChecks env depth j.univ npkg

/-! ## Partners stay -/

section Partners

variable {u u' : JobsUniverse} {c : Conflict}

theorem remotePartner_isSome_iff : (remotePartner u c).isSome = true ↔
    ∃ found, u.find c.uniqueid = some found ∧
      ∃ cur ∈ u.chain found, (u.pkg cur).isInstalled = false := by
  unfold remotePartner JobsUniverse.chainOf
  cases u.find c.uniqueid with
  | none => simp
  | some head => simp [List.find?_isSome]

/-- A partner is a package of the uid that is not installed. -/
theorem remotePartner_iff (inv : u.Chained) : (remotePartner u c).isSome = true ↔
    ∃ item ∈ u.units, (u.pkg item).isInstalled = false ∧ (u.pkg item).uid = c.uniqueid := by
  rw [remotePartner_isSome_iff]
  constructor
  · rintro ⟨head, found, item, inChain, remote⟩
    have member := (JobsUniverse.find_eq_some_iff inv).mp found
    exact ⟨item, JobsUniverse.mem_units.mpr ⟨_, member, inChain⟩, remote,
      JobsUniverse.pkg_uid_of_find inv found inChain⟩
  · rintro ⟨item, reachable, remote, named⟩
    obtain ⟨entry, member, inChain⟩ := JobsUniverse.mem_units.mp reachable
    have uid := inv.homogeneous entry member item inChain
    rw [← named, uid]
    exact ⟨entry.2, (JobsUniverse.find_eq_some_iff inv).mpr member, item, inChain, remote⟩

/-- The items stay and keep their packages. -/
structure ExtendsItems (u u' : JobsUniverse) : Prop where
  chained : u'.Chained
  mem_units : ∀ item ∈ u.units, item ∈ u'.units
  pkg : ∀ item ∈ u.units, u'.pkg item = u.pkg item

namespace ExtendsItems

theorem refl (inv : u.Chained) : ExtendsItems u u :=
  ⟨inv, fun _ reachable => reachable, fun _ _ => rfl⟩

theorem trans {u'' : JobsUniverse} (first : ExtendsItems u u') (second : ExtendsItems u' u'') :
    ExtendsItems u u'' where
  chained := second.chained
  mem_units item reachable := second.mem_units item (first.mem_units item reachable)
  pkg item reachable :=
    (second.pkg item (first.mem_units item reachable)).trans (first.pkg item reachable)

theorem insert (inv : u.Chained) (pkg : Pkg) (digest : Digest) :
    ExtendsItems u (u.insert pkg digest) where
  chained := JobsUniverse.chained_insert pkg digest inv
  mem_units _ reachable := (JobsUniverse.mem_insert_units pkg digest inv).mpr (Or.inl reachable)
  pkg item reachable := JobsUniverse.insert_pkg_old pkg digest (inv.inBounds item reachable)

theorem of_step (step : UniverseStep u u') (quiet : u'.refilled = u.refilled) (inv : u.Chained) :
    ExtendsItems u u' := by
  cases step with
  | insert pkg digest => exact insert inv pkg digest
  | emit message =>
      exact ⟨inv.of_same rfl rfl rfl fun _ => rfl, fun _ reachable => reachable, fun _ _ => rfl⟩
  | record shlib prhead un =>
      cases prhead with
      | none =>
          exact ⟨inv.of_same rfl rfl rfl fun _ => rfl, fun _ reachable => reachable, fun _ _ => rfl⟩
      | some entry =>
          exact ⟨inv.of_same rfl rfl rfl fun _ => rfl, fun _ reachable => reachable, fun _ _ => rfl⟩
  | refill owners row =>
      rw [refill_of_quiet quiet]
      exact refl inv

theorem of_evolves (evolves : Evolves u u') (quiet : u'.refilled = u.refilled)
    (inv : u.Chained) : ExtendsItems u u' := by
  induction evolves with
  | refl => exact refl inv
  | tail first step ih =>
      obtain ⟨quietFirst, quietStep⟩ := Evolves.quiet_mid first (.single step) quiet
      have early := ih quietFirst
      exact early.trans (of_step step quietStep early.chained)

/-- A partner stays. -/
theorem partner (extends' : ExtendsItems u u') (inv : u.Chained)
    (partner : (remotePartner u c).isSome = true) : (remotePartner u' c).isSome = true := by
  obtain ⟨item, reachable, remote, named⟩ := (remotePartner_iff inv).mp partner
  have same := extends'.pkg item reachable
  rw [remotePartner_iff extends'.chained]
  exact ⟨item, extends'.mem_units item reachable, same ▸ remote, same ▸ named⟩

end ExtendsItems

end Partners

/-! ## What the checked calls keep -/

/-- The conflicts that the assertions are about. -/
def Pkg.localConflicts (pkg : Pkg) : List Conflict := if pkg.isInstalled then pkg.conflicts else []

/-- All conflicts have partners. -/
def HavePartners (u : JobsUniverse) (conflicts : List Conflict) : Prop :=
  ∀ c ∈ conflicts, (remotePartner u c).isSome = true

/-- The conflicts of all installed packages have partners, except for packages
whose conflicts are still to come. -/
structure Partnering (excused : Addr → Prop) (u : JobsUniverse) : Prop where
  chained : u.Chained
  partnered : ∀ item ∈ u.units, ¬ excused item → HavePartners u (u.pkg item).localConflicts

/-- `Partnering`, as long as no more has been refilled. -/
structure KeepsPartners (refilled : List Addr) (excused : Addr → Prop) (u : JobsUniverse) :
    Prop where
  longer : refilled <+: u.refilled
  partnering : u.refilled = refilled → Partnering excused u

/-- What a loop comes to that has seen to the conflicts. -/
def LeavesPartners (refilled : List Addr) (excused : Addr → Prop) (conflicts : List Conflict)
    (result : Epkg × JobsUniverse) : Prop :=
  KeepsPartners refilled excused result.2 ∧
    (result.2.refilled = refilled → HavePartners result.2 conflicts)

section Keep

variable {env : Env} {refilled : List Addr} {excused : Addr → Prop} {u u' : JobsUniverse}
  {c : Conflict} {pkg npkg : Pkg} {self self' : ProcessItem}

theorem Partnering.of_same (partnering : Partnering excused u) (pkgs : u'.pkgs = u.pkgs)
    (links : u'.links = u.links) (items : u'.items = u.items) : Partnering excused u' := by
  have length : u'.pkgs.length = u.pkgs.length := by rw [pkgs]
  have pkg : ∀ item, u'.pkg item = u.pkg item := fun item => by
    rw [JobsUniverse.pkg, JobsUniverse.pkg, pkgs]
  have chained := partnering.chained.of_same links items length fun item => by rw [pkg]
  have units := JobsUniverse.units_of_same links items length
  refine ⟨chained, fun item reachable owed c listed => ?_⟩
  rw [units] at reachable
  rw [pkg] at listed
  have partner := partnering.partnered item reachable owed c listed
  rw [remotePartner_iff chained, units]
  simpa only [pkg] using (remotePartner_iff partnering.chained).mp partner

theorem KeepsPartners.of_same (keeps : KeepsPartners refilled excused u)
    (pkgs : u'.pkgs = u.pkgs) (links : u'.links = u.links) (items : u'.items = u.items)
    (same : u'.refilled = u.refilled) : KeepsPartners refilled excused u' where
  longer := same ▸ keeps.longer
  partnering quiet := (keeps.partnering (same ▸ quiet)).of_same pkgs links items

theorem KeepsPartners.refill (keeps : KeepsPartners refilled excused u) (owners : List Addr)
    (row : Pkg) : KeepsPartners refilled excused (u.refill owners row) where
  longer := keeps.longer.trans (List.prefix_append ..)
  partnering quiet := by
    have step := UniverseStep.refill u owners row
    have early := Evolves.quiet_before (.single step) keeps.longer quiet
    rw [refill_of_quiet (quiet.trans early.symm)]
    exact keeps.partnering early

/-- The invariant meets the rules of the loops. -/
theorem populates_partners (env : Env) (refilled : List Addr) (excused : Addr → Prop) :
    Populates env (KeepsPartners refilled excused) fun _ => True where
  query _ _ _ := trivial
  repoQuery _ _ _ := trivial
  provide _ _ _ _ _ := trivial
  automatic _ _ _ := trivial
  held _ _ _ := trivial
  emit u message keeps := keeps.of_same rfl rfl rfl rfl
  record u shlib prhead un keeps := by
    cases prhead with
    | none => exact keeps.of_same rfl rfl rfl rfl
    | some entry => exact keeps.of_same rfl rfl rfl rfl
  refill u owners _ _ _ row _ keeps := keeps.refill owners row

/-- A package that has just been added is excused. -/
theorem KeepsPartners.insert (keeps : KeepsPartners refilled excused u) (pkg : Pkg)
    (digest : Digest) :
    KeepsPartners refilled (fun item => excused item ∨ item = u.pkgs.length)
      (u.insert pkg digest) where
  longer := keeps.longer
  partnering quiet := by
    have partnering := keeps.partnering quiet
    have extended := ExtendsItems.insert partnering.chained pkg digest
    refine ⟨extended.chained, fun item reachable owed c listed => ?_⟩
    rw [not_or] at owed
    have old : item ∈ u.units :=
      ((JobsUniverse.mem_insert_units pkg digest partnering.chained).mp reachable).resolve_right
        owed.2
    rw [extended.pkg item old] at listed
    exact extended.partner partnering.chained (partnering.partnered item old owed.1 c listed)

/-- Where nothing has been refilled at the end, nothing has been before. -/
theorem KeepsPartners.before (keeps : KeepsPartners refilled excused u) (evolves : Evolves u u')
    (quiet : u'.refilled = refilled) :
    u.refilled = refilled ∧ u.Chained ∧ ExtendsItems u u' := by
  have early := evolves.quiet_before keeps.longer quiet
  have chained := (keeps.partnering early).chained
  exact ⟨early, chained, .of_evolves evolves (quiet.trans early.symm) chained⟩

/-- The excuse of a package ends when its conflicts have partners. -/
theorem KeepsPartners.finish {new : Addr}
    (keeps : KeepsPartners refilled (fun item => excused item ∨ item = new) u)
    (partnered : u.refilled = refilled → HavePartners u (u.pkg new).localConflicts) :
    KeepsPartners refilled excused u where
  longer := keeps.longer
  partnering quiet := by
    have partnering := keeps.partnering quiet
    refine ⟨partnering.chained, fun item reachable owed => ?_⟩
    by_cases same : item = new
    · subst same
      exact partnered quiet
    · exact partnering.partnered item reachable (not_or.mpr ⟨owed, same⟩)

theorem passOver_follows {conflicts : List Conflict} {rc : Epkg}
    (keeps : KeepsPartners refilled excused u) :
    Follows False (LeavesPartners refilled excused conflicts) (passOver conflicts (rc, u))
      (some (rc, u)) := by
  unfold passOver
  split
  · next partnered => exact .result ⟨keeps, fun _ => List.all_eq_true.mp partnered⟩
  · exact .nothing id _

section Calls

variable (calls : FollowingCalls False (KeepsPartners refilled excused) (fun _ => True) self self')
  (evolves : ∀ u pkg rc unit u', self' u pkg = some (rc, unit, u') → Evolves u u')
  (adds : ∀ u c npkg rc unit u', offeredPartner env u c = some npkg →
    self' u npkg = some (rc, unit, u') → u.Chained → u'.refilled = u.refilled →
    (remotePartner u' c).isSome = true)

include calls evolves adds

/-- Each turn of the loop leaves the conflict with a partner, which later turns
keep. -/
theorem checkedConflicts_follows (installed : pkg.isInstalled = true) {conflicts : List Conflict}
    (keeps : KeepsPartners refilled excused u) :
    Follows False (LeavesPartners refilled excused conflicts)
      (checkedConflicts env self conflicts u) (processConflicts env self' pkg conflicts u) := by
  induction conflicts generalizing u with
  | nil => exact .result ⟨keeps, fun _ c none => by cases none⟩
  | cons c rest ih =>
      have continued : ∀ {v : JobsUniverse}, KeepsPartners refilled excused v →
          (v.refilled = refilled → (remotePartner v c).isSome = true) →
          Follows False (LeavesPartners refilled excused (c :: rest))
            (checkedConflicts env self rest v) (processConflicts env self' pkg rest v) := by
        intro v later partner
        refine ((ih later).and fun result ran => processConflicts_evolves evolves ran).imp
          fun result holds => ?_
        obtain ⟨⟨kept, others⟩, evolved⟩ := holds
        refine ⟨kept, fun quiet d member => ?_⟩
        rcases List.mem_cons.mp member with rfl | inRest
        · obtain ⟨early, chained, extended⟩ := later.before evolved quiet
          exact extended.partner chained (partner early)
        · exact others quiet d inRest
      simp only [checkedConflicts, processConflicts, installed, if_true]
      cases u.find c.uniqueid with
      | some head =>
          dsimp only
          split
          · next partner => exact continued keeps fun _ => partner
          · exact .nothing id _
      | none =>
          cases offered : offeredPartner env u c with
          | none => exact .nothing id _
          | some npkg =>
              have candidate := (Option.filter_eq_some_iff.mp offered).1
              rw [candidate]
              refine .bind ((calls u npkg keeps trivial).and fun result ran => ran)
                fun result mid => ?_
              obtain ⟨kept, ran⟩ := mid
              refine continued kept fun quiet => ?_
              obtain ⟨early, chained, _⟩ := keeps.before (evolves _ _ _ _ _ ran) quiet
              exact adds u c npkg _ _ _ offered ran chained (quiet.trans early.symm)

theorem checkedWanted_follows (installed : pkg.isInstalled = true) {flags : DepsFlags}
    (keeps : KeepsPartners refilled excused u) :
    Follows False (LeavesPartners refilled excused pkg.conflicts)
      (checkedWanted env self flags pkg u) (processWanted env self' flags pkg u) := by
  have rules := (populates_partners env refilled excused).toFresh
  unfold checkedWanted processWanted
  refine .bind (processDeps_follows rules calls keeps) fun result mid => ?_
  obtain ⟨rc, v⟩ := result
  dsimp only at mid ⊢
  split
  · exact passOver_follows mid
  · refine .bind (processDeps_follows rules calls mid) fun result late => ?_
    obtain ⟨rc, w⟩ := result
    dsimp only at late ⊢
    split
    · exact passOver_follows late
    · refine ⟨fun none => none.elim, fun result ran => ?_⟩
      obtain ⟨same, holds⟩ :=
        (checkedConflicts_follows calls evolves adds installed late).2 result ran
      refine ⟨?_, holds⟩
      rw [pkgJobsUniverseProcessConflicts, same]
      simp [installed]

theorem checkedAdded_follows (keeps : KeepsPartners refilled excused u) :
    Follows False (LeavesPartners refilled excused pkg.localConflicts)
      (checkedAdded env self pkg u) (processAdded env self' pkg u) := by
  have whole : Follows False (fun result => KeepsPartners refilled excused result.2)
      (processAdded env self pkg u) (processAdded env self' pkg u) :=
    processAdded_follows (populates_partners env refilled excused).toFresh calls keeps
  unfold checkedAdded Pkg.localConflicts
  cases installed : pkg.isInstalled with
  | false => exact whole.imp fun _ kept => ⟨kept, fun _ c none => by cases none⟩
  | true =>
      rw [if_pos rfl, if_neg (by simp)]
      split
      · next type =>
          simp only [processAdded, type]
          exact checkedWanted_follows calls evolves adds installed keeps
      · next type =>
          simp only [processAdded, type]
          exact checkedWanted_follows calls evolves adds installed keeps
      · unfold passOver
        split
        · next partnered =>
            refine (whole.and fun result ran => processAdded_evolves evolves ran).imp
              fun result holds => ⟨holds.1, fun quiet c listed => ?_⟩
            obtain ⟨_, chained, extended⟩ := keeps.before holds.2 quiet
            exact extended.partner chained (List.all_eq_true.mp partnered c listed)
        · exact .nothing id _

end Calls

/-- The candidate of a conflict is added, and stays. -/
theorem processItem_adds {depth : Nat} {rc : Epkg} {unit : Option Addr}
    (offered : offeredPartner env u c = some npkg)
    (ran : pkgJobsUniverseProcessItem env depth u npkg = some (rc, unit, u')) (inv : u.Chained)
    (quiet : u'.refilled = u.refilled) : (remotePartner u' c).isSome = true := by
  obtain ⟨named, remote, digest, filed, fresh⟩ : npkg.uid = c.uniqueid ∧
      npkg.isInstalled = false ∧ ∃ digest, digestOf env.checksum npkg = some digest ∧
        HashTable.find digest u.seen = none := by
    have checked := (Option.filter_eq_some_iff.mp offered).2
    simp only [Bool.and_eq_true, decide_eq_true_eq, Bool.not_eq_true', Option.any_eq_true,
      Option.isNone_iff_eq_none] at checked
    obtain ⟨⟨named, remote⟩, digest, filed, fresh⟩ := checked
    exact ⟨named, remote, digest, filed, fresh⟩
  cases depth with
  | zero => cases ran
  | succ depth =>
      have added : pkgJobsUniverseAddPkg env.checksum u npkg false =
          (.ok, some u.pkgs.length, u.insert npkg digest) := by
        simp [pkgJobsUniverseAddPkg, filed, fresh]
      rw [pkgJobsUniverseProcessItem, added] at ran
      obtain ⟨⟨rc₁, u₁⟩, ran, result⟩ := Option.bind_eq_some_iff.mp ran
      cases result
      have inserted := ExtendsItems.insert inv npkg digest
      have evolves := processAdded_evolves (processItem_evolves depth) ran
      have extended := ExtendsItems.of_evolves evolves quiet inserted.chained
      refine extended.partner inserted.chained ((remotePartner_iff inserted.chained).mpr ?_)
      refine ⟨u.pkgs.length, (JobsUniverse.mem_insert_units npkg digest inv).mpr (Or.inr rfl), ?_⟩
      rw [JobsUniverse.insert_pkg_new]
      exact ⟨remote, named⟩

/-- A checked call is a call, and leaves all conflicts that it meets with a
partner. -/
theorem checkedItem_follows (depth : Nat) :
    FollowingCalls False (KeepsPartners refilled excused) (fun _ => True) (checkedItem env depth)
      (pkgJobsUniverseProcessItem env depth) := by
  induction depth generalizing excused with
  | zero => exact fun _ _ _ _ => .nothing id _
  | succ depth ih =>
      intro u pkg keeps _
      rw [checkedItem, pkgJobsUniverseProcessItem]
      rcases pkgJobsUniverseAddPkg_cases env.checksum u pkg false with
        ⟨_, added⟩ | ⟨_, _, _, _, _, added⟩ | ⟨digest, _, _, added⟩
      · rw [added]
        exact .result keeps
      · rw [added]
        exact .result keeps
      · rw [added]
        refine .bind ((checkedAdded_follows ih (processItem_evolves depth)
          (fun _ _ _ _ _ _ => processItem_adds) (keeps.insert pkg digest)).and fun result ran =>
            processAdded_evolves (processItem_evolves depth) ran) fun result holds => ?_
        obtain ⟨⟨kept, partners⟩, evolved⟩ := holds
        refine .result (kept.finish fun quiet => ?_)
        obtain ⟨early, _, extended⟩ := (keeps.insert pkg digest).before evolved quiet
        have chained := (keeps.partnering early).chained
        have inserted := (JobsUniverse.mem_insert_units pkg digest chained).mpr (Or.inr rfl)
        rw [extended.pkg _ inserted, JobsUniverse.insert_pkg_new]
        exact partners quiet

end Keep

/-! ## What the callbacks keep -/

section Callbacks

variable {env : Env} {u u' : JobsUniverse} {j : Jobs} {c : Conflict} {type : ConflictType}
  {p1 p2 : Addr}

/-- No package is excused. -/
abbrev AllPartnered (u : JobsUniverse) : Prop := Partnering (fun _ => False) u

theorem mem_conflicts_modifyPkg {item other : Addr} {uid : Uid}
    (listed : c ∈ ((u.modifyPkg item (Pkg.addConflict uid type)).pkg other).conflicts) :
    c ∈ (u.pkg other).conflicts ∨ other = item ∧ c.uniqueid = uid := by
  by_cases same : other = item
  · subst same
    by_cases inBounds : other < u.pkgs.length
    · rw [JobsUniverse.pkg_modifyPkg_self _ inBounds, Pkg.addConflict] at listed
      split at listed
      · exact Or.inl listed
      · rcases List.mem_append.mp listed with old | new
        · exact Or.inl old
        · rw [List.mem_singleton.mp new]
          exact Or.inr ⟨rfl, rfl⟩
    · refine Or.inl ?_
      simpa [JobsUniverse.modifyPkg, JobsUniverse.pkg, List.getD_eq_getElem?_getD, inBounds]
        using listed
  · rw [JobsUniverse.pkg_modifyPkg_other _ same] at listed
    exact Or.inl listed

/-- A registration gives each package a conflict with the other. -/
theorem mem_conflicts_register {other : Addr}
    (listed : c ∈ ((pkgConflictsRegister u p1 p2 type).pkg other).conflicts) :
    c ∈ (u.pkg other).conflicts ∨ other = p1 ∧ c.uniqueid = (u.pkg p2).uid ∨
      other = p2 ∧ c.uniqueid = (u.pkg p1).uid := by
  rcases mem_conflicts_modifyPkg listed with first | second
  · rcases mem_conflicts_modifyPkg first with old | new
    · exact Or.inl old
    · exact Or.inr (Or.inl new)
  · exact Or.inr (Or.inr second)

/-- A conflict of an installed package may be registered with one that is not. -/
theorem AllPartnered.register (all : AllPartnered u) (reach1 : p1 ∈ u.units)
    (reach2 : p2 ∈ u.units)
    (mixed : ¬ ((u.pkg p1).isInstalled = true ∧ (u.pkg p2).isInstalled = true)) :
    AllPartnered (pkgConflictsRegister u p1 p2 type) := by
  have grow : ConflictsGrow type u (pkgConflictsRegister u p1 p2 type) :=
    pkgConflictsRegister_grow u p1 p2
  have chained := grow.chained all.chained
  have partners : ∀ c, (∃ item ∈ u.units, (u.pkg item).isInstalled = false ∧
      (u.pkg item).uid = c.uniqueid) →
      (remotePartner (pkgConflictsRegister u p1 p2 type) c).isSome = true := by
    rintro c ⟨item, reachable, remote, named⟩
    rw [remotePartner_iff chained, grow.units]
    exact ⟨item, reachable, (grow.isInstalled item).trans remote, (grow.uid item).trans named⟩
  refine ⟨chained, fun item reachable _ c listed => ?_⟩
  rw [grow.units] at reachable
  unfold Pkg.localConflicts at listed
  split at listed
  · next installed =>
      rw [grow.isInstalled] at installed
      rcases mem_conflicts_register listed with old | ⟨rfl, named⟩ | ⟨rfl, named⟩
      · have owed : c ∈ (u.pkg item).localConflicts := by
          rw [Pkg.localConflicts, if_pos installed]
          exact old
        exact partners c ((remotePartner_iff all.chained).mp
          (all.partnered item reachable id c owed))
      · have remote : (u.pkg p2).isInstalled = false := by simpa [installed] using mixed
        exact partners c ⟨p2, reach2, remote, named.symm⟩
      · have remote : (u.pkg p1).isInstalled = false := by simpa [installed] using mixed
        exact partners c ⟨p1, reach1, remote, named.symm⟩
  · cases listed

theorem registerLocal_partnered (all : AllPartnered j.univ) (reach1 : p1 ∈ j.univ.units)
    (reach2 : p2 ∈ j.univ.units) : AllPartnered (registerLocal j p1 p2).univ := by
  unfold registerLocal
  simp only [Jobs.pkg, Bool.and_eq_true, Bool.not_eq_true']
  split
  · next mixed =>
      refine all.register reach1 reach2 fun both => ?_
      rw [mixed.2] at both
      cases both.2
  · split
    · next mixed =>
        refine all.register reach1 reach2 fun both => ?_
        rw [mixed.2] at both
        cases both.1
    · exact all

theorem registerRemote_partnered {o1 o2 : Uid} {chain2 : List Addr} (all : AllPartnered j.univ)
    (reach1 : p1 ∈ j.univ.units) (reach2 : ∀ b ∈ chain2, b ∈ j.univ.units) :
    AllPartnered (registerRemote o1 o2 chain2 j p1).univ := by
  unfold registerRemote
  simp only [Jobs.pkg, Bool.and_eq_true, Bool.not_eq_true']
  split
  · next remote =>
      split
      · next cur2 found =>
          refine all.register reach1 (reach2 cur2 (List.mem_of_find?_eq_some found)) fun both => ?_
          rw [remote.1] at both
          cases both.1
      · exact all
  · exact all

/-- A loop over items of the universe that only registers conflicts. -/
theorem foldl_partnered {step : Jobs → Addr → Jobs} {items : List Addr}
    (grows : ∀ j a, ConflictsGrow type j.univ (step j a).univ) {units : List Addr}
    (turn : ∀ (j : Jobs) a, AllPartnered j.univ → j.univ.units = units → a ∈ items →
      AllPartnered (step j a).univ)
    (all : AllPartnered j.univ) (same : j.univ.units = units) :
    AllPartnered (items.foldl step j).univ := by
  refine (List.foldlRecOn items step (motive := fun j : Jobs =>
    AllPartnered j.univ ∧ j.univ.units = units) ⟨all, same⟩ fun j holds a member => ?_).1
  exact ⟨turn j a holds.1 holds.2 member, (grows j a).units.trans holds.2⟩

theorem registerLocalPairs_partnered {chain1 chain2 : List Addr} (all : AllPartnered j.univ)
    (reach1 : ∀ a ∈ chain1, a ∈ j.univ.units) (reach2 : ∀ b ∈ chain2, b ∈ j.univ.units) :
    AllPartnered (registerLocalPairs chain1 chain2 j).univ := by
  refine foldl_partnered (fun j cur1 => ConflictsGrow.foldl (fun j cur2 =>
    registerLocal_grow j cur1 cur2) chain2 j) (fun j₁ cur1 all₁ same₁ member1 => ?_) all rfl
  refine foldl_partnered (fun j cur2 => registerLocal_grow j cur1 cur2)
    (fun j₂ cur2 all₂ same₂ member2 => ?_) all₁ same₁
  exact registerLocal_partnered all₂ (same₂ ▸ reach1 cur1 member1) (same₂ ▸ reach2 cur2 member2)

/-- Checks that pass leave all conflicts with partners. -/
theorem PassesChecks.partnered {depth : Nat} {pkg : Pkg} {rc : Epkg} {unit : Option Addr}
    (checks : PassesChecks env depth u pkg) (all : AllPartnered u)
    (ran : pkgJobsUniverseProcessItem env depth u pkg = some (rc, unit, u')) :
    AllPartnered u' := by
  obtain ⟨result, checked, quiet⟩ := checks
  have keeps : KeepsPartners u.refilled (fun _ => False) u := ⟨List.prefix_refl _, fun _ => all⟩
  obtain ⟨same, kept⟩ := (checkedItem_follows depth u pkg keeps trivial).2 result checked
  rw [ran] at same
  cases same
  exact kept.partnering quiet

theorem addMissing_partnered {depth : Nat} {uid : Uid} {rc : Epkg} {j' : Jobs}
    (all : AllPartnered j.univ)
    (checks : ∀ npkg ∈ (pkgJobsUniverseGetLocal env j.univ uid).or
      (pkgJobsUniverseGetRemote env j.univ uid), PassesChecks env depth j.univ npkg)
    (ran : pkgConflictsAddMissing env depth j uid = some (rc, j')) :
    AllPartnered j'.univ ∧ Evolves j.univ j'.univ := by
  unfold pkgConflictsAddMissing at ran
  split at ran
  · cases ran
    exact ⟨all, .refl⟩
  · next npkg found =>
      obtain ⟨⟨rc₁, unit, u⟩, called, result⟩ := Option.bind_eq_some_iff.mp ran
      cases result
      exact ⟨(checks npkg found).partnered all called, processItem_evolves _ _ _ _ _ _ called⟩

theorem addFromPkgdbLocal_partnered {depth : Nat} {o1 o2 : Uid} {j' : Jobs}
    (all : AllPartnered j.univ)
    (checked : (UniverseCall.register depth (.fromLocal o1 o2)).Checked env j)
    (ran : pkgConflictsAddFromPkgdbLocal env depth o1 o2 j = some j') :
    AllPartnered j'.univ := by
  have filed : ∀ {j₁ : Jobs} {uid : Uid} {head : Addr}, Evolves j.univ j₁.univ →
      j.univ.find uid = some head → ∀ a ∈ j₁.univ.chain head, a ∈ j₁.univ.units := by
    intro j₁ uid head evolves found a inChain
    have member := (JobsUniverse.find_eq_some_iff all.chained).mp found
    exact JobsUniverse.mem_units.mpr ⟨_, evolves.items_mono member, inChain⟩
  have listed : ∀ {j₁ : Jobs} {uid : Uid}, AllPartnered j₁.univ →
      ∀ a ∈ j₁.univ.chainOf uid, a ∈ j₁.univ.units := fun all₁ _ inChain =>
    (JobsUniverse.mem_chainOf all₁.chained inChain).1
  simp only [UniverseCall.Checked, ConflictCallback.missing] at checked
  unfold pkgConflictsAddFromPkgdbLocal at ran
  split at ran
  · cases ran
    exact all
  · next u2 absent found =>
      rw [absent, found] at checked
      obtain ⟨⟨rc, j₁⟩, added, ran⟩ := Option.bind_eq_some_iff.mp ran
      obtain ⟨all₁, evolves⟩ := addMissing_partnered all (checked o1 rfl) added
      dsimp only at ran
      split at ran
      · cases ran
        exact all₁
      · cases ran
        exact registerLocalPairs_partnered all₁ (listed all₁) (filed evolves found)
  · next u1 found absent =>
      rw [absent, found] at checked
      obtain ⟨⟨rc, j₁⟩, added, ran⟩ := Option.bind_eq_some_iff.mp ran
      obtain ⟨all₁, evolves⟩ := addMissing_partnered all (checked o2 rfl) added
      dsimp only at ran
      split at ran
      · cases ran
        exact all₁
      · cases ran
        exact registerLocalPairs_partnered all₁ (filed evolves found) (listed all₁)
  · next u1 u2 found1 found2 =>
      split at ran
      · cases ran
        exact all
      · cases ran
        exact registerLocalPairs_partnered all (filed .refl found1) (filed .refl found2)

theorem addFromPkgdbRemote_partnered {o1 o2 : Uid} (all : AllPartnered j.univ) :
    AllPartnered (pkgConflictsAddFromPkgdbRemote o1 o2 j).univ := by
  unfold pkgConflictsAddFromPkgdbRemote
  split
  · next u1 u2 found1 found2 =>
      split
      · exact all
      · refine foldl_partnered (registerRemote_grow o1 o2 _) (fun j₁ cur1 all₁ same member => ?_)
          all rfl
        refine registerRemote_partnered all₁ ?_ fun b inChain => ?_
        · exact same ▸ mem_units_of_find all.chained found1 member
        · exact same ▸ mem_units_of_find all.chained found2 inChain
  · exact all

end Callbacks

/-! ## Runs -/

/-- A checked call keeps all conflicts partnered. -/
theorem UniverseCall.run_partnered {env : Env} {j j' : Jobs} {call : UniverseCall}
    (all : AllPartnered j.univ) (checked : call.Checked env j) (ran : call.run env j = some j') :
    AllPartnered j'.univ := by
  cases call with
  | process depth pkg =>
      obtain ⟨⟨rc, unit, u⟩, called, result⟩ := Option.map_eq_some_iff.mp ran
      subst result
      exact checked.partnered all called
  | register depth callback =>
      cases callback with
      | fromLocal o1 o2 => exact addFromPkgdbLocal_partnered all checked ran
      | fromRemote o1 o2 =>
          cases ran
          exact addFromPkgdbRemote_partnered all

theorem AllPartnered.assertionsHold {u : JobsUniverse} (all : AllPartnered u) :
    AssertionsHold u := by
  intro req _ lp _ reachable installed
  have partners := all.partnered lp reachable id
  rw [Pkg.localConflicts, if_pos installed] at partners
  exact ⟨fun c listed => remotePartner_isSome_iff.mp (partners c listed),
    fun prio => pkgJobsUpdateConflictPriority_total partners⟩

/-- No run whose calls all pass the checks makes an assertion fail. -/
theorem checkedRun_assertionsHold {env : Env} {calls : List UniverseCall} {j : Jobs}
    (ran : runEvents (UniverseCall.run env) { univ := {} } calls = some j)
    (checked : MeetsAlong (UniverseCall.run env) (UniverseCall.Checked env) { univ := {} } calls) :
    AssertionsHold j.univ := by
  have initially : AllPartnered {} :=
    ⟨JobsUniverse.repInv_empty.toChained, fun item reachable => by cases reachable⟩
  have all : AllPartnered j.univ :=
    runEvents_invariant (fun _ _ _ all checked ran => UniverseCall.run_partnered all checked ran)
      ran checked initially
  exact all.assertionsHold

/-- An installed `app` with a conflict, an installed `tool`, a newer `app` in the
repositories, and what they offer for the conflict. -/
def conflictingApp (uid : Uid) (offered : List Pkg) : Env where
  query pattern :=
    if pattern = "app~misc/app" then
      [{ type := .installed, uid := "app~misc/app", version := "1", digest := some "1",
         conflicts := [{ uniqueid := uid }] }]
    else if pattern = "tool~misc/tool" ∨ pattern = "misc/tool" then
      [{ type := .installed, uid := "tool~misc/tool", version := "1", digest := some "2" }]
    else []
  repoQuery pattern :=
    if pattern = "app~misc/app" then
      [{ type := .remote, uid := "app~misc/app", version := "2", digest := some "3" }]
    else if pattern = uid then offered
    else []
  shlibProvide _ := none
  versionCmp first second := if first = second then 0 else if first = "1" then -1 else 1
  checksum := Pkg.digest

/-- It depends on `app`. -/
def appUser : Pkg :=
  { type := .remote, uid := "user~misc/user", digest := some "4",
    deps := [⟨"app", "app~misc/app", "misc/app"⟩] }

def newestTool : Pkg :=
  { type := .remote, uid := "tool~misc/tool", version := "2", digest := some "5" }

def partnerCalls : List UniverseCall :=
  [.process 3 appUser, .register 3 (.fromLocal "app~misc/app" "user~misc/user"),
    .register 3 (.fromRemote "user~misc/user" "tool~misc/tool")]

theorem partnerCalls_assertionsHold : ∃ j,
    runEvents (UniverseCall.run (conflictingApp "tool~misc/tool" [newestTool])) { univ := {} }
      partnerCalls = some j ∧
    (j.univ.pkg 1).conflicts.length = 2 ∧ AssertionsHold j.univ := by
  refine ⟨_, rfl, by decide +kernel, @checkedRun_assertionsHold
    (conflictingApp "tool~misc/tool" [newestTool]) partnerCalls _ rfl ?_⟩
  refine meetsAlong_cons ⟨_, rfl, rfl⟩ rfl (meetsAlong_cons ?_ rfl (meetsAlong_cons ?_ rfl trivial))
  · intro uid missing
    cases missing
  · intro uid missing
    cases missing

/-- The local database gives the conflict by the origin, and the repositories
have nothing under it. -/
theorem unofferedPartner_fails : ∃ j,
    runEvents (UniverseCall.run (conflictingApp "misc/tool" [])) { univ := {} }
      [.process 3 appUser] = some j ∧ ¬ AssertionsHold j.univ := by
  refine ⟨_, rfl, fun holds => ?_⟩
  obtain ⟨prio, ran⟩ := (holds { items0 := 2, items1 := some 1, type := .upgrade } rfl 1 rfl
    (by decide) (by decide)).2 {}
  cases ran

end Pkgng
