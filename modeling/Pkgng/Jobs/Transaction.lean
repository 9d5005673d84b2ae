import Pkgng.Jobs.Execute
import Pkgng.Jobs.PriorityTurns
import Pkgng.Solve.Chains
import Pkgng.Solve.Requests

/-!
# From the solver to the database

What the solver chooses, `pkg_solve_sat_to_jobs` turns into jobs, `pkg_jobs_set_priorities` puts
them into an order and `pkg_jobs_execute` carries them out.  Where none of them fails the chosen
packages are registered afterwards, whatever the order is.
-/

set_option autoImplicit false

namespace Pkgng

open Lib

/-! ## Jobs on a table -/

/-- What is known of the jobs that are left: a package to be removed still has its row, or one that
was registered later; none is removed or installed twice. -/
structure Outstanding (table : PackageTable) (jobs : List ExecJob) : Prop where
  placed : ∀ job ∈ jobs, job.isRemoval = true →
    ∃ row ∈ table.rows, row.uid = job.uid ∧ job.rowid ≤ row.id
  owned : ∀ job ∈ jobs, job.isRemoval = true → ∀ row ∈ table.rows, row.id = job.rowid →
    row.uid = job.uid
  removedOnce : ((jobs.filter ExecJob.isRemoval).map ExecJob.uid).Nodup
  installedOnce : ((jobs.filter ExecJob.isInstall).map ExecJob.uid).Nodup

section Tables

variable {table : PackageTable} {job : ExecJob} {rest jobs : List ExecJob}

theorem ExecJob.not_install_of_removal (type : job.isRemoval = true) : job.isInstall = false := by
  cases install : job.isInstall with
  | false => rfl
  | true =>
      rw [ExecJob.not_removal_of_install install] at type
      cases type

theorem ExecJob.apply_removal (type : job.isRemoval = true) :
    job.apply table = table.unregister job.rowid := by
  rw [ExecJob.apply, if_pos type]

theorem ExecJob.apply_install (type : job.isInstall = true) :
    job.apply table = table.register job.uid job.version := by
  rw [ExecJob.apply, if_neg (by simp [ExecJob.not_removal_of_install type]), if_pos type]

theorem mem_unregister {id : Nat} {row : PackageRow} :
    row ∈ (table.unregister id).rows ↔ row ∈ table.rows ∧ row.id ≠ id := by
  simp [PackageTable.unregister]

theorem mem_register {uid : Uid} {version : String} {row : PackageRow} :
    row ∈ (table.register uid version).rows ↔
      (row ∈ table.rows ∧ row.uid ≠ uid) ∨ row = ⟨table.nextId, uid, version⟩ := by
  simp [PackageTable.register]

/-- Another package that is to be removed has another row. -/
theorem Outstanding.unregister (left : Outstanding table (job :: rest))
    (type : job.isRemoval = true) : Outstanding (table.unregister job.rowid) rest where
  placed := by
    intro other member removal
    obtain ⟨row, inTable, owner, above⟩ := left.placed other (List.mem_cons_of_mem _ member) removal
    refine ⟨row, mem_unregister.mpr ⟨inTable, fun same => ?_⟩, owner, above⟩
    have uids := left.owned job (List.mem_cons_self ..) type row inTable same
    have once := left.removedOnce
    rw [List.filter_cons_of_pos type, List.map_cons, List.nodup_cons] at once
    refine once.1 ?_
    rw [← uids, owner]
    exact List.mem_map_of_mem (List.mem_filter.mpr ⟨member, removal⟩)
  owned := fun other member removal row inTable =>
    left.owned other (List.mem_cons_of_mem _ member) removal row (mem_unregister.mp inTable).1
  removedOnce := by
    have once := left.removedOnce
    rw [List.filter_cons_of_pos type, List.map_cons] at once
    exact once.of_cons
  installedOnce := by
    have once := left.installedOnce
    rwa [List.filter_cons_of_neg (by simp [ExecJob.not_install_of_removal type])] at once

/-- A row that is registered lies behind all those to be removed. -/
theorem Outstanding.register (left : Outstanding table (job :: rest))
    (type : job.isInstall = true) :
    Outstanding (table.register job.uid job.version) rest where
  placed := by
    intro other member removal
    obtain ⟨row, inTable, owner, above⟩ := left.placed other (List.mem_cons_of_mem _ member) removal
    by_cases replaced : row.uid = job.uid
    · refine ⟨_, mem_register.mpr (Or.inr rfl), ?_, ?_⟩
      · exact replaced.symm.trans owner
      · exact above.trans (Nat.le_of_lt (table.lt_nextId inTable))
    · exact ⟨row, mem_register.mpr (Or.inl ⟨inTable, replaced⟩), owner, above⟩
  owned := by
    intro other member removal row inTable same
    have later := List.mem_cons_of_mem job member
    rcases mem_register.mp inTable with ⟨old, _⟩ | rfl
    · exact left.owned other later removal row old same
    · obtain ⟨before, inBefore, _, above⟩ := left.placed other later removal
      have below := table.lt_nextId inBefore
      dsimp only at same
      omega
  removedOnce := by
    have once := left.removedOnce
    rwa [List.filter_cons_of_neg (by simp [ExecJob.not_removal_of_install type])] at once
  installedOnce := by
    have once := left.installedOnce
    rw [List.filter_cons_of_pos type, List.map_cons] at once
    exact once.of_cons

/-- A package is not removed by a job that comes after its registration. -/
theorem Outstanding.nextId_ne (left : Outstanding table jobs) :
    ∀ job ∈ jobs, job.isRemoval = true → job.rowid ≠ table.nextId := by
  intro job member removal
  obtain ⟨row, inTable, _, above⟩ := left.placed job member removal
  have below := table.lt_nextId inTable
  omega

/-- The packages registered after the jobs do not depend on their order. -/
theorem registered_appliedJobs (kinds : ∀ job ∈ jobs, job.isRemoval = true ∨ job.isInstall = true)
    (left : Outstanding table jobs) {uid : Uid} {version : String} :
    (appliedJobs table jobs).Registered uid version ↔
      (∃ job ∈ jobs, job.isInstall = true ∧ job.uid = uid ∧ job.version = version) ∨
        (∀ job ∈ jobs, job.isInstall = true → job.uid ≠ uid) ∧
          ∃ row ∈ table.rows, row.uid = uid ∧ row.version = version ∧
            ∀ job ∈ jobs, job.isRemoval = true → job.rowid ≠ row.id := by
  induction jobs generalizing table with
  | nil => simp [appliedJobs, PackageTable.Registered]
  | cons job rest ih =>
      have later := fun other (member : other ∈ rest) => kinds other (List.mem_cons_of_mem _ member)
      rcases kinds job (List.mem_cons_self ..) with type | type
      · have step := @ih (table.unregister job.rowid) later (left.unregister type)
        have noInstall := ExecJob.not_install_of_removal type
        rw [appliedJobs, List.foldl_cons, ExecJob.apply_removal type]
        refine step.trans ?_
        simp only [mem_unregister, List.mem_cons, forall_eq_or_imp, exists_eq_or_imp, noInstall, type,
          Bool.false_eq_true, false_and, false_or, false_implies, true_and, true_implies]
        grind
      · have step := @ih (table.register job.uid job.version) later (left.register type)
        have noRemoval := ExecJob.not_removal_of_install type
        have once := left.installedOnce
        rw [List.filter_cons_of_pos type, List.map_cons, List.nodup_cons] at once
        have alone : ∀ other ∈ rest, other.isInstall = true → other.uid ≠ job.uid :=
          fun other member install same => once.1 (same ▸
            List.mem_map_of_mem (List.mem_filter.mpr ⟨member, install⟩))
        have behind : ∀ other ∈ rest, other.isRemoval = true → other.rowid ≠ table.nextId :=
          fun other member => left.nextId_ne other (List.mem_cons_of_mem _ member)
        rw [appliedJobs, List.foldl_cons, ExecJob.apply_install type]
        refine step.trans ?_
        simp only [mem_register, List.mem_cons, forall_eq_or_imp, noRemoval, type, Bool.false_eq_true,
          false_implies, true_and, true_implies, or_and_right, exists_or, exists_eq_left]
        by_cases here : job.uid = uid
        · subst here
          grind
        · grind

/-- A run in which every job is done leaves the table of the jobs. -/
theorem executeJobs_done {flags : ExecFlags} {initial : PackageTable} {db : PkgDb}
    (inside : InSavepoint initial db)
    (kinds : ∀ job ∈ jobs, job.isRemoval = true ∨ job.isInstall = true)
    (accepted : ∀ job ∈ jobs, job.refused flags = false)
    (done : ∀ job ∈ jobs, job.onDelete = .done ∧ job.onAdd = .done) :
    executeJobs flags jobs db 0 = ({ db with table := appliedJobs db.table jobs }, 0) := by
  induction jobs generalizing db with
  | nil => rfl
  | cons job rest ih =>
      have later := fun (db : PkgDb) (inside : InSavepoint initial db) => @ih db inside
        (fun other member => kinds other (List.mem_cons_of_mem _ member))
        (fun other member => accepted other (List.mem_cons_of_mem _ member))
        (fun other member => done other (List.mem_cons_of_mem _ member))
      obtain ⟨deletes, adds⟩ := done job (List.mem_cons_self ..)
      rcases kinds job (List.mem_cons_self ..) with type | type
      · have deleted : pkgDelete db job = (db.write (db.table.unregister job.rowid), 0) := by
          rw [pkgDelete, deletes]
        rw [executeJobs_removal type, accepted job (List.mem_cons_self ..),
          if_neg Bool.false_ne_true, deleted, if_neg (by simp), later _ (inside.write _),
          inside.write_eq, appliedJobs, appliedJobs, List.foldl_cons, ExecJob.apply_removal type]
      · rw [executeJobs_install type, handleInstall_done adds, if_neg (by simp),
          later _ (inside.write _), inside.write_eq, appliedJobs, appliedJobs, List.foldl_cons,
          ExecJob.apply_install type]

end Tables

/-! ## The jobs of the solver -/

/-- The installed items of the universe are the rows of their uids. -/
structure Reflects (u : JobsUniverse) (rowid : Addr → Nat) (table : PackageTable) : Prop where
  rows : ∀ item ∈ u.units, (u.pkg item).isInstalled = true →
    ⟨rowid item, (u.pkg item).uid, (u.pkg item).version⟩ ∈ table.rows
  items : ∀ row ∈ table.rows, ∀ head, u.find row.uid = some head →
    ∃ item ∈ u.chain head, (u.pkg item).isInstalled = true ∧ rowid item = row.id
  apart : ∀ a ∈ u.units, ∀ b ∈ u.units, (u.pkg a).isInstalled = true →
    (u.pkg b).isInstalled = true → rowid a = rowid b → a = b

/-- The job as `pkg_jobs_execute` reads it; the archive of a package holds what the catalogue says,
and nothing fails. -/
def Solved.execJob (u : JobsUniverse) (rowid : Addr → Nat) (job : Solved) : ExecJob where
  type := job.type
  name := (u.pkg job.items0).name
  uid := (u.pkg job.items0).uid
  version := (u.pkg job.items0).version
  rowid := rowid job.items0

section Split

variable {u : JobsUniverse} {rowid : Addr → Nat} {jobs kept removals : List Solved} {a req : Solved}

theorem SplitJobs.exists_kept (splits : SplitJobs u jobs kept removals) (member : req ∈ jobs) :
    ∃ a ∈ kept, a.items0 = req.items0 ∧ a.type = req.type := by
  induction splits with
  | nil => cases member
  | keep first _ ih =>
      rcases List.mem_cons.mp member with rfl | later
      · exact ⟨req, List.mem_cons_self .., rfl, rfl⟩
      · obtain ⟨a, inKept, same⟩ := ih later
        exact ⟨a, List.mem_cons_of_mem _ inKept, same⟩
  | split _ _ _ ih =>
      rcases List.mem_cons.mp member with rfl | later
      · exact ⟨_, List.mem_cons_self .., rfl, rfl⟩
      · obtain ⟨a, inKept, same⟩ := ih later
        exact ⟨a, List.mem_cons_of_mem _ inKept, same⟩

theorem SplitJobs.of_kept (splits : SplitJobs u jobs kept removals) (member : a ∈ kept) :
    ∃ req ∈ jobs, a.items0 = req.items0 ∧ a.type = req.type := by
  induction splits with
  | nil => cases member
  | keep first _ ih =>
      rcases List.mem_cons.mp member with rfl | later
      · exact ⟨a, List.mem_cons_self .., rfl, rfl⟩
      · obtain ⟨req, inJobs, same⟩ := ih later
        exact ⟨req, List.mem_cons_of_mem _ inJobs, same⟩
  | split _ _ _ ih =>
      rcases List.mem_cons.mp member with rfl | later
      · exact ⟨_, List.mem_cons_self .., rfl, rfl⟩
      · obtain ⟨req, inJobs, same⟩ := ih later
        exact ⟨req, List.mem_cons_of_mem _ inJobs, same⟩

theorem SplitJobs.of_removal (splits : SplitJobs u jobs kept removals) (member : a ∈ removals) :
    ∃ req ∈ jobs, req.type = .upgrade ∧ ∃ lp, req.items1 = some lp ∧ a = removalOf lp := by
  induction splits with
  | nil => cases member
  | keep first _ ih =>
      obtain ⟨req, inJobs, upgrade⟩ := ih member
      exact ⟨req, List.mem_cons_of_mem _ inJobs, upgrade⟩
  | @split _ _ _ first lp isUpgrade _ _ ih =>
      obtain ⟨upgrade, half, _⟩ := conflictingLocal_eq_some.mp isUpgrade
      rcases List.mem_cons.mp member with rfl | later
      · exact ⟨first, List.mem_cons_self .., upgrade, lp, half, rfl⟩
      · obtain ⟨req, inJobs, upgrade⟩ := ih later
        exact ⟨req, List.mem_cons_of_mem _ inJobs, upgrade⟩

/-- The uids of the jobs of a kind, up to their order, are uids of the jobs that were split. -/
theorem SplitJobs.uids (splits : SplitJobs u jobs kept removals)
    (halves : ∀ req ∈ jobs, req.type = .upgrade → ∀ lp, req.items1 = some lp →
      (u.pkg lp).uid = (u.pkg req.items0).uid)
    (removal : Bool) :
    ∃ uids, uids.Sublist (jobs.map fun req => (u.pkg req.items0).uid) ∧
      ((((kept ++ removals).map (Solved.execJob u rowid)).filter
        (if removal then ExecJob.isRemoval else ExecJob.isInstall)).map ExecJob.uid).Perm uids := by
  induction splits with
  | nil => exact ⟨[], List.Sublist.refl _, .refl _⟩
  | @keep jobs kept removals req _ ih =>
      obtain ⟨uids, sub, perm⟩ := ih fun other member => halves other (List.mem_cons_of_mem _ member)
      rw [List.cons_append, List.map_cons, List.map_cons]
      by_cases here : (if removal then ExecJob.isRemoval else ExecJob.isInstall)
          (Solved.execJob u rowid req) = true
      · rw [List.filter_cons_of_pos here]
        exact ⟨_, sub.cons_cons _, perm.cons _⟩
      · rw [List.filter_cons_of_neg here]
        exact ⟨uids, sub.cons _, perm⟩
  | @split jobs kept removals req lp isUpgrade _ _ ih =>
      obtain ⟨uids, sub, perm⟩ := ih fun other member => halves other (List.mem_cons_of_mem _ member)
      obtain ⟨upgrade, half, _⟩ := conflictingLocal_eq_some.mp isUpgrade
      have uid := halves req (List.mem_cons_self ..) upgrade lp half
      refine ⟨(u.pkg req.items0).uid :: uids, sub.cons_cons _, ?_⟩
      have moved : ((({ req with alreadyDeleted := true } :: kept) ++ removalOf lp :: removals).map
          (Solved.execJob u rowid)).Perm
          (Solved.execJob u rowid { req with alreadyDeleted := true } ::
            Solved.execJob u rowid (removalOf lp) ::
              (kept ++ removals).map (Solved.execJob u rowid)) := by
        rw [List.cons_append, List.map_cons]
        exact .cons _ (List.perm_middle.map _)
      refine ((moved.filter _).map _).trans ?_
      cases removal with
      | true =>
          simpa [Solved.execJob, ExecJob.isRemoval, upgrade, removalOf, uid] using perm
      | false =>
          simpa [Solved.execJob, ExecJob.isInstall, upgrade, removalOf] using perm

end Split

/-- A list that `pkg_jobs_set_priorities` may make of the jobs. -/
def Arranged (u : JobsUniverse) (jobs list : List Solved) : Prop :=
  ∃ kept removals, SplitJobs u jobs kept removals ∧ list.Perm (kept ++ removals)

theorem Jobs.setPriorities_arranged (j : Jobs) (prio : Priorities)
    (holds : ¬ AssertionFails j.univ j.jobs prio) :
    ∃ j' prio', j.setPriorities prio = some (j', prio') ∧ Arranged j.univ j.jobs j'.jobs := by
  have enough : wholeUpgrades j.jobs < j.jobs.length + 1 :=
    Nat.lt_succ_of_le List.countP_le_length
  obtain ⟨mid, prio', kept, removals, ran, splits, perm, _⟩ :=
    Jobs.iterAgain_splits enough holds (.refl j.univ j.jobs) (by rw [List.append_nil])
      (Nat.add_zero _).symm
  refine ⟨{ mid with jobs := sortJobs prio' mid.jobs }, prio', ?_, kept, removals, splits,
    (sortJobs_perm prio' mid.jobs).trans perm⟩
  rw [Jobs.setPriorities, ran]
  rfl

section Outcome

variable {u : JobsUniverse} {rowid : Addr → Nat} {table : PackageTable} {type : JobsType}
  {selected : Addr → Bool} {list : List Solved}

theorem length_le_one {items : List Addr} (nodup : items.Nodup)
    (same : ∀ a ∈ items, ∀ b ∈ items, a = b) : items.length ≤ 1 := by
  match items, nodup, same with
  | [], _, _ => exact Nat.zero_le 1
  | [_], _, _ => exact Nat.le_refl 1
  | a :: b :: _, nodup, same => simp [same a (by simp) b (by simp)] at nodup

/-- No two packages of one uid are installed. -/
theorem Reflects.installed_unique (reflects : Reflects u rowid table) (inv : u.Chained)
    {entry : Uid × Addr} (member : entry ∈ u.items) {a b : Addr} (inA : a ∈ u.chain entry.2)
    (inB : b ∈ u.chain entry.2) (isA : (u.pkg a).isInstalled = true)
    (isB : (u.pkg b).isInstalled = true) : a = b := by
  have reachA := JobsUniverse.mem_units.mpr ⟨entry, member, inA⟩
  have reachB := JobsUniverse.mem_units.mpr ⟨entry, member, inB⟩
  have uids : (u.pkg a).uid = (u.pkg b).uid :=
    (inv.homogeneous entry member a inA).trans (inv.homogeneous entry member b inB).symm
  have row := PackageTable.eq_of_uid (reflects.rows a reachA isA) (reflects.rows b reachB isB) uids
  exact reflects.apart a reachA b reachB isA isB (congrArg PackageRow.id row)

theorem Reflects.dels_length (reflects : Reflects u rowid table) (inv : u.Chained)
    {entry : Uid × Addr} (member : entry ∈ u.items) :
    (u.dels selected (u.chain entry.2)).length ≤ 1 := by
  refine length_le_one ((inv.linked entry member).nodup.filter _) fun a inA b inB => ?_
  obtain ⟨chainA, droppedA⟩ := List.mem_filter.mp inA
  obtain ⟨chainB, droppedB⟩ := List.mem_filter.mp inB
  exact reflects.installed_unique inv member chainA chainB (Bool.and_eq_true_iff.mp droppedA).2
    (Bool.and_eq_true_iff.mp droppedB).2

/-- A chain with at most one item to install and one to remove has at most one job. -/
theorem resJobs_length {adds dels : List Addr} (short : adds.length ≤ 1)
    (single : dels.length ≤ 1) : (resJobs type adds dels).length ≤ 1 := by
  match adds, dels, short, single with
  | [], [], _, _ => exact Nat.zero_le 1
  | [_], [], _, _ => exact Nat.le_refl 1
  | [_], [_], _, _ => simp [resJobs]
  | [], [_], _, _ => exact Nat.le_refl 1

theorem resJobs_not_fetch {adds dels : List Addr} (notFetch : type ≠ .fetch) {job : Solved}
    (member : job ∈ resJobs type adds dels) : job.type ≠ .fetch := by
  have deletions : ∀ items : List Addr, ∀ job ∈ items.map fun item =>
      ({ items0 := item, type := .delete } : Solved), job.type ≠ .fetch := by
    intro items job inItems
    obtain ⟨item, _, rfl⟩ := List.mem_map.mp inItems
    exact SolvedType.noConfusion
  match adds with
  | [] => exact deletions dels job member
  | add :: rest =>
      cases last : dels.getLast? with
      | none =>
          simp only [resJobs, last, List.mem_singleton] at member
          rw [member, if_neg notFetch]
          exact SolvedType.noConfusion
      | some del =>
          simp only [resJobs, last, List.mem_cons] at member
          rcases member with rfl | inRest
          · exact SolvedType.noConfusion
          · exact deletions _ job inRest

theorem resJobs_uids_sublist (inv : u.Chained)
    (short : ∀ entry ∈ u.items, (u.adds selected (u.chain entry.2)).length ≤ 1)
    (single : ∀ entry ∈ u.items, (u.dels selected (u.chain entry.2)).length ≤ 1) :
    ((u.resJobs type selected).map fun req => (u.pkg req.items0).uid).Sublist
      (u.items.map Prod.fst) := by
  have piece : ∀ entry ∈ u.items, ((resJobs type (u.adds selected (u.chain entry.2))
      (u.dels selected (u.chain entry.2))).map fun req => (u.pkg req.items0).uid).Sublist
        [entry.1] := by
    intro entry member
    have one := @resJobs_length type _ _ (short entry member) (single entry member)
    have uids : ∀ req ∈ resJobs type (u.adds selected (u.chain entry.2))
        (u.dels selected (u.chain entry.2)), (u.pkg req.items0).uid = entry.1 := by
      intro req inJobs
      obtain ⟨_, ⟨_, _, inDels⟩ | ⟨inAdds, _⟩ | ⟨inAdds, _⟩⟩ := resJobs_cases inJobs
      · exact inv.homogeneous entry member _ (List.mem_of_mem_filter inDels)
      · exact inv.homogeneous entry member _ (List.mem_of_mem_filter inAdds)
      · exact inv.homogeneous entry member _ (List.mem_of_mem_filter inAdds)
    generalize resJobs type (u.adds selected (u.chain entry.2))
      (u.dels selected (u.chain entry.2)) = jobs at one uids
    match jobs, one, uids with
    | [], _, _ => exact List.nil_sublist _
    | [req], _, uids => rw [List.map_singleton, uids req (List.mem_singleton_self req)]
  have loop : ∀ entries : List (Uid × Addr), (∀ entry ∈ entries, entry ∈ u.items) →
      ((entries.flatMap fun entry => resJobs type (u.adds selected (u.chain entry.2))
        (u.dels selected (u.chain entry.2))).map fun req => (u.pkg req.items0).uid).Sublist
          (entries.map Prod.fst) := by
    intro entries
    induction entries with
    | nil => exact fun _ => List.nil_sublist _
    | cons entry rest ih =>
        intro filed
        rw [List.flatMap_cons, List.map_append]
        exact (piece entry (filed entry (List.mem_cons_self ..))).append
          (ih fun other inRest => filed other (List.mem_cons_of_mem _ inRest))
  exact loop u.items fun _ member => member

theorem Arranged.of_mem {jobs : List Solved} (arranged : Arranged u jobs list) {a : Solved}
    (member : a ∈ list) :
    (∃ req ∈ jobs, a.items0 = req.items0 ∧ a.type = req.type) ∨
      ∃ req ∈ jobs, req.type = .upgrade ∧ ∃ lp, req.items1 = some lp ∧ a = removalOf lp := by
  obtain ⟨kept, removals, splits, perm⟩ := arranged
  rcases List.mem_append.mp (perm.mem_iff.mp member) with inKept | inRemovals
  · exact Or.inl (splits.of_kept inKept)
  · exact Or.inr (splits.of_removal inRemovals)

theorem Arranged.exists_mem {jobs : List Solved} (arranged : Arranged u jobs list) {req : Solved}
    (member : req ∈ jobs) : ∃ a ∈ list, a.items0 = req.items0 ∧ a.type = req.type := by
  obtain ⟨kept, removals, splits, perm⟩ := arranged
  obtain ⟨a, inKept, same⟩ := splits.exists_kept member
  exact ⟨a, perm.mem_iff.mpr (List.mem_append_left _ inKept), same⟩

theorem execJob_isInstall (a : Solved) :
    (a.execJob u rowid).isInstall = true ↔ a.type = .install ∨ a.type = .upgrade := by
  rw [ExecJob.isInstall, Bool.or_eq_true, decide_eq_true_eq, decide_eq_true_eq]
  exact Iff.rfl

theorem execJob_isRemoval (a : Solved) :
    (a.execJob u rowid).isRemoval = true ↔ a.type = .delete ∨ a.type = .upgradeRemove := by
  rw [ExecJob.isRemoval, Bool.or_eq_true, decide_eq_true_eq, decide_eq_true_eq]
  exact Iff.rfl

/-- What a job of the list does: it installs an item that its chain is to get, or removes one that
its chain is to lose. -/
theorem Arranged.cases (arranged : Arranged u (u.resJobs type selected) list)
    (notFetch : type ≠ .fetch) {a : Solved} (member : a ∈ list) :
    ∃ entry ∈ u.items,
      ((a.type = .install ∨ a.type = .upgrade) ∧ a.items0 ∈ u.adds selected (u.chain entry.2)) ∨
      ((a.type = .delete ∨ a.type = .upgradeRemove) ∧
        a.items0 ∈ u.dels selected (u.chain entry.2)) := by
  rcases arranged.of_mem member with ⟨req, inJobs, item, kind⟩ | ⟨req, inJobs, upgrade, lp, half, rfl⟩
  · obtain ⟨entry, filed, ofChain⟩ := mem_resJobs.mp inJobs
    refine ⟨entry, filed, ?_⟩
    rw [item, kind]
    obtain ⟨_, ⟨deletes, _, inDels⟩ | ⟨inAdds, plain, _⟩ | ⟨inAdds, upgrades, _⟩⟩ :=
      resJobs_cases ofChain
    · exact Or.inr ⟨Or.inl deletes, inDels⟩
    · refine Or.inl ⟨Or.inl (plain.resolve_right fun fetches => ?_), inAdds⟩
      exact resJobs_not_fetch notFetch ofChain fetches
    · exact Or.inl ⟨Or.inr upgrades, inAdds⟩
  · obtain ⟨entry, filed, ofChain⟩ := mem_resJobs.mp inJobs
    refine ⟨entry, filed, Or.inr ⟨Or.inr rfl, ?_⟩⟩
    obtain ⟨_, ⟨deletes, _⟩ | ⟨_, _, none⟩ | ⟨_, _, del, inDels, isDel⟩⟩ := resJobs_cases ofChain
    · rw [upgrade] at deletes
      cases deletes
    · rw [half] at none
      cases none
    · rw [half] at isDel
      cases isDel
      exact inDels

theorem Arranged.kinds (arranged : Arranged u (u.resJobs type selected) list)
    (notFetch : type ≠ .fetch) :
    ∀ job ∈ list.map (Solved.execJob u rowid), job.isRemoval = true ∨ job.isInstall = true := by
  intro job member
  obtain ⟨a, inList, rfl⟩ := List.mem_map.mp member
  obtain ⟨_, _, ⟨installs, _⟩ | ⟨removes, _⟩⟩ := arranged.cases notFetch inList
  · exact Or.inr ((execJob_isInstall a).mpr installs)
  · exact Or.inl ((execJob_isRemoval a).mpr removes)

/-- A job that installs a package. -/
theorem Arranged.install_item (arranged : Arranged u (u.resJobs type selected) list)
    (notFetch : type ≠ .fetch) {a : Solved} (member : a ∈ list)
    (installs : (a.execJob u rowid).isInstall = true) :
    ∃ entry ∈ u.items, a.items0 ∈ u.adds selected (u.chain entry.2) := by
  obtain ⟨entry, filed, ⟨_, inAdds⟩ | ⟨removes, _⟩⟩ := arranged.cases notFetch member
  · exact ⟨entry, filed, inAdds⟩
  · have removal := ExecJob.not_install_of_removal ((@execJob_isRemoval u rowid a).mpr removes)
    rw [removal] at installs
    cases installs

/-- A job that removes a package. -/
theorem Arranged.removal_item (arranged : Arranged u (u.resJobs type selected) list)
    (notFetch : type ≠ .fetch) {a : Solved} (member : a ∈ list)
    (removes : (a.execJob u rowid).isRemoval = true) :
    ∃ entry ∈ u.items, a.items0 ∈ u.dels selected (u.chain entry.2) := by
  obtain ⟨entry, filed, ⟨installs, _⟩ | ⟨_, inDels⟩⟩ := arranged.cases notFetch member
  · have install := ExecJob.not_removal_of_install ((@execJob_isInstall u rowid a).mpr installs)
    rw [install] at removes
    cases removes
  · exact ⟨entry, filed, inDels⟩

theorem mem_adds {chain : List Addr} {item : Addr} : item ∈ u.adds selected chain ↔
    item ∈ chain ∧ selected item = true ∧ (u.pkg item).isInstalled = false := by
  rw [JobsUniverse.adds, List.mem_filter, Bool.and_eq_true, Bool.not_eq_true']

theorem mem_dels {chain : List Addr} {item : Addr} : item ∈ u.dels selected chain ↔
    item ∈ chain ∧ selected item = false ∧ (u.pkg item).isInstalled = true := by
  rw [JobsUniverse.dels, List.mem_filter, Bool.and_eq_true, Bool.not_eq_true']

/-- Before the first job, all of them are outstanding. -/
theorem Arranged.outstanding (arranged : Arranged u (u.resJobs type selected) list)
    (inv : u.Chained) (reflects : Reflects u rowid table) (notFetch : type ≠ .fetch)
    (short : ∀ entry ∈ u.items, (u.adds selected (u.chain entry.2)).length ≤ 1) :
    Outstanding table (list.map (Solved.execJob u rowid)) := by
  have uids : ((u.resJobs type selected).map fun req => (u.pkg req.items0).uid).Sublist
      (u.items.map Prod.fst) :=
    resJobs_uids_sublist inv short fun entry member => reflects.dels_length inv member
  have rowOf : ∀ a ∈ list, (a.execJob u rowid).isRemoval = true →
      ⟨rowid a.items0, (u.pkg a.items0).uid, (u.pkg a.items0).version⟩ ∈ table.rows := by
    intro a inList removes
    obtain ⟨entry, filed, inDels⟩ := arranged.removal_item notFetch inList removes
    obtain ⟨inChain, _, installed⟩ := mem_dels.mp inDels
    exact reflects.rows _ (JobsUniverse.mem_units.mpr ⟨entry, filed, inChain⟩) installed
  obtain ⟨kept, removals, splits, perm⟩ := arranged
  have once : ∀ removal : Bool, (((list.map (Solved.execJob u rowid)).filter
      (if removal then ExecJob.isRemoval else ExecJob.isInstall)).map ExecJob.uid).Nodup := by
    intro removal
    obtain ⟨some, sub, same⟩ := @SplitJobs.uids _ rowid _ _ _ splits
      (fun req inJobs upgrade lp half =>
        ((solverJobs_resJobs inv type selected).upgrades req inJobs upgrade lp half).2.2) removal
    have all := (((perm.map (Solved.execJob u rowid)).filter
      (if removal then ExecJob.isRemoval else ExecJob.isInstall)).map ExecJob.uid).trans same
    exact all.nodup_iff.mpr (inv.keysNodup.sublist (sub.trans uids))
  refine ⟨?_, ?_, once true, once false⟩
  · intro job member removes
    obtain ⟨a, inList, rfl⟩ := List.mem_map.mp member
    exact ⟨_, rowOf a inList removes, rfl, Nat.le_refl _⟩
  · intro job member removes row inTable same
    obtain ⟨a, inList, rfl⟩ := List.mem_map.mp member
    have here := List.inj_on_of_nodup_map table.ids inTable (rowOf a inList removes) same
    rw [here]
    rfl

/-- The packages that the jobs install. -/
theorem Arranged.installs_iff (arranged : Arranged u (u.resJobs type selected) list)
    (notFetch : type ≠ .fetch)
    (short : ∀ entry ∈ u.items, (u.adds selected (u.chain entry.2)).length ≤ 1) {uid : Uid}
    {version : String} :
    (∃ job ∈ list.map (Solved.execJob u rowid), job.isInstall = true ∧ job.uid = uid ∧
      job.version = version) ↔
    ∃ item ∈ u.units, selected item = true ∧ (u.pkg item).isInstalled = false ∧
      (u.pkg item).uid = uid ∧ (u.pkg item).version = version := by
  constructor
  · rintro ⟨job, member, installs, rfl, rfl⟩
    obtain ⟨a, inList, rfl⟩ := List.mem_map.mp member
    obtain ⟨entry, filed, inAdds⟩ := arranged.install_item notFetch inList installs
    obtain ⟨inChain, chosen, remote⟩ := mem_adds.mp inAdds
    exact ⟨a.items0, JobsUniverse.mem_units.mpr ⟨entry, filed, inChain⟩, chosen, remote, rfl, rfl⟩
  · rintro ⟨item, reachable, chosen, remote, rfl, rfl⟩
    obtain ⟨entry, filed, inChain⟩ := JobsUniverse.mem_units.mp reachable
    have only := eq_singleton_of_mem (mem_adds.mpr ⟨inChain, chosen, remote⟩) (short entry filed)
    obtain ⟨job, ofChain, leads, kind⟩ := @resJobs_adds type
      (u.dels selected (u.chain entry.2)) item
    rw [← only] at ofChain
    obtain ⟨a, inList, sameItem, sameType⟩ :=
      arranged.exists_mem (mem_resJobs.mpr ⟨entry, filed, ofChain⟩)
    refine ⟨_, List.mem_map_of_mem (f := Solved.execJob u rowid) inList, ?_, ?_, ?_⟩
    · rw [execJob_isInstall, sameType]
      exact kind.imp_right fun other => other.resolve_right (resJobs_not_fetch notFetch ofChain)
    · rw [Solved.execJob, sameItem, leads]
    · rw [Solved.execJob, sameItem, leads]

/-- An item that its chain is to lose is replaced or removed. -/
theorem Arranged.dropped (arranged : Arranged u (u.resJobs type selected) list) (inv : u.Chained)
    (short : ∀ entry ∈ u.items, (u.adds selected (u.chain entry.2)).length ≤ 1)
    {entry : Uid × Addr} (filed : entry ∈ u.items) {item : Addr}
    (inDels : item ∈ u.dels selected (u.chain entry.2)) :
    (∃ job ∈ list.map (Solved.execJob u rowid), job.isInstall = true ∧ job.uid = entry.1) ∨
      ∃ job ∈ list.map (Solved.execJob u rowid), job.isRemoval = true ∧
        job.rowid = rowid item := by
  obtain ⟨job, ofChain, done⟩ := resJobs_dels type (short entry filed) inDels
  obtain ⟨a, inList, sameItem, sameType⟩ :=
    arranged.exists_mem (mem_resJobs.mpr ⟨entry, filed, ofChain⟩)
  have member := List.mem_map_of_mem (f := Solved.execJob u rowid) inList
  rcases done with ⟨upgrades, _, inAdds⟩ | ⟨deletes, isItem, _⟩
  · refine Or.inl ⟨_, member, (execJob_isInstall a).mpr (Or.inr (sameType.trans upgrades)), ?_⟩
    rw [Solved.execJob, sameItem]
    exact inv.homogeneous entry filed _ (mem_adds.mp inAdds).1
  · refine Or.inr ⟨_, member, (execJob_isRemoval a).mpr (Or.inl (sameType.trans deletes)), ?_⟩
    rw [Solved.execJob, sameItem, isItem]

/-- A row that a job removes is that of an installed item that is not chosen. -/
theorem Arranged.removes (arranged : Arranged u (u.resJobs type selected) list)
    (reflects : Reflects u rowid table) (notFetch : type ≠ .fetch) {job : ExecJob}
    (member : job ∈ list.map (Solved.execJob u rowid)) (removes : job.isRemoval = true)
    {row : PackageRow} (inTable : row ∈ table.rows) (same : job.rowid = row.id) :
    ∃ item ∈ u.units, (u.pkg item).isInstalled = true ∧ selected item = false ∧
      row = ⟨rowid item, (u.pkg item).uid, (u.pkg item).version⟩ := by
  obtain ⟨a, inList, rfl⟩ := List.mem_map.mp member
  obtain ⟨entry, filed, inDels⟩ := arranged.removal_item notFetch inList removes
  obtain ⟨inChain, dropped, installed⟩ := mem_dels.mp inDels
  have reachable := JobsUniverse.mem_units.mpr ⟨entry, filed, inChain⟩
  have there := reflects.rows _ reachable installed
  exact ⟨_, reachable, installed, dropped, List.inj_on_of_nodup_map table.ids inTable there same.symm⟩

/-- After the jobs the chosen packages are registered, and those of uids that the universe does not
know. -/
theorem Arranged.registered (arranged : Arranged u (u.resJobs type selected) list)
    (inv : u.Chained) (reflects : Reflects u rowid table) (notFetch : type ≠ .fetch)
    (single : ∀ entry ∈ u.items, ∀ a ∈ u.chain entry.2, ∀ b ∈ u.chain entry.2,
      selected a = true → selected b = true → a = b) {uid : Uid} {version : String} :
    (appliedJobs table (list.map (Solved.execJob u rowid))).Registered uid version ↔
      (u.find uid = none ∧ table.Registered uid version) ∨
        ∃ item ∈ u.units, selected item = true ∧ (u.pkg item).uid = uid ∧
          (u.pkg item).version = version := by
  have short : ∀ entry ∈ u.items, (u.adds selected (u.chain entry.2)).length ≤ 1 := by
    intro entry member
    refine length_le_one ((inv.linked entry member).nodup.filter _) fun a inA b inB => ?_
    obtain ⟨chainA, chosenA, _⟩ := mem_adds.mp inA
    obtain ⟨chainB, chosenB, _⟩ := mem_adds.mp inB
    exact single entry member a chainA b chainB chosenA chosenB
  have entryOf : ∀ item ∈ u.units, ∃ head, u.find (u.pkg item).uid = some head ∧
      item ∈ u.chain head := by
    intro item reachable
    obtain ⟨entry, filed, inChain⟩ := JobsUniverse.mem_units.mp reachable
    rw [inv.homogeneous entry filed item inChain]
    exact ⟨entry.2, (JobsUniverse.find_eq_some_iff inv).mpr filed, inChain⟩
  rw [registered_appliedJobs (arranged.kinds notFetch)
    (arranged.outstanding inv reflects notFetch short), arranged.installs_iff notFetch short]
  constructor
  · rintro (⟨item, reachable, chosen, _, uids, versions⟩ |
      ⟨noInstall, row, inTable, rfl, rfl, noRemoval⟩)
    · exact Or.inr ⟨item, reachable, chosen, uids, versions⟩
    · cases found : u.find row.uid with
      | none => exact Or.inl ⟨rfl, row, inTable, rfl, rfl⟩
      | some head =>
          obtain ⟨item, inChain, installed, sameId⟩ := reflects.items row inTable head found
          have filed := (JobsUniverse.find_eq_some_iff inv).mp found
          have reachable := JobsUniverse.mem_units.mpr ⟨_, filed, inChain⟩
          have sameRow := List.inj_on_of_nodup_map table.ids inTable
            (reflects.rows item reachable installed) sameId.symm
          refine Or.inr ⟨item, reachable, ?_, (congrArg PackageRow.uid sameRow).symm,
            (congrArg PackageRow.version sameRow).symm⟩
          by_contra dropped
          have inDels := mem_dels.mpr ⟨inChain, Bool.not_eq_true _ ▸ dropped, installed⟩
          have gone : (∃ job ∈ list.map (Solved.execJob u rowid), job.isInstall = true ∧
                job.uid = row.uid) ∨ ∃ job ∈ list.map (Solved.execJob u rowid),
                job.isRemoval = true ∧ job.rowid = rowid item :=
            arranged.dropped inv short filed inDels
          rcases gone with ⟨job, member, installs, uids⟩ | ⟨job, member, removes, rowids⟩
          · exact noInstall job member installs uids
          · exact noRemoval job member removes (rowids.trans sameId)
  · rintro (⟨unknown, row, inTable, rfl, rfl⟩ | ⟨item, reachable, chosen, rfl, rfl⟩)
    · refine Or.inr ⟨fun job member installs same => ?_, row, inTable, rfl, rfl,
        fun job member removes same => ?_⟩
      · obtain ⟨item, reachable, _, _, uids, _⟩ :=
          (arranged.installs_iff notFetch short).mp ⟨job, member, installs, rfl, rfl⟩
        obtain ⟨head, found, _⟩ := entryOf item reachable
        rw [uids, same, unknown] at found
        cases found
      · obtain ⟨item, reachable, _, _, rfl⟩ :=
          arranged.removes reflects notFetch member removes inTable same
        obtain ⟨head, found, _⟩ := entryOf item reachable
        rw [unknown] at found
        cases found
    · cases installed : (u.pkg item).isInstalled with
      | false => exact Or.inl ⟨item, reachable, chosen, installed, rfl, rfl⟩
      | true =>
          have inTable := reflects.rows item reachable installed
          refine Or.inr ⟨fun job member installs same => ?_, _, inTable, rfl, rfl,
            fun job member removes same => ?_⟩
          · obtain ⟨other, otherReachable, otherChosen, remote, uids, _⟩ :=
              (arranged.installs_iff notFetch short).mp ⟨job, member, installs, rfl, rfl⟩
            obtain ⟨head, found, inChain⟩ := entryOf item reachable
            obtain ⟨otherHead, otherFound, otherChain⟩ := entryOf other otherReachable
            rw [uids, same, found] at otherFound
            cases otherFound
            have filed := (JobsUniverse.find_eq_some_iff inv).mp found
            have items := single _ filed other otherChain item inChain otherChosen chosen
            rw [items, installed] at remote
            cases remote
          · obtain ⟨other, otherReachable, isInstalled, dropped, sameRow⟩ :=
              arranged.removes reflects notFetch member removes inTable same
            have items := reflects.apart item reachable other otherReachable installed isInstalled
              (congrArg PackageRow.id sameRow)
            rw [← items, chosen] at dropped
            cases dropped

/-- A package is deleted only where nothing of its chain is to be installed. -/
theorem Arranged.deleted (arranged : Arranged u (u.resJobs type selected) list) (inv : u.Chained)
    (reflects : Reflects u rowid table) {a : Solved} (member : a ∈ list)
    (deletes : a.type = .delete) : ∃ entry ∈ u.items,
      a.items0 ∈ u.dels selected (u.chain entry.2) ∧ u.adds selected (u.chain entry.2) = [] := by
  rcases arranged.of_mem member with ⟨req, inJobs, item, kind⟩ | ⟨_, _, _, _, _, rfl⟩
  · obtain ⟨entry, filed, ofChain⟩ := mem_resJobs.mp inJobs
    have few := @Reflects.dels_length u rowid table selected reflects inv entry filed
    refine ⟨entry, filed, ?_⟩
    rw [item]
    rw [kind] at deletes
    generalize u.adds selected (u.chain entry.2) = adds at ofChain
    generalize u.dels selected (u.chain entry.2) = dels at ofChain few
    match adds, dels, few with
    | [], dels, _ =>
        obtain ⟨del, inDels, rfl⟩ := List.mem_map.mp ofChain
        exact ⟨inDels, rfl⟩
    | add :: _, [], _ =>
        simp only [resJobs, List.getLast?_nil, List.mem_singleton] at ofChain
        rw [ofChain] at deletes
        split at deletes <;> cases deletes
    | add :: _, [del], _ =>
        simp only [resJobs, List.getLast?_singleton, List.mem_cons, List.mem_map] at ofChain
        rcases ofChain with rfl | ⟨other, inRest, rfl⟩
        · cases deletes
        · simp at inRest
  · cases deletes

end Outcome

/-! ## The whole transaction -/

/-- What the packages that are registered afterwards have to do with a selection of the items. -/
structure Transacted (j : Jobs) (selected : Addr → Prop) (before after : PackageTable) : Prop where
  registered : ∀ uid version, after.Registered uid version ↔
    (j.univ.find uid = none ∧ before.Registered uid version) ∨
      ∃ item ∈ j.univ.units, selected item ∧ (j.pkg item).uid = uid ∧
        (j.pkg item).version = version
  dependencies : ∀ item ∈ j.univ.units, selected item → ∀ dep ∈ (j.pkg item).deps,
    j.univ.find dep.uid ≠ none → ∃ version, after.Registered dep.uid version
  conflicts : ∀ item ∈ j.univ.units, selected item → ∀ conflict ∈ (j.pkg item).conflicts,
    j.univ.find conflict.uniqueid ≠ none → ∀ version,
      after.Registered conflict.uniqueid version → ∃ other ∈ j.univ.units,
        (j.pkg other).uid = conflict.uniqueid ∧ (j.pkg other).version = version ∧
          ¬ conflict.type.Covers (j.pkg item) (j.pkg other)
  requested : ∀ item ∈ j.univ.units, item ∈ j.requestAdd →
    after.Registered (j.pkg item).uid (j.pkg item).version
  unrequested : ∀ item ∈ j.univ.units, item ∈ j.requestDelete → ¬ selected item

/-- pkg itself is not to be deleted, unless by force. -/
def SparesItself (u : JobsUniverse) (flags : ExecFlags) (selected : Addr → Bool) : Prop :=
  ∀ entry ∈ u.items, u.adds selected (u.chain entry.2) = [] →
    ∀ item ∈ u.dels selected (u.chain entry.2),
      (u.pkg item).name = "pkg" ∨ (u.pkg item).name = "pkg-devel" → flags.force = true

section Whole

variable {j : Jobs} {problem : SolveProblem} {σ : Nat → Bool} {rowid : Addr → Nat}
  {table : PackageTable}

theorem Transacted.of_registered (ready : j.univ.Solvable)
    (built : pkgSolveJobsToSat j = some problem) (satisfied : problem.Satisfied σ)
    (assumed : problem.Assumed σ) {before after : PackageTable}
    (registered : ∀ uid version, after.Registered uid version ↔
      (j.univ.find uid = none ∧ before.Registered uid version) ∨
        ∃ item ∈ j.univ.units, problem.Selected σ item ∧ (j.pkg item).uid = uid ∧
          (j.pkg item).version = version) :
    Transacted j (problem.Selected σ) before after := by
  have inv := ready.toChained
  obtain ⟨problem', built', mirrors, admits⟩ := pkgSolveJobsToSat_spec ready
  rw [built] at built'
  cases built'
  have admissible := (admits σ).mp satisfied
  have granted := (assumed_iff ready built).mp assumed
  refine ⟨registered, ?_, ?_, ?_, ?_⟩
  · intro item reachable chosen dep member known
    obtain ⟨head, found⟩ := Option.ne_none_iff_exists'.mp known
    obtain ⟨other, inChain, otherChosen⟩ := admissible.depends item reachable
      ((mirrors.selected_iff inv reachable).mp chosen) dep member head found
    have filed := (JobsUniverse.find_eq_some_iff inv).mp found
    have otherReachable := JobsUniverse.mem_units.mpr ⟨_, filed, inChain⟩
    exact ⟨_, (registered _ _).mpr (Or.inr ⟨other, otherReachable,
      (mirrors.selected_iff inv otherReachable).mpr otherChosen,
      inv.homogeneous _ filed other inChain, rfl⟩)⟩
  · intro item reachable chosen conflict member known version there
    obtain ⟨head, found⟩ := Option.ne_none_iff_exists'.mp known
    rcases (registered _ _).mp there with ⟨unknown, _⟩ | ⟨other, otherReachable, otherChosen, rest⟩
    · exact absurd unknown known
    · refine ⟨other, otherReachable, rest.1, rest.2, fun covers => ?_⟩
      obtain ⟨entry, filed, inChain⟩ := JobsUniverse.mem_units.mp otherReachable
      have key := (inv.homogeneous entry filed other inChain).symm.trans rest.1
      have here := (JobsUniverse.find_eq_some_iff inv).mpr filed
      rw [key, found] at here
      cases here
      have apart := admissible.conflicts item reachable
        ((mirrors.selected_iff inv reachable).mp chosen) conflict member _ found other inChain covers
      rw [(mirrors.selected_iff inv otherReachable).mp otherChosen] at apart
      cases apart
  · intro item reachable requested
    have chosen := (mirrors.selected_iff inv reachable).mpr ((granted item reachable).1 requested)
    exact (registered _ _).mpr (Or.inr ⟨item, reachable, chosen, rfl, rfl⟩)
  · intro item reachable requested chosen
    have dropped : σ (j.univ.varOf item) = false := (granted item reachable).2 requested
    rw [(mirrors.selected_iff inv reachable).mp chosen] at dropped
    cases dropped

/-- What satisfies the clauses and the assumptions ends up in the database: the chosen packages are
registered, with their dependencies and without what they conflict with. -/
theorem selection_transacted (ready : j.univ.Solvable)
    (built : pkgSolveJobsToSat j = some problem) (unsolved : j.jobs = [])
    (notFetch : j.type ≠ .fetch) (reflects : Reflects j.univ rowid table)
    (satisfied : problem.Satisfied σ) (assumed : problem.Assumed σ)
    (single : ∀ entry ∈ j.univ.items, ∀ a ∈ j.univ.chain entry.2, ∀ b ∈ j.univ.chain entry.2,
      problem.Selected σ a → problem.Selected σ b → a = b)
    (flags : ExecFlags) (executed : flags.skipInstall = false)
    (spares : SparesItself j.univ flags ((problem.decided σ).chosen j.univ)) (prio : Priorities)
    (holds : ¬ AssertionFails j.univ (pkgSolveSatToJobs j (problem.decided σ)).jobs prio) :
    ∃ j' prio' db,
      (pkgSolveSatToJobs j (problem.decided σ)).setPriorities prio = some (j', prio') ∧
      pkgJobsExecute flags 0 (j'.jobs.map (Solved.execJob j.univ rowid)) (PkgDb.connect table) =
        (db, 0) ∧
      Transacted j (problem.Selected σ) table db.committed := by
  have inv := ready.toChained
  obtain ⟨problem', built', mirrors, _⟩ := pkgSolveJobsToSat_spec ready
  rw [built] at built'
  cases built'
  have alone : ∀ entry ∈ j.univ.items, ∀ a ∈ j.univ.chain entry.2, ∀ b ∈ j.univ.chain entry.2,
      (problem.decided σ).chosen j.univ a = true → (problem.decided σ).chosen j.univ b = true →
        a = b := by
    intro entry member a inA b inB chosenA chosenB
    exact single entry member a inA b inB
      ((chosen_iff_selected inv mirrors (JobsUniverse.mem_units.mpr ⟨entry, member, inA⟩)).mp chosenA)
      ((chosen_iff_selected inv mirrors (JobsUniverse.mem_units.mpr ⟨entry, member, inB⟩)).mp chosenB)
  have short := fun entry member => adds_length_le_one inv mirrors member
    fun a inA b inB _ _ chosenA chosenB => single entry member a inA b inB chosenA chosenB
  have ran := @pkgSolveSatToJobs_spec j (problem.decided σ) inv mirrors short
  rw [Jobs.extend, unsolved, List.nil_append] at ran
  obtain ⟨j', prio', sorted, splits⟩ :=
    Jobs.setPriorities_arranged (pkgSolveSatToJobs j (problem.decided σ)) prio
      (by rwa [show (pkgSolveSatToJobs j (problem.decided σ)).univ = j.univ by rw [ran]])
  have arranged : Arranged j.univ (j.univ.resJobs j.type ((problem.decided σ).chosen j.univ))
      j'.jobs := by
    rw [ran] at splits
    exact splits
  have inside : InSavepoint table (PkgDb.connect table).transactionBegin := ⟨rfl, rfl⟩
  have accepted : ∀ job ∈ j'.jobs.map (Solved.execJob j.univ rowid), job.refused flags = false := by
    intro job member
    obtain ⟨a, inList, rfl⟩ := List.mem_map.mp member
    by_contra refused
    rw [Bool.not_eq_false, ExecJob.refused, Bool.and_eq_true, Bool.and_eq_true, Bool.or_eq_true,
      decide_eq_true_eq, decide_eq_true_eq, decide_eq_true_eq] at refused
    obtain ⟨⟨deletes, itself⟩, unforced⟩ := refused
    obtain ⟨entry, filed, inDels, noAdds⟩ := arranged.deleted inv reflects inList deletes
    rw [spares entry filed noAdds _ inDels itself] at unforced
    cases unforced
  have executes := executeJobs_done inside (arranged.kinds notFetch) accepted fun job member => by
    obtain ⟨a, _, rfl⟩ := List.mem_map.mp member
    exact ⟨rfl, rfl⟩
  have ends : pkgJobsExecute flags 0 (j'.jobs.map (Solved.execJob j.univ rowid))
      (PkgDb.connect table) = (PkgDb.transactionCommit
        { (PkgDb.connect table).transactionBegin with
          table := appliedJobs table (j'.jobs.map (Solved.execJob j.univ rowid)) }, 0) := by
    rw [pkgJobsExecute, if_neg (by simp [executed]), if_neg (by simp), executes]
    rfl
  refine ⟨j', prio', _, sorted, ends, Transacted.of_registered ready built satisfied assumed ?_⟩
  intro uid version
  refine (arranged.registered inv reflects notFetch alone).trans (or_congr_right ?_)
  refine exists_congr fun item => and_congr_right fun reachable => and_congr_left fun _ => ?_
  exact chosen_iff_selected inv mirrors reachable

end Whole

/-- The database of `upgradeJobs`: the older version only. -/
def upgradeTable : PackageTable where
  rows := [⟨1, "app", "1"⟩]
  ids := by decide
  uids := by decide

/-- The newer version and its dependency take the place of the older version. -/
theorem upgradeTable_transacted : ∃ problem, ∃ db : PkgDb,
    pkgSolveJobsToSat upgradeJobs = some problem ∧
      Transacted upgradeJobs (problem.Selected (· ≠ 0)) upgradeTable db.committed := by
  obtain ⟨problem, built, mirrors, admits⟩ := pkgSolveJobsToSat_spec upgradeJobs_solvable
  have plain : ∀ item, (upgradeJobs.univ.pkg item).conflicts = [] := fun item =>
    match item with
    | 0 | 1 | 2 => rfl
    | _ + 3 => rfl
  have unnamed : ∀ item, (upgradeJobs.univ.pkg item).name = "" := fun item =>
    match item with
    | 0 | 1 | 2 => rfl
    | _ + 3 => rfl
  have satisfied : problem.Satisfied (· ≠ 0) := (admits _).mpr
    (JobsUniverse.admissible_of_chains (by decide) (by decide) (by decide) (by decide))
  have assumed : problem.Assumed (· ≠ 0) :=
    (assumed_iff upgradeJobs_solvable built).mpr fun item _ => ⟨nofun, nofun⟩
  have alone : ∀ entry ∈ upgradeJobs.univ.items, ∀ a ∈ upgradeJobs.univ.chain entry.2,
      ∀ b ∈ upgradeJobs.univ.chain entry.2, upgradeJobs.univ.varOf a ≠ 0 →
        upgradeJobs.univ.varOf b ≠ 0 → a = b := by decide
  have chosen := fun item (reachable : item ∈ upgradeJobs.univ.units) =>
    @Mirrors.selected_iff _ _ mirrors upgradeJobs_solvable.toChained (· ≠ 0) item reachable
  obtain ⟨_, _, db, _, _, transacted⟩ := @selection_transacted upgradeJobs problem (· ≠ 0)
    (fun item => item + 1) upgradeTable upgradeJobs_solvable built rfl nofun
    ⟨by decide, by decide, by decide⟩ satisfied assumed
    (fun entry filed a inA b inB chosenA chosenB => alone entry filed a inA b inB
      (by simpa using (chosen a (JobsUniverse.mem_units.mpr ⟨entry, filed, inA⟩)).mp chosenA)
      (by simpa using (chosen b (JobsUniverse.mem_units.mpr ⟨entry, filed, inB⟩)).mp chosenB))
    {} rfl (fun _ _ _ _ _ itself => by simp [unnamed] at itself) {}
    (not_assertionFails_of_partnered (fun _ _ lp _ c member => by
      rw [plain lp] at member
      cases member) {})
  exact ⟨problem, db, built, transacted⟩

end Pkgng
