import Pkgng.Jobs.SplitUpgrade
import Pkgng.Solve.ResultJobs

/-!
# Removals before their upgrades

The passes of `pkg_jobs_set_priorities` append the removal of a split upgrade to
the list, so at first it stands behind the upgrade; a list that has been sorted
before has it in front.  This module follows both orders through the turns of
the requests and the sort.
-/

set_option autoImplicit false

namespace Pkgng

open Lib

/-- Every removal of the installed half stands before the upgrade. -/
def RemovalFirst (lp : Addr) (list : List Solved) : Prop :=
  list.Pairwise fun a b => ¬ (UpgradeOf lp a ∧ RemovalOf lp b)

/-- The upgrade stands before every removal of its installed half. -/
def UpgradeFirst (lp : Addr) (list : List Solved) : Prop :=
  list.Pairwise fun a b => ¬ (RemovalOf lp a ∧ UpgradeOf lp b)

/-- The job list as the upgrade finds it. -/
structure Arrangement (u : JobsUniverse) (jobs : List Solved) (lp : Addr) (list : List Solved) :
    Prop where
  listed : ∀ a ∈ list, Listed u jobs a
  present : ∃ a ∈ list, UpgradeOf lp a
  once : list.Pairwise fun a b => ¬ (UpgradeOf lp a ∧ UpgradeOf lp b)
  unsplit : ∀ a ∈ list, UpgradeOf lp a → a.alreadyDeleted = false → ∀ b ∈ list, ¬ RemovalOf lp b
  order : RemovalFirst lp list ∨ UpgradeFirst lp list

theorem not_upgradeOf_removalOf (lp lp' : Addr) : ¬ UpgradeOf lp (removalOf lp') :=
  fun upgrade => by cases upgrade.1

/-- Lists that differ in the flag of a request have the same pairs. -/
theorem pairwise_flagged {order : Solved → Solved → Prop} {seen rest : List Solved} {other : Solved}
    (left : ∀ a, order a other → order a { other with alreadyDeleted := true })
    (right : ∀ a, order other a → order { other with alreadyDeleted := true } a)
    (pairs : (seen ++ other :: rest).Pairwise order) :
    (seen ++ { other with alreadyDeleted := true } :: rest).Pairwise order := by
  obtain ⟨seenPairs, tailPairs, across⟩ := List.pairwise_append.mp pairs
  obtain ⟨first, restPairs⟩ := List.pairwise_cons.mp tailPairs
  refine List.pairwise_append.mpr
    ⟨seenPairs, List.pairwise_cons.mpr ⟨fun a member => right a (first a member), restPairs⟩, ?_⟩
  intro a inSeen b inTail
  rcases List.mem_cons.mp inTail with rfl | inRest
  · exact left a (across a inSeen other (List.mem_cons_self ..))
  · exact across a inSeen b (List.mem_cons_of_mem _ inRest)

theorem pairwise_snoc {order : Solved → Solved → Prop} {list : List Solved} {last : Solved}
    (pairs : list.Pairwise order) (ends : ∀ a ∈ list, order a last) :
    (list ++ [last]).Pairwise order :=
  List.pairwise_append.mpr ⟨pairs, List.pairwise_singleton _ _, fun a member b inLast => by
    rw [List.mem_singleton.mp inLast]
    exact ends a member⟩

section Pair

variable {u : JobsUniverse} {jobs seen rest list : List Solved} {req other : Solved}
  {lp lp' : Addr} {prio prio' : Priorities}

/-- A split keeps the arrangement. -/
theorem Arrangement.split (arranged : Arrangement u jobs lp (seen ++ other :: rest))
    (isSplit : conflictingLocal u other = some lp') (fresh : other.alreadyDeleted = false) :
    Arrangement u jobs lp
      (seen ++ { other with alreadyDeleted := true } :: rest ++ [removalOf lp']) := by
  have inList : other ∈ seen ++ other :: rest := by simp
  obtain ⟨type, second, _⟩ := conflictingLocal_eq_some.mp isSplit
  have places : ∀ a ∈ seen ++ { other with alreadyDeleted := true } :: rest ++ [removalOf lp'],
      (a ∈ seen ∨ a ∈ rest) ∨ a = { other with alreadyDeleted := true } ∨ a = removalOf lp' := by
    intro a member
    simp only [List.mem_append, List.mem_cons, List.not_mem_nil, or_false] at member
    tauto
  have old : ∀ {a}, a ∈ seen ∨ a ∈ rest → a ∈ seen ++ other :: rest := fun {a} member => by
    simp only [List.mem_append, List.mem_cons]
    tauto
  refine ⟨?_, ?_, ?_, ?_, ?_⟩
  · intro a member
    obtain ⟨req, original, splitReq, _⟩ := (arranged.listed other inList).original isSplit
    rcases places a member with before | rfl | rfl
    · exact arranged.listed a (old before)
    · exact (arranged.listed other inList).flag true isSplit
    · exact .removal original splitReq
  · obtain ⟨a, member, upgrade⟩ := arranged.present
    rcases List.mem_append.mp member with inSeen | inTail
    · exact ⟨a, by simp [inSeen], upgrade⟩
    · rcases List.mem_cons.mp inTail with rfl | inRest
      · exact ⟨{ a with alreadyDeleted := true }, by simp, upgrade⟩
      · exact ⟨a, by simp [inRest], upgrade⟩
  · exact pairwise_snoc
      (pairwise_flagged (fun _ apart => apart) (fun _ apart => apart) arranged.once)
      fun a _ both => not_upgradeOf_removalOf lp lp' both.2
  · intro a member upgrade unflagged b memberB removal
    rcases places a member with before | rfl | rfl
    · rcases places b memberB with beforeB | rfl | rfl
      · exact arranged.unsplit a (old before) upgrade unflagged b (old beforeB) removal
      · cases type.symm.trans removal.1
      · -- Another upgrade of the same half would stand in the list.
        have otherUpgrade : UpgradeOf lp other := ⟨type, by rw [second]; exact congrArg some removal.2⟩
        obtain ⟨_, tailPairs, across⟩ := List.pairwise_append.mp arranged.once
        rcases before with inSeen | inRest
        · exact across a inSeen other (List.mem_cons_self ..) ⟨upgrade, otherUpgrade⟩
        · exact (List.pairwise_cons.mp tailPairs).1 a inRest ⟨otherUpgrade, upgrade⟩
    · cases unflagged
    · exact not_upgradeOf_removalOf lp lp' upgrade
  · by_cases same : lp' = lp
    · have otherUpgrade : UpgradeOf lp other := ⟨type, by rw [second, same]⟩
      have noRemoval := arranged.unsplit other inList otherUpgrade fresh
      refine Or.inr (pairwise_snoc (pairwise_flagged (fun _ apart => apart)
        (fun _ apart => apart) ?_) fun a _ both => not_upgradeOf_removalOf lp lp' both.2)
      exact List.pairwise_of_forall_mem_list fun a member b _ both => noRemoval a member both.1
    · refine arranged.order.imp (fun pairs => ?_) fun pairs => ?_
      · exact pairwise_snoc (pairwise_flagged (fun _ apart => apart) (fun _ apart => apart) pairs)
          fun a _ both => same both.2.2
      · exact pairwise_snoc (pairwise_flagged (fun _ apart => apart) (fun _ apart => apart) pairs)
          fun a _ both => not_upgradeOf_removalOf lp lp' both.2

theorem Arrangement.perm (arranged : Arrangement u jobs lp list) {list' : List Solved}
    (perm : list'.Perm list) (order : RemovalFirst lp list') : Arrangement u jobs lp list' where
  listed a member := arranged.listed a (perm.mem_iff.mp member)
  present :=
    have ⟨a, member, upgrade⟩ := arranged.present
    ⟨a, perm.mem_iff.mpr member, upgrade⟩
  once := (perm.pairwise_iff fun apart both => apart ⟨both.2, both.1⟩).mpr arranged.once
  unsplit a member upgrade unflagged b memberB :=
    arranged.unsplit a (perm.mem_iff.mp member) upgrade unflagged b (perm.mem_iff.mp memberB)
  order := Or.inl order

variable (inv : u.Chained) (solved : SolverJobs u jobs) (member : req ∈ jobs)
  (split : conflictingLocal u req = some lp) (undisturbed : Undisturbed u jobs req.items0 lp)

include solved member split

/-- The solver's list has nothing to remove beforehand. -/
theorem SolverJobs.arrangement : Arrangement u jobs lp jobs ∧ RemovalFirst lp jobs := by
  obtain ⟨type, second, _⟩ := conflictingLocal_eq_some.mp split
  have noRemoval : ∀ a ∈ jobs, ¬ RemovalOf lp a := fun a inJobs removal =>
    (solved.unsplit a inJobs).1 removal.1
  have order : RemovalFirst lp jobs :=
    List.pairwise_of_forall_mem_list fun a _ b inJobs both => noRemoval b inJobs both.2
  refine ⟨⟨fun a inJobs => ?_, ⟨req, member, type, second⟩, ?_, fun _ _ _ _ => noRemoval,
    Or.inl order⟩, order⟩
  · have listed := Listed.job (u := u) a.alreadyDeleted inJobs
    exact listed
  · have distinct := List.pairwise_filter.mp (List.pairwise_map.mp solved.distinct)
    refine List.Pairwise.imp_of_mem (fun {a b} inA inB apart both => ?_) distinct
    refine apart (by simp [both.1.1]) (by simp [both.2.1]) ?_
    rw [← (solved.upgrades a inA both.1.1 lp both.1.2).2.2,
      ← (solved.upgrades b inB both.2.1 lp both.2.2).2.2]

/-- The priorities put the removal first, whatever the order was. -/
theorem removalFirst_sortJobs (arranged : Arrangement u jobs lp list)
    (settled : (RemovalFirst lp list ∧ prio.of req.items0 ≤ prio.of lp) ∨
      prio.of req.items0 < prio.of lp) : RemovalFirst lp (sortJobs prio list) := by
  have remote : ∀ a ∈ list, UpgradeOf lp a → a.items0 = req.items0 := fun a inList upgrade =>
    ((arranged.listed a inList).upgrade solved member split upgrade).2
  rcases settled with ⟨pairs, low⟩ | below
  · refine pairwise_insertionSort (fun r inR a inA notLe both => notLe ?_) pairs
    obtain ⟨upgrade, removal⟩ := both
    have typeA := upgrade.1
    have typeR := removal.1
    rw [pkgJobsSortPriority, removal.2, remote a inA upgrade]
    split
    · simp [typeA, typeR]
    · omega
  · have sorted : (sortJobs prio list).Pairwise fun a b => pkgJobsSortPriority prio a b ≤ 0 :=
      List.pairwise_insertionSort _ list
    have perm := sortJobs_perm prio list
    refine List.Pairwise.imp_of_mem (fun {a b} inA _ le both => ?_) sorted
    obtain ⟨upgrade, removal⟩ := both
    rw [pkgJobsSortPriority, removal.2, remote a (perm.mem_iff.mp inA) upgrade,
      if_neg (Nat.ne_of_lt below)] at le
    omega

/-- How the halves stand to each other after the turns of the first requests:
while the removal may still be ahead, the remote half has not been raised, and
once the upgrade has had its turn, the installed half is above it. -/
def Progress (lp remote : Addr) (seen rest : List Solved) (prio : Priorities) : Prop :=
  (RemovalFirst lp (seen ++ rest) ∧ prio.of remote ≤ prio.of lp) ∨
    (UpgradeFirst lp (seen ++ rest) ∧ prio.of remote = 0 ∧
      (0 < prio.of lp ∨ ∀ a ∈ seen, ¬ UpgradeOf lp a))

theorem reset_progress (arranged : Arrangement u jobs lp list) :
    Progress lp req.items0 [] list (resetPriorities list prio) := by
  obtain ⟨a, inList, upgrade⟩ := arranged.present
  have remote := ((arranged.listed a inList).upgrade solved member split upgrade).2
  have zero : (resetPriorities list prio).of req.items0 = 0 := by
    rw [resetPriorities_of, if_pos ⟨a, inList, remote ▸ List.mem_cons_self ..⟩]
  refine arranged.order.imp (fun pairs => ⟨pairs, ?_⟩) fun pairs => ⟨pairs, zero, Or.inr ?_⟩
  · rw [zero]
    exact Nat.zero_le _
  · simp

include inv undisturbed

/-- The turn of the next request. -/
theorem Progress.turn {result : Option Addr}
    (arranged : Arrangement u jobs lp (seen ++ other :: rest)) (paths : Paths u jobs prio)
    (progress : Progress lp req.items0 seen (other :: rest) prio)
    (ran : pkgJobsSetRequestPriority u other prio = some (prio', result)) :
    Progress lp req.items0 (seen ++ [other]) rest prio' := by
  have listed := arranged.listed other (by simp)
  have again : seen ++ [other] ++ rest = seen ++ other :: rest := by simp
  have mono := (pkgJobsSetRequestPriority_spec inv solved listed paths ran).2.mono lp
  rw [Progress, again]
  by_cases upgrade : UpgradeOf lp other
  · obtain ⟨fromZero, otherwise⟩ := pkgJobsSetRequestPriority_upgrade inv solved member split
      undisturbed listed paths upgrade ran
    rcases progress with ⟨pairs, low⟩ | ⟨pairs, zero, _⟩
    · refine Or.inl ⟨pairs, ?_⟩
      by_cases zero : prio.of req.items0 = 0
      · rw [(fromZero zero).1]
        exact Nat.zero_le _
      · rw [otherwise zero]
        exact low
    · exact Or.inr ⟨pairs, (fromZero zero).1, Or.inl (fromZero zero).2⟩
  · have notLast : (∀ a ∈ seen, ¬ UpgradeOf lp a) → ∀ a ∈ seen ++ [other], ¬ UpgradeOf lp a :=
      fun none a inSeen => by
        rcases List.mem_append.mp inSeen with before | last
        · exact none a before
        · rw [List.mem_singleton.mp last]
          exact upgrade
    by_cases removal : RemovalOf lp other
    · rcases progress with ⟨pairs, low⟩ | ⟨pairs, zero, stage⟩
      · exact Or.inl ⟨pairs, (pkgJobsSetRequestPriority_removal inv solved member split undisturbed
          removal low ran).1⟩
      · have low : prio.of req.items0 ≤ prio.of lp := by omega
        have same := (pkgJobsSetRequestPriority_removal inv solved member split undisturbed
          removal low ran).2
        rcases stage with positive | none
        · rw [same positive]
          exact Or.inr ⟨pairs, zero, Or.inl positive⟩
        · -- The upgrade would have to come after its removal.
          obtain ⟨a, inList, upgradeA⟩ := arranged.present
          rcases List.mem_append.mp inList with inSeen | inTail
          · exact absurd upgradeA (none a inSeen)
          · rcases List.mem_cons.mp inTail with rfl | inRest
            · exact absurd upgradeA upgrade
            · have tailPairs := (List.pairwise_append.mp pairs).2.1
              exact absurd ⟨removal, upgradeA⟩ ((List.pairwise_cons.mp tailPairs).1 a inRest)
    · have kept := pkgJobsSetRequestPriority_other inv solved member split undisturbed listed paths
        upgrade removal ran
      rcases progress with ⟨pairs, low⟩ | ⟨pairs, zero, stage⟩
      · exact Or.inl ⟨pairs, by omega⟩
      · exact Or.inr ⟨pairs, by omega, stage.imp (fun positive => by omega) notLast⟩

/-- The turns of all requests, up to a split. -/
theorem setRequestPriorities_arrangement : ∀ {rest seen list : List Solved}
    {prio prio' : Priorities} {again : Bool}, Arrangement u jobs lp (seen ++ rest) →
    Paths u jobs prio → Progress lp req.items0 seen rest prio →
    setRequestPriorities u seen rest prio = some (list, prio', again) →
    Arrangement u jobs lp list ∧ Paths u jobs prio' ∧ (again = false →
      (RemovalFirst lp list ∧ prio'.of req.items0 ≤ prio'.of lp) ∨
        prio'.of req.items0 < prio'.of lp) := by
  intro rest
  induction rest with
  | nil =>
      intro seen list prio prio' again arranged paths progress ran
      rw [setRequestPriorities, Option.some.injEq, Prod.mk.injEq, Prod.mk.injEq] at ran
      obtain ⟨rfl, rfl, rfl⟩ := ran
      rw [List.append_nil] at arranged
      refine ⟨arranged, paths, fun _ => ?_⟩
      rw [Progress, List.append_nil] at progress
      refine progress.imp_right fun ⟨_, zero, stage⟩ => ?_
      obtain ⟨a, inList, upgrade⟩ := arranged.present
      have positive := stage.resolve_right fun none => none a inList upgrade
      omega
  | cons other rest ih =>
      intro seen list prio prio' again arranged paths progress ran
      rw [setRequestPriorities] at ran
      obtain ⟨⟨mid, result⟩, turn, ran⟩ := Option.bind_eq_some_iff.mp ran
      have listed := arranged.listed other (by simp)
      have midPaths := (pkgJobsSetRequestPriority_spec inv solved listed paths turn).1
      cases result with
      | none =>
          have continued : seen ++ [other] ++ rest = seen ++ other :: rest := by simp
          exact ih (continued ▸ arranged) midPaths
            (progress.turn inv solved member split undisturbed arranged paths turn) ran
      | some lp' =>
          rw [Option.pure_def, Option.some.injEq, Prod.mk.injEq, Prod.mk.injEq] at ran
          obtain ⟨rfl, rfl, rfl⟩ := ran
          obtain ⟨isSplit, fresh⟩ :=
            (pkgJobsSetRequestPriority_cases turn).1.resolve_left
              (Option.some_ne_none lp')
          exact ⟨arranged.split isSplit.symm fresh, midPaths, fun done => by cases done⟩

/-- All turns of `iter_again`. -/
theorem iterPriorities_arrangement : ∀ {turns : Nat} {list list' : List Solved}
    {prio prio' : Priorities}, Arrangement u jobs lp list → Paths u jobs prio →
    iterPriorities u turns list prio = some (list', prio') →
    Arrangement u jobs lp list' ∧ Paths u jobs prio' ∧
      ((RemovalFirst lp list' ∧ prio'.of req.items0 ≤ prio'.of lp) ∨
        prio'.of req.items0 < prio'.of lp) := by
  intro turns
  induction turns with
  | zero => exact fun _ _ ran => by cases ran
  | succ turns ih =>
      intro list list' prio prio' arranged paths ran
      rw [iterPriorities] at ran
      obtain ⟨⟨mid, midPrio, again⟩, loop, ran⟩ := Option.bind_eq_some_iff.mp ran
      have resetPaths : Paths u jobs (resetPriorities list prio) := fun it => by
        rw [resetPriorities_of]
        split
        · exact zero_mem_edgesTo _ it
        · exact paths it
      have fromStart : Arrangement u jobs lp ([] ++ list) := arranged
      obtain ⟨midArranged, midPaths, settled⟩ := setRequestPriorities_arrangement inv solved member
        split undisturbed fromStart resetPaths
        (reset_progress solved member split arranged) loop
      cases again with
      | true => exact ih midArranged midPaths ran
      | false =>
          obtain ⟨rfl, rfl⟩ := Prod.mk.inj (Option.some.inj ran)
          exact ⟨midArranged, midPaths, settled rfl⟩

/-- Any number of passes. -/
theorem passes_arrangement : ∀ {n : Nat} {list : List Solved} {prio : Priorities},
    passes u jobs n = some (list, prio) →
    Arrangement u jobs lp list ∧ Paths u jobs prio ∧ RemovalFirst lp list := by
  intro n
  induction n with
  | zero =>
      intro list prio ran
      obtain ⟨rfl, rfl⟩ := Prod.mk.inj (Option.some.inj ran)
      obtain ⟨arranged, order⟩ := solved.arrangement member split
      exact ⟨arranged, fun it => zero_mem_edgesTo _ it, order⟩
  | succ n ih =>
      intro list prio ran
      rw [passes] at ran
      obtain ⟨⟨before, old⟩, earlier, ran⟩ := Option.bind_eq_some_iff.mp ran
      obtain ⟨arranged, paths, _⟩ := ih earlier
      obtain ⟨⟨unsorted, after⟩, loop, ran⟩ := Option.bind_eq_some_iff.mp ran
      obtain ⟨rfl, rfl⟩ := Prod.mk.inj (Option.some.inj ran)
      obtain ⟨unsortedArranged, afterPaths, settled⟩ :=
        iterPriorities_arrangement inv solved member split undisturbed arranged paths loop
      have order := removalFirst_sortJobs solved member split unsortedArranged settled
      exact ⟨unsortedArranged.perm (sortJobs_perm _ _) order, afterPaths, order⟩

end Pair

/-! ## The passes end -/

/-- The assertions of `pkg_jobs_update_conflict_priority`: each uid that the
installed half of an upgrade conflicts with has a remote package. -/
def Partnered (u : JobsUniverse) (jobs : List Solved) : Prop :=
  ∀ req ∈ jobs, ∀ lp ∈ conflictingLocal u req, ∀ c ∈ (u.pkg lp).conflicts,
    (remotePartner u c).isSome = true

instance (u : JobsUniverse) (jobs : List Solved) : Decidable (Partnered u jobs) :=
  inferInstanceAs (Decidable (∀ req ∈ jobs, ∀ lp ∈ conflictingLocal u req,
    ∀ c ∈ (u.pkg lp).conflicts, (remotePartner u c).isSome = true))

/-- The upgrades that may still be split. -/
def wholeUpgrades (list : List Solved) : Nat :=
  list.countP fun a => decide (a.type = .upgrade) && !a.alreadyDeleted

section Total

variable {u : JobsUniverse} {jobs : List Solved} {other : Solved} {lp : Addr} {prio : Priorities}

theorem updateConflictPriority_total {items0 items1 rit : Addr} {c : Conflict}
    (found : remotePartner u c = some rit) :
    ∃ prio', updateConflictPriority u items0 items1 prio c = some prio' := by
  unfold remotePartner JobsUniverse.chainOf at found
  cases head : u.find c.uniqueid with
  | none =>
      rw [head] at found
      cases found
  | some item =>
      rw [head] at found
      unfold updateConflictPriority
      simp only [head, Option.bind_eq_bind, Option.bind_some]
      rw [found, Option.bind_some]
      split
      · exact ⟨_, rfl⟩
      · exact ⟨_, rfl⟩

theorem pkgJobsUpdateConflictPriority_total {items0 : Addr}
    (partners : ∀ c ∈ (u.pkg lp).conflicts, (remotePartner u c).isSome = true) :
    ∃ prio', pkgJobsUpdateConflictPriority u items0 lp prio = some prio' := by
  unfold pkgJobsUpdateConflictPriority
  generalize (u.pkg lp).conflicts = conflicts at partners
  induction conflicts generalizing prio with
  | nil => exact ⟨prio, rfl⟩
  | cons c rest ih =>
      obtain ⟨rit, found⟩ := Option.isSome_iff_exists.mp (partners c (List.mem_cons_self ..))
      obtain ⟨mid, first⟩ := @updateConflictPriority_total u prio items0 lp rit c found
      obtain ⟨last, later⟩ := @ih mid fun d member => partners d (List.mem_cons_of_mem _ member)
      exact ⟨last, by rw [List.foldlM_cons, first]; exact later⟩

variable (partnered : Partnered u jobs)

include partnered

theorem pkgJobsSetRequestPriority_total (listed : Listed u jobs other) :
    ∃ prio' result, pkgJobsSetRequestPriority u other prio = some (prio', result) := by
  unfold pkgJobsSetRequestPriority
  cases split : conflictingLocal u other with
  | none =>
      dsimp only
      split
      · exact ⟨_, _, rfl⟩
      · exact ⟨_, _, rfl⟩
  | some lp =>
      obtain ⟨req, member, splitReq, _⟩ := listed.original split
      dsimp only
      have ending : ∀ mid : Priorities, ∃ prio' result,
          (if mid.of other.items0 < mid.of lp && !other.alreadyDeleted then pure (mid, some lp)
            else pure (mid, none) : Option (Priorities × Option Addr)) = some (prio', result) := by
        intro mid
        split
        · exact ⟨_, _, rfl⟩
        · exact ⟨_, _, rfl⟩
      split
      · obtain ⟨mid, update⟩ := @pkgJobsUpdateConflictPriority_total u lp prio other.items0
          (partnered req member lp splitReq)
        obtain ⟨prio', result, rest⟩ := ending mid
        exact ⟨prio', result, by rw [update]; exact rest⟩
      · exact ending prio

/-- The turns of the requests end, and a split leaves an upgrade fewer. -/
theorem setRequestPriorities_total : ∀ {rest seen : List Solved} {prio : Priorities},
    (∀ a ∈ seen ++ rest, Listed u jobs a) →
    ∃ list prio' again, setRequestPriorities u seen rest prio = some (list, prio', again) ∧
      (∀ a ∈ list, Listed u jobs a) ∧
      (again = true → wholeUpgrades list < wholeUpgrades (seen ++ rest)) := by
  intro rest
  induction rest with
  | nil =>
      intro seen prio listed
      exact ⟨seen, prio, false, rfl, by simpa using listed, fun again => by cases again⟩
  | cons other rest ih =>
      intro seen prio listed
      have here := listed other (by simp)
      obtain ⟨mid, result, turn⟩ := @pkgJobsSetRequestPriority_total u jobs other prio partnered here
      cases result with
      | none =>
          have continued : seen ++ [other] ++ rest = seen ++ other :: rest := by simp
          obtain ⟨list, prio', again, loop, listedAfter, fewer⟩ :=
            @ih (seen ++ [other]) mid (continued ▸ listed)
          refine ⟨list, prio', again, ?_, listedAfter, continued ▸ fewer⟩
          rw [setRequestPriorities, turn]
          exact loop
      | some lp =>
          obtain ⟨isSplit, fresh⟩ := (pkgJobsSetRequestPriority_cases turn).1.resolve_left
            (Option.some_ne_none lp)
          obtain ⟨req, member, splitReq, _⟩ := here.original isSplit.symm
          refine ⟨seen ++ { other with alreadyDeleted := true } :: rest ++ [removalOf lp], mid, true,
            ?_, fun a inList => ?_, fun _ => ?_⟩
          · rw [setRequestPriorities, turn]
            rfl
          · simp only [List.mem_append, List.mem_cons, List.not_mem_nil, or_false] at inList
            rcases inList with (inSeen | rfl | inRest) | rfl
            · exact listed a (by simp [inSeen])
            · exact here.flag true isSplit.symm
            · exact listed a (by simp [inRest])
            · exact .removal member splitReq
          · have type := (conflictingLocal_eq_some.mp isSplit.symm).1
            simp [wholeUpgrades, List.countP_append, type, fresh, removalOf]

theorem iterPriorities_total : ∀ {turns : Nat} {list : List Solved} {prio : Priorities},
    (∀ a ∈ list, Listed u jobs a) → wholeUpgrades list < turns →
    ∃ list' prio', iterPriorities u turns list prio = some (list', prio') ∧
      ∀ a ∈ list', Listed u jobs a := by
  intro turns
  induction turns with
  | zero => exact fun _ none => absurd none (Nat.not_lt_zero _)
  | succ turns ih =>
      intro list prio listed enough
      obtain ⟨mid, midPrio, again, loop, listedMid, fewer⟩ :=
        @setRequestPriorities_total u jobs partnered list [] (resetPriorities list prio) listed
      rw [iterPriorities, loop]
      cases again with
      | false => exact ⟨mid, midPrio, rfl, listedMid⟩
      | true =>
          have less := fewer rfl
          rw [List.nil_append] at less
          exact ih listedMid (by omega)

theorem passes_total (n : Nat) : ∃ list prio, passes u jobs n = some (list, prio) ∧
    ∀ a ∈ list, Listed u jobs a := by
  induction n with
  | zero =>
      refine ⟨jobs, {}, rfl, fun a member => ?_⟩
      have listed := Listed.job (u := u) a.alreadyDeleted member
      exact listed
  | succ n ih =>
      obtain ⟨list, prio, earlier, listed⟩ := ih
      have enough : wholeUpgrades list < list.length + 1 :=
        Nat.lt_succ_of_le List.countP_le_length
      obtain ⟨list', prio', loop, listedAfter⟩ :=
        @iterPriorities_total u jobs partnered (list.length + 1) list prio listed enough
      have pass : pkgJobsSetPriorities u list prio = some (sortJobs prio' list', prio') := by
        rw [pkgJobsSetPriorities, loop]
        rfl
      refine ⟨sortJobs prio' list', prio', ?_, fun a member =>
        listedAfter a ((sortJobs_perm prio' list').mem_iff.mp member)⟩
      rw [passes, earlier]
      exact pass

end Total

/-- Every number of passes over a list of the solver ends unless an assertion
fails, and if nothing the requests lead to disturbs a split upgrade, its removal
comes before it. -/
theorem removal_precedes_upgrade {u : JobsUniverse} (inv : u.Chained) {jobs : List Solved}
    (solved : SolverJobs u jobs) (n : Nat) :
    (Partnered u jobs → ∃ sorted prio, passes u jobs (n + 1) = some (sorted, prio)) ∧
    ∀ sorted prio, passes u jobs (n + 1) = some (sorted, prio) →
      ∀ req ∈ jobs, ∀ lp, conflictingLocal u req = some lp → Undisturbed u jobs req.items0 lp →
        ∀ (i k : Nat) (removal upgrade : Solved), sorted[i]? = some removal →
          sorted[k]? = some upgrade → removal.type = .upgradeRemove → removal.items0 = lp →
          upgrade.type = .upgrade → upgrade.items1 = some lp → i < k := by
  refine ⟨fun partnered => ?_, fun sorted prio ran req member lp split undisturbed i k removal
    upgrade atI atK removes half upgrades second => ?_⟩
  · obtain ⟨sorted, prio, ran, _⟩ := @passes_total u jobs partnered (n + 1)
    exact ⟨sorted, prio, ran⟩
  · obtain ⟨_, _, order⟩ := passes_arrangement inv solved member split undisturbed ran
    obtain ⟨iBelow, atI⟩ := List.getElem?_eq_some_iff.mp atI
    obtain ⟨kBelow, atK⟩ := List.getElem?_eq_some_iff.mp atK
    rcases Nat.lt_trichotomy i k with before | same | after
    · exact before
    · subst same
      rw [atI] at atK
      rw [atK, upgrades] at removes
      cases removes
    · have pair := List.pairwise_iff_getElem.mp order k i kBelow iBelow after
      rw [atI, atK] at pair
      exact absurd ⟨⟨upgrades, second⟩, removes, half⟩ pair

/-! ## The lists of the solver -/

/-- The jobs of one chain. -/
theorem resJobs_cases {type : JobsType} {adds dels : List Addr} {job : Solved}
    (member : job ∈ resJobs type adds dels) : job.alreadyDeleted = false ∧
      ((job.type = .delete ∧ job.items1 = none ∧ job.items0 ∈ dels) ∨
        (job.items0 ∈ adds ∧ (job.type = .install ∨ job.type = .fetch) ∧ job.items1 = none) ∨
        (job.items0 ∈ adds ∧ job.type = .upgrade ∧ ∃ del ∈ dels, job.items1 = some del)) := by
  match adds with
  | [] =>
      obtain ⟨item, inDels, rfl⟩ := List.mem_map.mp member
      exact ⟨rfl, Or.inl ⟨rfl, rfl, inDels⟩⟩
  | add :: rest =>
      cases last : dels.getLast? with
      | none =>
          simp only [resJobs, last, List.mem_singleton] at member
          subst member
          refine ⟨rfl, Or.inr (Or.inl ⟨List.mem_cons_self .., ?_, rfl⟩)⟩
          dsimp only
          split
          · exact Or.inr rfl
          · exact Or.inl rfl
      | some del =>
          simp only [resJobs, last, List.mem_cons] at member
          rcases member with rfl | inRest
          · exact ⟨rfl, Or.inr (Or.inr
              ⟨List.mem_cons_self .., rfl, del, List.mem_of_getLast? last, rfl⟩)⟩
          · obtain ⟨item, inDels, rfl⟩ := List.mem_map.mp inRest
            exact ⟨rfl, Or.inl ⟨rfl, rfl, List.mem_of_mem_filter inDels⟩⟩

/-- All jobs of a chain but the first one are deletions. -/
theorem resJobs_kept (type : JobsType) (adds dels : List Addr) :
    ((resJobs type adds dels).filter fun req => decide (req.type ≠ .delete)).length ≤ 1 := by
  have deletions : ∀ items : List Addr, ((items.map fun item =>
      ({ items0 := item, type := .delete } : Solved)).filter
        fun req => decide (req.type ≠ .delete)) = [] := fun items => by
    rw [List.filter_map]
    simp
  match adds with
  | [] =>
      rw [resJobs, deletions]
      exact Nat.zero_le 1
  | add :: rest =>
      cases last : dels.getLast? with
      | none =>
          simp only [resJobs, last]
          exact List.length_filter_le _ [_]
      | some del =>
          simp only [resJobs, last, List.filter_cons, deletions]
          split <;> simp

theorem resJobs_uids {u : JobsUniverse} (inv : u.Chained) (type : JobsType)
    (selected : Addr → Bool) {entry : Uid × Addr} (filed : entry ∈ u.items) :
    (((resJobs type (u.adds selected (u.chain entry.2)) (u.dels selected (u.chain entry.2))).filter
      fun req => decide (req.type ≠ .delete)).map fun req => (u.pkg req.items0).uid).Sublist
        [entry.1] := by
  have single := resJobs_kept type (u.adds selected (u.chain entry.2))
    (u.dels selected (u.chain entry.2))
  have uids : ∀ req ∈ (resJobs type (u.adds selected (u.chain entry.2))
      (u.dels selected (u.chain entry.2))).filter fun req => decide (req.type ≠ .delete),
      (u.pkg req.items0).uid = entry.1 := by
    intro req member
    obtain ⟨inJobs, kept⟩ := List.mem_filter.mp member
    obtain ⟨_, ⟨deletes, _⟩ | ⟨inAdds, _⟩ | ⟨inAdds, _⟩⟩ := resJobs_cases inJobs
    · exact absurd deletes (of_decide_eq_true kept)
    · exact inv.homogeneous entry filed _ (List.mem_of_mem_filter inAdds)
    · exact inv.homogeneous entry filed _ (List.mem_of_mem_filter inAdds)
  generalize (resJobs type (u.adds selected (u.chain entry.2))
    (u.dels selected (u.chain entry.2))).filter (fun req => decide (req.type ≠ .delete)) = kept
    at single uids
  match kept, single, uids with
  | [], _, _ => exact List.nil_sublist _
  | [req], _, uids =>
      rw [List.map_singleton, uids req (List.mem_singleton_self req)]

/-- The jobs that the solver schedules for an assignment. -/
theorem solverJobs_resJobs {u : JobsUniverse} (inv : u.Chained) (type : JobsType)
    (selected : Addr → Bool) : SolverJobs u (u.resJobs type selected) where
  reachable := by
    intro req member item inReq
    obtain ⟨entry, filed, inJobs⟩ := mem_resJobs.mp member
    have inChain : ∀ {it}, it ∈ u.adds selected (u.chain entry.2) ∨
        it ∈ u.dels selected (u.chain entry.2) → it ∈ u.units := fun either =>
      JobsUniverse.mem_units.mpr ⟨entry, filed,
        either.elim List.mem_of_mem_filter List.mem_of_mem_filter⟩
    rw [Solved.units] at inReq
    obtain ⟨_, ⟨_, none, inDels⟩ | ⟨inAdds, _, none⟩ | ⟨inAdds, _, del, inDels, isDel⟩⟩ :=
      resJobs_cases inJobs
    · rw [none] at inReq
      rw [List.mem_singleton.mp inReq]
      exact inChain (Or.inr inDels)
    · rw [none] at inReq
      rw [List.mem_singleton.mp inReq]
      exact inChain (Or.inl inAdds)
    · rw [isDel] at inReq
      rcases List.mem_cons.mp inReq with rfl | inSecond
      · exact inChain (Or.inl inAdds)
      · rw [List.mem_singleton.mp inSecond]
        exact inChain (Or.inr inDels)
  distinct := by
    refine List.Nodup.sublist ?_ inv.keysNodup
    have loop : ∀ entries : List (Uid × Addr), (∀ entry ∈ entries, entry ∈ u.items) →
        (((entries.flatMap fun entry => resJobs type (u.adds selected (u.chain entry.2))
          (u.dels selected (u.chain entry.2))).filter fun req => decide (req.type ≠ .delete)).map
            fun req => (u.pkg req.items0).uid).Sublist (entries.map Prod.fst) := by
      intro entries
      induction entries with
      | nil => exact fun _ => List.nil_sublist _
      | cons entry rest ih =>
          intro filed
          rw [List.flatMap_cons, List.filter_append, List.map_append]
          exact (resJobs_uids inv type selected (filed entry (List.mem_cons_self ..))).append
            (ih fun other inRest => filed other (List.mem_cons_of_mem _ inRest))
    exact loop u.items fun _ member => member
  upgrades := by
    intro req member isUpgrade lp second
    obtain ⟨entry, filed, inJobs⟩ := mem_resJobs.mp member
    obtain ⟨_, ⟨deletes, _⟩ | ⟨_, plain, none⟩ | ⟨inAdds, _, del, inDels, isDel⟩⟩ :=
      resJobs_cases inJobs
    · rw [isUpgrade] at deletes
      cases deletes
    · rw [isUpgrade] at plain
      simp at plain
    · rw [isDel] at second
      obtain rfl := Option.some.inj second
      obtain ⟨delIn, dropped⟩ := List.mem_filter.mp inDels
      obtain ⟨addIn, chosen⟩ := List.mem_filter.mp inAdds
      refine ⟨(Bool.and_eq_true_iff.mp dropped).2, ?_, ?_⟩
      · simpa using (Bool.and_eq_true_iff.mp chosen).2
      · rw [inv.homogeneous entry filed del delIn, inv.homogeneous entry filed _ addIn]
  unsplit := by
    intro req member
    obtain ⟨entry, filed, inJobs⟩ := mem_resJobs.mp member
    obtain ⟨unflagged, cases⟩ := resJobs_cases inJobs
    refine ⟨fun removes => ?_, unflagged⟩
    rcases cases with ⟨other, _⟩ | ⟨_, other | other, _⟩ | ⟨_, other, _⟩ <;>
    · rw [removes] at other
      cases other

/-- The installed `app` conflicts with the remote `tool`, the remote one does
not. -/
def conflictingUpgrade (others : List Pkg) : JobsUniverse :=
  JobsUniverse.ofPackages Pkg.digest
    ([{ type := .installed, uid := "app", digest := some "1", conflicts := [⟨"tool", .remoteLocal⟩] },
      { type := .remote, uid := "app", digest := some "2" },
      { type := .remote, uid := "tool", digest := some "3" }] ++ others)

def upgradeAndInstall : List Solved :=
  [{ items0 := 1, items1 := some 0, type := .upgrade }, { items0 := 2, type := .install }]

theorem solverJobs_upgradeAndInstall : SolverJobs (conflictingUpgrade []) upgradeAndInstall where
  reachable := by decide
  distinct := by decide
  upgrades := by decide
  unsplit := by decide

theorem upgradeAndInstall_undisturbed :
    Undisturbed (conflictingUpgrade []) upgradeAndInstall 1 0 := by
  have visited : ∀ {kind it}, Visits (conflictingUpgrade []) upgradeAndInstall kind it →
      it ∈ (conflictingUpgrade []).units := fun ⟨_, _, starts, reached⟩ =>
    reached.mem_units (JobsUniverse.repInv_ofPackages _ _).toChained
      (starts.reachable solverJobs_upgradeAndInstall.reachable)
  have quiet : ∀ it ∈ (conflictingUpgrade []).units,
      ((conflictingUpgrade []).pkg it).deps = [] ∧ ((conflictingUpgrade []).pkg it).rdeps = [] ∧
        (((conflictingUpgrade []).pkg it).isInstalled = false →
          ((conflictingUpgrade []).pkg it).conflicts = []) := by decide
  refine ⟨fun it here => ?_, by decide, fun c listed rit found edges path => ?_⟩
  · rw [Pkg.depUids, (quiet it (visited here)).1]
    exact List.not_mem_nil
  · have partner : ∀ c ∈ ((conflictingUpgrade []).pkg 0).conflicts,
        remotePartner (conflictingUpgrade []) c = some 2 := by decide
    rw [partner c listed] at found
    obtain rfl := Option.some.inj found
    -- Nothing raises `tool`.
    cases edges with
    | zero => decide
    | succ edges =>
        obtain ⟨a, raises, _⟩ := succ_mem_edgesTo_iff.mp path
        cases raises with
        | dep here listed =>
            have none := quiet a (visited here)
            simp [PriorityUpdate.depsFunc, none.1, none.2.1] at listed
        | rdep here listed =>
            have none := quiet _ (visited here)
            simp [PriorityUpdate.rdepsFunc, none.1, none.2.1] at listed
        | conflict here remote listed =>
            rw [(quiet a (visited here)).2.2 remote] at listed
            cases listed
        | partner member split _ _ later =>
            have apart : ∀ req ∈ upgradeAndInstall,
                ∀ lp ∈ conflictingLocal (conflictingUpgrade []) req,
                  2 ∉ (conflictingUpgrade []).chain lp := by decide
            exact absurd later (apart _ member _ split)

theorem upgradeAndInstall_ordered :
    ∃ sorted prio, passes (conflictingUpgrade []) upgradeAndInstall 1 = some (sorted, prio) ∧
      ∀ (i k : Nat) (removal upgrade : Solved), sorted[i]? = some removal →
        sorted[k]? = some upgrade → removal.type = .upgradeRemove → removal.items0 = 0 →
        upgrade.type = .upgrade → upgrade.items1 = some 0 → i < k := by
  have inv := (JobsUniverse.repInv_ofPackages Pkg.digest _ : (conflictingUpgrade []).RepInv)
  obtain ⟨ends, ordered⟩ :=
    removal_precedes_upgrade inv.toChained solverJobs_upgradeAndInstall 0
  obtain ⟨sorted, prio, ran⟩ := ends (by decide)
  exact ⟨sorted, prio, ran, ordered sorted prio ran _ (List.mem_cons_self ..) 0 rfl
    upgradeAndInstall_undisturbed⟩

/-- `user` depends on `app`. -/
def userOfApp : Pkg :=
  { type := .remote, uid := "user", digest := some "4", deps := [⟨"app", "app", ""⟩] }

/-- With `user` among the jobs the remote `app` is raised to the priority of the
installed one. -/
theorem dependentUpgrade_misordered :
    (conflictingUpgrade [userOfApp]).Chained ∧
      SolverJobs (conflictingUpgrade [userOfApp])
        (upgradeAndInstall ++ [{ items0 := 3, type := .install }]) ∧
      ∃ sorted prio, passes (conflictingUpgrade [userOfApp])
          (upgradeAndInstall ++ [{ items0 := 3, type := .install }]) 1 = some (sorted, prio) ∧
        ¬ ∀ (i k : Nat) (removal upgrade : Solved), sorted[i]? = some removal →
          sorted[k]? = some upgrade → removal.type = .upgradeRemove →
          upgrade.type = .upgrade → upgrade.items1 = some removal.items0 → i < k := by
  refine ⟨(JobsUniverse.repInv_ofPackages _ _).toChained,
    ⟨by decide, by decide, by decide, by decide⟩, ?_⟩
  · have order : (passes (conflictingUpgrade [userOfApp])
        (upgradeAndInstall ++ [{ items0 := 3, type := .install }]) 1).map Prod.fst =
        some [{ items0 := 1, items1 := some 0, type := .upgrade, alreadyDeleted := true },
          removalOf 0, { items0 := 2, type := .install }, { items0 := 3, type := .install }] := by
      decide +kernel
    obtain ⟨⟨sorted, prio⟩, ran, rfl⟩ := Option.map_eq_some_iff.mp order
    refine ⟨_, prio, ran, fun ordered => ?_⟩
    have := ordered 1 0 _ _ rfl rfl rfl rfl rfl
    omega

end Pkgng
