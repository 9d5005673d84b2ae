import Pkgng.Jobs.RemovalOrder

/-!
# The turns of the priorities end

`pkg_jobs_set_priorities` starts over whenever it has split an upgrade, and each
turn runs a recursion over dependencies and conflicts that may be cyclic.  Every
nested call has a higher priority, so the recursion limit bounds the depth; every
split marks an upgrade, so the unmarked ones bound the turns.
-/

set_option autoImplicit false

namespace Pkgng

/-! ## The depth of the recursion -/

/-- `pkg_jobs_update_universe_item_priority` with some other result for a call
below a number of nested calls. -/
def updateItemOr (u : JobsUniverse) (exhausted : UpdatePriority) : Nat → UpdatePriority
  | 0, prio, item, priority, type => exhausted prio item priority type
  | depth + 1, prio, item, priority, type =>
      if recursionLimit < priority then prio.warn
      else updateItems u (updateItemOr u exhausted depth) priority type (u.chain item) prio

section Depth

variable {u : JobsUniverse} {self self' : UpdatePriority} {type : PriorityUpdate} {priority : Nat}

/-- No call lowers a priority. -/
def NeverLowers (self : UpdatePriority) : Prop :=
  ∀ prio item priority type, Touches (fun _ => True) prio (self prio item priority type)

theorem NeverLowers.raiseDeps (calls : NeverLowers self) (deps : List Dep) (prio : Priorities) :
    Touches (fun _ => True) prio (raiseDeps u self type priority deps prio) := by
  refine .foldl fun d _ prio => .foldl fun cur _ prio => ?_
  split
  · exact calls prio cur (priority + 1) type
  · exact .refl _ _

theorem NeverLowers.raiseConflicts (calls : NeverLowers self) (it : Addr)
    (conflicts : List Conflict) (prio : Priorities) :
    Touches (fun _ => True) prio (raiseConflicts u self it conflicts prio) := by
  refine .foldl fun c _ prio => .foldl fun cur _ prio => ?_
  split
  · split
    · exact calls prio cur (prio.of it + 1) .conflict
    · exact .refl _ _
  · exact .refl _ _

theorem NeverLowers.updateItems (calls : NeverLowers self) (items : List Addr)
    (prio : Priorities) :
    Touches (fun _ => True) prio (updateItems u self priority type items prio) := by
  induction items generalizing prio with
  | nil => exact .refl _ _
  | cons it rest ih =>
      rw [Pkgng.updateItems]
      split
      · exact ih prio
      · split
        · exact ih prio
        · next notAbove =>
            have placed : Touches (fun _ => True) prio (prio.set it priority) :=
              .set (Nat.le_of_not_lt notAbove) trivial
            have raised := placed.trans
              (@NeverLowers.raiseDeps u self type priority calls (type.depsFunc (u.pkg it)) _)
            dsimp only
            split
            · exact raised.trans (calls _ it _ type)
            · split
              · exact raised.trans (ih _)
              · exact (raised.trans (calls.raiseConflicts it (u.pkg it).conflicts _)).trans (ih _)

theorem neverLowers_updateItemPriority (u : JobsUniverse) (depth : Nat) :
    NeverLowers (updateItemPriority u depth) := by
  induction depth with
  | zero => exact fun prio _ _ _ => ⟨fun _ => Nat.le_refl _, fun _ _ => trivial⟩
  | succ depth ih =>
      intro prio item priority type
      rw [updateItemPriority]
      split
      · exact ⟨fun _ => Nat.le_refl _, fun _ _ => trivial⟩
      · exact ih.updateItems _ _

/-- Two callees that agree on the calls of higher priority. -/
def AgreeAbove (priority : Nat) (self self' : UpdatePriority) : Prop :=
  ∀ prio item higher type, priority < higher →
    self prio item higher type = self' prio item higher type

theorem AgreeAbove.raiseDeps (agree : AgreeAbove priority self self') (deps : List Dep)
    (prio : Priorities) :
    raiseDeps u self type priority deps prio = raiseDeps u self' type priority deps prio := by
  unfold Pkgng.raiseDeps
  congr 1
  funext prio d
  congr 1
  funext prio cur
  rw [agree prio cur (priority + 1) type (Nat.lt_succ_self priority)]

/-- The calls for the conflicts are above the priority of the item, which no
call lowers. -/
theorem AgreeAbove.raiseConflicts (agree : AgreeAbove priority self self')
    (calls : NeverLowers self') {it : Addr} (conflicts : List Conflict) (prio : Priorities)
    (placed : priority ≤ prio.of it) :
    raiseConflicts u self it conflicts prio = raiseConflicts u self' it conflicts prio := by
  have chains : ∀ (items : List Addr) (prio : Priorities), priority ≤ prio.of it →
      let turn := fun (self : UpdatePriority) (prio : Priorities) (cur : Addr) =>
        if (u.pkg cur).isInstalled then
          if prio.of cur ≤ prio.of it then self prio cur (prio.of it + 1) .conflict else prio
        else prio
      items.foldl (turn self) prio = items.foldl (turn self') prio ∧
        priority ≤ (items.foldl (turn self') prio).of it := by
    intro items
    induction items with
    | nil => exact fun prio placed => ⟨rfl, placed⟩
    | cons cur rest ih =>
        intro prio placed turn
        have same : turn self prio cur = turn self' prio cur := by
          dsimp only [turn]
          rw [agree prio cur (prio.of it + 1) .conflict (Nat.lt_succ_of_le placed)]
        have kept : priority ≤ (turn self' prio cur).of it := by
          dsimp only [turn]
          split
          · split
            · exact Nat.le_trans placed ((calls prio cur (prio.of it + 1) .conflict).mono it)
            · exact placed
          · exact placed
        rw [List.foldl_cons, List.foldl_cons, same]
        exact ih _ kept
  unfold Pkgng.raiseConflicts
  induction conflicts generalizing prio with
  | nil => rfl
  | cons c rest ih =>
      obtain ⟨same, kept⟩ := chains (u.chainOf c.uniqueid) prio placed
      rw [List.foldl_cons, List.foldl_cons, same]
      exact ih _ kept

theorem lt_of_maxPriority_ne {rdeps : List Dep} {prio : Priorities}
    (moved : maxPriority u rdeps prio priority ≠ priority) :
    priority < maxPriority u rdeps prio priority := by
  have atLeast : priority ≤ maxPriority u rdeps prio priority := by
    unfold maxPriority
    refine List.foldlRecOn (motive := fun maxpri => priority ≤ maxpri) rdeps _ (Nat.le_refl _)
      fun maxpri sofar d _ => ?_
    refine List.foldlRecOn (motive := fun maxpri => priority ≤ maxpri) (u.chainOf d.uid) _ sofar
      fun maxpri sofar cur _ => ?_
    split
    · omega
    · exact sofar
  omega

theorem AgreeAbove.updateItems (agree : AgreeAbove priority self self')
    (calls : NeverLowers self') (items : List Addr) (prio : Priorities) :
    updateItems u self priority type items prio = updateItems u self' priority type items prio := by
  induction items generalizing prio with
  | nil => rfl
  | cons it rest ih =>
      have raised : priority ≤ (Pkgng.raiseDeps u self' type priority (type.depsFunc (u.pkg it))
          (prio.set it priority)).of it := by
        have grows := (@NeverLowers.raiseDeps u self' type priority calls
          (type.depsFunc (u.pkg it)) (prio.set it priority)).mono it
        rwa [Priorities.set_self] at grows
      simp only [Pkgng.updateItems, ih, agree.raiseDeps]
      generalize Pkgng.raiseDeps u self' type priority (type.depsFunc (u.pkg it))
        (prio.set it priority) = deps at raised
      rw [agree.raiseConflicts calls (u.pkg it).conflicts deps raised]
      split
      · rfl
      · split
        · rfl
        · split
          · next moved => exact agree deps it _ type (lt_of_maxPriority_ne moved)
          · rfl

end Depth

/-- Where the nested calls leave the limit enough depth, nothing is decided by
the depth. -/
theorem updateItemOr_eq (u : JobsUniverse) (exhausted : UpdatePriority) :
    ∀ {depth fuel : Nat} (prio : Priorities) (item : Addr) (priority : Nat)
      (type : PriorityUpdate), 0 < depth → recursionLimit + 2 ≤ depth + priority →
      recursionLimit + 1 ≤ fuel + priority →
      updateItemOr u exhausted depth prio item priority type =
        updateItemPriority u fuel prio item priority type := by
  intro depth
  induction depth with
  | zero => exact fun _ _ _ _ none => absurd none (Nat.lt_irrefl 0)
  | succ depth ih =>
      intro fuel prio item priority type _ deep enough
      rw [updateItemOr]
      cases fuel with
      | zero =>
          rw [if_pos (by omega), updateItemPriority]
      | succ fuel =>
          rw [updateItemPriority]
          split
          · rfl
          · have agree : AgreeAbove priority (updateItemOr u exhausted depth)
                (updateItemPriority u fuel) := fun prio item higher type above =>
              ih prio item higher type (by omega) (by omega) (by omega)
            exact agree.updateItems (neverLowers_updateItemPriority u fuel) _ _

/-! ## The turns -/

namespace Jobs

/-- The second `LL_FOREACH` of `pkg_jobs_set_priorities` on the jobs, with the
requests already seen in front. -/
def setRequestPriorities (j : Jobs) : List Solved → List Solved → Priorities →
    Option (Jobs × Priorities × Bool)
  | seen, [], prio => some ({ j with jobs := seen }, prio, false)
  | seen, req :: rest, prio => do
      let (prio, split) ← pkgJobsSetRequestPriority j.univ req prio
      match split with
      | some lp =>
          let j := { j with jobs := seen ++ { req with alreadyDeleted := true } :: rest }
          pure (j.schedule (removalOf lp), prio, true)
      | none => j.setRequestPriorities (seen ++ [req]) rest prio

/-- The code from the label `iter_again` up to the sort, for a number of turns. -/
def iterAgain : Nat → Jobs → Priorities → Option (Jobs × Priorities)
  | 0, _, _ => none
  | turns + 1, j, prio => do
      let (j, prio, again) ← j.setRequestPriorities [] j.jobs (resetPriorities j.jobs prio)
      if again then iterAgain turns j prio else pure (j, prio)

/-- `pkg_jobs_set_priorities`. -/
def setPriorities (j : Jobs) (prio : Priorities) : Option (Jobs × Priorities) := do
  let (j, prio) ← iterAgain (j.jobs.length + 1) j prio
  pure ({ j with jobs := sortJobs prio j.jobs }, prio)

end Jobs

/-- Some turn comes to an assertion that fails. -/
inductive AssertionFails (u : JobsUniverse) : List Solved → Priorities → Prop
  | now {jobs : List Solved} {prio : Priorities}
      (fails : setRequestPriorities u [] jobs (resetPriorities jobs prio) = none) :
      AssertionFails u jobs prio
  | later {jobs jobs' : List Solved} {prio prio' : Priorities}
      (turn : setRequestPriorities u [] jobs (resetPriorities jobs prio) =
        some (jobs', prio', true))
      (fails : AssertionFails u jobs' prio') : AssertionFails u jobs prio

/-- The jobs of a list, some of the upgrades marked, and a removal for each of
these. -/
inductive SplitJobs (u : JobsUniverse) : List Solved → List Solved → List Solved → Prop
  | nil : SplitJobs u [] [] []
  | keep {jobs kept removals : List Solved} (req : Solved)
      (others : SplitJobs u jobs kept removals) :
      SplitJobs u (req :: jobs) (req :: kept) removals
  | split {jobs kept removals : List Solved} {req : Solved} {lp : Addr}
      (isUpgrade : conflictingLocal u req = some lp) (fresh : req.alreadyDeleted = false)
      (others : SplitJobs u jobs kept removals) :
      SplitJobs u (req :: jobs) ({ req with alreadyDeleted := true } :: kept)
        (removalOf lp :: removals)

section Turns

variable {u : JobsUniverse} {jobs kept removals seen rest : List Solved} {req : Solved} {lp : Addr}

theorem SplitJobs.refl (u : JobsUniverse) (jobs : List Solved) : SplitJobs u jobs jobs [] := by
  induction jobs with
  | nil => exact .nil
  | cons req jobs ih => exact .keep req ih

theorem SplitJobs.removes (splits : SplitJobs u jobs kept removals) :
    ∀ a ∈ removals, a.type = .upgradeRemove := by
  induction splits with
  | nil => simp
  | keep _ _ ih => exact ih
  | split _ _ _ ih =>
      intro a member
      rcases List.mem_cons.mp member with rfl | later
      · rfl
      · exact ih a later

/-- An unmarked upgrade of the list may be split too. -/
theorem SplitJobs.more {before after : List Solved}
    (splits : SplitJobs u jobs (before ++ req :: after) removals)
    (isUpgrade : conflictingLocal u req = some lp) (fresh : req.alreadyDeleted = false) :
    ∃ removals',
      SplitJobs u jobs (before ++ { req with alreadyDeleted := true } :: after) removals' ∧
      removals'.Perm (removalOf lp :: removals) := by
  induction before generalizing jobs removals with
  | nil =>
      rw [List.nil_append] at splits
      cases splits with
      | keep _ others => exact ⟨_, .split isUpgrade fresh others, .refl _⟩
      | split _ _ _ => cases fresh
  | cons first before ih =>
      rw [List.cons_append] at splits
      cases splits with
      | keep _ others =>
          obtain ⟨removals', more, perm⟩ := ih others
          exact ⟨removals', .keep _ more, perm⟩
      | split firstUpgrade firstFresh others =>
          obtain ⟨removals', more, perm⟩ := ih others
          exact ⟨_, .split firstUpgrade firstFresh more, (perm.cons _).trans (.swap ..)⟩

/-- What a split makes of a list whose jobs have been reordered. -/
theorem SplitJobs.turn (splits : SplitJobs u jobs kept removals)
    (perm : (seen ++ req :: rest).Perm (kept ++ removals))
    (isUpgrade : conflictingLocal u req = some lp) (fresh : req.alreadyDeleted = false) :
    ∃ kept' removals', SplitJobs u jobs kept' removals' ∧
      removals'.length = removals.length + 1 ∧
      (seen ++ { req with alreadyDeleted := true } :: rest ++ [removalOf lp]).Perm
        (kept' ++ removals') := by
  have type := (conflictingLocal_eq_some.mp isUpgrade).1
  have inKept : req ∈ kept := by
    rcases List.mem_append.mp (perm.mem_iff.mp (by simp : req ∈ seen ++ req :: rest)) with
      inKept | removal
    · exact inKept
    · rw [splits.removes req removal] at type
      cases type
  obtain ⟨before, after, rfl⟩ := List.append_of_mem inKept
  obtain ⟨removals', more, added⟩ := splits.more isUpgrade fresh
  have others : (seen ++ rest).Perm (before ++ after ++ removals) := by
    have moved := (List.perm_middle.symm.trans perm).trans
      (List.perm_middle.append_right removals)
    exact List.Perm.cons_inv moved
  refine ⟨_, removals', more, added.length_eq, ?_⟩
  have whole : (seen ++ { req with alreadyDeleted := true } :: rest ++ [removalOf lp]).Perm
      ({ req with alreadyDeleted := true } :: removalOf lp :: (seen ++ rest)) := by
    refine (List.perm_append_singleton _ _).trans ?_
    exact (List.perm_middle.cons _).trans (.swap ..)
  refine whole.trans (.trans ?_ (added.symm.append_left _))
  rw [List.append_assoc, List.cons_append]
  refine .trans ?_ List.perm_middle.symm
  refine .cons _ ?_
  rw [← List.append_assoc]
  exact ((others.cons _).trans List.perm_middle.symm)

/-- How the turns of the requests end. -/
theorem setRequestPriorities_cases {list : List Solved} {prio prio' : Priorities} {again : Bool}
    (ran : setRequestPriorities u seen rest prio = some (list, prio', again)) :
    (again = false ∧ list = seen ++ rest) ∨
      (again = true ∧ ∃ before req after lp, seen ++ rest = before ++ req :: after ∧
        conflictingLocal u req = some lp ∧ req.alreadyDeleted = false ∧
        list = before ++ { req with alreadyDeleted := true } :: after ++ [removalOf lp]) := by
  induction rest generalizing seen prio with
  | nil =>
      rw [setRequestPriorities, Option.some.injEq, Prod.mk.injEq, Prod.mk.injEq] at ran
      obtain ⟨rfl, _, rfl⟩ := ran
      exact Or.inl ⟨rfl, (List.append_nil seen).symm⟩
  | cons req rest ih =>
      rw [setRequestPriorities] at ran
      obtain ⟨⟨mid, result⟩, turn, ran⟩ := Option.bind_eq_some_iff.mp ran
      cases result with
      | none =>
          have continued : seen ++ [req] ++ rest = seen ++ req :: rest := by simp
          exact continued ▸ ih ran
      | some lp =>
          obtain ⟨isUpgrade, fresh⟩ := (pkgJobsSetRequestPriority_cases turn).1.resolve_left
            (Option.some_ne_none lp)
          rw [Option.pure_def, Option.some.injEq, Prod.mk.injEq, Prod.mk.injEq] at ran
          obtain ⟨rfl, _, rfl⟩ := ran
          exact Or.inr ⟨rfl, seen, req, rest, lp, rfl, isUpgrade.symm, fresh, rfl⟩

theorem wholeUpgrades_split (before after : List Solved)
    (isUpgrade : conflictingLocal u req = some lp) (fresh : req.alreadyDeleted = false) :
    wholeUpgrades (before ++ { req with alreadyDeleted := true } :: after ++ [removalOf lp]) <
      wholeUpgrades (before ++ req :: after) := by
  have type := (conflictingLocal_eq_some.mp isUpgrade).1
  simp [wholeUpgrades, List.countP_append, type, fresh, removalOf]

/-- The loop of a turn on the jobs is the one on their list; a split counts the
removal. -/
theorem Jobs.setRequestPriorities_eq (j : Jobs) (prio : Priorities) :
    j.setRequestPriorities seen rest prio =
      (Pkgng.setRequestPriorities j.univ seen rest prio).map fun (list, prio, again) =>
        ({ j with jobs := list, count := if again then j.count + 1 else j.count }, prio,
          again) := by
  induction rest generalizing seen prio with
  | nil => rfl
  | cons req rest ih =>
      rw [Jobs.setRequestPriorities, Pkgng.setRequestPriorities]
      cases pkgJobsSetRequestPriority j.univ req prio with
      | none => rfl
      | some turn =>
          obtain ⟨mid, result⟩ := turn
          cases result with
          | none => exact ih mid
          | some lp => rfl

/-- The turns end: each one that goes on marks an upgrade. -/
theorem Jobs.iterAgain_splits {turns : Nat} {j : Jobs} {prio : Priorities} {before : Nat}
    (enough : wholeUpgrades j.jobs < turns) (holds : ¬ AssertionFails j.univ j.jobs prio)
    (splits : SplitJobs j.univ jobs kept removals) (perm : j.jobs.Perm (kept ++ removals))
    (counted : j.count = before + removals.length) :
    ∃ j' prio' kept' removals', iterAgain turns j prio = some (j', prio') ∧
      SplitJobs j.univ jobs kept' removals' ∧ j'.jobs.Perm (kept' ++ removals') ∧
      j' = { j with jobs := j'.jobs, count := before + removals'.length } := by
  induction turns generalizing j prio kept removals with
  | zero => exact absurd enough (Nat.not_lt_zero _)
  | succ turns ih =>
      rw [iterAgain, Jobs.setRequestPriorities_eq]
      cases turn : Pkgng.setRequestPriorities j.univ [] j.jobs (resetPriorities j.jobs prio) with
      | none => exact absurd (.now turn) holds
      | some ended =>
          obtain ⟨list, mid, again⟩ := ended
          rcases setRequestPriorities_cases turn with
            ⟨rfl, same⟩ | ⟨rfl, front, req, back, lp, place, isUpgrade, fresh, rfl⟩
          · rw [List.nil_append] at same
            subst same
            refine ⟨j, mid, kept, removals, rfl, splits, perm, ?_⟩
            rw [← counted]
          · rw [List.nil_append] at place
            obtain ⟨kept', removals', more, longer, permAfter⟩ :=
              splits.turn (place ▸ perm) isUpgrade fresh
            have fewer := wholeUpgrades_split front back isUpgrade fresh
            rw [← place] at fewer
            obtain ⟨j', prio', keptLast, removalsLast, ran, last, permLast, rest⟩ :=
              @ih kept' removals' { j with
                  jobs := front ++ { req with alreadyDeleted := true } :: back ++ [removalOf lp]
                  count := j.count + 1 } mid
                (Nat.lt_of_lt_of_le fewer (Nat.le_of_lt_succ enough))
                (fun fails => holds (.later turn fails)) more permAfter
                (by dsimp only; omega)
            exact ⟨j', prio', keptLast, removalsLast, ran, last, permLast, rest⟩

end Turns

/-- Whatever the graphs and the priorities at first, the setting of the
priorities ends unless an assertion fails: the depth does not matter from the
recursion limit on, and the jobs are reordered, with a counted removal for each
upgrade that has been marked. -/
theorem Jobs.setPriorities_splits (j : Jobs) (prio : Priorities)
    (holds : ¬ AssertionFails j.univ j.jobs prio) :
    (∀ exhausted depth, recursionLimit + 2 ≤ depth →
      updateItemOr j.univ exhausted depth = pkgJobsUpdateUniverseItemPriority j.univ) ∧
    ∃ j' prio' kept removals, j.setPriorities prio = some (j', prio') ∧
      SplitJobs j.univ j.jobs kept removals ∧ j'.jobs.Perm (kept ++ removals) ∧
      j' = { j with jobs := j'.jobs, count := j.count + removals.length } := by
  constructor
  · intro exhausted depth deep
    funext prio item priority type
    exact updateItemOr_eq j.univ exhausted prio item priority type (by omega) (by omega) (by omega)
  · have enough : wholeUpgrades j.jobs < j.jobs.length + 1 :=
      Nat.lt_succ_of_le List.countP_le_length
    obtain ⟨mid, prio', kept, removals, ran, splits, perm, rest⟩ :=
      Jobs.iterAgain_splits enough holds (.refl j.univ j.jobs)
        (by rw [List.append_nil]) (Nat.add_zero _).symm
    refine ⟨{ mid with jobs := sortJobs prio' mid.jobs }, prio', kept, removals, ?_, splits,
      (sortJobs_perm prio' mid.jobs).trans perm, ?_⟩
    · rw [Jobs.setPriorities, ran]
      rfl
    · rw [rest]

/-- A list of the solver whose conflicts have remote partners fails no
assertion. -/
theorem not_assertionFails_of_partnered {u : JobsUniverse} {jobs : List Solved}
    (partnered : Partnered u jobs) (prio : Priorities) : ¬ AssertionFails u jobs prio := by
  have listed : ∀ a ∈ jobs, Listed u jobs a := fun a member => by
    have listed := Listed.job (u := u) a.alreadyDeleted member
    exact listed
  suffices ∀ list prio, AssertionFails u list prio →
      (∀ a ∈ list, Listed u jobs a) → False from fun fails => this jobs prio fails listed
  intro list prio fails
  induction fails with
  | @now list prio fails =>
      intro listed
      obtain ⟨_, _, _, ran, _⟩ :=
        @setRequestPriorities_total u jobs partnered list [] (resetPriorities list prio) listed
      rw [fails] at ran
      cases ran
  | @later list list' prio prio' turn _ ih =>
      intro listed
      obtain ⟨_, _, _, ran, listedAfter, _⟩ :=
        @setRequestPriorities_total u jobs partnered list [] (resetPriorities list prio) listed
      rw [turn, Option.some.injEq, Prod.mk.injEq] at ran
      obtain ⟨rfl, _⟩ := ran
      exact ih listedAfter

/-- The jobs of the upgrade whose installed half conflicts with `tool`. -/
def conflictingJobs : Jobs :=
  { univ := conflictingUpgrade [], jobs := upgradeAndInstall, count := 2 }

theorem conflictingJobs_splits :
    ∃ j' prio' kept removals, conflictingJobs.setPriorities {} = some (j', prio') ∧
      SplitJobs conflictingJobs.univ conflictingJobs.jobs kept removals ∧
      j'.jobs.Perm (kept ++ removals) ∧
      j' = { conflictingJobs with jobs := j'.jobs, count := 2 + removals.length } :=
  (conflictingJobs.setPriorities_splits {} (not_assertionFails_of_partnered (by decide) {})).2

end Pkgng
