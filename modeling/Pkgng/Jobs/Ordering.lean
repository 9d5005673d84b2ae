import Pkgng.Jobs.Reach
import Pkgng.Lib.Depth

/-!
# Priorities and dependencies

Where the dependencies between uids have no cycle, the priorities that an update
hands out stay below the depth of the items in the dependency graph, and every
item whose priority an update changes ends up below all items that its
`deps_func` lists.  Sorting by priority then puts dependencies first.
-/

set_option autoImplicit false

namespace Pkgng

open Lib

/-! ## What an update leaves -/

/-- A grading of the items for one type of update: it grows along `deps_func`,
falls along `rdeps_func`, and stays below the recursion limit. -/
structure Graded (u : JobsUniverse) (type : PriorityUpdate) (rank : Addr → Nat) : Prop where
  forward : ∀ it ∈ u.units, ∀ d ∈ type.depsFunc (u.pkg it), ∀ cur ∈ u.chainOf d.uid,
    rank it < rank cur
  backward : ∀ it ∈ u.units, ∀ d ∈ type.rdepsFunc (u.pkg it), ∀ cur ∈ u.chainOf d.uid,
    rank cur < rank it
  along : ∀ it ∈ u.units, ∀ cur ∈ u.chain it, rank cur = rank it
  below : ∀ it, rank it < recursionLimit

section Updates

variable (u : JobsUniverse) (type : PriorityUpdate) (rank : Addr → Nat) (base : Priorities)

/-- All items that `deps_func` leads to, and that the update does not pass over,
have a higher priority. -/
def Settled (prio : Priorities) (it : Addr) : Prop :=
  ∀ d ∈ type.depsFunc (u.pkg it), ∀ cur ∈ u.chainOf d.uid, type.skips (u.pkg cur) = false →
    prio.of it < prio.of cur

def Bounded (prio : Priorities) : Prop := ∀ it ∈ u.units, prio.of it ≤ rank it

/-- Of the items that started at zero, those of at least the rank that have a
priority by now are settled. -/
def Ready (least : Nat) (prio : Priorities) : Prop :=
  ∀ it ∈ u.units, base.of it = 0 → 0 < prio.of it → least ≤ rank it → Settled u type prio it

/-- Priorities have only grown, within the bounds, and whatever has changed is
settled and of at least the rank. -/
structure Raised (least : Nat) (prio prio' : Priorities) : Prop where
  mono : ∀ it, prio.of it ≤ prio'.of it
  bounded : Bounded u rank prio'
  changed : ∀ it, prio'.of it ≠ prio.of it →
    it ∈ u.units ∧ least ≤ rank it ∧ Settled u type prio' it

/-- The items of a list have at least the priority, and those that started at
zero are settled. -/
def Visited (items : List Addr) (priority : Nat) (prio : Priorities) : Prop :=
  ∀ it ∈ items, type.skips (u.pkg it) = false →
    priority ≤ prio.of it ∧ (base.of it = 0 → Settled u type prio it)

/-- What a call with at least the priority does. -/
def UpdateSpec (self : UpdatePriority) (least : Nat) : Prop :=
  ∀ (prio : Priorities) (item : Addr) (priority : Nat), item ∈ u.units → least ≤ priority →
    priority ≤ rank item → Bounded u rank prio → Ready u type rank base (rank item) prio →
      Raised u type rank (rank item) prio (self prio item priority type) ∧
        Visited u type base (u.chain item) priority (self prio item priority type)

variable {u type rank base} {least : Nat} {prio prio' prio'' : Priorities}

theorem Raised.refl (bounded : Bounded u rank prio) : Raised u type rank least prio prio :=
  ⟨fun _ => Nat.le_refl _, bounded, fun _ changed => absurd rfl changed⟩

theorem Raised.stays (raised : Raised u type rank least prio prio') {it : Addr}
    (settled : Settled u type prio it) : Settled u type prio' it := by
  by_cases same : prio'.of it = prio.of it
  · intro d member cur inChain active
    rw [same]
    exact Nat.lt_of_lt_of_le (settled d member cur inChain active) (raised.mono cur)
  · exact (raised.changed it same).2.2

theorem Raised.weaken {lower : Nat} (raised : Raised u type rank least prio prio')
    (le : lower ≤ least) : Raised u type rank lower prio prio' :=
  ⟨raised.mono, raised.bounded, fun it changed =>
    have ⟨reachable, above, settled⟩ := raised.changed it changed
    ⟨reachable, Nat.le_trans le above, settled⟩⟩

theorem Raised.trans (first : Raised u type rank least prio prio')
    (second : Raised u type rank least prio' prio'') : Raised u type rank least prio prio'' := by
  refine ⟨fun it => Nat.le_trans (first.mono it) (second.mono it), second.bounded,
    fun it changed => ?_⟩
  by_cases same : prio''.of it = prio'.of it
  · obtain ⟨reachable, above, settled⟩ := first.changed it (same ▸ changed)
    exact ⟨reachable, above, second.stays settled⟩
  · exact second.changed it same

theorem Ready.raised {other : Nat} (ready : Ready u type rank base least prio)
    (raised : Raised u type rank other prio prio') : Ready u type rank base least prio' := by
  intro it reachable fresh positive above
  by_cases same : prio'.of it = prio.of it
  · exact raised.stays (ready it reachable fresh (same ▸ positive) above)
  · exact (raised.changed it same).2.2

theorem Visited.raised {items : List Addr} {priority : Nat}
    (visited : Visited u type base items priority prio)
    (raised : Raised u type rank least prio prio') : Visited u type base items priority prio' :=
  fun it inItems active =>
    have ⟨high, settled⟩ := visited it inItems active
    ⟨Nat.le_trans high (raised.mono it), fun fresh => raised.stays (settled fresh)⟩

/-- A loop whose turns raise priorities and reach something that later turns
keep. -/
theorem Raised.foldl {β : Type} {step : Priorities → β → Priorities}
    {reached : β → Priorities → Prop}
    (keeps : ∀ x prio prio', Raised u type rank least prio prio' → reached x prio →
      reached x prio')
    {list : List β}
    (turn : ∀ x ∈ list, ∀ prio, Bounded u rank prio → Ready u type rank base least prio →
      Raised u type rank least prio (step prio x) ∧ reached x (step prio x)) :
    ∀ prio, Bounded u rank prio → Ready u type rank base least prio →
      Raised u type rank least prio (list.foldl step prio) ∧
        ∀ x ∈ list, reached x (list.foldl step prio) := by
  induction list with
  | nil => exact fun prio bounded _ => ⟨.refl bounded, by simp⟩
  | cons x rest ih =>
      intro prio bounded ready
      obtain ⟨first, reachedFirst⟩ := turn x (List.mem_cons_self ..) prio bounded ready
      obtain ⟨later, reachedLater⟩ := ih (fun y member => turn y (List.mem_cons_of_mem _ member))
        (step prio x) first.bounded (ready.raised first)
      refine ⟨first.trans later, fun y member => ?_⟩
      rcases List.mem_cons.mp member with rfl | inRest
      · exact keeps y _ _ later reachedFirst
      · exact reachedLater y inRest

variable (inv : u.Chained) (graded : Graded u type rank) {self : UpdatePriority} {priority : Nat}

include inv graded

/-- The loop over `deps_func`. -/
theorem raiseDeps_spec (calls : UpdateSpec u type rank base self (priority + 1)) {it : Addr}
    (reachable : it ∈ u.units) (low : priority ≤ rank it) (bounded : Bounded u rank prio)
    (ready : Ready u type rank base (rank it + 1) prio) {deps : List Dep}
    (listed : ∀ d ∈ deps, d ∈ type.depsFunc (u.pkg it)) :
    Raised u type rank (rank it + 1) prio (raiseDeps u self type priority deps prio) ∧
      ∀ d ∈ deps, ∀ cur ∈ u.chainOf d.uid, type.skips (u.pkg cur) = false →
        priority < (raiseDeps u self type priority deps prio).of cur := by
  refine @Raised.foldl u type rank base (rank it + 1) Dep _
    (fun d prio => ∀ cur ∈ u.chainOf d.uid, type.skips (u.pkg cur) = false →
      priority < prio.of cur) ?_ deps (fun d member prio bounded ready => ?_) prio bounded ready
  · exact fun d prio prio' raised reached cur inChain active =>
      Nat.lt_of_lt_of_le (reached cur inChain active) (raised.mono cur)
  refine @Raised.foldl u type rank base (rank it + 1) Addr _
    (fun cur prio => type.skips (u.pkg cur) = false → priority < prio.of cur) ?_ (u.chainOf d.uid)
    (fun cur inChain prio bounded ready => ?_) prio bounded ready
  · exact fun cur prio prio' raised reached active =>
      Nat.lt_of_lt_of_le (reached active) (raised.mono cur)
  have deeper := graded.forward it reachable d (listed d member) cur inChain
  split
  · have curReachable := (JobsUniverse.mem_chainOf inv inChain).1
    obtain ⟨raised, visited⟩ := calls prio cur (priority + 1) curReachable (Nat.le_refl _)
      (by omega) bounded fun other reachable fresh positive above =>
        ready other reachable fresh positive (by omega)
    exact ⟨raised.weaken deeper, fun active =>
      (visited cur (JobsUniverse.mem_chain_self inv curReachable) active).1⟩
  · next high => exact ⟨.refl bounded, fun _ => by omega⟩

omit inv in
/-- The priority that `rdeps_func` asks for stays within the bounds. -/
theorem maxPriority_bounds {it : Addr} (reachable : it ∈ u.units) (low : priority ≤ rank it)
    (curReachable : ∀ uid, ∀ cur ∈ u.chainOf uid, cur ∈ u.units) (bounded : Bounded u rank prio)
    {rdeps : List Dep} (listed : ∀ d ∈ rdeps, d ∈ type.rdepsFunc (u.pkg it)) :
    priority ≤ maxPriority u rdeps prio priority ∧
      maxPriority u rdeps prio priority ≤ rank it := by
  refine List.foldlRecOn (motive := fun maxpri => priority ≤ maxpri ∧ maxpri ≤ rank it) rdeps _
    ⟨Nat.le_refl _, low⟩ fun maxpri bounds d member => ?_
  refine List.foldlRecOn (motive := fun maxpri => priority ≤ maxpri ∧ maxpri ≤ rank it)
    (u.chainOf d.uid) _ bounds fun maxpri bounds cur inChain => ?_
  have lower := graded.backward it reachable d (listed d member) cur inChain
  have within := bounded cur (curReachable d.uid cur inChain)
  split <;> omega

/-- The item gets the priority, and what it leads to is raised above it. -/
theorem setAndRaise_spec (calls : UpdateSpec u type rank base self (priority + 1)) {it : Addr}
    (reachable : it ∈ u.units) (low : priority ≤ rank it) (old : prio.of it ≤ priority)
    (bounded : Bounded u rank prio) (ready : Ready u type rank base (rank it) prio)
    {after : Priorities} (result : after = raiseDeps u self type priority
      (type.depsFunc (u.pkg it)) (prio.set it priority)) :
    Raised u type rank (rank it) prio after ∧ after.of it = priority ∧
      Settled u type after it := by
  have grows : ∀ other, prio.of other ≤ (prio.set it priority).of other := fun other => by
    by_cases same : other = it
    · rw [same, Priorities.set_self]
      exact old
    · rw [Priorities.set_other prio priority same]
  have boundedSet : Bounded u rank (prio.set it priority) := fun other otherReachable => by
    by_cases same : other = it
    · rw [same, Priorities.set_self]
      exact low
    · rw [Priorities.set_other prio priority same]
      exact bounded other otherReachable
  have readySet : Ready u type rank base (rank it + 1) (prio.set it priority) := by
    intro other otherReachable fresh positive above
    have apart : other ≠ it := fun same => by
      rw [same] at above
      omega
    rw [Priorities.set_other prio priority apart] at positive
    intro d member cur inChain active
    rw [Priorities.set_other prio priority apart]
    exact Nat.lt_of_lt_of_le
      (ready other otherReachable fresh positive (by omega) d member cur inChain active)
      (grows cur)
  obtain ⟨raised, reached⟩ := raiseDeps_spec inv graded calls reachable low boundedSet readySet
    fun d (listed : d ∈ type.depsFunc (u.pkg it)) => listed
  rw [← result] at raised reached
  have kept : after.of it = priority := by
    by_contra changed
    have above := (raised.changed it (by rwa [Priorities.set_self])).2.1
    omega
  have settled : Settled u type after it := fun d member cur inChain active => by
    rw [kept]
    exact reached d member cur inChain active
  refine ⟨⟨fun other => Nat.le_trans (grows other) (raised.mono other), raised.bounded,
    fun other changed => ?_⟩, kept, settled⟩
  by_cases same : other = it
  · rw [same]
    exact ⟨reachable, Nat.le_refl _, settled⟩
  · rw [← Priorities.set_other prio priority same] at changed
    obtain ⟨otherReachable, above, otherSettled⟩ := raised.changed other changed
    exact ⟨otherReachable, by omega, otherSettled⟩

/-- The loop over the rest of a chain. -/
theorem updateItems_spec (plain : ∀ it ∈ u.units, (u.pkg it).conflicts = [])
    (calls : UpdateSpec u type rank base self (priority + 1)) :
    ∀ {items : List Addr} {prio : Priorities}, u.Spells items →
      (∀ it ∈ items, it ∈ u.units ∧ rank it = least) → priority ≤ least →
      Bounded u rank prio → Ready u type rank base least prio →
      Raised u type rank least prio (updateItems u self priority type items prio) ∧
        Visited u type base items priority (updateItems u self priority type items prio) := by
  intro items
  induction items with
  | nil => exact fun _ _ _ bounded _ => ⟨.refl bounded, by simp [Visited, updateItems]⟩
  | cons it rest ih =>
      intro prio spells here low bounded ready
      obtain ⟨spelled, spellsRest⟩ := spells
      obtain ⟨reachable, ranked⟩ := here it (List.mem_cons_self ..)
      have hereRest := fun other member => here other (List.mem_cons_of_mem _ member)
      -- What is left to do once `it` has been dealt with.
      have later : ∀ mid : Priorities, Raised u type rank least prio mid →
          (type.skips (u.pkg it) = false →
            priority ≤ mid.of it ∧ (base.of it = 0 → Settled u type mid it)) →
          Raised u type rank least prio (updateItems u self priority type rest mid) ∧
            Visited u type base (it :: rest) priority
              (updateItems u self priority type rest mid) := by
        intro mid first dealt
        obtain ⟨raised, visited⟩ :=
          ih spellsRest hereRest low first.bounded (ready.raised first)
        refine ⟨first.trans raised, fun other inItems active => ?_⟩
        rcases List.mem_cons.mp inItems with rfl | inRest
        · obtain ⟨high, settled⟩ := dealt active
          exact ⟨Nat.le_trans high (raised.mono _), fun fresh => raised.stays (settled fresh)⟩
        · exact visited other inRest active
      rw [updateItems]
      split
      · next skipped => exact later prio (.refl bounded) fun active => by simp [active] at skipped
      · split
        · next above =>
            exact later prio (.refl bounded) fun _ => ⟨Nat.le_of_lt above, fun fresh =>
              ready it reachable fresh (by omega) (Nat.le_of_eq ranked.symm)⟩
        · next old =>
            dsimp only
            generalize raised : raiseDeps u self type priority (type.depsFunc (u.pkg it))
              (prio.set it priority) = mid
            obtain ⟨first, kept, settled⟩ := setAndRaise_spec inv graded calls reachable
              (ranked ▸ low) (by omega) bounded (ranked ▸ ready) raised.symm
            rw [ranked] at first
            obtain ⟨atLeast, within⟩ := maxPriority_bounds graded reachable (ranked ▸ low)
              (fun uid cur inChain => (JobsUniverse.mem_chainOf inv inChain).1) first.bounded
              fun d (listed : d ∈ type.rdepsFunc (u.pkg it)) => listed
            have dealt : type.skips (u.pkg it) = false →
                priority ≤ mid.of it ∧ (base.of it = 0 → Settled u type mid it) :=
              fun _ => ⟨Nat.le_of_eq kept.symm, fun _ => settled⟩
            split
            · -- The call for the higher priority takes over the rest of the chain.
              obtain ⟨second, visited⟩ := calls mid it _ reachable (by omega) within
                first.bounded (ranked ▸ ready.raised first)
              rw [ranked] at second
              refine ⟨first.trans second, fun other inItems active => ?_⟩
              obtain ⟨high, settledOther⟩ := visited other (spelled ▸ inItems) active
              exact ⟨Nat.le_trans atLeast high, settledOther⟩
            · split
              · exact later mid first dealt
              · rw [plain it reachable]
                exact later mid first dealt

/-- `pkg_jobs_update_universe_item_priority` at any depth that its priority
leaves. -/
theorem updateItemPriority_spec (plain : ∀ it ∈ u.units, (u.pkg it).conflicts = []) :
    ∀ {depth least : Nat}, recursionLimit < depth + least →
      UpdateSpec u type rank base (updateItemPriority u depth) least := by
  intro depth
  induction depth with
  | zero =>
      intro least enough prio item priority _ above low
      have := graded.below item
      omega
  | succ depth ih =>
      intro least enough prio item priority reachable above low bounded ready
      have below := graded.below item
      rw [updateItemPriority, if_neg (by omega)]
      exact updateItems_spec inv graded plain (@ih (priority + 1) (by omega))
        (JobsUniverse.spells_chain inv reachable)
        (fun it later =>
          ⟨(JobsUniverse.mem_chain inv reachable later).1, graded.along item reachable it later⟩)
        low bounded ready

end Updates

/-! ## The jobs -/

section Passes

variable {u : JobsUniverse} {type : PriorityUpdate} {rank : Addr → Nat} {jobs : List Solved}

/-- A list of requests that all make updates of one type, none of which is
passed over. -/
structure Uniform (u : JobsUniverse) (type : PriorityUpdate) (jobs : List Solved) : Prop where
  reachable : ∀ req ∈ jobs, ∀ item ∈ req.units, item ∈ u.units
  update : ∀ req ∈ jobs, requestUpdate req = type
  active : ∀ req ∈ jobs, type.skips (u.pkg req.items0) = false

theorem conflictingLocal_eq_none (plain : ∀ it ∈ u.units, (u.pkg it).conflicts = [])
    {req : Solved} (reachable : ∀ item ∈ req.units, item ∈ u.units) :
    conflictingLocal u req = none := by
  refine Option.eq_none_iff_forall_ne_some.mpr fun lp split => ?_
  obtain ⟨_, second, conflicting⟩ := conflictingLocal_eq_some.mp split
  exact conflicting (plain lp (reachable lp (by simp [Solved.units, second])))

variable (inv : u.Chained) (graded : Graded u type rank)
  (plain : ∀ it ∈ u.units, (u.pkg it).conflicts = [])

include inv graded plain

/-- The loop over the requests settles the items of all of them. -/
theorem setRequestPriorities_spec {base : Priorities} : ∀ {rest seen : List Solved}
    {prio : Priorities}, Uniform u type rest → (∀ req ∈ rest, base.of req.items0 = 0) →
    Bounded u rank prio → Ready u type rank base 0 prio →
    ∃ prio', setRequestPriorities u seen rest prio = some (seen ++ rest, prio', false) ∧
      Raised u type rank 0 prio prio' ∧ ∀ req ∈ rest, Settled u type prio' req.items0 := by
  intro rest
  induction rest with
  | nil => exact fun _ _ bounded _ => ⟨_, by simp [setRequestPriorities], .refl bounded, by simp⟩
  | cons req rest ih =>
      intro seen prio uniform fresh bounded ready
      have unitsReachable := uniform.reachable req (List.mem_cons_self ..)
      have reachable := unitsReachable req.items0 (List.mem_cons_self ..)
      have active := uniform.active req (List.mem_cons_self ..)
      have zero := fresh req (List.mem_cons_self ..)
      have here : ∃ mid, pkgJobsSetRequestPriority u req prio = some (mid, none) ∧
          Raised u type rank 0 prio mid ∧ Settled u type mid req.items0 := by
        rw [pkgJobsSetRequestPriority, conflictingLocal_eq_none plain unitsReachable]
        dsimp only
        split
        · have update : (if req.type = .delete then PriorityUpdate.delete else .request) = type :=
            uniform.update req (List.mem_cons_self ..)
          rw [update]
          have deep : recursionLimit < recursionLimit + 1 + 0 := Nat.lt_succ_self _
          obtain ⟨raised, visited⟩ := updateItemPriority_spec inv graded plain deep prio req.items0
            0 reachable (Nat.zero_le _) (Nat.zero_le _) bounded
            fun it itReachable itFresh positive _ =>
              ready it itReachable itFresh positive (Nat.zero_le _)
          exact ⟨_, rfl, raised.weaken (Nat.zero_le _),
            (visited _ (JobsUniverse.mem_chain_self inv reachable) active).2 zero⟩
        · next positive =>
            exact ⟨prio, rfl, .refl bounded,
              ready _ reachable zero (Nat.pos_of_ne_zero positive) (Nat.zero_le _)⟩
      obtain ⟨mid, step, raised, settled⟩ := here
      obtain ⟨prio', loop, later, settledRest⟩ := @ih (seen ++ [req]) mid
        ⟨fun other member => uniform.reachable other (List.mem_cons_of_mem _ member),
          fun other member => uniform.update other (List.mem_cons_of_mem _ member),
          fun other member => uniform.active other (List.mem_cons_of_mem _ member)⟩
        (fun other member => fresh other (List.mem_cons_of_mem _ member)) raised.bounded
        (ready.raised raised)
      refine ⟨prio', ?_, raised.trans later, fun other member => ?_⟩
      · rw [setRequestPriorities, step]
        simpa using loop
      · rcases List.mem_cons.mp member with rfl | inRest
        · exact later.stays settled
        · exact settledRest other inRest

/-- One pass. -/
theorem pkgJobsSetPriorities_spec {prio : Priorities} (uniform : Uniform u type jobs)
    (bounded : Bounded u rank prio) :
    ∃ prio', pkgJobsSetPriorities u jobs prio = some (sortJobs prio' jobs, prio') ∧
      Bounded u rank prio' ∧ ∀ req ∈ jobs, Settled u type prio' req.items0 := by
  have lower : ∀ it, (resetPriorities jobs prio).of it ≤ prio.of it := fun it => by
    rw [resetPriorities_of]
    split <;> omega
  obtain ⟨prio', loop, raised, settled⟩ := @setRequestPriorities_spec u type rank inv graded plain
    (resetPriorities jobs prio) jobs [] (resetPriorities jobs prio) uniform
    (fun req member => by
      rw [resetPriorities_of, if_pos ⟨req, member, List.mem_cons_self ..⟩])
    (fun it reachable => Nat.le_trans (lower it) (bounded it reachable))
    (fun it _ fresh positive => by omega)
  refine ⟨prio', ?_, raised.bounded, settled⟩
  rw [pkgJobsSetPriorities, iterPriorities, loop]
  rfl

end Passes

section Passes

variable {u : JobsUniverse} {type : PriorityUpdate} {rank : Addr → Nat} {jobs : List Solved}

theorem Uniform.perm {jobs' : List Solved} (uniform : Uniform u type jobs)
    (perm : jobs'.Perm jobs) : Uniform u type jobs' :=
  ⟨fun req member => uniform.reachable req (perm.mem_iff.mp member),
    fun req member => uniform.update req (perm.mem_iff.mp member),
    fun req member => uniform.active req (perm.mem_iff.mp member)⟩

/-- Any number of passes but zero. -/
theorem passes_spec (inv : u.Chained) (graded : Graded u type rank)
    (plain : ∀ it ∈ u.units, (u.pkg it).conflicts = []) (uniform : Uniform u type jobs) (n : Nat) :
    ∃ before prio, passes u jobs (n + 1) = some (sortJobs prio before, prio) ∧
      before.Perm jobs ∧ Bounded u rank prio ∧ ∀ req ∈ jobs, Settled u type prio req.items0 := by
  have step : ∀ n before old, passes u jobs n = some (before, old) →
      before.Perm jobs → Bounded u rank old →
      ∃ before prio, passes u jobs (n + 1) = some (sortJobs prio before, prio) ∧
        before.Perm jobs ∧ Bounded u rank prio ∧ ∀ req ∈ jobs, Settled u type prio req.items0 := by
    intro n before old ran perm bounded
    obtain ⟨prio, pass, boundedAfter, settled⟩ :=
      pkgJobsSetPriorities_spec inv graded plain (uniform.perm perm) bounded
    refine ⟨before, prio, ?_, perm, boundedAfter,
      fun req member => settled req (perm.mem_iff.mpr member)⟩
    rw [passes, ran]
    exact pass
  induction n with
  | zero => exact step 0 jobs {} rfl (.refl _) fun _ _ => Nat.zero_le _
  | succ n ih =>
      obtain ⟨before, old, ran, perm, bounded, _⟩ := ih
      exact step (n + 1) _ old ran ((sortJobs_perm old before).trans perm) bounded

end Passes

/-! ## The dependency relation -/

namespace JobsUniverse

/-- The edges of the dependency lists together with those of the reverse
dependency lists, between the uids of the universe. -/
def DependsOn (u : JobsUniverse) (x y : Uid) : Prop :=
  u.Present x ∧ u.Present y ∧
    ((∃ it ∈ u.units, (u.pkg it).uid = x ∧ y ∈ (u.pkg it).depUids) ∨
      ∃ it ∈ u.units, (u.pkg it).uid = y ∧ x ∈ (u.pkg it).rdepUids)

variable {u : JobsUniverse}

theorem present_of_mem {it : Addr} (reachable : it ∈ u.units) : u.Present (u.pkg it).uid :=
  ⟨it, reachable, rfl⟩

theorem dependsOn_of_dep (inv : u.Chained) {it cur : Addr} {d : Dep} (reachable : it ∈ u.units)
    (listed : d ∈ (u.pkg it).deps) (inChain : cur ∈ u.chainOf d.uid) :
    u.DependsOn (u.pkg it).uid (u.pkg cur).uid := by
  obtain ⟨curReachable, sameUid, _⟩ := mem_chainOf inv inChain
  refine ⟨present_of_mem reachable, present_of_mem curReachable,
    Or.inl ⟨it, reachable, rfl, ?_⟩⟩
  rw [sameUid]
  exact List.mem_map_of_mem listed

theorem dependsOn_of_rdep (inv : u.Chained) {it cur : Addr} {d : Dep} (reachable : it ∈ u.units)
    (listed : d ∈ (u.pkg it).rdeps) (inChain : cur ∈ u.chainOf d.uid) :
    u.DependsOn (u.pkg cur).uid (u.pkg it).uid := by
  obtain ⟨curReachable, sameUid, _⟩ := mem_chainOf inv inChain
  refine ⟨present_of_mem curReachable, present_of_mem reachable,
    Or.inr ⟨it, reachable, rfl, ?_⟩⟩
  rw [sameUid]
  exact List.mem_map_of_mem listed

/-- A grading of the uids that the lists of the packages respect. -/
theorem shallow_of_rank (rank : Uid → Nat) (below : ∀ uid, rank uid < recursionLimit)
    (respected : ∀ it ∈ u.units,
      (∀ y ∈ (u.pkg it).depUids, rank (u.pkg it).uid < rank y) ∧
      ∀ x ∈ (u.pkg it).rdepUids, rank x < rank (u.pkg it).uid) :
    Shallow u.DependsOn recursionLimit := by
  refine .of_rank rank (fun x y edge => ?_) below
  obtain ⟨_, _, ⟨it, reachable, rfl, listed⟩ | ⟨it, reachable, rfl, listed⟩⟩ := edge
  · exact (respected it reachable).1 y listed
  · exact (respected it reachable).2 x listed

variable (inv : u.Chained) (shallow : Shallow u.DependsOn recursionLimit)

include inv shallow

theorem graded_request : Graded u .request fun it => depth u.DependsOn (u.pkg it).uid where
  forward _ reachable _ listed _ inChain :=
    shallow.depth_lt_of_edge (dependsOn_of_dep inv reachable listed inChain)
  backward _ reachable _ listed _ inChain :=
    shallow.depth_lt_of_edge (dependsOn_of_rdep inv reachable listed inChain)
  along it reachable cur inChain := by
    rw [(mem_chain inv reachable inChain).2]
  below _ := shallow.depth_lt_nodes _

theorem graded_delete :
    Graded u .delete fun it => depth (fun x y => u.DependsOn y x) (u.pkg it).uid where
  forward _ reachable _ listed _ inChain :=
    shallow.flip.depth_lt_of_edge (dependsOn_of_rdep inv reachable listed inChain)
  backward _ reachable _ listed _ inChain :=
    shallow.flip.depth_lt_of_edge (dependsOn_of_dep inv reachable listed inChain)
  along it reachable cur inChain := by
    rw [(mem_chain inv reachable inChain).2]
  below _ := shallow.flip.depth_lt_nodes _

end JobsUniverse

/-- The job that comes second never lists the first one's item. -/
theorem settled_precedes {u : JobsUniverse} (inv : u.Chained) {type : PriorityUpdate}
    {prio : Priorities} {jobs : List Solved} {i k : Nat} {a b : Solved}
    (settled : Settled u type prio a.items0) (reachable : b.items0 ∈ u.units)
    (active : type.skips (u.pkg b.items0) = false)
    (listed : (u.pkg b.items0).uid ∈ (type.depsFunc (u.pkg a.items0)).map Dep.uid)
    (atI : (sortJobs prio jobs)[i]? = some a) (atK : (sortJobs prio jobs)[k]? = some b) :
    k < i := by
  obtain ⟨d, member, sameUid⟩ := List.mem_map.mp listed
  refine sortJobs_precedes atI atK (settled d member b.items0 ?_ active)
  rw [sameUid]
  exact JobsUniverse.mem_chainOf_uid inv reachable

/-- Where the dependencies and the reverse dependencies of the universe together
have no path of more than `recursionLimit` packages, and no package has
conflicts, every number of passes succeeds and orders the jobs: installations
after those of what they depend on, deletions before those of what lists them as
a reverse dependency. -/
theorem dependencies_ordered {u : JobsUniverse} (inv : u.Chained)
    (shallow : Shallow u.DependsOn recursionLimit)
    (plain : ∀ it ∈ u.units, (u.pkg it).conflicts = []) {jobs : List Solved}
    (reachable : ∀ req ∈ jobs, ∀ item ∈ req.units, item ∈ u.units) (n : Nat) :
    ((∀ req ∈ jobs, req.type = .install ∨ req.type = .upgrade) →
      ∃ sorted prio, passes u jobs (n + 1) = some (sorted, prio) ∧ sorted.Perm jobs ∧
        ∀ (i k : Nat) (a b : Solved), sorted[i]? = some a → sorted[k]? = some b →
          (u.pkg b.items0).uid ∈ (u.pkg a.items0).depUids → k < i) ∧
    ((∀ req ∈ jobs, req.type = .delete ∧ (u.pkg req.items0).isInstalled = true) →
      ∃ sorted prio, passes u jobs (n + 1) = some (sorted, prio) ∧ sorted.Perm jobs ∧
        ∀ (i k : Nat) (x y : Solved), sorted[i]? = some x → sorted[k]? = some y →
          (u.pkg y.items0).uid ∈ (u.pkg x.items0).depUids →
          (u.pkg x.items0).uid ∈ (u.pkg y.items0).rdepUids → i < k) := by
  refine ⟨fun installs => ?_, fun deletes => ?_⟩
  · have uniform : Uniform u .request jobs := by
      refine ⟨reachable, fun req member => ?_, fun req _ => by simp [PriorityUpdate.skips]⟩
      rcases installs req member with type | type <;> simp [requestUpdate, type]
    obtain ⟨before, prio, ran, perm, _, settled⟩ :=
      passes_spec inv (JobsUniverse.graded_request inv shallow) plain uniform n
    have sortedPerm := (sortJobs_perm prio before).trans perm
    refine ⟨_, prio, ran, sortedPerm, fun i k a b atI atK listed => ?_⟩
    have aMember := sortedPerm.mem_iff.mp (List.mem_of_getElem? atI)
    have bMember := sortedPerm.mem_iff.mp (List.mem_of_getElem? atK)
    exact settled_precedes inv (settled a aMember)
      (reachable b bMember _ (List.mem_cons_self ..)) (uniform.active b bMember)
      (by simpa [PriorityUpdate.depsFunc, Pkg.depUids] using listed) atI atK
  · have uniform : Uniform u .delete jobs :=
      ⟨reachable, fun req member => by simp [requestUpdate, (deletes req member).1],
        fun req member => by simp only [PriorityUpdate.skips, (deletes req member).2]; rfl⟩
    obtain ⟨before, prio, ran, perm, _, settled⟩ :=
      passes_spec inv (JobsUniverse.graded_delete inv shallow) plain uniform n
    have sortedPerm := (sortJobs_perm prio before).trans perm
    refine ⟨_, prio, ran, sortedPerm, fun i k x y atI atK _ listed => ?_⟩
    have xMember := sortedPerm.mem_iff.mp (List.mem_of_getElem? atI)
    have yMember := sortedPerm.mem_iff.mp (List.mem_of_getElem? atK)
    exact settled_precedes inv (settled y yMember)
      (reachable x xMember _ (List.mem_cons_self ..)) (uniform.active x xMember)
      (by simpa [PriorityUpdate.depsFunc, Pkg.rdepUids] using listed) atK atI

/-- `app`, which depends on `lib`, and `lib`. -/
def appAndLib : JobsUniverse :=
  JobsUniverse.ofPackages Pkg.digest
    [{ type := .remote, uid := "app", digest := some "1", deps := [⟨"lib", "lib", ""⟩] },
     { type := .remote, uid := "lib", digest := some "2", rdeps := [⟨"app", "app", ""⟩] }]

theorem appAndLib_ordered :
    ∃ sorted prio,
      passes appAndLib [{ items0 := 0, type := .install }, { items0 := 1, type := .install }] 1 =
        some (sorted, prio) ∧
      sorted.Perm [{ items0 := 0, type := .install }, { items0 := 1, type := .install }] ∧
        ∀ (i k : Nat) (a b : Solved), sorted[i]? = some a → sorted[k]? = some b →
          (appAndLib.pkg b.items0).uid ∈ (appAndLib.pkg a.items0).depUids → k < i := by
  refine (dependencies_ordered (JobsUniverse.repInv_ofPackages _ _).toChained
    (JobsUniverse.shallow_of_rank (fun uid => if uid = "lib" then 1 else 0) (fun uid => ?_) ?_) ?_
    ?_ 0).1 ?_
  · split <;> decide
  all_goals decide

/-- Four installed packages, each depending on the next one, where `y` does not
list `x` as a reverse dependency. -/
def unlistedReverse : JobsUniverse :=
  JobsUniverse.ofPackages Pkg.digest
    [{ type := .installed, uid := "x", digest := some "1", deps := [⟨"y", "y", ""⟩] },
     { type := .installed, uid := "y", digest := some "2", deps := [⟨"z", "z", ""⟩] },
     { type := .installed, uid := "z", digest := some "3", deps := [⟨"w", "w", ""⟩],
       rdeps := [⟨"y", "y", ""⟩] },
     { type := .installed, uid := "w", digest := some "4", rdeps := [⟨"z", "z", ""⟩] }]

/-- The jobs that delete all four packages. -/
def deleteAll : List Solved := (List.range 4).map fun item => { items0 := item, type := .delete }

/-- `y` is deleted before `x`, which depends on it. -/
theorem unlistedReverse_misordered :
    unlistedReverse.Chained ∧ Shallow unlistedReverse.DependsOn recursionLimit ∧
      (∀ it ∈ unlistedReverse.units, (unlistedReverse.pkg it).conflicts = []) ∧
      (∀ req ∈ deleteAll, req.items0 ∈ unlistedReverse.units ∧ req.type = .delete ∧
        (unlistedReverse.pkg req.items0).isInstalled = true) ∧
      ∃ sorted prio, passes unlistedReverse deleteAll 1 = some (sorted, prio) ∧
        ¬ ∀ (i k : Nat) (x y : Solved), sorted[i]? = some x → sorted[k]? = some y →
          (unlistedReverse.pkg y.items0).uid ∈ (unlistedReverse.pkg x.items0).depUids → i < k := by
  refine ⟨(JobsUniverse.repInv_ofPackages _ _).toChained,
    JobsUniverse.shallow_of_rank
      (fun uid => if uid = "x" then 0 else if uid = "y" then 1 else if uid = "z" then 2 else 3)
      (fun uid => ?_) ?_, ?_, ?_, ?_⟩
  · split
    · decide
    · split
      · decide
      · split <;> decide
  · decide
  · decide
  · decide
  · have order : (passes unlistedReverse deleteAll 1).map Prod.fst =
        some ([1, 0, 2, 3].map fun item => { items0 := item, type := .delete }) := by
      decide +kernel
    obtain ⟨⟨sorted, prio⟩, ran, rfl⟩ := Option.map_eq_some_iff.mp order
    refine ⟨_, prio, ran, fun ordered => ?_⟩
    have := ordered 1 0 { items0 := 0, type := .delete } { items0 := 1, type := .delete } rfl rfl
      (by decide)
    omega

end Pkgng
