import Mathlib.Algebra.BigOperators.Group.Finset.Piecewise

/-!
# Runs of a partial step function

A system is a step function that answers `none` where an event is not enabled.
`MeetsAlong` states a condition on every step of a run, each in the state the
step starts from.
-/

set_option autoImplicit false

namespace Pkgng.Lib

variable {State Event : Type} (step : State → Event → Option State)

def runEvents : State → List Event → Option State
  | state, [] => some state
  | state, event :: rest => (step state event).bind fun next => runEvents next rest

/-- Every event of the list meets the condition in the state it is executed in. -/
def MeetsAlong (condition : State → Event → Prop) : State → List Event → Prop
  | _, [] => True
  | state, event :: rest =>
      condition state event ∧
        ∀ next, step state event = some next → MeetsAlong condition next rest

variable {step}

theorem runEvents_cons {state final : State} {event : Event} {rest : List Event}
    (run : runEvents step state (event :: rest) = some final) :
    ∃ next, step state event = some next ∧ runEvents step next rest = some final :=
  Option.bind_eq_some_iff.mp run

theorem meetsAlong_cons {condition : State → Event → Prop} {state next : State} {event : Event}
    {rest : List Event} (here : condition state event) (stepRun : step state event = some next)
    (later : MeetsAlong step condition next rest) :
    MeetsAlong step condition state (event :: rest) := by
  refine ⟨here, fun other otherRun => ?_⟩
  rw [stepRun] at otherRun
  cases otherRun
  exact later

theorem meetsAlong_of_forall {condition : State → Event → Prop} {events : List Event}
    (always : ∀ event ∈ events, ∀ state, condition state event) (state : State) :
    MeetsAlong step condition state events := by
  induction events generalizing state with
  | nil => trivial
  | cons event rest ih =>
      exact ⟨always event (List.mem_cons_self ..) state, fun next _ =>
        ih (fun other member => always other (List.mem_cons_of_mem _ member)) next⟩

theorem MeetsAlong.and {first second : State → Event → Prop} {state : State}
    {events : List Event} (left : MeetsAlong step first state events)
    (right : MeetsAlong step second state events) :
    MeetsAlong step (fun state event => first state event ∧ second state event) state events := by
  induction events generalizing state with
  | nil => trivial
  | cons event rest ih =>
      refine ⟨⟨left.1, right.1⟩, fun next stepRun => ?_⟩
      exact ih (left.2 next stepRun) (right.2 next stepRun)

/-- An invariant that every step within the condition preserves holds at the end
of every run within the condition. -/
theorem runEvents_invariant {condition : State → Event → Prop} {invariant : State → Prop}
    (preserved : ∀ state event next, invariant state → condition state event →
      step state event = some next → invariant next)
    {state final : State} {events : List Event}
    (run : runEvents step state events = some final)
    (meets : MeetsAlong step condition state events) (initially : invariant state) :
    invariant final := by
  induction events generalizing state with
  | nil =>
      cases Option.some.inj run
      exact initially
  | cons event rest ih =>
      obtain ⟨next, stepRun, restRun⟩ := runEvents_cons run
      apply ih restRun (meets.2 next stepRun)
      exact preserved state event next initially meets.1 stepRun

/-- An invariant that every step preserves holds at the end of every run. -/
theorem runEvents_preserves {invariant : State → Prop}
    (preserved : ∀ state event next, invariant state → step state event = some next →
      invariant next)
    {state final : State} {events : List Event}
    (run : runEvents step state events = some final) (initially : invariant state) :
    invariant final := by
  induction events generalizing state with
  | nil =>
      cases Option.some.inj run
      exact initially
  | cons event rest ih =>
      obtain ⟨next, stepRun, restRun⟩ := runEvents_cons run
      exact ih restRun (preserved state event next initially stepRun)

/-- A run is no longer than what each of its steps lowers. -/
theorem runEvents_length_le {condition : State → Event → Prop} {invariant : State → Prop}
    (left : State → Nat)
    (lowers : ∀ state event next, invariant state → condition state event →
      step state event = some next → invariant next ∧ left next < left state)
    {state final : State} {events : List Event}
    (run : runEvents step state events = some final)
    (meets : MeetsAlong step condition state events) (initially : invariant state) :
    events.length + left final ≤ left state := by
  induction events generalizing state with
  | nil =>
      cases Option.some.inj run
      exact Nat.le_of_eq (Nat.zero_add _)
  | cons event rest ih =>
      obtain ⟨next, stepRun, restRun⟩ := runEvents_cons run
      obtain ⟨kept, lower⟩ := lowers state event next initially meets.1 stepRun
      have bound := ih restRun (meets.2 next stepRun) kept
      rw [List.length_cons]
      omega

theorem runEvents_append {state next : State} {first second : List Event}
    (run : runEvents step state first = some next) :
    runEvents step state (first ++ second) = runEvents step next second := by
  induction first generalizing state with
  | nil => rw [← Option.some.inj run, List.nil_append]
  | cons event rest ih =>
      obtain ⟨between, stepRun, restRun⟩ := runEvents_cons run
      rw [List.cons_append, runEvents, stepRun, Option.bind_some, ih restRun]

/-- A run goes on to its end where every state before it leads to one with less left. -/
theorem exists_run_of_measure (invariant ended : State → Prop) (left : State → Nat)
    (goesOn : ∀ state, invariant state → ¬ended state →
      ∃ events next, runEvents step state events = some next ∧ invariant next ∧
        left next < left state)
    {state : State} (initially : invariant state) :
    ∃ events final, runEvents step state events = some final ∧ ended final := by
  induction bound : left state using Nat.strongRecOn generalizing state with
  | ind bound ih =>
      by_cases done : ended state
      · exact ⟨[], state, rfl, done⟩
      · obtain ⟨first, next, run, invNext, less⟩ := goesOn state initially done
        obtain ⟨rest, final, restRun, finalEnded⟩ := ih (left next) (bound ▸ less) invNext rfl
        exact ⟨first ++ rest, final, by rw [runEvents_append run, restRun], finalEnded⟩

/-- What a sum over processes becomes when one of them takes a step. -/
theorem sum_step {Pid Proc : Type} [Fintype Pid] [DecidableEq Pid] (weight : Proc → Nat)
    (procs : Pid → Proc) (pid : Pid) (proc : Proc) :
    ∑ other, weight (Function.update procs pid proc other) + weight (procs pid) =
      ∑ other, weight (procs other) + weight proc := by
  have summands : (fun other => weight (Function.update procs pid proc other)) =
      Function.update (fun other => weight (procs other)) pid (weight proc) :=
    funext fun other => Function.apply_update (fun _ proc => weight proc) procs pid proc other
  have before := Finset.add_sum_erase Finset.univ (fun other => weight (procs other))
    (Finset.mem_univ pid)
  rw [summands, Finset.sum_update_of_mem (Finset.mem_univ pid), Finset.sdiff_singleton_eq_erase]
  omega

end Pkgng.Lib
