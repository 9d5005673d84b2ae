/-!
# Steps that may fail

A step changes a state and either returns or fails; what a failed step has done stays.  An
invariant is kept by a step if it holds again when the step returns, and something weaker is
known when it fails.
-/

set_option autoImplicit false

namespace Pkgng.Lib

/-- A step over the state `S`. -/
abbrev Fallible (S α : Type) := EStateM Unit S α

variable {S α β : Type}

theorem read_bind (next : S → Fallible S β) (s : S) : (get >>= next) s = next s s := rfl

/-- What holds of an outcome: `returned` of the state behind a return, `failed` behind a failure. -/
def Ends (returned failed : S → Prop) : EStateM.Result Unit S α → Prop
  | .ok _ s => returned s
  | .error _ s => failed s

/-- From a state with `inv`, the step returns with `inv` or fails with `failed`. -/
def Keeps (inv failed : S → Prop) (step : Fallible S α) : Prop :=
  ∀ s, inv s → Ends inv failed (step s)

namespace Keeps

variable {inv failed : S → Prop}

theorem pure (a : α) : Keeps inv failed (Pure.pure a : Fallible S α) := fun _ holds => holds

theorem fail (weakens : ∀ s, inv s → failed s) : Keeps inv failed (throw () : Fallible S α) :=
  weakens

theorem bind {first : Fallible S α} {next : α → Fallible S β} (keepsFirst : Keeps inv failed first)
    (keepsNext : ∀ a, Keeps inv failed (next a)) : Keeps inv failed (first >>= next) := by
  intro s holds
  have outcome := keepsFirst s holds
  show Ends inv failed (EStateM.bind first next s)
  unfold EStateM.bind
  cases ran : first s with
  | ok a s' =>
      rw [ran] at outcome
      exact keepsNext a s' outcome
  | error e s' =>
      rw [ran] at outcome
      exact outcome

theorem forM {list : List β} {step : β → Fallible S PUnit}
    (keeps : ∀ x ∈ list, Keeps inv failed (step x)) : Keeps inv failed (list.forM step) := by
  induction list with
  | nil => exact Keeps.pure _
  | cons x rest ih =>
      exact (keeps x (List.mem_cons_self ..)).bind fun _ =>
        ih fun y member => keeps y (List.mem_cons_of_mem _ member)

/-- The value that was read may depend on the state. -/
theorem read {next : S → Fallible S β} (keeps : ∀ s, Keeps inv failed (next s)) :
    Keeps inv failed (get >>= next) := fun s holds => keeps s s holds

end Keeps

/-- A step that returns keeps the invariant and changes a view of the state. -/
def Acts {V : Type} (inv : S → Prop) (view : S → V) (step : Fallible S Unit) (change : V → V) :
    Prop :=
  ∀ s s', inv s → step s = .ok () s' → inv s' ∧ view s' = change (view s)

theorem bind_ok {first : Fallible S α} {next : α → Fallible S β} {s s' : S} {b : β}
    (returned : (first >>= next) s = .ok b s') :
    ∃ a between, first s = .ok a between ∧ next a between = .ok b s' := by
  change EStateM.bind first next s = _ at returned
  unfold EStateM.bind at returned
  cases ran : first s with
  | ok a between =>
      rw [ran] at returned
      exact ⟨a, between, rfl, returned⟩
  | error e between =>
      rw [ran] at returned
      cases returned

namespace Acts

variable {V : Type} {inv : S → Prop} {view : S → V}

theorem pure : Acts inv view (Pure.pure ()) fun v => v := by
  intro s s' holds returned
  cases returned
  exact ⟨holds, rfl⟩

theorem bind {first second : Fallible S Unit} {change change' : V → V}
    (actsFirst : Acts inv view first change) (actsSecond : Acts inv view second change') :
    Acts inv view (first >>= fun _ => second) fun v => change' (change v) := by
  intro s s' holds returned
  obtain ⟨_, between, ranFirst, ranSecond⟩ := bind_ok returned
  obtain ⟨held, viewed⟩ := actsFirst s between holds ranFirst
  obtain ⟨holds', viewed'⟩ := actsSecond between s' held ranSecond
  exact ⟨holds', by rw [viewed', viewed]⟩

/-- The steps for the elements of a list, one after the other. -/
theorem forM {list : List β} {step : β → Fallible S Unit} {change : β → V → V}
    (acts : ∀ x, Acts inv view (step x) (change x)) :
    Acts inv view (list.forM step) fun v => list.foldl (fun v x => change x v) v := by
  induction list with
  | nil => exact Acts.pure
  | cons x rest ih => exact (acts x).bind ih

end Acts

end Pkgng.Lib
