import Mathlib.Data.List.Basic

/-!
# Transducers

A machine that reads one input after the other and emits any number of outputs at each, and
some more at the end.
-/

set_option autoImplicit false

namespace Pkgng.Lib

structure Transducer (σ α β : Type) where
  step : σ → α → List β × σ
  finish : σ → List β

namespace Transducer

variable {σ α β : Type} (machine : Transducer σ α β)

def run : σ → List α → List β
  | s, [] => machine.finish s
  | s, x :: rest => (machine.step s x).1 ++ run (machine.step s x).2 rest

/-- The outputs without those of the end. -/
def emitted : σ → List α → List β
  | _, [] => []
  | s, x :: rest => (machine.step s x).1 ++ emitted (machine.step s x).2 rest

def stateAfter : σ → List α → σ
  | s, [] => s
  | s, x :: rest => stateAfter (machine.step s x).2 rest

theorem run_append (s : σ) (xs ys : List α) :
    machine.run s (xs ++ ys) =
      machine.emitted s xs ++ machine.run (machine.stateAfter s xs) ys := by
  induction xs generalizing s with
  | nil => rfl
  | cons x rest ih =>
      rw [List.cons_append, run, emitted, stateAfter, ih, List.append_assoc]

end Transducer

end Pkgng.Lib
