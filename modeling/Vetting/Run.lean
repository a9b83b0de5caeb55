import Vetting.Error

/-!
# Runs

A run works on a target, a record or one value, and keeps what it did to the target when it ends
in an error. Beside the target it carries a state that belongs to the caller: the caller's own
modules may keep something in it between runs, and nothing else looks at it.
-/

set_option autoImplicit false

namespace Vetting

/-- What a run works on, and the state of the caller. -/
structure Store (τ σ : Type) where
  target : τ
  caller : σ

/-- A run on a target: a result or an error, and in both cases what has become of the target. -/
abbrev Run (τ σ : Type) := EStateM SetupError (Store τ σ)

namespace Run

variable {τ υ σ α : Type}

/-- The target as it stands. -/
def target : Run τ σ τ := do return (← get).target

/-- Puts something in the place of the target. -/
def setTarget (t : τ) : Run τ σ Unit := modify fun store => { store with target := t }

/-- Changes the state of the caller. -/
def modifyCaller (f : σ → σ) : Run τ σ Unit :=
  modify fun store => { store with caller := f store.caller }

/-- Changes the state of the caller at the end of a run, however the run ends. -/
def lastly (f : σ → σ) (run : Run τ σ α) : Run τ σ α := fun store =>
  match run store with
  | .ok a after => .ok a { after with caller := f after.caller }
  | .error e after => .error e { after with caller := f after.caller }

/-- A result that needs no target. -/
def ofExcept : Except SetupError α → Run τ σ α
  | .ok a => pure a
  | .error e => throw e

/-- Runs on a part of the target. What became of the part goes back into the target, also when
the run ends in an error. -/
def focus (view : τ → υ) (update : τ → υ → τ) (run : Run υ σ α) : Run τ σ α := fun store =>
  match run ⟨view store.target, store.caller⟩ with
  | .ok a after => .ok a ⟨update store.target after.target, after.caller⟩
  | .error e after => .error e ⟨update store.target after.target, after.caller⟩

/-- Runs on something beside the target, and gives back what became of it. -/
def beside (other : υ) (run : Run υ σ α) : Run τ σ (α × υ) := fun store =>
  match run ⟨other, store.caller⟩ with
  | .ok a after => .ok (a, after.target) ⟨store.target, after.caller⟩
  | .error e after => .error e ⟨store.target, after.caller⟩

end Run

end Vetting
