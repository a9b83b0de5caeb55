import Vetting.Rule.Basic

/-!
# Parameters bound to a record

Before a validator runs, the computed parameters of its spec are evaluated on the record as it
stands. What is left is a value, a dependency that is still to be looked at, or a predicate.
-/

set_option autoImplicit false

namespace Vetting

/-- A parameter with nothing left to compute. -/
inductive BoundParam where
  | literal (v : Value)
  | dependsOn (field : String)
  | predicate (hook : Hook (Value → Bool))

namespace BoundParam

/-- The field that a bound parameter depends on. -/
def dependency? : BoundParam → Option String
  | .dependsOn field => some field
  | _ => none

end BoundParam

namespace Param

/-- Computes a parameter on a record. -/
def bind (record : Record) : Param → BoundParam
  | .literal v => .literal v
  | .computed hook => .literal (hook.run record)
  | .dependsOn field => .dependsOn field
  | .predicate hook => .predicate hook

end Param

namespace Spec

/-- The parameters of a spec, computed on a record. -/
def bind (spec : Spec) (record : Record) : List BoundParam :=
  spec.values.map (Param.bind record)

end Spec

end Vetting
