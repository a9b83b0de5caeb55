import Vetting.Value.Basic

/-!
# Outcomes of validation

What a run reports: nothing to report, a report for each field, or the findings about a record taken
as a whole. A finding is a message or the outcome of a nested run. The verdict of an outcome
(`Outcome.isValid`) is true when no finding is a failure; a nested outcome is a failure only if it
fails itself. Two outcomes are equal (`Outcome.same`) when they report the same under the same
names, in whatever order.

An outcome is also data, in a plain shape: true, or maps of names. `isValidData` reads a verdict
off that data without knowing where it came from.
-/

set_option autoImplicit false

namespace Vetting

mutual

/-- What a validator or module has to say: a message, or the outcome of a nested run. -/
inductive Finding where
  | message (text : String)
  | nested (outcome : Outcome)

/-- What is reported about one field: the findings, and plain data of modules. -/
structure Report where
  errors : List (String × Finding)
  aux : List (String × Value)

/-- The result of a run. -/
inductive Outcome where
  | valid
  | fields (reports : List (String × Report))
  | errors (errors : List (String × Finding))

end

/-- Findings under the names of validators and modules. -/
abbrev Findings := Fields Finding

/-- The result for one field: it passes, or here is its report. -/
inductive FieldResult where
  | valid
  | checked (report : Report)

namespace Finding

/-- The message of a finding. -/
def message? : Finding → Option String
  | .message text => some text
  | .nested _ => none

end Finding

mutual

/-- Whether a finding is a failure. -/
def Finding.isFailure : Finding → Bool
  | .message _ => true
  | .nested outcome => !outcome.isValid

/-- Whether some finding is a failure. -/
def Finding.anyFailure : List (String × Finding) → Bool
  | [] => false
  | (_, error) :: rest => error.isFailure || Finding.anyFailure rest

/-- Whether a report holds no failure. -/
def Report.isValid : Report → Bool
  | ⟨errors, _⟩ => !Finding.anyFailure errors

/-- Whether all reports hold no failure. -/
def Report.allValid : List (String × Report) → Bool
  | [] => true
  | (_, report) :: rest => report.isValid && Report.allValid rest

/-- The verdict of an outcome. -/
def Outcome.isValid : Outcome → Bool
  | .valid => true
  | .fields reports => Report.allValid reports
  | .errors errors => !Finding.anyFailure errors

end

mutual

/-- Equality of findings. -/
def Finding.same : Finding → Finding → Bool
  | .message a, .message b => a == b
  | .nested a, .nested b => a.same b
  | _, _ => false

/-- Every finding has an equal one of the same name in the other map. -/
def Finding.sameAll : List (String × Finding) → Fields Finding → Bool
  | [], _ => true
  | (name, a) :: rest, bs =>
    (match bs.get? name with
      | some b => a.same b
      | none => false) && Finding.sameAll rest bs

/-- Equality of reports: of their findings and of their data, without regard to order. -/
def Report.same : Report → Report → Bool
  | ⟨errors, aux⟩, other =>
    errors.length == other.errors.length && Finding.sameAll errors other.errors &&
      Value.same (.object aux) (.object other.aux)

/-- Every report has an equal one of the same name in the other map. -/
def Report.sameAll : List (String × Report) → Fields Report → Bool
  | [], _ => true
  | (name, a) :: rest, bs =>
    (match bs.get? name with
      | some b => a.same b
      | none => false) && Report.sameAll rest bs

/-- Equality of outcomes, without regard to the order of reports or findings. -/
def Outcome.same : Outcome → Outcome → Bool
  | .valid, .valid => true
  | .fields as, .fields bs => as.length == bs.length && Report.sameAll as bs
  | .errors as, .errors bs => as.length == bs.length && Finding.sameAll as bs
  | _, _ => false

end

namespace Report

/-- The first message of a report, in order of declaration. -/
def leadingMessage? (report : Report) : Option String :=
  report.errors.findSome? fun entry => entry.2.message?

end Report

namespace FieldResult

/-- Whether a field holds no failure. -/
def isValid : FieldResult → Bool
  | .valid => true
  | .checked report => report.isValid

end FieldResult

namespace Outcome

/-- The report of a field. -/
def report? (outcome : Outcome) (field : String) : Option Report :=
  match outcome with
  | .fields reports => Fields.get? reports field
  | _ => none

/-- The fields that hold a failure, in order. -/
def failingFields : Outcome → List String
  | .fields reports => (reports.filter fun entry => !entry.2.isValid).map Prod.fst
  | _ => []

end Outcome

mutual

/-- A finding as data, where `collect` makes an object of the members of a report. -/
def Finding.render (collect : List (String × Value) → List (String × Value)) :
    Finding → Value
  | .message text => .string text
  | .nested outcome => outcome.render collect

/-- Findings as members of an object. -/
def Finding.renderAll (collect : List (String × Value) → List (String × Value)) :
    List (String × Finding) → List (String × Value)
  | [] => []
  | (name, error) :: rest => (name, error.render collect) :: Finding.renderAll collect rest

/-- A report as data: its findings under `errors`, then the data of modules. -/
def Report.render (collect : List (String × Value) → List (String × Value)) :
    Report → Value
  | ⟨errors, aux⟩ =>
    .object (collect (("errors", .object (Finding.renderAll collect errors)) :: aux))

/-- Reports as members of an object. -/
def Report.renderAll (collect : List (String × Value) → List (String × Value)) :
    List (String × Report) → List (String × Value)
  | [] => []
  | (name, report) :: rest => (name, report.render collect) :: Report.renderAll collect rest

/-- An outcome as data. -/
def Outcome.render (collect : List (String × Value) → List (String × Value)) : Outcome → Value
  | .valid => .bool true
  | .fields reports => .object (Report.renderAll collect reports)
  | .errors errors => .object (Finding.renderAll collect errors)

end

namespace Report

/-- The members of a report as they are written, with a repeated name where a module is called
`errors`. -/
def written (report : Report) : Value := report.render id

end Report

namespace Outcome

/-- An outcome as it is written, with a repeated name in a report of a module called `errors`. -/
def written (outcome : Outcome) : Value := outcome.render id

/-- An outcome as a value: of a repeated name the last content counts, in the first place. -/
def toValue (outcome : Outcome) : Value := outcome.render Fields.ofPairs

end Outcome

/-- Whether data counts as no errors. -/
def isEmptyData : Value → Bool
  | .object fields => fields.isEmpty
  | .array items => items.isEmpty
  | .string s => s.isEmpty
  | _ => true

/-- Whether an entry of an outcome is a report without errors. -/
def isValidEntry : Value → Bool
  | .object report =>
    match Fields.get? report "errors" with
    | none => true
    | some errors => isEmptyData errors
  | _ => false

/-- Whether all entries are reports without errors; data without entries has none to object to. -/
def areValidEntries : Value → Bool
  | .object fields => fields.all fun entry => isValidEntry entry.2
  | .array items => items.all isValidEntry
  | .string s => s.isEmpty
  | _ => true

/-- The verdict of an outcome given as data. True is a pass; of an object with the member
`errors` only that member is looked at; every entry has to be a report without errors. -/
def isValidData : Value → Bool
  | .bool b => b
  | .object fields =>
    match Fields.get? fields "errors" with
    | some errors => areValidEntries errors
    | none => fields.all fun entry => isValidEntry entry.2
  | .array items => items.all isValidEntry
  | _ => false

end Vetting
