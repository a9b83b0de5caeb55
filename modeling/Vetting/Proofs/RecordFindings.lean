import Vetting.Proofs.Evaluation

/-!
# Findings read off a record

While the fields of a record are evaluated, the record moves from what it was to what the modules
make of it, and a field is evaluated once for every reference to it, with other fields in progress
each time. What the validators find about a record that stays as it is can be said without all that:
by a recursion on the dependencies that knows of no fields in progress and is cut off at some depth
(`findings`). What is read at one depth is read at every greater one (`findings_mono`); where the
dependencies form a cycle, nothing is read at any.

That is how the reading tells a cycle. A field in progress can only be read if what the evaluation
has come to can be, at a smaller depth (`Above`); if the evaluation comes back to it, it could be
read at depth zero, which it cannot (`Above.findings_eq_none`).
-/

set_option autoImplicit false

namespace Vetting

/-- What is read member by member is read the same way where more can be read. -/
theorem mapM_of_le {α β : Type} {f g : α → Option β} {l : List α}
    (h : ∀ x ∈ l, ∀ y, f x = some y → g x = some y) {ys : List β} (hys : l.mapM f = some ys) :
    l.mapM g = some ys := by
  induction l generalizing ys with
  | nil => exact hys
  | cons x rest ih =>
    rw [List.mapM_cons] at hys ⊢
    obtain ⟨y, hy, hys⟩ := Option.bind_eq_some_iff.1 hys
    obtain ⟨zs, hzs, hys⟩ := Option.bind_eq_some_iff.1 hys
    have hrest := ih (fun x hx => h x (List.mem_cons_of_mem _ hx)) hzs
    rw [h x List.mem_cons_self y hy, hrest]
    exact hys

/-- Mapping a function that always has a result has all results. -/
theorem mapM_of_eq_some {α β : Type} {f : α → Option β} {g : α → β} {l : List α}
    (h : ∀ x ∈ l, f x = some (g x)) : l.mapM f = some (l.map g) := by
  induction l with
  | nil => rfl
  | cons x rest ih =>
    rw [List.mapM_cons, h x List.mem_cons_self, ih fun y hy => h y (List.mem_cons_of_mem _ hy)]
    rfl

/-- A function that maps a list has a result for each member of it. -/
theorem isSome_of_mapM {α β : Type} {f : α → Option β} {l : List α}
    (h : (l.mapM f).isSome) {x : α} (hx : x ∈ l) : (f x).isSome := by
  induction l with
  | nil => cases hx
  | cons first rest ih =>
    obtain ⟨ys, hys⟩ := Option.isSome_iff_exists.1 h
    rw [List.mapM_cons] at hys
    obtain ⟨y, hy, hys⟩ := Option.bind_eq_some_iff.1 hys
    obtain ⟨zs, hzs, -⟩ := Option.bind_eq_some_iff.1 hys
    rcases List.mem_cons.1 hx with rfl | hx
    · rw [hy]
      rfl
    · apply ih _ hx
      rw [hzs]
      rfl

/-! ## Dependencies that are known to pass or not -/

/-- The first of some fields that does not pass, if it is known of it and of all before it whether
they pass. -/
def firstFailing (p : String → Option Bool) : List String → Option (Option String)
  | [] => some none
  | d :: rest => (p d).bind fun passed => if passed then firstFailing p rest else some (some d)

/-- The fields that are looked at for it. -/
def looked (p : String → Option Bool) : List String → List String
  | [] => []
  | d :: rest => d :: if p d = some true then looked p rest else []

section Known

variable {p q : String → Option Bool} {ds : List String}

/-- Knowing more verdicts leaves the first dependency that fails. -/
theorem firstFailing_of_le (h : ∀ d b, p d = some b → q d = some b) {failing : Option String}
    (hp : firstFailing p ds = some failing) : firstFailing q ds = some failing := by
  induction ds with
  | nil => exact hp
  | cons d rest ih =>
    rw [firstFailing] at hp ⊢
    obtain ⟨passed, hd, hp⟩ := Option.bind_eq_some_iff.1 hp
    rw [h d passed hd, Option.bind_some]
    cases passed with
    | false => exact hp
    | true => exact ih hp

/-- The verdict of every dependency that is looked at is known, if the first failing one is. -/
theorem isSome_of_looked (h : (firstFailing p ds).isSome) {d : String} (hd : d ∈ looked p ds) :
    (p d).isSome := by
  induction ds with
  | nil => cases hd
  | cons first rest ih =>
    rw [firstFailing] at h
    cases hfirst : p first with
    | none =>
      rw [hfirst] at h
      cases h
    | some passed =>
      rw [hfirst, Option.bind_some] at h
      rw [looked, hfirst] at hd
      rcases List.mem_cons.1 hd with rfl | hd
      · rw [hfirst]
        rfl
      · cases passed with
        | false => cases hd
        | true => exact ih h hd

/-- If no dependency fails, all are looked at. -/
theorem looked_of_none_failing (h : firstFailing p ds = some none) : looked p ds = ds := by
  induction ds with
  | nil => rfl
  | cons d rest ih =>
    rw [firstFailing] at h
    obtain ⟨passed, hd, hrest⟩ := Option.bind_eq_some_iff.1 h
    cases passed with
    | false => cases hrest
    | true => rw [looked, if_pos hd, ih hrest]

/-- Where two sources agree, what is looked at with the one is looked at with the other, if that one
knows of all that it looks at. -/
theorem looked_of_agree (hagree : ∀ d b b', p d = some b → q d = some b' → b = b')
    (hknown : (firstFailing q ds).isSome) {d : String} (hd : d ∈ looked p ds) :
    d ∈ looked q ds := by
  induction ds with
  | nil => cases hd
  | cons first rest ih =>
    rw [looked] at hd ⊢
    rcases List.mem_cons.1 hd with rfl | hd
    · exact List.mem_cons_self
    · split at hd
      · next hp =>
        rw [firstFailing] at hknown
        cases hq : q first with
        | none =>
          rw [hq] at hknown
          cases hknown
        | some passed =>
          have hpassed : true = passed := hagree first true passed hp hq
          subst hpassed
          rw [hq, Option.bind_some] at hknown
          rw [if_pos rfl]
          exact List.mem_cons_of_mem _ (ih hknown hd)
      · cases hd

end Known

/-! ## The reading -/

namespace BoundParam

/-- The argument that a parameter is when all dependencies pass: a field that it depends on is
replaced by the value of that field. -/
def argument (record : Record) : BoundParam → Argument
  | .literal v => .value v
  | .dependsOn field => .value (record.read field)
  | .predicate hook => .predicate hook.run

/-- The text of a parameter in a message. -/
def display : BoundParam → String
  | .literal v => v.display
  | .dependsOn field => field
  | .predicate _ => "[function]"

end BoundParam

/-- The call of a validator with parameters whose dependencies all pass. -/
def Call.of (record : Record) (params : List BoundParam) : Call :=
  ⟨params.map (BoundParam.argument record), params.map BoundParam.display⟩

/-- The call with some parameters, or the dependency that does not pass. -/
def callOn (record : Record) (params : List BoundParam) : Option String → Except String Call
  | some dependency => .error dependency
  | none => .ok (Call.of record params)

/-- There is a call only if no dependency fails. -/
theorem callOn_eq_ok {record : Record} {params : List BoundParam} {failing : Option String}
    {call : Call} (h : callOn record params failing = .ok call) : failing = none := by
  cases failing with
  | none => rfl
  | some dependency => cases h

/-- A further parameter adds its argument to the call. -/
theorem map_callOn_cons (record : Record) (param : BoundParam) (rest : List BoundParam)
    (failing : Option (Option String)) :
    failing.map (callOn record (param :: rest)) =
      (failing.map (callOn record rest)).map
        (Except.map (Call.cons (param.argument record) param.display)) := by
  rw [Option.map_map]
  congr 1
  funext dependency
  cases dependency <;> rfl

/-- The verdict of a validator that is not passed over. -/
def verdictOf (record : Record) (field : String) (validator : Validator) (spec : Spec) :
    Except String Call → Verdict
  | .error dependency => .abandoned dependency
  | .ok call =>
    if validator.check (record.read field) call.arguments ==
        spec.expectedResult record call.arguments then .passed
    else
      let message := spec.message.getD validator.message
      .failed (Template.fill (message.template record call.arguments) call.displays)

/-- The result for a field with some errors and data of modules. -/
def FieldResult.of (force : Bool) (errors : Findings) (aux : Fields Value) : FieldResult :=
  if !force && errors.isEmpty then .valid else .checked ⟨errors, aux⟩

namespace Engine

variable {σ : Type}

/-- Whether a validator is passed over for a value. -/
def passesOver (engine : Engine σ) (validator : Validator) (v : Value) : Bool :=
  !validator.presence && !engine.settings.strict && v.isBlank

/-- The verdict of a validator on a field of a record, where enough is known of the fields that it
depends on. -/
def verdictBy (engine : Engine σ) (record : Record) (p : String → Option Bool) (field : String)
    (validator : Validator) (spec : Spec) : Option Verdict :=
  if engine.passesOver validator (record.read field) then some .skipped
  else (firstFailing p (spec.values.filterMap Param.dependency?)).map fun failing =>
    verdictOf record field validator spec (callOn record (spec.bind record) failing)

/-- A validator that is not passed over comes to the verdict on its call, if that can be told. -/
theorem verdictBy_of_not_passesOver {engine : Engine σ} {record : Record}
    {p : String → Option Bool} {field : String} {validator : Validator} {spec : Spec}
    (hover : engine.passesOver validator (record.read field) = false) :
    engine.verdictBy record p field validator spec =
      ((firstFailing p ((spec.bind record).filterMap BoundParam.dependency?)).map
        (callOn record (spec.bind record))).bind fun call =>
          some (verdictOf record field validator spec call) := by
  rw [verdictBy, hover, if_neg Bool.false_ne_true, Spec.dependencies_bind, Option.bind_map,
    Option.map_eq_bind]
  rfl

/-- The verdict under the name of a validator, if it is registered. -/
def verdict? (engine : Engine σ) (record : Record) (p : String → Option Bool) (field : String)
    (entry : String × Spec) : Option (String × Verdict) :=
  (engine.validators.get? entry.1).bind fun validator =>
    (engine.verdictBy record p field validator entry.2).map (Prod.mk entry.1)

/-- What the validators of a rule find about a field of a record. -/
def findingsBy (engine : Engine σ) (record : Record) (p : String → Option Bool) (field : String)
    (rule : Rule) : Option Findings :=
  (rule.canonical.validators.mapM (engine.verdict? record p field)).map failures

/-- What the validators of a field find, read off a record down to some depth of dependencies. -/
def findings (engine : Engine σ) (rules : Fields Rule) (record : Record) :
    Nat → String → Option Findings
  | 0, field =>
    match rules.get? field with
    | none => some []
    | some _ => none
  | depth + 1, field =>
    match rules.get? field with
    | none => some []
    | some rule =>
      engine.findingsBy record (fun d => (findings engine rules record depth d).map List.isEmpty)
        field rule

/-- Whether a field passes, read off a record down to some depth. -/
def passes? (engine : Engine σ) (rules : Fields Rule) (record : Record) (depth : Nat)
    (field : String) : Option Bool :=
  (engine.findings rules record depth field).map List.isEmpty

section Depth

variable {engine : Engine σ} {rules : Fields Rule} {record : Record} {field : String}
  {p q : String → Option Bool} {rule : Rule}

/-- A field without a rule has no findings. -/
theorem findings_undeclared (hget : rules.get? field = none) (depth : Nat) :
    engine.findings rules record depth field = some [] := by
  cases depth with
  | zero => simp only [findings, hget]
  | succ depth => simp only [findings, hget]

/-- At depth zero the findings of a declared field are not known. -/
theorem findings_zero (hget : rules.get? field ≠ none) :
    engine.findings rules record 0 field = none := by
  obtain ⟨rule, hrule⟩ := Option.ne_none_iff_exists'.1 hget
  simp only [findings, hrule]

/-- At the next depth they are found by the verdicts on its dependencies at the depth before. -/
theorem findings_succ (hget : rules.get? field = some rule) (depth : Nat) :
    engine.findings rules record (depth + 1) field =
      engine.findingsBy record (engine.passes? rules record depth) field rule := by
  simp only [findings, hget]
  rfl

/-- Knowing more verdicts on dependencies leaves the verdict of a validator. -/
theorem verdict?_of_le (h : ∀ d b, p d = some b → q d = some b) {entry : String × Spec}
    {verdict : String × Verdict} (hp : engine.verdict? record p field entry = some verdict) :
    engine.verdict? record q field entry = some verdict := by
  unfold verdict? at hp ⊢
  obtain ⟨validator, hvalidator, hp⟩ := Option.bind_eq_some_iff.1 hp
  obtain ⟨found, hfound, hp⟩ := Option.map_eq_some_iff.1 hp
  unfold verdictBy at hfound ⊢
  rw [hvalidator, Option.bind_some]
  split at hfound
  · next hover =>
    rw [if_pos hover, hfound, Option.map_some, hp]
  · next hover =>
    obtain ⟨failing, hfailing, hverdict⟩ := Option.map_eq_some_iff.1 hfound
    rw [if_neg hover, firstFailing_of_le h hfailing, Option.map_some, hverdict, Option.map_some, hp]

/-- Knowing more verdicts on dependencies leaves the findings. -/
theorem findingsBy_of_le (h : ∀ d b, p d = some b → q d = some b) {errors : Findings}
    (hp : engine.findingsBy record p field rule = some errors) :
    engine.findingsBy record q field rule = some errors := by
  unfold findingsBy at hp ⊢
  obtain ⟨verdicts, hverdicts, herrors⟩ := Option.map_eq_some_iff.1 hp
  rw [mapM_of_le (fun entry _ _ => verdict?_of_le h) hverdicts, Option.map_some, herrors]

/-- What is read is read at every greater depth. -/
theorem findings_mono {depth depth' : Nat} (hle : depth ≤ depth') {errors : Findings}
    (h : engine.findings rules record depth field = some errors) :
    engine.findings rules record depth' field = some errors := by
  induction depth generalizing depth' field errors with
  | zero =>
    cases hget : rules.get? field with
    | none =>
      rw [findings_undeclared hget] at h ⊢
      exact h
    | some rule =>
      rw [findings_zero (by simp [hget])] at h
      cases h
  | succ depth ih =>
    obtain ⟨more, rfl⟩ : ∃ more, depth' = more + 1 := ⟨depth' - 1, by omega⟩
    cases hget : rules.get? field with
    | none =>
      rw [findings_undeclared hget] at h ⊢
      exact h
    | some rule =>
      rw [findings_succ hget] at h ⊢
      apply findingsBy_of_le _ h
      intro d b hd
      obtain ⟨found, hfound, hb⟩ := Option.map_eq_some_iff.1 hd
      have hle' : depth ≤ more := by omega
      rw [passes?, ih hle' hfound, Option.map_some, hb]

/-- A verdict that is known at some depth is the same at greater ones. -/
theorem passes?_mono {depth depth' : Nat} (hle : depth ≤ depth') {d : String} {b : Bool}
    (h : engine.passes? rules record depth d = some b) :
    engine.passes? rules record depth' d = some b := by
  obtain ⟨errors, herrors, hb⟩ := Option.map_eq_some_iff.1 h
  rw [passes?, findings_mono hle herrors, Option.map_some, hb]

/-- Verdicts that are known at two depths agree. -/
theorem passes?_agree {depth depth' : Nat} (d : String) (b b' : Bool)
    (h : engine.passes? rules record depth d = some b)
    (h' : engine.passes? rules record depth' d = some b') : b = b' := by
  rcases Nat.le_total depth depth' with hle | hle
  · have hsame := passes?_mono hle h
    rw [h', Option.some.injEq] at hsame
    exact hsame.symm
  · have hsame := passes?_mono hle h'
    rw [h, Option.some.injEq] at hsame
    exact hsame

/-- The verdict on a dependency is known if its findings are. -/
theorem passes?_isSome {depth : Nat} {d : String} :
    (engine.passes? rules record depth d).isSome = (engine.findings rules record depth d).isSome :=
  Option.isSome_map

/-- A rule has a validator that is not passed over and that looks at another field. -/
def Looks (engine : Engine σ) (record : Record) (p : String → Option Bool) (field : String)
    (rule : Rule) (d : String) : Prop :=
  ∃ name spec validator, (name, spec) ∈ rule.canonical.validators ∧
    engine.validators.get? name = some validator ∧
    engine.passesOver validator (record.read field) = false ∧
    d ∈ looked p (spec.values.filterMap Param.dependency?)

/-- A field at which a rule looks is looked at with every other source that agrees and from which
the findings can be read, and that source knows of it. -/
theorem Looks.isSome (hagree : ∀ d b b', p d = some b → q d = some b' → b = b')
    (hread : (engine.findingsBy record q field rule).isSome) {d : String}
    (h : engine.Looks record p field rule d) :
    engine.Looks record q field rule d ∧ (q d).isSome := by
  obtain ⟨name, spec, validator, hspec, hvalidator, hover, hd⟩ := h
  unfold findingsBy at hread
  rw [Option.isSome_map] at hread
  have hverdict := isSome_of_mapM hread hspec
  unfold verdict? verdictBy at hverdict
  rw [hvalidator, Option.bind_some, hover] at hverdict
  simp only [Bool.false_eq_true, if_false, Option.isSome_map] at hverdict
  have hlooked := looked_of_agree hagree hverdict hd
  exact ⟨⟨name, spec, validator, hspec, hvalidator, hover, hlooked⟩,
    isSome_of_looked hverdict hlooked⟩

/-- The fields in progress are declared, and none of them can be read unless the field that the
evaluation has come to can be, at a smaller depth. -/
structure Above (engine : Engine σ) (rules : Fields Rule) (record : Record)
    (inProgress : List String) (d : String) : Prop where
  declared : ∀ name ∈ inProgress, rules.get? name ≠ none
  needs : ∀ name ∈ inProgress, ∀ depth, (engine.findings rules record (depth + 1) name).isSome →
    (engine.findings rules record depth d).isSome

namespace Above

variable {inProgress : List String} {d e : String}

/-- A field is above nothing at first. -/
theorem start (d : String) : engine.Above rules record [] d where
  declared _ hname := by cases hname
  needs _ hname := by cases hname

/-- What closes a cycle cannot be read. -/
theorem findings_eq_none (h : engine.Above rules record inProgress d) (hd : d ∈ inProgress)
    (depth : Nat) : engine.findings rules record depth d = none := by
  induction depth with
  | zero => exact findings_zero (h.declared d hd)
  | succ depth ih =>
    cases hread : engine.findings rules record (depth + 1) d with
    | none => rfl
    | some errors =>
      have hless := h.needs d hd depth (by rw [hread]; rfl)
      rw [ih] at hless
      cases hless

/-- The field that the evaluation has come to is in progress when it looks at a further one. -/
theorem extend (h : engine.Above rules record inProgress d) (hget : rules.get? d = some rule)
    {depth : Nat} (hlooks : engine.Looks record (engine.passes? rules record depth) d rule e) :
    engine.Above rules record (inProgress ++ [d]) e := by
  have hlast : ∀ depth, (engine.findings rules record (depth + 1) d).isSome →
      (engine.findings rules record depth e).isSome := by
    intro depth' hread
    rw [findings_succ hget] at hread
    have hknown := (hlooks.isSome passes?_agree hread).2
    rwa [passes?_isSome] at hknown
  constructor
  · intro name hname
    rcases List.mem_append.1 hname with hname | hname
    · exact h.declared name hname
    · rw [List.mem_singleton.1 hname, hget]
      exact Option.some_ne_none rule
  · intro name hname depth' hread
    rcases List.mem_append.1 hname with hname | hname
    · have hd := h.needs name hname depth' hread
      cases depth' with
      | zero =>
        rw [findings_zero (by simp [hget])] at hd
        cases hd
      | succ depth' =>
        obtain ⟨errors, herrors⟩ := Option.isSome_iff_exists.1 (hlast depth' hd)
        rw [findings_mono (Nat.le_succ depth') herrors]
        rfl
    · rw [List.mem_singleton.1 hname] at hread
      exact hlast depth' hread

end Above

end Depth

end Engine

end Vetting
