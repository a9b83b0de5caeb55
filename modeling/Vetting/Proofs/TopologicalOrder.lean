import Vetting.Proofs.DependencyCycles
import Vetting.Proofs.RunFrame
import Vetting.Proofs.RunsToKnownRecord

/-!
# Visiting every field once

A run evaluates a field anew for every reference to it, each time with other fields in progress.
Where no module is at work and no field comes to depend on itself, it need not: one visit to each
field is enough, in an order in which the fields that a field depends on come before it, with the
errors of the fields visited kept (`visitAll`). There is such an order (`exists_topological`), and
for each of them a run returns what the visits have kept, and leaves the record alone
(`validate_eq_visitAll`).

The visits know nothing of depths and of fields in progress. That they keep what can be read off the
record is shown along the order: a field can be read at the depth of its place (`Visited.visit`).
-/

set_option autoImplicit false

namespace Vetting

/-! ## Orders -/

section Orders

variable {α : Type} {R : α → α → Prop}

/-- Among some members of an acyclic relation there is one that reaches none of the others. -/
theorem exists_minimal_of_acyclic (hacyclic : ∀ a, ¬ Relation.TransGen R a a) {l : List α}
    (hl : l ≠ []) : ∃ m ∈ l, ∀ x ∈ l, ¬ Relation.TransGen R m x := by
  induction l with
  | nil => exact absurd rfl hl
  | cons first rest ih =>
    by_cases hrest : rest = []
    · refine ⟨first, List.mem_cons_self, fun x hx => ?_⟩
      rw [hrest, List.mem_singleton] at hx
      rw [hx]
      exact hacyclic first
    · obtain ⟨m, hm, hminimal⟩ := ih hrest
      by_cases hreach : Relation.TransGen R m first
      · -- What `first` leads to, `m` leads to as well.
        refine ⟨first, List.mem_cons_self, fun x hx hfirst => ?_⟩
        rcases List.mem_cons.1 hx with rfl | hx
        · exact hacyclic x hfirst
        · exact hminimal x hx (hreach.trans hfirst)
      · refine ⟨m, List.mem_cons_of_mem _ hm, fun x hx => ?_⟩
        rcases List.mem_cons.1 hx with rfl | hx
        · exact hreach
        · exact hminimal x hx

/-- A list can be put in an order in which nothing leads to what comes after it. -/
theorem exists_perm_pairwise (hacyclic : ∀ a, ¬ Relation.TransGen R a a) (l : List α) :
    ∃ order : List α, order.Perm l ∧ order.Pairwise fun a b => ¬ R a b := by
  classical
  induction hlength : l.length generalizing l with
  | zero =>
    rw [List.eq_nil_of_length_eq_zero hlength]
    exact ⟨[], .refl _, .nil⟩
  | succ n ih =>
    have hl : l ≠ [] := by
      rintro rfl
      cases hlength
    obtain ⟨m, hm, hminimal⟩ := exists_minimal_of_acyclic hacyclic hl
    have hfewer : (l.erase m).length = n := by
      rw [List.length_erase_of_mem hm, hlength, Nat.add_sub_cancel]
    obtain ⟨order, hperm, hordered⟩ := ih (l.erase m) hfewer
    refine ⟨m :: order, (hperm.cons m).trans (List.perm_cons_erase hm).symm, ?_⟩
    rw [List.pairwise_cons]
    refine ⟨fun x hx hR => ?_, hordered⟩
    exact hminimal x (List.mem_of_mem_erase (hperm.mem_iff.1 hx)) (.single hR)

end Orders

/-- The fields of a rule map, each one after the declared fields that it depends on. -/
structure Topological (rules : Fields Rule) (order : List String) : Prop where
  perm : order.Perm rules.keys
  earlier : ∀ before field after, order = before ++ field :: after →
    ∀ d, DependsOn rules field d → d ∈ rules.keys → d ∈ before

/-- An order of all fields in which none depends on a later one is topological. -/
theorem topological_of_pairwise {rules : Fields Rule} {order : List String}
    (hacyclic : ∀ field, ¬ Relation.TransGen (DependsOn rules) field field)
    (hperm : order.Perm rules.keys) (hordered : order.Pairwise fun a b => ¬ DependsOn rules a b) :
    Topological rules order := by
  refine ⟨hperm, fun before field after horder d hdep hd => ?_⟩
  rw [← hperm.mem_iff, horder, List.mem_append, List.mem_cons] at hd
  rw [horder, List.pairwise_append, List.pairwise_cons] at hordered
  rcases hd with hd | rfl | hd
  · exact hd
  · exact absurd (.single hdep) (hacyclic d)
  · exact absurd hdep (hordered.2.1.1 d hd)

/-- Without cycles there is a topological order. -/
theorem exists_topological {rules : Fields Rule}
    (hacyclic : ∀ field, ¬ Relation.TransGen (DependsOn rules) field field) :
    ∃ order, Topological rules order := by
  obtain ⟨order, hperm, hordered⟩ := exists_perm_pairwise hacyclic rules.keys
  exact ⟨order, topological_of_pairwise hacyclic hperm hordered⟩

/-! ## The visits -/

namespace Engine

variable {σ : Type}

/-- The message that a validator has for a field of a record, given which of the other fields pass:
none if it is passed over for a blank value, if a field that it depends on does not pass, or if its
result is the one that is expected. -/
def messageOn (engine : Engine σ) (record : Record) (passes : String → Bool) (field : String)
    (validator : Validator) (spec : Spec) : Option String :=
  if !validator.presence && !engine.settings.strict && (record.read field).isBlank then none
  else if (spec.values.filterMap Param.dependency?).any fun d => !passes d then none
  else
    let call := Call.of record (spec.bind record)
    if validator.check (record.read field) call.arguments ==
        spec.expectedResult record call.arguments then none
    else
      let message := spec.message.getD validator.message
      some (Template.fill (message.template record call.arguments) call.displays)

/-- The errors of a field of a record, given which of the other fields pass. -/
def errorsOn (engine : Engine σ) (record : Record) (passes : String → Bool) (field : String)
    (rule : Rule) : Findings :=
  rule.canonical.validators.filterMap fun entry =>
    (engine.validators.get? entry.1).bind fun validator =>
      (engine.messageOn record passes field validator entry.2).map fun text =>
        (entry.1, .message text)

/-- Whether a field passes by what has been kept of it; one that has not been visited does. -/
def passesIn (kept : Fields Findings) (field : String) : Bool :=
  ((kept.get? field).getD []).isEmpty

/-- Visits a field: its errors are kept. -/
def visit (engine : Engine σ) (rules : Fields Rule) (record : Record) (kept : Fields Findings)
    (field : String) : Fields Findings :=
  match rules.get? field with
  | none => kept
  | some rule => kept.put field (engine.errorsOn record (passesIn kept) field rule)

/-- Visits fields one after the other. -/
def visitAll (engine : Engine σ) (rules : Fields Rule) (record : Record) (order : List String) :
    Fields Findings :=
  order.foldl (engine.visit rules record) []

/-- The outcome that reports what is kept of every field, in order of declaration. -/
def outcomeOf (rules : Fields Rule) (kept : Fields Findings) (force : Bool) : Outcome :=
  (Outcome.fields (rules.map fun entry =>
    (entry.1, ⟨(kept.get? entry.1).getD [], []⟩))).returned force

end Engine

/-- Where all verdicts are known, the first failing dependency is the first that does not pass. -/
theorem firstFailing_known {p : String → Option Bool} {passes : String → Bool} {ds : List String}
    (h : ∀ d ∈ ds, p d = some (passes d)) :
    firstFailing p ds = some (ds.find? fun d => !passes d) := by
  induction ds with
  | nil => rfl
  | cons d rest ih =>
    rw [firstFailing, h d List.mem_cons_self, Option.bind_some, List.find?_cons]
    cases passes d with
    | true => exact ih fun d hd => h d (List.mem_cons_of_mem _ hd)
    | false => rfl

namespace Engine

variable {σ : Type} {engine : Engine σ} {rules : Fields Rule} {record : Record} {field : String}
  {p : String → Option Bool} {passes : String → Bool} {rule : Rule}

/-- Where all verdicts on dependencies are known, so is the verdict of the validator. -/
theorem verdictBy_known {validator : Validator} {spec : Spec}
    (h : ∀ d ∈ spec.values.filterMap Param.dependency?, p d = some (passes d)) :
    ∃ verdict, engine.verdictBy record p field validator spec = some verdict ∧
      verdict.message? = engine.messageOn record passes field validator spec := by
  unfold verdictBy messageOn
  rw [firstFailing_known h, Option.map_some]
  cases hover : engine.passesOver validator (record.read field) with
  | true =>
    rw [passesOver] at hover
    rw [if_pos rfl, if_pos hover]
    exact ⟨.skipped, rfl, rfl⟩
  | false =>
    rw [passesOver] at hover
    rw [if_neg Bool.false_ne_true, hover, if_neg Bool.false_ne_true]
    refine ⟨_, rfl, ?_⟩
    cases hfind : (spec.values.filterMap Param.dependency?).find? fun d => !passes d with
    | some d =>
      have hany : (spec.values.filterMap Param.dependency?).any (fun d => !passes d) = true :=
        List.any_eq_true.2
          ⟨d, List.mem_of_find?_eq_some hfind, by simpa using List.find?_some hfind⟩
      rw [if_pos hany]
      rfl
    | none =>
      have hnone : (spec.values.filterMap Param.dependency?).any (fun d => !passes d) = false := by
        rw [List.any_eq_false]
        exact List.find?_eq_none.1 hfind
      rw [hnone, if_neg Bool.false_ne_true, callOn, verdictOf]
      dsimp only
      split <;> rfl

/-- Where it is known of all fields that a rule depends on whether they pass, its findings can be
read. -/
theorem findingsBy_known (h : ∀ d ∈ rule.canonical.dependencies, p d = some (passes d))
    (hregistered : ∀ name ∈ rule.canonical.validators.keys,
      (engine.validators.get? name).isSome) :
    engine.findingsBy record p field rule = some (engine.errorsOn record passes field rule) := by
  unfold CanonicalForm.dependencies at h
  unfold findingsBy errorsOn
  generalize rule.canonical.validators = specs at h hregistered ⊢
  induction specs with
  | nil => rfl
  | cons entry rest ih =>
    obtain ⟨name, spec⟩ := entry
    obtain ⟨validator, hget⟩ := Option.isSome_iff_exists.1 (hregistered name List.mem_cons_self)
    rw [List.flatMap_cons] at h
    have hfirst : ∀ d ∈ spec.values.filterMap Param.dependency?, p d = some (passes d) :=
      fun d hd => h d (List.mem_append_left _ hd)
    obtain ⟨verdict, hverdict, hmessage⟩ := verdictBy_known hfirst
    have hrest := ih (fun d hd => h d (List.mem_append_right _ hd))
      fun name hname => hregistered name (List.mem_cons_of_mem _ hname)
    obtain ⟨verdicts, hverdicts, hfailures⟩ := Option.map_eq_some_iff.1 hrest
    have hread : (((name, spec) :: rest).mapM (engine.verdict? record p field)).map failures =
        some (failures ((name, verdict) :: verdicts)) := by
      rw [List.mapM_cons, verdict?, hget, Option.bind_some, hverdict, hverdicts]
      rfl
    rw [hread, List.filterMap_cons, ← hfailures]
    simp only [failures, List.filterMap_cons, hget, Option.bind_some, hmessage]

/-- What the visits have kept can be read off the record at the depth of the visits made. -/
structure Visited (engine : Engine σ) (rules : Fields Rule) (record : Record)
    (order : List String) (kept : Fields Findings) : Prop where
  present : ∀ field ∈ order, field ∈ rules.keys → kept.get? field ≠ none
  read : ∀ field errors, kept.get? field = some errors →
    field ∈ rules.keys ∧ engine.findings rules record order.length field = some errors

namespace Visited

variable {order : List String} {kept : Fields Findings}

/-- The verdict on a field that was visited is the one that was kept. -/
theorem passes?_eq (h : Visited engine rules record order kept) {d : String}
    (hd : d ∈ rules.keys → d ∈ order) :
    engine.passes? rules record order.length d = some (passesIn kept d) := by
  unfold passes? passesIn
  cases hkept : kept.get? d with
  | some errors =>
    rw [(h.read d errors hkept).2]
    rfl
  | none =>
    have hundeclared : d ∉ rules.keys := fun hdeclared =>
      h.present d (hd hdeclared) hdeclared hkept
    rw [findings_undeclared (Fields.get?_eq_none hundeclared)]
    rfl

/-- What was kept for a field is found at the next depth, too. -/
theorem deeper (h : Visited engine rules record order kept) {name : String} {errors : Findings}
    (hkept : kept.get? name = some errors) (field : String) :
    name ∈ rules.keys ∧
      engine.findings rules record (order ++ [field]).length name = some errors := by
  obtain ⟨hdeclared, hread⟩ := h.read name errors hkept
  refine ⟨hdeclared, findings_mono ?_ hread⟩
  simp

/-- Visiting a field without a rule keeps nothing. -/
theorem skip (h : Visited engine rules record order kept) {field : String}
    (hget : rules.get? field = none) : Visited engine rules record (order ++ [field]) kept where
  present := by
    intro name hname hdeclared
    rcases List.mem_append.1 hname with hname | hname
    · exact h.present name hname hdeclared
    · rw [← Fields.get?_isSome_iff, List.mem_singleton.1 hname, hget] at hdeclared
      cases hdeclared
  read _ _ hkept := h.deeper hkept field

/-- Visiting a declared field keeps its findings. -/
theorem put (h : Visited engine rules record order kept) {field : String} {errors : Findings}
    (hdeclared : field ∈ rules.keys)
    (hread : engine.findings rules record (order.length + 1) field = some errors) :
    Visited engine rules record (order ++ [field]) (kept.put field errors) where
  present := by
    intro name hname hname'
    by_cases hsame : name = field
    · rw [hsame, Fields.get?_put_self]
      exact Option.some_ne_none _
    · rw [Fields.get?_put_of_ne _ _ hsame]
      rcases List.mem_append.1 hname with hname | hname
      · exact h.present name hname hname'
      · exact absurd (List.mem_singleton.1 hname) hsame
  read := by
    intro name found hkept
    by_cases hsame : name = field
    · rw [hsame, Fields.get?_put_self, Option.some.injEq] at hkept
      rw [hsame, ← hkept, List.length_append, List.length_singleton]
      exact ⟨hdeclared, hread⟩
    · rw [Fields.get?_put_of_ne _ _ hsame] at hkept
      exact h.deeper hkept field

/-- A visit to a field after all those that it depends on. -/
theorem visit (h : Visited engine rules record order kept) {field : String}
    (hearlier : ∀ d, DependsOn rules field d → d ∈ rules.keys → d ∈ order)
    (hregistered : ∀ entry ∈ rules, ∀ name ∈ entry.2.canonical.validators.keys,
      (engine.validators.get? name).isSome) :
    Visited engine rules record (order ++ [field]) (engine.visit rules record kept field) := by
  unfold Engine.visit
  cases hget : rules.get? field with
  | none => exact h.skip hget
  | some rule =>
    have hrule : (field, rule) ∈ rules := Fields.mem_of_get? hget
    have hpasses : ∀ d ∈ rule.canonical.dependencies,
        engine.passes? rules record order.length d = some (passesIn kept d) :=
      fun d hd => h.passes?_eq (hearlier d ⟨rule, hrule, hd⟩)
    apply h.put (List.mem_map_of_mem hrule)
    rw [findings_succ hget]
    exact findingsBy_known hpasses (hregistered _ hrule)

end Visited

/-- In topological order the visits keep of every declared field what is read of it. -/
theorem visitAll_visited {order : List String} (horder : Topological rules order)
    (hregistered : ∀ entry ∈ rules, ∀ name ∈ entry.2.canonical.validators.keys,
      (engine.validators.get? name).isSome) :
    Visited engine rules record order (engine.visitAll rules record order) := by
  -- The induction is on the fields visited so far, a first part of the order.
  have hprefix : ∀ visited rest, order = visited ++ rest →
      Visited engine rules record visited (engine.visitAll rules record visited) := by
    intro visited
    induction visited using List.reverseRecOn with
    | nil => exact fun rest _ => ⟨fun _ h => (nomatch h), fun _ _ h => (nomatch h)⟩
    | append_singleton visited field ih =>
      intro rest hsplit
      rw [List.append_assoc, List.singleton_append] at hsplit
      have hbefore := ih (field :: rest) hsplit
      have hvisit := hbefore.visit (horder.earlier visited field rest hsplit) hregistered
      rw [visitAll, List.foldl_append]
      exact hvisit
  exact hprefix order [] (List.append_nil order).symm

/-! ## The run -/

/-- Modules that are not registered do nothing. -/
theorem runModules_unregistered {nested : NestedValidation σ} {form : CanonicalForm}
    {configs : Fields Configuration} (h : ∀ name ∈ configs.keys, engine.modules.get? name = none)
    (results : Contributions) (s : Store Record σ) :
    engine.runModules nested field form configs results s = .ok results s := by
  induction configs with
  | nil => rfl
  | cons entry rest ih =>
    obtain ⟨name, config⟩ := entry
    rw [runModules, h name List.mem_cons_self]
    exact ih fun name hname => h name (List.mem_cons_of_mem _ hname)

/-- Without a registered module in the rules, a record is where its modules bring it. -/
theorem course_of_unwritten (hunwritten : ∀ field, ¬ engine.Writes rules field)
    (nested : NestedValidation σ) (members : Record) :
    engine.Course nested rules (· = members) members fun _ => [] where
  prepares := by
    intro field rule hrule s hs
    have hnone : ∀ name ∈ rule.canonical.modules.keys, engine.modules.get? name = none := by
      intro name hname
      cases hget : engine.modules.get? name with
      | none => rfl
      | some module =>
        exact absurd ⟨rule, hrule, name, hname, Registry.contains_of_get? hget⟩ (hunwritten field)
    refine ⟨s, runModules_unregistered hnone .empty s, .refl hs, ?_⟩
    rw [hs]
  undeclared := by
    rintro name - r rfl
    rfl
  specs := by
    rintro field rule - name spec - validator - r rfl
    exact ⟨rfl, fun _ => rfl, fun _ _ _ => rfl⟩

/-- Where no declared field is configured with a registered module, all validators are registered
and no field comes to depend on itself, the fields can be put in an order in which each one comes
after those that it depends on; and for every such order a run on a record returns what one visit to
each field has kept, field by field in order of declaration, and leaves the record as it is. -/
theorem validate_eq_visitAll (engine : Engine σ) {rules : Fields Rule} (hdistinct : rules.Distinct)
    (hunwritten : ∀ field, ¬ engine.Writes rules field)
    (hregistered : ∀ entry ∈ rules, ∀ name ∈ entry.2.canonical.validators.keys,
      (engine.validators.get? name).isSome)
    (hacyclic : ∀ field, ¬ Relation.TransGen (DependsOn rules) field field)
    (members : Record) (force : Bool) (c : σ) :
    (∃ order, Topological rules order) ∧
      ∀ order, Topological rules order → ∃ c',
        engine.validate (.fields rules) force ⟨.object members, c⟩ =
          .ok (outcomeOf rules (engine.visitAll rules members order) force)
            ⟨.object members, c'⟩ := by
  refine ⟨exists_topological hacyclic, fun order horder => ?_⟩
  have hvisited : Visited engine rules members order (engine.visitAll rules members order) :=
    visitAll_visited horder hregistered
  have hlength : order.length ≤ rules.length + 1 := by
    have hkeys : rules.keys.length = rules.length := List.length_map _
    rw [horder.perm.length_eq, hkeys]
    exact Nat.le_succ _
  have hreports : rules.mapM (engine.reportOn rules members fun _ => []) =
      some (rules.map fun entry =>
        (entry.1, ⟨((engine.visitAll rules members order).get? entry.1).getD [], []⟩)) := by
    apply mapM_of_eq_some
    intro entry hentry
    have hdeclared : entry.1 ∈ rules.keys := List.mem_map_of_mem hentry
    obtain ⟨errors, herrors⟩ := Option.ne_none_iff_exists'.1
      (hvisited.present entry.1 (horder.perm.mem_iff.2 hdeclared) hdeclared)
    have hread := findings_mono hlength (hvisited.read entry.1 errors herrors).2
    rw [reportOn, hread, herrors]
    rfl
  have hanswers := (course_of_unwritten hunwritten _ members).validate_answers hdistinct rfl force c
  rw [hreports] at hanswers
  obtain ⟨t, hrun, r, htarget, rfl, -⟩ := hanswers
  refine ⟨t.caller, ?_⟩
  rw [hrun, ← htarget]
  rfl

/-- In the diamond the last field is visited first. Blank, it fails, and the two fields in the
middle pass because their validators are abandoned; the first field is not equal to the one of them
that it is compared with first. -/
theorem validate_eq_visitAll_diamond :
    diamondRules.Distinct ∧
    (∀ field, ¬ (standard : Engine Unit).Writes diamondRules field) ∧
    (∀ field, ¬ Relation.TransGen (DependsOn diamondRules) field field) ∧
    Topological diamondRules ["bottom", "right", "left", "top"] ∧
    ∃ c', (standard : Engine Unit).validate (.fields diamondRules) false
        ⟨.object [("top", .string "x"), ("left", .string "y"), ("right", .string "x")], ()⟩ =
      .ok (.fields
          [("top", ⟨[("equalsTo", .message "Please enter a value equal to left.")], []⟩),
            ("bottom", ⟨[("required", .message "This field is required.")], []⟩)])
        ⟨.object [("top", .string "x"), ("left", .string "y"), ("right", .string "x")], c'⟩ := by
  have hrank : ∀ entry ∈ diamondRules, ∀ d ∈ entry.2.canonical.dependencies,
      diamondRules.keys.idxOf entry.1 < diamondRules.keys.idxOf d := by decide
  have hacyclic : ∀ field, ¬ Relation.TransGen (DependsOn diamondRules) field field :=
    acyclic_of_rank (fun name => diamondRules.keys.idxOf name) hrank
  have hunwritten : ∀ field, ¬ (standard : Engine Unit).Writes diamondRules field := by
    rintro field ⟨rule, hrule, name, hname, -⟩
    have hnone : ∀ entry ∈ diamondRules, entry.2.canonical.modules.keys = [] := by decide
    rw [hnone _ hrule] at hname
    cases hname
  have hsorted : ["bottom", "right", "left", "top"].Pairwise fun a b =>
      diamondRules.keys.idxOf b ≤ diamondRules.keys.idxOf a := by decide
  have horder : Topological diamondRules ["bottom", "right", "left", "top"] := by
    apply topological_of_pairwise hacyclic (by decide)
    apply hsorted.imp
    rintro a b hle ⟨rule, hrule, hd⟩
    have hless : diamondRules.keys.idxOf a < diamondRules.keys.idxOf b := hrank _ hrule b hd
    omega
  have hkept : outcomeOf diamondRules ((standard : Engine Unit).visitAll diamondRules
      [("top", .string "x"), ("left", .string "y"), ("right", .string "x")]
      ["bottom", "right", "left", "top"]) false =
      .fields [("top", ⟨[("equalsTo", .message "Please enter a value equal to left.")], []⟩),
        ("bottom", ⟨[("required", .message "This field is required.")], []⟩)] := by
    with_unfolding_all rfl
  have hvisits := (validate_eq_visitAll standard (by decide) hunwritten (by decide) hacyclic
    [("top", .string "x"), ("left", .string "y"), ("right", .string "x")] false ()).2 _ horder
  rw [hkept] at hvisits
  exact ⟨by decide, hunwritten, hacyclic, horder, hvisits⟩

end Engine

end Vetting
