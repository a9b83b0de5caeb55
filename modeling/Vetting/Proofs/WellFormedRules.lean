import Vetting.Proofs.RunJournal
import Mathlib.Logic.Relation

/-!
# Runs by well-formed rules

Rules are well formed when their author has made none of the mistakes that errors stand for, in the
rules for nested records neither. A run by well-formed rules outside strict mode still ends in an
error for one reason, which no author can rule out: a nested run by field rules is begun on a value
that is no record and falsy, but not blank, so that it is not passed over (`validate_ok_iff`). Every
other error is out of reach: an unknown validator, a cycle of dependencies, a default value or a
nested record configured with something that it does not take.

The invariant is that a run ends in an error exactly when a nested run has begun on nothing, read
off the journal (`Manner.reporting`); it goes by induction on the well-formedness of the rules.
-/

set_option autoImplicit false

namespace Vetting

/-- Rules without a mistake of their author: all validators that they name are registered, no field
depends on itself, no default value is given as rules, and what the module for nested records is
configured with is rules or reads as rules, which are well formed in turn. -/
inductive Rules.WellFormed (validators : KnownValidators) : Rules → Prop
  | intro {rules : Rules}
      (registered : ∀ field rule, (field, rule) ∈ rules.members →
        ∀ name ∈ rule.canonical.validators.keys, (validators.get? name).isSome)
      (acyclic : ∀ field, ¬ Relation.TransGen (DependsOn rules.members) field field)
      (plainDefaults : ∀ field rule, (field, rule) ∈ rules.members →
        ∀ inner, ("defaultValue", Configuration.rules inner) ∉ rule.canonical.modules)
      (readable : ∀ field rule, (field, rule) ∈ rules.members →
        ∀ config, ("objectValidator", config) ∈ rule.canonical.modules →
          ∃ inner, Module.nestedRules field config = .ok inner)
      (nested : ∀ field rule, (field, rule) ∈ rules.members →
        ∀ config, ("objectValidator", config) ∈ rule.canonical.modules →
          ∀ inner, Module.nestedRules field config = .ok inner → WellFormed validators inner) :
      WellFormed validators rules

/-- A nested run by field rules begins on a value that there is nothing to validate about. -/
def Event.OpensOnNothing : Event → Prop
  | .opened (.fields _) v => v.isTruthy = false
  | _ => False

instance : DecidablePred Event.OpensOnNothing := fun event =>
  match event with
  | .opened (.fields _) v => inferInstanceAs (Decidable (v.isTruthy = false))
  | .opened (.whole _) _ => isFalse id
  | .entered _ _ => isFalse id
  | .returned _ => isFalse id
  | .abandoned _ _ _ => isFalse id
  | .closed => isFalse id

/-- A falsy value that is not blank is a truth value or a number. -/
theorem Value.kind_of_falsy {v : Value} (hfalsy : v.isTruthy = false) (hblank : v.isBlank = false) :
    v.kind = .boolean ∨ v.kind = .number := by
  cases v with
  | null => cases hblank
  | bool b => exact Or.inl rfl
  | number n => exact Or.inr rfl
  | string s =>
    rw [Value.isTruthy, Bool.not_eq_false'] at hfalsy
    rw [Value.isBlank, hfalsy] at hblank
    cases hblank
  | array items => cases hfalsy
  | object fields => cases hfalsy

/-! ## No cycles -/

/-- From every element of a chain the last one is reached. -/
theorem reaches_getLast {α : Type} {R : α → α → Prop} {l : List α} (h : l.IsChain R) {x y : α}
    (hx : x ∈ l) (hy : y ∈ l.getLast?) : Relation.ReflTransGen R x y := by
  induction h generalizing x with
  | nil => cases hx
  | singleton a =>
    rw [List.mem_singleton] at hx
    rw [List.getLast?_singleton, Option.mem_some_iff] at hy
    rw [hx, hy]
  | cons_cons hab _ ih =>
    rw [List.getLast?_cons_cons] at hy
    rcases List.mem_cons.1 hx with rfl | hx
    · exact Relation.ReflTransGen.head hab (ih List.mem_cons_self hy)
    · exact ih hx hy

/-- A field in progress that the last one depends on depends on itself. -/
theorem Walk.cycle {rules : Fields Rule} {inProgress : List String} {field d : String}
    (h : Walk rules (inProgress ++ [field])) (hdep : DependsOn rules field d)
    (hmem : d ∈ inProgress ++ [field]) : Relation.TransGen (DependsOn rules) d d := by
  have hlast : field ∈ (inProgress ++ [field]).getLast? := by
    rw [List.getLast?_concat]
    exact rfl
  have hreach := reaches_getLast h.linked hmem hlast
  exact Relation.TransGen.tail' hreach hdep

/-! ## What ends a run -/

/-- A run that ends in an error exactly when it has begun a nested run on nothing. -/
def Manner.reporting : Manner (List Event) where
  keeps journal later := ∃ steps, later = journal ++ steps ∧ ∀ event ∈ steps, ¬ event.OpensOnNothing
  breaks journal e later := (e = .missingTarget .boolean ∨ e = .missingTarget .number) ∧
    ∃ steps, later = journal ++ steps ∧ ∃ event ∈ steps, event.OpensOnNothing
  refl journal := ⟨[], (List.append_nil journal).symm, by simp⟩
  trans := by
    rintro _ _ _ ⟨xs, rfl, hxs⟩ ⟨ys, rfl, hys⟩
    refine ⟨xs ++ ys, List.append_assoc .., fun event hevent => ?_⟩
    rcases List.mem_append.1 hevent with hevent | hevent
    · exact hxs event hevent
    · exact hys event hevent
  breaks_of_keeps := by
    rintro _ _ _ _ ⟨xs, rfl, -⟩ ⟨hkind, ys, rfl, event, hevent, hopens⟩
    exact ⟨hkind, xs ++ ys, List.append_assoc .., event, List.mem_append_right _ hevent, hopens⟩

/-- Two further steps around a run change nothing about how it may end, if the first one begins no
nested run on nothing. -/
theorem reporting_between {first last : Event} (hfirst : ¬ first.OpensOnNothing)
    (hlast : ¬ last.OpensOnNothing) {journal later : List Event} :
    (Manner.reporting.keeps (journal ++ [first]) later →
      Manner.reporting.keeps journal (later ++ [last])) ∧
    (∀ e, Manner.reporting.breaks (journal ++ [first]) e later →
      Manner.reporting.breaks journal e (later ++ [last])) := by
  constructor
  · rintro ⟨steps, rfl, hsteps⟩
    refine ⟨first :: (steps ++ [last]), by simp, fun event hevent => ?_⟩
    rcases List.mem_cons.1 hevent with rfl | hevent
    · exact hfirst
    · rcases List.mem_append.1 hevent with hevent | hevent
      · exact hsteps event hevent
      · rw [List.mem_singleton.1 hevent]
        exact hlast
  · rintro e ⟨hkind, steps, rfl, event, hevent, hopens⟩
    refine ⟨hkind, first :: (steps ++ [last]), by simp, event, ?_, hopens⟩
    exact List.mem_cons_of_mem _ (List.mem_append_left _ hevent)

namespace Engine

section Reporting

variable {validators : KnownValidators} {limit : Nat}

/-- Validation by field rules of a value that there is nothing to validate about ends at once. -/
theorem validate_of_falsy {σ : Type} {engine : Engine σ}
    (hmodules : engine.modules = KnownModules.builtin) (fields : Fields Rule) (force : Bool)
    {s : Store Value σ} (hfalsy : s.target.isTruthy = false) :
    engine.validate (.fields fields) force s = .error (.missingTarget s.target.kind) s := by
  rw [validate_eq_validateBy hmodules]
  show engine.validateFields engine.validate fields force s = _
  unfold validateFields
  rw [Run.target_bind, if_pos (by rw [hfalsy]; rfl)]
  rfl

/-- A nested run of the module for nested records ends in an error exactly when it begins on
nothing or a run further in does. -/
theorem announced_reports {inner : Rules} {s : Store Value (List Event)}
    (hblank : s.target.isBlank = false)
    (hinner : ∀ s : Store Value (List Event),
      (∀ fields, inner = .fields fields → s.target.isTruthy = true) →
        ((journaled ⟨false⟩ validators limit).validate inner false).ObeysAt
          (Manner.reporting.conduct Value) s) :
    ((journaled ⟨false⟩ validators limit).announced
      (journaled ⟨false⟩ validators limit).validate inner false).ObeysAt
        (Manner.reporting.conduct Value) s := by
  by_cases hnothing : (Event.opened inner s.target).OpensOnNothing
  · cases inner with
    | whole descriptor => exact hnothing.elim
    | fields fields =>
      have hfalsy : s.target.isTruthy = false := hnothing
      refine Run.obeysAt_target ?_
      have hnotify : ((journaled ⟨false⟩ validators limit).notify
          (.opened (.fields fields) s.target) : Run Value (List Event) Unit) s =
          .ok () ⟨s.target, s.caller ++ [.opened (.fields fields) s.target]⟩ := rfl
      unfold Engine.during Run.ObeysAt
      rw [Run.bind_of_ok hnotify]
      unfold Run.lastly
      have hrun : (journaled ⟨false⟩ validators limit).validate (.fields fields) false
          ⟨s.target, s.caller ++ [.opened (.fields fields) s.target]⟩ =
          .error (.missingTarget s.target.kind)
            ⟨s.target, s.caller ++ [.opened (.fields fields) s.target]⟩ :=
        validate_of_falsy rfl fields false hfalsy
      rw [hrun]
      refine ⟨?_, [.opened (.fields fields) s.target, .closed], by simp [journaled], _,
        List.mem_cons_self, hfalsy⟩
      rcases Value.kind_of_falsy hfalsy hblank with hkind | hkind
      · exact Or.inl (by rw [hkind])
      · exact Or.inr (by rw [hkind])
  · have hsome : ∀ fields, inner = .fields fields → s.target.isTruthy = true := by
      rintro fields rfl
      exact (Bool.not_eq_false _).mp hnothing
    refine Run.obeysAt_target (during_obeysAt ?_ ?_ (hinner _ hsome))
    · exact fun {d} => (reporting_between hnothing id).1
    · exact fun {e d} => (reporting_between hnothing id).2 e

/-- Validation by well-formed rules ends in an error exactly when it has begun a nested run on
nothing: by induction on well-formedness, with the module for nested records as the only step that
may err. -/
theorem validate_reports {rules : Rules} (hwell : rules.WellFormed validators) (force : Bool)
    (s : Store Value (List Event))
    (htruthy : ∀ fields, rules = .fields fields → s.target.isTruthy = true) :
    ((journaled ⟨false⟩ validators limit).validate rules force).ObeysAt
      (Manner.reporting.conduct Value) s := by
  induction hwell generalizing force s with
  | @intro rules registered acyclic plainDefaults readable nested ih =>
    have haccounted : (journaled ⟨false⟩ validators limit).Accounted
        (journaled ⟨false⟩ validators limit).validate rules.members
          fun _ => Manner.reporting := by
      constructor
      · rfl
      · intro inProgress field hwalk journal later h
        exact (reporting_between id id).1 h
      · intro inProgress field hwalk journal e later h
        exact (reporting_between id id).2 e h
      · intro inProgress field d hwalk hdep hmem
        exact absurd (hwalk.cycle hdep hmem) (acyclic d)
      · intro inProgress field rule e hwalk hrule hfind
        obtain ⟨name, hname, hmissing, -⟩ := findAll_error hfind
        have hregistered : (validators.get? name).isSome := registered field rule hrule name hname
        rw [show validators.get? name = none from hmissing] at hregistered
        cases hregistered
      · intro inProgress field rule inner hwalk hrule hconfig
        exact absurd hconfig (plainDefaults field rule hrule inner)
      · intro inProgress field rule config e hwalk hrule hconfig hread
        obtain ⟨inner, hok⟩ := readable field rule hrule config hconfig
        rw [hok] at hread
        cases hread
      · intro inProgress field rule config inner hwalk hrule hconfig hread s hpresent
        exact announced_reports hpresent (ih field rule hrule config hconfig inner hread false)
      · intro inProgress field d name hwalk hdep journal
        exact ⟨[.abandoned field name d], rfl, by simp [Event.OpensOnNothing]⟩
    rw [validate_eq_validateBy rfl]
    refine haccounted.validateBy_obeysAt force fun fields hfields hfalsy => ?_
    rw [htruthy fields hfields] at hfalsy
    cases hfalsy

/-- Validation of something by well-formed field rules outside strict mode ends in a result exactly
when no nested run by field rules begins on a falsy value; the only other ending is the error of
such a nested run, that its value is a truth value or a number instead of a record. -/
theorem validate_ok_iff (validators : KnownValidators) (limit : Nat) {rules : Fields Rule}
    (hwell : (Rules.fields rules).WellFormed validators) {v : Value} (htruthy : v.isTruthy = true)
    (force : Bool) :
    let engine := journaled ⟨false⟩ validators limit
    ((∃ outcome after, engine.validate (.fields rules) force ⟨v, []⟩ = .ok outcome after) ↔
      ∀ event ∈ engine.journal (.fields rules) v force, ¬ event.OpensOnNothing) ∧
    (∀ e after, engine.validate (.fields rules) force ⟨v, []⟩ = .error e after →
      e = .missingTarget .boolean ∨ e = .missingTarget .number) := by
  intro engine
  have hobeys : (engine.validate (.fields rules) force).ObeysAt
      (Manner.reporting.conduct Value) ⟨v, []⟩ :=
    validate_reports hwell force ⟨v, []⟩ fun _ _ => htruthy
  refine ⟨⟨?_, ?_⟩, ?_⟩
  · rintro ⟨outcome, after, hrun⟩
    obtain ⟨steps, hsteps, hclean⟩ := hobeys.keeps hrun
    rw [List.nil_append] at hsteps
    rwa [journal_of_ok hrun, hsteps]
  · intro hclean
    cases hrun : engine.validate (.fields rules) force ⟨v, []⟩ with
    | ok outcome after => exact ⟨outcome, after, rfl⟩
    | error e after =>
      obtain ⟨-, steps, hsteps, event, hevent, hopens⟩ := hobeys.breaks hrun
      rw [List.nil_append] at hsteps
      rw [journal_of_error hrun, hsteps] at hclean
      exact absurd hopens (hclean event hevent)
  · intro e after hrun
    exact (hobeys.breaks hrun).1

/-- Rules for a record with a child that is a record and has the field `a`. -/
def childRules : Fields Rule :=
  [("child", .descriptor
    ⟨.list [], [("objectValidator", .value (.object [("a", .string "required")]))]⟩)]

/-- Fields that are ordered so that each depends on later ones only do not depend on themselves. -/
theorem acyclic_of_rank {rules : Fields Rule} (rank : String → Nat)
    (h : ∀ entry ∈ rules, ∀ d ∈ entry.2.canonical.dependencies, rank entry.1 < rank d)
    (field : String) : ¬ Relation.TransGen (DependsOn rules) field field := by
  have hrank : ∀ {x y}, Relation.TransGen (DependsOn rules) x y → rank x < rank y := by
    intro x y hxy
    induction hxy with
    | single hdep =>
      obtain ⟨rule, hrule, hd⟩ := hdep
      exact h _ hrule _ hd
    | tail _ hdep ih =>
      obtain ⟨rule, hrule, hd⟩ := hdep
      exact ih.trans (h _ hrule _ hd)
  exact fun hcycle => Nat.lt_irrefl _ (hrank hcycle)

/-- Fields that do not depend on any others are in no cycle. -/
theorem acyclic_of_independent {rules : Fields Rule}
    (h : ∀ field rule, (field, rule) ∈ rules → rule.canonical.dependencies = []) (field : String) :
    ¬ Relation.TransGen (DependsOn rules) field field := by
  refine acyclic_of_rank (fun _ => 0) (fun entry hentry d hd => ?_) field
  rw [h entry.1 entry.2 hentry] at hd
  cases hd

/-- The rules for a child are well-formed. -/
theorem childRules_wellFormed : (Rules.fields childRules).WellFormed KnownValidators.builtin := by
  have hinner : (Rules.fields [("a", .bare (.name "required"))]).WellFormed
      KnownValidators.builtin := by
    refine .intro ?_ (acyclic_of_independent ?_) ?_ ?_ ?_
    · intro field rule hrule name hname
      cases List.mem_singleton.1 hrule
      cases List.mem_singleton.1 hname
      rfl
    · intro field rule hrule
      cases List.mem_singleton.1 hrule
      rfl
    · intro field rule hrule inner hmem
      cases List.mem_singleton.1 hrule
      cases hmem
    · intro field rule hrule config hmem
      cases List.mem_singleton.1 hrule
      cases hmem
    · intro field rule hrule config hmem
      cases List.mem_singleton.1 hrule
      cases hmem
  refine .intro ?_ (acyclic_of_independent ?_) ?_ ?_ ?_
  · intro field rule hrule name hname
    cases List.mem_singleton.1 hrule
    cases hname
  · intro field rule hrule
    cases List.mem_singleton.1 hrule
    rfl
  · intro field rule hrule inner hmem
    cases List.mem_singleton.1 hrule
    have hname := congrArg Prod.fst (List.mem_singleton.1 hmem)
    simp at hname
  · intro field rule hrule config hmem
    cases List.mem_singleton.1 hrule
    cases List.mem_singleton.1 hmem
    exact ⟨_, rfl⟩
  · intro field rule hrule config hmem inner hread
    cases List.mem_singleton.1 hrule
    cases List.mem_singleton.1 hmem
    cases hread
    exact hinner

/-- A record whose child is a record without fields is validated to the end. -/
theorem validate_childRules_ok :
    (Rules.fields childRules).WellFormed KnownValidators.builtin ∧
    (Value.object [("child", .object [])]).isTruthy = true ∧
    ∃ outcome after, (journaled ⟨false⟩ KnownValidators.builtin 1000).validate
      (.fields childRules) false ⟨.object [("child", .object [])], []⟩ = .ok outcome after :=
  ⟨childRules_wellFormed, rfl,
    (validate_ok_iff KnownValidators.builtin 1000 childRules_wellFormed
      (v := .object [("child", .object [])]) rfl false).1.2 (by decide +kernel)⟩

/-- A record whose child is a truth value instead is not: the run ends in an error and reports
nothing, although the rules are well formed and the record is truthy. -/
theorem validate_childRules_error :
    (Rules.fields childRules).WellFormed KnownValidators.builtin ∧
    (Value.object [("child", .bool false)]).isTruthy = true ∧
    ∃ after, (standard : Engine Unit).validate (.fields childRules) false
      ⟨.object [("child", .bool false)], ()⟩ = .error (.missingTarget .boolean) after :=
  ⟨childRules_wellFormed, rfl, ⟨.object [("child", .bool false)], ()⟩, by with_unfolding_all rfl⟩

end Reporting

end Engine

end Vetting
