import Vetting.Proofs.CallerState
import Mathlib.Data.List.Perm.Subperm

/-!
# The journal of a run

A run told to an observer who writes everything down leaves a journal of its steps. Replaying a
journal gives, for every moment of the run, the evaluators at work, innermost first, and for each of
them its rules and the fields in progress; a replay gets stuck at a step that does not fit. The
journal of every validation with the built-in modules, whether it ends in a result or in an error,
replays from beginning to end, comes back to where it began, and passes only through moments that
are in order (`validate_journal`): no field is in progress twice, all of them but the last one are
declared, and every nested evaluator works on lighter rules than the one around it.

The invariant is a `Journey` from a moment back to itself. It is a manner of the caller's state
(`Manner.journeying`), so that the induction over evaluations is the one of `Accounted`, and the
induction on the weight of rules adds the nested runs.
-/

set_option autoImplicit false

namespace Vetting

/-- An evaluator at work: its rules and the fields in progress, the outermost first. -/
structure Evaluator where
  rules : Rules
  inProgress : List String

/-- The evaluators at work at one time, the innermost first. -/
abbrev Moment := List Evaluator

/-- What a step makes of a moment, if it fits: a field that is entered comes last among the fields
in progress, and coming back from a field takes it away; an evaluator is gone only when it has no
field in progress. -/
def Event.after? : Event → Moment → Option Moment
  | .entered declared inProgress, e :: outer =>
    if declared = e.rules.members.keys ∧ inProgress ≠ [] ∧ inProgress.dropLast = e.inProgress then
      some (⟨e.rules, inProgress⟩ :: outer)
    else none
  | .returned inProgress, e :: outer =>
    if e.inProgress ≠ [] ∧ e.inProgress.dropLast = inProgress then
      some (⟨e.rules, inProgress⟩ :: outer)
    else none
  | .abandoned field _ _, e :: outer =>
    if e.inProgress.getLast? = some field then some (e :: outer) else none
  | .opened rules _, e :: outer => some (⟨rules, []⟩ :: e :: outer)
  | .closed, e :: next :: outer => if e.inProgress = [] then some (next :: outer) else none
  | _, _ => none

/-- Replays steps from a moment on. -/
def replay : List Event → Moment → Option Moment
  | [], moment => some moment
  | event :: rest, moment => (event.after? moment).bind (replay rest)

/-- The fields in progress of an evaluator are in order: none twice, and all but the last one
declared, so that there is at most one more of them than there are declared fields. -/
structure Evaluator.Orderly (e : Evaluator) : Prop where
  nodup : e.inProgress.Nodup
  declared : ∀ field ∈ e.inProgress.dropLast, field ∈ e.rules.members.keys
  bounded : e.inProgress.length ≤ e.rules.members.length + 1

/-- A moment is in order: each evaluator is, and each works on lighter rules than the next one
around it. -/
structure Moment.InOrder (moment : Moment) : Prop where
  orderly : ∀ e ∈ moment, e.Orderly
  lighter : moment.IsChain fun inner outer => inner.rules.weight < outer.rules.weight

/-- Steps that lead from one moment to another through moments in order. -/
inductive Journey : Moment → List Event → Moment → Prop
  | stay {moment : Moment} : Journey moment [] moment
  | step {event : Event} {rest : List Event} {moment next last : Moment} :
      event.after? moment = some next → next.InOrder → Journey next rest last →
        Journey moment (event :: rest) last

namespace Journey

variable {first middle last : Moment} {xs ys : List Event}

/-- One journey may follow another. -/
theorem append (hxs : Journey first xs middle) (hys : Journey middle ys last) :
    Journey first (xs ++ ys) last := by
  induction hxs with
  | stay => exact hys
  | step hafter horder _ ih => exact .step hafter horder (ih hys)

/-- A single event that leads to a stack in order is a journey. -/
theorem single {event : Event} (hafter : event.after? first = some last)
    (horder : last.InOrder) : Journey first [event] last :=
  .step hafter horder .stay

/-- The steps of a journey replay to its end. -/
theorem replay_eq (h : Journey first xs last) : replay xs first = some last := by
  induction h with
  | stay => rfl
  | step hafter _ _ ih => rw [replay, hafter, Option.bind_some, ih]

/-- However far a journey has come, the moment it has come to is in order. -/
theorem inOrder_take (h : Journey first xs last) (hfirst : first.InOrder) (n : Nat) :
    ∃ moment : Moment, replay (xs.take n) first = some moment ∧ moment.InOrder := by
  induction h generalizing n with
  | stay => exact ⟨_, by rw [List.take_nil, replay], hfirst⟩
  | step hafter horder _ ih =>
    cases n with
    | zero => exact ⟨_, by rw [List.take_zero, replay], hfirst⟩
    | succ n =>
      obtain ⟨moment, hreplay, hmoment⟩ := ih horder n
      refine ⟨moment, ?_, hmoment⟩
      rw [List.take_succ_cons, replay, hafter, Option.bind_some, hreplay]

end Journey

/-! ## Moments in order -/

/-- Fields that can be in progress together are at most one more than the declared ones. -/
theorem Walk.length_le {rules : Fields Rule} {inProgress : List String}
    (h : Walk rules inProgress) : inProgress.length ≤ rules.length + 1 := by
  have hnodup : inProgress.dropLast.Nodup := h.nodup.sublist (List.dropLast_sublist _)
  have hsub : inProgress.dropLast ⊆ rules.keys := h.declared
  have hle : inProgress.dropLast.length ≤ rules.keys.length :=
    (List.subperm_of_subset hnodup hsub).length_le
  have hkeys : rules.keys.length = rules.length := List.length_map ..
  have hdrop : inProgress.dropLast.length = inProgress.length - 1 := List.length_dropLast
  omega

/-- An evaluator on a walk is in order. -/
theorem Walk.orderly {rules : Rules} {inProgress : List String}
    (h : Walk rules.members inProgress) : Evaluator.Orderly ⟨rules, inProgress⟩ :=
  ⟨h.nodup, h.declared, h.length_le⟩

/-- The moment at which a run by some rules begins is in order. -/
theorem Moment.inOrder_start (rules : Rules) : Moment.InOrder [⟨rules, []⟩] := by
  refine ⟨fun e he => ?_, List.isChain_singleton _⟩
  rw [List.mem_singleton.1 he]
  exact ⟨List.nodup_nil, by simp, by simp⟩

namespace Moment.InOrder

variable {rules : Rules} {inProgress : List String} {outer : Moment}

/-- Other fields may come to be in progress as long as they are in order. -/
theorem advance (h : InOrder (⟨rules, inProgress⟩ :: outer)) {others : List String}
    (hwalk : Walk rules.members others) : InOrder (⟨rules, others⟩ :: outer) where
  orderly := by
    intro e he
    rcases List.mem_cons.1 he with rfl | he
    · exact hwalk.orderly
    · exact h.orderly e (List.mem_cons_of_mem _ he)
  lighter := by
    have hlighter := h.lighter
    cases outer with
    | nil => exact List.isChain_singleton _
    | cons next outer =>
      rw [List.isChain_cons_cons] at hlighter ⊢
      exact hlighter

/-- An evaluator may be put inside the innermost one if it works on lighter rules. -/
theorem nest (h : InOrder (⟨rules, inProgress⟩ :: outer)) {inner : Rules}
    (hlt : inner.weight < rules.weight) :
    InOrder (⟨inner, []⟩ :: ⟨rules, inProgress⟩ :: outer) where
  orderly := by
    intro e he
    rcases List.mem_cons.1 he with rfl | he
    · exact ⟨List.nodup_nil, by simp, by simp⟩
    · exact h.orderly e he
  lighter := List.isChain_cons_cons.2 ⟨hlt, h.lighter⟩

end Moment.InOrder

/-! ## The manner of a journey -/

/-- A run whose steps lead from a moment back to it, however the run ends; it does not end because
the limit on nested runs is reached. -/
def Manner.journeying (moment : Moment) : Manner (List Event) where
  keeps journal later := ∃ steps, later = journal ++ steps ∧ Journey moment steps moment
  breaks journal e later := e ≠ .nestingTooDeep ∧
    ∃ steps, later = journal ++ steps ∧ Journey moment steps moment
  refl journal := ⟨[], (List.append_nil journal).symm, .stay⟩
  trans := by
    rintro _ _ _ ⟨xs, rfl, hxs⟩ ⟨ys, rfl, hys⟩
    exact ⟨xs ++ ys, List.append_assoc .., hxs.append hys⟩
  breaks_of_keeps := by
    rintro _ _ _ _ ⟨xs, rfl, hxs⟩ ⟨hlimit, ys, rfl, hys⟩
    exact ⟨hlimit, xs ++ ys, List.append_assoc .., hxs.append hys⟩

/-- The steps of a stay at another moment make a journey once they are put between the step there
and the step back. -/
theorem journeying_between {moment there : Moment} {first last : Event} {journal later : List Event}
    (hthere : first.after? moment = some there) (hback : last.after? there = some moment)
    (hmoment : moment.InOrder) (horder : there.InOrder)
    (h : ∃ steps, later = journal ++ [first] ++ steps ∧ Journey there steps there) :
    ∃ steps, later ++ [last] = journal ++ steps ∧ Journey moment steps moment := by
  obtain ⟨steps, rfl, hsteps⟩ := h
  have hreturn : Journey there (steps ++ [last]) moment := hsteps.append (.single hback hmoment)
  exact ⟨first :: (steps ++ [last]), by simp, .step hthere horder hreturn⟩

namespace Engine

/-- An engine with the built-in modules whose observer writes every step down. -/
def journaled (settings : Settings) (validators : KnownValidators) (limit : Nat) :
    Engine (List Event) :=
  ⟨settings, validators, KnownModules.builtin, limit, fun event journal => journal ++ [event]⟩

/-- The journal of the validation of a value, however it ends. -/
def journal (engine : Engine (List Event)) (rules : Rules) (v : Value) (force : Bool) :
    List Event :=
  match engine.validate rules force ⟨v, []⟩ with
  | .ok _ after => after.caller
  | .error _ after => after.caller

/-- An engine with the built-in modules, whatever it is observed by, validates as the one that keeps
a journal: with the same outcome or error, and the same changes to the value. -/
theorem validate_like_journaled {σ : Type} {engine : Engine σ}
    (hmodules : engine.modules = KnownModules.builtin) (limit : Nat) (rules : Rules)
    (force : Bool) :
    Run.Alike (fun _ _ => True) (engine.validate rules force)
      ((journaled engine.settings engine.validators limit).validate rules force) := by
  have halike : engine.Alike (fun _ _ => True)
      (journaled engine.settings engine.validators limit) :=
    ⟨⟨rfl, fun _ _ _ => id⟩, rfl, hmodules, rfl⟩
  exact halike.validate rules force

/-- The journal of a run that ends is what the run leaves. -/
theorem journal_of_ok {engine : Engine (List Event)} {rules : Rules} {v : Value} {force : Bool}
    {outcome : Outcome} {after : Store Value (List Event)}
    (h : engine.validate rules force ⟨v, []⟩ = .ok outcome after) :
    engine.journal rules v force = after.caller := by
  rw [journal, h]

/-- The journal of a run that fails is what the run leaves. -/
theorem journal_of_error {engine : Engine (List Event)} {rules : Rules} {v : Value} {force : Bool}
    {e : SetupError} {after : Store Value (List Event)}
    (h : engine.validate rules force ⟨v, []⟩ = .error e after) :
    engine.journal rules v force = after.caller := by
  rw [journal, h]

section Journaled

variable {settings : Settings} {validators : KnownValidators} {limit : Nat}

/-- The steps of an evaluation with the built-in modules make journeys, if those of the nested runs
over lighter rules do. -/
theorem accounted_journeying {rules : Rules} {outer : Moment}
    (horder : Moment.InOrder (⟨rules, []⟩ :: outer))
    (hinner : ∀ inner : Rules, inner.weight < rules.weight → ∀ outer,
      Moment.InOrder (⟨inner, []⟩ :: outer) → ∀ force,
        ((journaled settings validators limit).validate inner force).Obeys
          ((Manner.journeying (⟨inner, []⟩ :: outer)).conduct Value)) :
    (journaled settings validators limit).Accounted (journaled settings validators limit).validate
      rules.members fun inProgress => Manner.journeying (⟨rules, inProgress⟩ :: outer) where
  modules := rfl
  returns := by
    intro inProgress field hwalk journal later h
    have hmoment := horder.advance hwalk.initial
    refine journeying_between ?_ ?_ hmoment (horder.advance hwalk) h
    · simp [Event.after?]
    · simp [Event.after?]
  unwinds := by
    intro inProgress field hwalk journal e later h
    have hmoment := horder.advance hwalk.initial
    refine ⟨h.1, journeying_between ?_ ?_ hmoment (horder.advance hwalk) h.2⟩
    · simp [Event.after?]
    · simp [Event.after?]
  cycles _ _ _ journal := ⟨nofun, (Manner.journeying _).refl journal⟩
  misses _ _ hfind journal := by
    obtain ⟨name, -, -, rfl⟩ := findAll_error hfind
    exact ⟨nofun, (Manner.journeying _).refl journal⟩
  defaults _ _ _ journal := ⟨nofun, (Manner.journeying _).refl journal⟩
  refuses _ _ _ hread journal := by
    obtain ⟨field, fault, rfl⟩ := readable_nestedRules _ _ _ hread
    exact ⟨nofun, (Manner.journeying _).refl journal⟩
  nests := by
    intro inProgress field rule config inner hwalk hrule hconfig hread s _
    have hmoment := horder.advance hwalk
    have hlt : inner.weight < rules.weight := nestedRules_weight_lt hrule hconfig hread
    have hnested := hinner inner hlt _ (hmoment.nest hlt) false
    refine Run.obeysAt_target (during_obeysAt ?_ ?_ (hnested _))
    · intro later h
      refine journeying_between ?_ ?_ hmoment (hmoment.nest hlt) h
      · rfl
      · rfl
    · intro e later h
      refine ⟨h.1, journeying_between ?_ ?_ hmoment (hmoment.nest hlt) h.2⟩
      · rfl
      · rfl
  abandons := by
    intro inProgress field d name hwalk hdep journal
    have hmoment := horder.advance hwalk
    refine ⟨[.abandoned field name d], rfl, .single ?_ hmoment⟩
    simp [Event.after?]

/-- Every validation makes a journey back to where it began: by induction on the weight of rules. -/
theorem validate_journeys (rules : Rules) (outer : Moment)
    (horder : Moment.InOrder (⟨rules, []⟩ :: outer)) (force : Bool) :
    ((journaled settings validators limit).validate rules force).Obeys
      ((Manner.journeying (⟨rules, []⟩ :: outer)).conduct Value) := by
  induction hweight : rules.weight using Nat.strong_induction_on
    generalizing rules outer force with
  | _ n ih =>
    subst hweight
    intro s
    rw [validate_eq_validateBy rfl]
    have haccounted := accounted_journeying horder fun inner hlt outer horder force =>
      ih inner.weight hlt inner outer horder force rfl
    exact haccounted.validateBy_obeysAt force fun _ _ _ =>
      ⟨nofun, (Manner.journeying _).refl s.caller⟩

/-- Validation with the built-in modules comes to an end in good order, for all settings,
validators, rules, values and both kinds of report. It is its own nested validation, and never ends
because the limit on nested runs is reached. At every moment of a run the evaluators at work are in
order: for each of them no field is in progress twice and all but the last one are declared, and
nested runs are over ever lighter rules. And however the run and the evaluations in it end, the
fields in progress are back to what they were. -/
theorem validate_journal (settings : Settings) (validators : KnownValidators) (limit : Nat)
    (rules : Rules) (v : Value) (force : Bool) :
    let engine := journaled settings validators limit
    engine.validate rules force = engine.validateBy engine.validate rules force ∧
    (∀ after, engine.validate rules force ⟨v, []⟩ ≠ .error .nestingTooDeep after) ∧
    (∀ n, ∃ moment : Moment,
      replay ((engine.journal rules v force).take n) [⟨rules, []⟩] = some moment ∧
        moment.InOrder) ∧
    replay (engine.journal rules v force) [⟨rules, []⟩] = some [⟨rules, []⟩] := by
  intro engine
  have horder := Moment.inOrder_start rules
  have hobeys : (engine.validate rules force).ObeysAt
      ((Manner.journeying [⟨rules, []⟩]).conduct Value) ⟨v, []⟩ :=
    validate_journeys rules [] horder force ⟨v, []⟩
  have hjourney : Journey [⟨rules, []⟩] (engine.journal rules v force) [⟨rules, []⟩] := by
    cases hrun : engine.validate rules force ⟨v, []⟩ with
    | ok outcome after =>
      obtain ⟨steps, hsteps, h⟩ := hobeys.keeps hrun
      rw [List.nil_append] at hsteps
      rwa [journal_of_ok hrun, hsteps]
    | error e after =>
      obtain ⟨-, steps, hsteps, h⟩ := hobeys.breaks hrun
      rw [List.nil_append] at hsteps
      rwa [journal_of_error hrun, hsteps]
  refine ⟨validate_eq_validateBy rfl rules force, ?_, hjourney.inOrder_take horder,
    hjourney.replay_eq⟩
  intro after hrun
  exact (hobeys.breaks hrun).1 rfl

end Journaled

end Engine

end Vetting
