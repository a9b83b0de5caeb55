import Vetting.Proofs.ForcedReports
import Vetting.Proofs.ReportAssembly

/-!
# How the arguments of a call line up with the parameters

The parameters of a spec are bound to the record before any of them has its turn, and then take
their turns from the left. Each turn gives one argument and one text (`Gives`): a function of the
record gives its value on the record at the outset, a dependency gives the value that its field has
right after its own evaluation, and only a dependency leaves another store. So a call that is
assembled has exactly one argument and one text for each parameter, in order (`Aligned`), and this
is all there is to assembling a call. A call that is abandoned has been assembled up to a dependency
that does not pass, and the store is the one that the evaluation of that field has left: what comes
after it has had no turn and makes no difference (`Engine.assembleCall_aligned`).
-/

set_option autoImplicit false

namespace Vetting

/-- The rule by which a field is evaluated: the one that is declared, or the rule that says
nothing. -/
def declaredRule (rules : Fields Rule) (field : String) : Rule := (rules.get? field).getD .empty

namespace Engine

variable {σ : Type} {engine : Engine σ} {nested : NestedValidation σ} {rules : Fields Rule}
  {inProgress : List String}

/-! ## Settling a dependency is evaluating its field -/

/-- The rule that says nothing is passed at once. -/
theorem judge_empty (depends : String → Run Record σ Bool) (field : String) :
    engine.judge nested depends field .empty false = pure .valid := rfl

/-- A dependency that closes no cycle is settled by an evaluation of its field. -/
theorem dependencyPasses_of_not_mem {d : String} (hnew : d ∉ inProgress) :
    engine.dependencyPasses nested rules inProgress d =
      FieldResult.passes <$>
        engine.judgeWithin nested rules inProgress d (declaredRule rules d) false := by
  unfold judgeWithin declaredRule
  rw [← during_map]
  cases hget : rules.get? d with
  | none =>
    rw [dependencyPasses_undeclared hnew hget, Option.getD_none, judge_empty]
    rfl
  | some rule =>
    rw [dependencyPasses_declared hnew hget, Option.getD_some, ← bind_pure_comp]

/-- A dependency is settled to the end when its field is evaluated to the end. -/
theorem dependencyPasses_ends {d : String} {s t : Store Record σ} {passed : Bool} :
    engine.dependencyPasses nested rules inProgress d s = .ok passed t ↔
      d ∉ inProgress ∧ ∃ result,
        engine.judgeWithin nested rules inProgress d (declaredRule rules d) false s = .ok result t ∧
          result.passes = passed := by
  by_cases hmem : d ∈ inProgress
  · rw [dependencyPasses_of_mem hmem]
    exact iff_of_false (by simp) fun h => h.1 hmem
  · rw [dependencyPasses_of_not_mem hmem, ← bind_pure_comp, Run.bind_eq_ok]
    simp only [Run.pure_eq_ok, hmem, not_false_eq_true, true_and]
    constructor
    · rintro ⟨result, u, hrun, hpassed, rfl⟩
      exact ⟨result, hrun, hpassed⟩
    · rintro ⟨result, hrun, hpassed⟩
      exact ⟨result, t, hrun, hpassed, rfl⟩

/-- A dependency passes if it is not in progress and its evaluation reports nothing. -/
theorem dependencyPasses_true_iff {d : String} {s t : Store Record σ} :
    engine.dependencyPasses nested rules inProgress d s = .ok true t ↔
      d ∉ inProgress ∧
        engine.judgeWithin nested rules inProgress d (declaredRule rules d) false s =
          .ok .valid t := by
  rw [dependencyPasses_ends]
  refine and_congr_right fun _ => ⟨?_, fun hrun => ⟨.valid, hrun, rfl⟩⟩
  rintro ⟨result, hrun, hpassed⟩
  cases result with
  | valid => exact hrun
  | checked report => cases hpassed

/-- A dependency fails if it is not in progress and its evaluation ends in a report. -/
theorem dependencyPasses_false_iff {d : String} {s t : Store Record σ} :
    engine.dependencyPasses nested rules inProgress d s = .ok false t ↔
      d ∉ inProgress ∧ ∃ report,
        engine.judgeWithin nested rules inProgress d (declaredRule rules d) false s =
          .ok (.checked report) t := by
  rw [dependencyPasses_ends]
  refine and_congr_right fun _ => ⟨?_, fun ⟨report, hrun⟩ => ⟨.checked report, hrun, rfl⟩⟩
  rintro ⟨result, hrun, hpassed⟩
  cases result with
  | valid => cases hpassed
  | checked report => exact ⟨report, hrun⟩

/-! ## The turns of parameters -/

/-- What a parameter gives when it has its turn, on a store: an argument, its text and the store
that is left. The record is the one at the outset. -/
inductive Gives (engine : Engine σ) (nested : NestedValidation σ) (rules : Fields Rule)
    (inProgress : List String) (record : Record) :
    Param → Store Record σ → Argument → String → Store Record σ → Prop
  | literal (v : Value) (s : Store Record σ) :
      engine.Gives nested rules inProgress record (.literal v) s (.value v) v.display s
  | computed (hook : Hook (Record → Value)) (s : Store Record σ) :
      engine.Gives nested rules inProgress record (.computed hook) s (.value (hook.run record))
        (hook.run record).display s
  | predicate (hook : Hook (Value → Bool)) (s : Store Record σ) :
      engine.Gives nested rules inProgress record (.predicate hook) s (.predicate hook.run)
        "[function]" s
  | dependsOn {d : String} {s t : Store Record σ} : d ∉ inProgress →
      engine.judgeWithin nested rules inProgress d (declaredRule rules d) false s = .ok .valid t →
      engine.Gives nested rules inProgress record (.dependsOn d) s (.value (t.target.read d)) d t

/-- A call is aligned with parameters: it has one argument and one text for each of them, and there
are stores before, between and behind their turns such that each parameter gives the argument and
the text at its own position. -/
structure Aligned (engine : Engine σ) (nested : NestedValidation σ) (rules : Fields Rule)
    (inProgress : List String) (record : Record) (params : List Param) (s : Store Record σ)
    (call : Call) (t : Store Record σ) : Prop where
  arguments : call.arguments.length = params.length
  displays : call.displays.length = params.length
  turns : ∃ stage : Nat → Store Record σ, stage 0 = s ∧ stage params.length = t ∧
    ∀ i param, params[i]? = some param → ∃ argument display,
      call.arguments[i]? = some argument ∧ call.displays[i]? = some display ∧
        engine.Gives nested rules inProgress record param (stage i) argument display (stage (i + 1))

variable {record : Record} {param : Param} {rest params : List Param} {s t : Store Record σ}
  {call : Call} {d : String}

/-- Without parameters there are no arguments, and nothing runs. -/
theorem aligned_nil_iff :
    engine.Aligned nested rules inProgress record [] s call t ↔ call = ⟨[], []⟩ ∧ s = t := by
  constructor
  · rintro ⟨harguments, hdisplays, stage, hfirst, hlast, -⟩
    obtain ⟨arguments, displays⟩ := call
    obtain rfl : arguments = [] := List.eq_nil_of_length_eq_zero harguments
    obtain rfl : displays = [] := List.eq_nil_of_length_eq_zero hdisplays
    exact ⟨rfl, hfirst.symm.trans hlast⟩
  · rintro ⟨rfl, rfl⟩
    exact ⟨rfl, rfl, fun _ => s, rfl, rfl, fun i param hparam => by simp at hparam⟩

/-- The first parameter gives the first argument, and the others give the others from there on. -/
theorem aligned_cons_iff :
    engine.Aligned nested rules inProgress record (param :: rest) s call t ↔
      ∃ argument display u inner,
        engine.Gives nested rules inProgress record param s argument display u ∧
        engine.Aligned nested rules inProgress record rest u inner t ∧
        call = inner.cons argument display := by
  constructor
  · rintro ⟨harguments, hdisplays, stage, rfl, rfl, hturns⟩
    obtain ⟨argument, display, hargument, hdisplay, hgives⟩ := hturns 0 param rfl
    obtain ⟨arguments, displays⟩ := call
    obtain ⟨others, rfl⟩ : ∃ others, arguments = argument :: others := by
      cases arguments with
      | nil => cases hargument
      | cons first others => cases hargument; exact ⟨others, rfl⟩
    obtain ⟨texts, rfl⟩ : ∃ texts, displays = display :: texts := by
      cases displays with
      | nil => cases hdisplay
      | cons first texts => cases hdisplay; exact ⟨texts, rfl⟩
    refine ⟨argument, display, stage 1, ⟨others, texts⟩, hgives, ?_, rfl⟩
    exact ⟨Nat.succ.inj harguments, Nat.succ.inj hdisplays, fun i => stage (i + 1), rfl, rfl,
      fun i other hother => hturns (i + 1) other hother⟩
  · rintro ⟨argument, display, u, inner, hgives, ⟨harguments, hdisplays, stage, rfl, rfl, hturns⟩,
      rfl⟩
    refine ⟨congrArg (· + 1) harguments, congrArg (· + 1) hdisplays,
      fun i => Nat.casesOn i s stage, rfl, rfl, fun i other hother => ?_⟩
    cases i with
    | zero =>
      cases hother
      exact ⟨argument, display, rfl, rfl, hgives⟩
    | succ i => exact hturns i other hother

/-! ## Taking turns -/

/-- What is done after the turn of a parameter: the rest has its turns on the store that is left,
and the argument and the text come to the front. -/
theorem Gives.assembleCall_cons {argument : Argument} {display : String} {u : Store Record σ}
    (h : engine.Gives nested rules inProgress record param s argument display u)
    (others : List BoundParam) :
    assembleCall (engine.dependencyPasses nested rules inProgress) (param.bind record :: others) s =
      (do
        let call ← assembleCall (engine.dependencyPasses nested rules inProgress) others
        return call.map (.cons argument display) : Run Record σ (Except String Call)) u := by
  cases h with
  | literal v => rfl
  | computed hook => rfl
  | predicate hook => rfl
  | dependsOn hnew hrun =>
    have hpasses := dependencyPasses_true_iff.2 ⟨hnew, hrun⟩
    rw [Param.bind, assembleCall, Run.bind_of_ok hpasses, if_pos rfl, Run.target_bind]

/-- A turn either gives an argument, and then the rest has its turns, or it is the turn of a
dependency that does not pass, and then there is no other turn. -/
theorem assembleCall_cons_ends {result : Except String Call} :
    assembleCall (engine.dependencyPasses nested rules inProgress)
        ((param :: rest).map (Param.bind record)) s = .ok result t ↔
      (∃ argument display u inner,
        engine.Gives nested rules inProgress record param s argument display u ∧
        assembleCall (engine.dependencyPasses nested rules inProgress)
          (rest.map (Param.bind record)) u = .ok inner t ∧
        result = inner.map (.cons argument display)) ∨
      ∃ d, param = .dependsOn d ∧ result = .error d ∧
        engine.dependencyPasses nested rules inProgress d s = .ok false t := by
  rw [List.map_cons]
  constructor
  · intro h
    -- Only the turn of a dependency can fail; the others give an argument in any case.
    have hgiven : ∀ {argument display u},
        engine.Gives nested rules inProgress record param s argument display u →
        ∃ argument display u inner,
          engine.Gives nested rules inProgress record param s argument display u ∧
          assembleCall (engine.dependencyPasses nested rules inProgress)
            (rest.map (Param.bind record)) u = .ok inner t ∧
          result = inner.map (.cons argument display) := by
      intro argument display u hgives
      rw [hgives.assembleCall_cons, Run.bind_eq_ok] at h
      obtain ⟨inner, v, hinner, hresult⟩ := h
      obtain ⟨rfl, rfl⟩ := Run.pure_eq_ok.1 hresult
      exact ⟨argument, display, u, inner, hgives, hinner, rfl⟩
    cases param with
    | literal v => exact .inl (hgiven (.literal v s))
    | computed hook => exact .inl (hgiven (.computed hook s))
    | predicate hook => exact .inl (hgiven (.predicate hook s))
    | dependsOn d =>
      obtain ⟨passed, u, hpassed, hgo⟩ := Run.bind_eq_ok.1 h
      cases passed with
      | true =>
        obtain ⟨hnew, hrun⟩ := dependencyPasses_true_iff.1 hpassed
        exact .inl (hgiven (.dependsOn hnew hrun))
      | false =>
        obtain ⟨rfl, rfl⟩ := Run.pure_eq_ok.1 hgo
        exact .inr ⟨d, rfl, rfl, hpassed⟩
  · rintro (⟨argument, display, u, inner, hgives, hinner, rfl⟩ | ⟨d, rfl, rfl, hfails⟩)
    · rw [hgives.assembleCall_cons, Run.bind_of_ok hinner]
      rfl
    · rw [Param.bind, assembleCall, Run.bind_of_ok hfails]
      rfl

/-- A call is assembled exactly when it is aligned with the parameters. -/
theorem assembleCall_ok_iff :
    assembleCall (engine.dependencyPasses nested rules inProgress)
        (params.map (Param.bind record)) s = .ok (.ok call) t ↔
      engine.Aligned nested rules inProgress record params s call t := by
  induction params generalizing s call with
  | nil =>
    rw [aligned_nil_iff, List.map_nil, assembleCall, Run.pure_eq_ok, Except.ok.injEq]
    exact and_congr_left' eq_comm
  | cons param rest ih =>
    rw [assembleCall_cons_ends, aligned_cons_iff]
    constructor
    · rintro (⟨argument, display, u, inner, hgives, hinner, hcall⟩ | ⟨d, -, hcall, -⟩)
      · cases inner with
        | ok inner =>
          cases hcall
          exact ⟨argument, display, u, inner, hgives, ih.1 hinner, rfl⟩
        | error d => cases hcall
      · cases hcall
    · rintro ⟨argument, display, u, inner, hgives, hinner, rfl⟩
      exact .inl ⟨argument, display, u, .ok inner, hgives, ih.2 hinner, rfl⟩

/-- A call is abandoned exactly when the parameters before some dependency have had their turns and
that dependency does not pass. -/
theorem assembleCall_error_iff :
    assembleCall (engine.dependencyPasses nested rules inProgress)
        (params.map (Param.bind record)) s = .ok (.error d) t ↔
      ∃ i call u, params[i]? = some (.dependsOn d) ∧
        engine.Aligned nested rules inProgress record (params.take i) s call u ∧
        engine.dependencyPasses nested rules inProgress d u = .ok false t := by
  induction params generalizing s with
  | nil => simp [assembleCall]
  | cons param rest ih =>
    rw [assembleCall_cons_ends]
    constructor
    · rintro (⟨argument, display, u, inner, hgives, hinner, hcall⟩ | ⟨d, rfl, hcall, hfails⟩)
      · cases inner with
        | ok inner => cases hcall
        | error d =>
          cases hcall
          obtain ⟨i, call, v, hparam, haligned, hfails⟩ := ih.1 hinner
          exact ⟨i + 1, call.cons argument display, v, hparam,
            aligned_cons_iff.2 ⟨argument, display, u, call, hgives, haligned, rfl⟩, hfails⟩
      · cases hcall
        exact ⟨0, ⟨[], []⟩, s, rfl, aligned_nil_iff.2 ⟨rfl, rfl⟩, hfails⟩
    · rintro ⟨i, call, v, hparam, haligned, hfails⟩
      cases i with
      | zero =>
        obtain ⟨-, rfl⟩ := aligned_nil_iff.1 haligned
        cases hparam
        exact .inr ⟨d, rfl, rfl, hfails⟩
      | succ i =>
        obtain ⟨argument, display, u, inner, hgives, haligned, -⟩ := aligned_cons_iff.1 haligned
        exact .inl ⟨argument, display, u, .error d, hgives,
          ih.2 ⟨i, inner, v, hparam, haligned, hfails⟩, rfl⟩

/-- Arguments and texts stay aligned with the parameters of a spec. A call is assembled exactly when
it has one argument and one text for each parameter, each given by the turn of its own parameter. It
is abandoned exactly when a dependency, all parameters before it having had their turns, is
evaluated and does not pass; the store is the one that this evaluation leaves, and parameters behind
it could be any others. -/
theorem assembleCall_aligned (engine : Engine σ) (nested : NestedValidation σ)
    (rules : Fields Rule) (inProgress : List String) (spec : Spec) (s : Store Record σ) :
    (∀ call t,
      assembleCall (engine.dependencyPasses nested rules inProgress) (spec.bind s.target) s =
          .ok (.ok call) t ↔
        engine.Aligned nested rules inProgress s.target spec.values s call t) ∧
    ∀ d t,
      assembleCall (engine.dependencyPasses nested rules inProgress) (spec.bind s.target) s =
          .ok (.error d) t ↔
        ∃ i call u report, spec.values[i]? = some (.dependsOn d) ∧
          engine.Aligned nested rules inProgress s.target (spec.values.take i) s call u ∧
          d ∉ inProgress ∧
          engine.judgeWithin nested rules inProgress d (declaredRule rules d) false u =
            .ok (.checked report) t ∧
          ∀ others : List Param,
            assembleCall (engine.dependencyPasses nested rules inProgress)
                ((spec.values.take (i + 1) ++ others).map (Param.bind s.target)) s =
              .ok (.error d) t := by
  refine ⟨fun call t => assembleCall_ok_iff, fun d t => ⟨fun h => ?_, ?_⟩⟩
  · obtain ⟨i, call, u, hparam, haligned, hfails⟩ := assembleCall_error_iff.1 h
    obtain ⟨hnew, report, hrun⟩ := dependencyPasses_false_iff.1 hfails
    refine ⟨i, call, u, report, hparam, haligned, hnew, hrun, fun others => ?_⟩
    have hlt : i < (spec.values.take (i + 1)).length := by
      have := (List.getElem?_eq_some_iff.1 hparam).1
      simp only [List.length_take]
      omega
    refine assembleCall_error_iff.2 ⟨i, call, u, ?_, ?_, hfails⟩
    · rw [List.getElem?_append_left hlt, List.getElem?_take_of_lt (Nat.lt_succ_self i), hparam]
    · rwa [List.take_append_of_le_length hlt.le, List.take_take, Nat.min_eq_left (Nat.le_succ i)]
  · rintro ⟨i, call, u, report, hparam, haligned, hnew, hrun, -⟩
    exact assembleCall_error_iff.2
      ⟨i, call, u, hparam, haligned, dependencyPasses_false_iff.2 ⟨hnew, report, hrun⟩⟩

/-- A range that is bounded by a number and by what another field holds, before and after that field
has been evaluated. -/
def rangeSpec : Spec :=
  .ofValues [.literal (.ofInt 3), .computed ⟨0, fun record => record.read "limit"⟩,
    .predicate ⟨1, fun v => !v.isBlank⟩, .dependsOn "limit"]

/-- The rule of a limit, which is trimmed and has to be there. -/
def limitRules : Fields Rule :=
  [("limit", .descriptor ⟨.list ["required"], [("trimValue", .value (.bool true))]⟩)]

/-- The second argument is the limit as it was and the fourth is the limit as its own evaluation has
left it; each text stands where its argument stands. -/
theorem assembleCall_aligned_limit :
    ∃ call t,
      assembleCall ((standard : Engine Unit).dependencyPasses standard.validate limitRules ["size"])
          (rangeSpec.bind [("limit", .string " 9")]) ⟨[("limit", .string " 9")], ()⟩ =
        .ok (.ok call) t ∧
      call.arguments.length = 4 ∧ call.displays = ["3", " 9", "[function]", "limit"] ∧
      call.arguments[1]? = some (.value (.string " 9")) ∧
      call.arguments[3]? = some (.value (.string "9")) := by
  obtain ⟨call, hcall, hdisplays, hbefore, hafter⟩ :
      ∃ call, assembleCall
            ((standard : Engine Unit).dependencyPasses standard.validate limitRules ["size"])
            (rangeSpec.bind [("limit", .string " 9")]) ⟨[("limit", .string " 9")], ()⟩ =
          .ok (.ok call) ⟨[("limit", .string "9")], ()⟩ ∧
        call.displays = ["3", " 9", "[function]", "limit"] ∧
        call.arguments[1]? = some (.value (.string " 9")) ∧
        call.arguments[3]? = some (.value (.string "9")) :=
    ⟨_, by with_unfolding_all rfl, rfl, rfl, rfl⟩
  have haligned := ((assembleCall_aligned (standard : Engine Unit) standard.validate limitRules
    ["size"] rangeSpec ⟨[("limit", .string " 9")], ()⟩).1 call _).1 hcall
  exact ⟨call, _, hcall, haligned.arguments, hdisplays, hbefore, hafter⟩

end Engine

end Vetting
