import Vetting.Engine.Basic
import Vetting.Proofs.RunConduct

/-!
# Related runs

Two runs are compared under three relations: of their targets, of the states that their callers keep
and of their results. They are related if from related stores they end alike, both in a result, and
the results are related, or both in the same error; the stores that they leave are related in either
case (`Run.Related`). Some errors of the first run may excuse the second from all this. Whatever is
put together from related runs is related (`Run.Related.bind` and the lemmas beside it), and this is
the only place where two runs are taken apart side by side. A comparison is an instance: which
targets, which callers and which results count as related, and which errors excuse.
-/

set_option autoImplicit false

namespace Vetting

/-- Two results, of which each may be an error: both are the same error, or neither is one and they
are related. -/
inductive SameErrorOr {ε α β : Type} (R : α → β → Prop) : Except ε α → Except ε β → Prop where
  | ok {a : α} {b : β} (h : R a b) : SameErrorOr R (.ok a) (.ok b)
  | error (e : ε) : SameErrorOr R (.error e) (.error e)

namespace SameErrorOr

variable {ε α β : Type} {R : α → β → Prop} {x : Except ε α} {y : Except ε β}

/-- Related results are related as what the first computation has given. -/
theorem with_eq (h : SameErrorOr R x y) : SameErrorOr (fun a b => x = .ok a ∧ R a b) x y := by
  cases h with
  | ok h => exact .ok ⟨rfl, h⟩
  | error e => exact .error e

/-- Every result is related to itself under a relation that holds of it twice. -/
theorem refl {R : α → α → Prop} {x : Except ε α} (h : ∀ a, x = .ok a → R a a) :
    SameErrorOr R x x := by
  cases x with
  | ok a => exact .ok (h a rfl)
  | error e => exact .error e

end SameErrorOr

/-- Two stores are related: their targets are, and the states of their callers are. -/
structure Store.Related {τ τ' σ σ' : Type} (T : τ → τ' → Prop) (R : σ → σ' → Prop)
    (s : Store τ σ) (s' : Store τ' σ') : Prop where
  target : T s.target s'.target
  caller : R s.caller s'.caller

/-- Stores that are related part by part as equal are equal. -/
theorem Store.Related.eq {τ σ : Type} {s s' : Store τ σ} (h : s.Related Eq Eq s') : s = s' := by
  obtain ⟨t, c⟩ := s
  obtain ⟨t', c'⟩ := s'
  obtain ⟨htarget, hcaller⟩ := h
  cases htarget
  cases hcaller
  rfl

/-- No error excuses: all of them have to be met by both runs. -/
abbrev noError : SetupError → Prop := fun _ => False

namespace Run

variable {τ τ' υ υ' σ σ' α α' β β' : Type} {X : SetupError → Prop} {T : τ → τ' → Prop}
  {U : υ → υ' → Prop} {R : σ → σ' → Prop} {A A' : α → α' → Prop} {B : β → β' → Prop}

/-- Two endings of runs are related: results that are, or the same error, with related stores; or
the first run ends in an error that excuses the second. -/
inductive Ending (X : SetupError → Prop) (T : τ → τ' → Prop) (R : σ → σ' → Prop)
    (A : α → α' → Prop) :
    EStateM.Result SetupError (Store τ σ) α → EStateM.Result SetupError (Store τ' σ') α' →
      Prop where
  | ok {a : α} {a' : α'} {t : Store τ σ} {t' : Store τ' σ'} (result : A a a')
      (stores : t.Related T R t') : Ending X T R A (.ok a t) (.ok a' t')
  | error (e : SetupError) {t : Store τ σ} {t' : Store τ' σ'} (stores : t.Related T R t') :
      Ending X T R A (.error e t) (.error e t')
  | excused {e : SetupError} {t : Store τ σ}
      {ending' : EStateM.Result SetupError (Store τ' σ') α'} (h : X e) :
      Ending X T R A (.error e t) ending'

/-- Two runs that are begun on two stores end in related ways. -/
def Matched (X : SetupError → Prop) (T : τ → τ' → Prop) (R : σ → σ' → Prop) (A : α → α' → Prop)
    (run : Run τ σ α) (run' : Run τ' σ' α') (s : Store τ σ) (s' : Store τ' σ') : Prop :=
  Ending X T R A (run s) (run' s')

/-- Two runs end in related ways whenever they are begun on related stores. -/
def Related (X : SetupError → Prop) (T : τ → τ' → Prop) (R : σ → σ' → Prop) (A : α → α' → Prop)
    (run : Run τ σ α) (run' : Run τ' σ' α') : Prop :=
  ∀ s s', s.Related T R s' → Matched X T R A run run' s s'

/-! ## Endings -/

namespace Matched

variable {run : Run τ σ α} {run' : Run τ' σ' α'} {s : Store τ σ} {s' : Store τ' σ'}

/-- A result of the one run has its counterpart in the other run. -/
theorem of_ok (h : Matched X T R A run run' s s') {a : α} {t : Store τ σ} (hrun : run s = .ok a t) :
    ∃ a' t', run' s' = .ok a' t' ∧ A a a' ∧ t.Related T R t' := by
  unfold Matched at h
  generalize hrun' : run' s' = ending' at h
  rw [hrun] at h
  cases h with
  | ok hresult hstores => exact ⟨_, _, rfl, hresult, hstores⟩

/-- Runs that end in related ways do so with any results that are then related. -/
theorem imp (h : Matched X T R A run run' s s') (himp : ∀ a a', A a a' → A' a a') :
    Matched X T R A' run run' s s' := by
  unfold Matched at h ⊢
  generalize run s = ending, run' s' = ending' at h
  cases h with
  | ok hresult hstores => exact .ok (himp _ _ hresult) hstores
  | error e hstores => exact .error e hstores
  | excused hexcused => exact .excused hexcused

/-- Runs that go on after related endings end in related ways if what they go on with does. -/
theorem bind {f : α → Run τ σ β} {f' : α' → Run τ' σ' β'} (h : Matched X T R A run run' s s')
    (hf : ∀ a a' t t', A a a' → t.Related T R t' → Matched X T R B (f a) (f' a') t t') :
    Matched X T R B (run >>= f) (run' >>= f') s s' := by
  unfold Matched at h
  generalize hrun : run s = ending, hrun' : run' s' = ending' at h
  cases h with
  | ok hresult hstores =>
    unfold Matched
    rw [bind_of_ok hrun, bind_of_ok hrun']
    exact hf _ _ _ _ hresult hstores
  | error e hstores =>
    unfold Matched
    rw [bind_of_error hrun, bind_of_error hrun']
    exact .error e hstores
  | excused hexcused =>
    unfold Matched
    rw [bind_of_error hrun]
    exact .excused hexcused

end Matched

/-! ## Single steps -/

/-- Runs that give related results at once are related. -/
theorem related_pure {a : α} {a' : α'} (h : A a a') :
    Related X T R A (pure a : Run τ σ α) (pure a' : Run τ' σ' α') :=
  fun _ _ hstores => .ok h hstores

/-- A run that breaks off with an error that excuses is related to every run. -/
theorem related_excused {e : SetupError} (h : X e) (run' : Run τ' σ' α') :
    Related X T R A (throw e : Run τ σ α) run' :=
  fun _ _ _ => .excused h

/-- Runs that break off with one error are related. -/
theorem related_throw (e : SetupError) :
    Related X T R A (throw e : Run τ σ α) (throw e : Run τ' σ' α') :=
  fun _ _ hstores => .error e hstores

/-- Runs that put related targets in place are related. -/
theorem related_setTarget {t : τ} {t' : τ'} (h : T t t') :
    Related X T R Eq (setTarget t : Run τ σ Unit) (setTarget t' : Run τ' σ' Unit) :=
  fun _ _ hstores => .ok rfl ⟨h, hstores.caller⟩

/-- Runs that change the states of their callers are related if related states stay so. -/
theorem related_modifyCaller {f : σ → σ} {f' : σ' → σ'} (h : ∀ c c', R c c' → R (f c) (f' c')) :
    Related X T R Eq (modifyCaller f : Run τ σ Unit) (modifyCaller f' : Run τ' σ' Unit) :=
  fun _ _ hstores => .ok rfl ⟨hstores.target, h _ _ hstores.caller⟩

/-- Runs that look at their targets first are related if what they do with related ones is. -/
theorem related_target {f : τ → Run τ σ α} {f' : τ' → Run τ' σ' α'}
    (h : ∀ t t', T t t' → Related X T R A (f t) (f' t')) :
    Related X T R A (target >>= f) (target >>= f') :=
  fun s s' hstores => h _ _ hstores.target s s' hstores

/-- Runs of results that need no target are related if the results are. -/
theorem related_ofExcept {r : Except SetupError α} {r' : Except SetupError α'}
    (h : SameErrorOr A r r') :
    Related X T R A (ofExcept r : Run τ σ α) (ofExcept r' : Run τ' σ' α') := by
  cases h with
  | ok h => exact related_pure h
  | error e => exact related_throw e

/-! ## Longer runs -/

namespace Related

variable {run : Run τ σ α} {run' : Run τ' σ' α'}

/-- Related runs are related under every weaker relation of results. -/
theorem imp (h : Related X T R A run run') (himp : ∀ a a', A a a' → A' a a') :
    Related X T R A' run run' :=
  fun s s' hstores => (h s s' hstores).imp himp

/-- Related runs that go on with related runs are related. -/
theorem bind {f : α → Run τ σ β} {f' : α' → Run τ' σ' β'} (h : Related X T R A run run')
    (hf : ∀ a a', A a a' → Related X T R B (f a) (f' a')) :
    Related X T R B (run >>= f) (run' >>= f') :=
  fun s s' hstores => (h s s' hstores).bind fun a a' t t' ha ht => hf a a' ha t t' ht

/-- Related runs stay so with a last step on the states of the callers, however they end. -/
theorem lastly (h : Related X T R A run run') {f : σ → σ} {f' : σ' → σ'}
    (hf : ∀ c c', R c c' → R (f c) (f' c')) :
    Related X T R A (Run.lastly f run) (Run.lastly f' run') := by
  intro s s' hstores
  have hends := h s s' hstores
  unfold Matched Run.lastly at *
  generalize run s = ending, run' s' = ending' at hends
  cases hends with
  | ok hresult hafter => exact .ok hresult ⟨hafter.target, hf _ _ hafter.caller⟩
  | error e hafter => exact .error e ⟨hafter.target, hf _ _ hafter.caller⟩
  | excused hexcused => exact .excused hexcused

/-- Runs on parts of their targets are related if the parts' own runs are, provided that related
targets have related parts and stay related when related parts are put in. -/
theorem focus (h : Related X T R A run run') {view : υ → τ} {view' : υ' → τ'}
    {update : υ → τ → υ} {update' : υ' → τ' → υ'} (hview : ∀ u u', U u u' → T (view u) (view' u'))
    (hupdate : ∀ u u' t t', U u u' → T t t' → U (update u t) (update' u' t')) :
    Related X U R A (Run.focus view update run) (Run.focus view' update' run') := by
  intro s s' hstores
  have hends := h ⟨view s.target, s.caller⟩ ⟨view' s'.target, s'.caller⟩
    ⟨hview _ _ hstores.target, hstores.caller⟩
  unfold Matched Run.focus at *
  generalize run ⟨view s.target, s.caller⟩ = ending, run' ⟨view' s'.target, s'.caller⟩ = ending'
    at hends
  cases hends with
  | ok hresult hafter =>
    exact .ok hresult ⟨hupdate _ _ _ _ hstores.target hafter.target, hafter.caller⟩
  | error e hafter =>
    exact .error e ⟨hupdate _ _ _ _ hstores.target hafter.target, hafter.caller⟩
  | excused hexcused => exact .excused hexcused

/-- Runs on related things beside their targets are related, and so are the things that they
leave. -/
theorem beside {other : τ} {other' : τ'} (h : Related X T R A run run') (hother : T other other') :
    Related X U R (fun p p' => A p.1 p'.1 ∧ T p.2 p'.2)
      (Run.beside other run : Run υ σ (α × τ)) (Run.beside other' run' : Run υ' σ' (α' × τ')) := by
  intro s s' hstores
  have hends := h ⟨other, s.caller⟩ ⟨other', s'.caller⟩ ⟨hother, hstores.caller⟩
  unfold Matched Run.beside at *
  generalize run ⟨other, s.caller⟩ = ending, run' ⟨other', s'.caller⟩ = ending' at hends
  cases hends with
  | ok hresult hafter => exact .ok ⟨hresult, hafter.target⟩ ⟨hstores.target, hafter.caller⟩
  | error e hafter => exact .error e ⟨hstores.target, hafter.caller⟩
  | excused hexcused => exact .excused hexcused

/-- A run is related to itself where everything that is related is equal. -/
theorem refl (run : Run τ σ α) : Related X Eq Eq Eq run run := by
  rintro ⟨t, c⟩ ⟨t', c'⟩ ⟨rfl, rfl⟩
  unfold Matched
  cases run ⟨t, c⟩ with
  | ok a u => exact .ok rfl ⟨rfl, rfl⟩
  | error e u => exact .error e ⟨rfl, rfl⟩

/-- Runs that are related where everything that is related is equal end in the same way, unless the
first one ends in an error that excuses. -/
theorem eq_or_excused {run run' : Run τ σ α} (h : Related X Eq Eq Eq run run') (s : Store τ σ) :
    run s = run' s ∨ ∃ e t, X e ∧ run s = .error e t := by
  have hends := h s s ⟨rfl, rfl⟩
  unfold Matched at hends
  generalize run s = ending, run' s = ending' at hends ⊢
  cases hends with
  | ok hresult hstores => exact Or.inl (by rw [hresult, hstores.eq])
  | error e hstores => exact Or.inl (by rw [hstores.eq])
  | excused hexcused => exact Or.inr ⟨_, _, hexcused, rfl⟩

/-- Runs that are related where everything that is related is equal are equal. -/
theorem eq {run run' : Run τ σ α} (h : Related noError Eq Eq Eq run run') : run = run' := by
  funext s
  rcases h.eq_or_excused s with hsame | ⟨e, t, hexcused, -⟩
  · exact hsame
  · exact hexcused.elim

end Related

end Run

namespace Engine

variable {τ τ' σ σ' α α' : Type} {X : SetupError → Prop} {T : τ → τ' → Prop} {R : σ → σ' → Prop}
  {A : α → α' → Prop}
  {engine : Engine σ} {engine' : Engine σ'}

/-- Runs between two steps of which observers are told are related if they are so on their own and
the observers keep related states related. -/
theorem related_during {run : Run τ σ α} {run' : Run τ' σ' α'} (h : Run.Related X T R A run run')
    {first first' last last' : Event}
    (hfirst : ∀ c c', R c c' → R (engine.observe first c) (engine'.observe first' c'))
    (hlast : ∀ c c', R c c' → R (engine.observe last c) (engine'.observe last' c')) :
    Run.Related X T R A (engine.during first last run) (engine'.during first' last' run') :=
  (Run.related_modifyCaller hfirst).bind fun _ _ _ => h.lastly hlast

end Engine

end Vetting
