import Vetting.Run

/-!
# What a run keeps and how it may break off

A run ends in a result or in an error, and either way the store has changed. A `Conduct` says which
changes are within bounds for each of the two endings; it is closed under doing nothing and under
going on after a step within bounds, so that a whole run obeys it as soon as each step does
(`ObeysAt.bind`). The lemmas on `bind` and on the single steps are the only ones that look inside
the monad: everything about longer runs is put together from them.
-/

set_option autoImplicit false

namespace Vetting

/-- Two steps of which each may fail end in a result exactly when both do. -/
theorem except_bind_eq_ok {ε α β : Type} {x : Except ε α} {f : α → Except ε β} {b : β} :
    (x >>= f) = .ok b ↔ ∃ a, x = .ok a ∧ f a = .ok b := by
  cases x with
  | ok a => simp [bind, Except.bind]
  | error e => simp [bind, Except.bind]

/-- Mapping a result has a result if it comes from one. -/
theorem except_map_eq_ok {ε α β : Type} {x : Except ε α} {f : α → β} {b : β} :
    f <$> x = .ok b ↔ ∃ a, x = .ok a ∧ f a = b := by
  cases x with
  | ok a => simp [Functor.map, Except.map]
  | error e => simp [Functor.map, Except.map]

namespace Run

variable {τ υ σ α β : Type}

/-- Doing nothing has its result and leaves the store. -/
@[simp] theorem pure_apply (a : α) (s : Store τ σ) : (pure a : Run τ σ α) s = .ok a s := rfl

/-- Failing leaves the store. -/
@[simp] theorem throw_apply (e : SetupError) (s : Store τ σ) :
    (throw e : Run τ σ α) s = .error e s := rfl

/-- The target is looked up in the store. -/
@[simp] theorem target_apply (s : Store τ σ) : (target : Run τ σ τ) s = .ok s.target s := rfl

/-- A new target is put into the store. -/
@[simp] theorem setTarget_apply (t : τ) (s : Store τ σ) :
    (setTarget t : Run τ σ Unit) s = .ok () { s with target := t } := rfl

/-- The caller's state is changed in the store. -/
@[simp] theorem modifyCaller_apply (f : σ → σ) (s : Store τ σ) :
    (modifyCaller f : Run τ σ Unit) s = .ok () { s with caller := f s.caller } := rfl

/-- A run whose first part ends in a result goes on with the second part. -/
theorem bind_of_ok {x : Run τ σ α} {f : α → Run τ σ β} {s t : Store τ σ} {a : α}
    (h : x s = .ok a t) : (x >>= f) s = f a t := by
  simp only [bind, EStateM.bind, h]

/-- A run whose first part ends in an error ends there. -/
theorem bind_of_error {x : Run τ σ α} {f : α → Run τ σ β} {s t : Store τ σ} {e : SetupError}
    (h : x s = .error e t) : (x >>= f) s = .error e t := by
  simp only [bind, EStateM.bind, h]

/-- A run of two parts ends in a result exactly when both parts do. -/
theorem bind_eq_ok {x : Run τ σ α} {f : α → Run τ σ β} {s u : Store τ σ} {b : β} :
    (x >>= f) s = .ok b u ↔ ∃ a t, x s = .ok a t ∧ f a t = .ok b u := by
  constructor
  · intro h
    cases hx : x s with
    | ok a t => exact ⟨a, t, rfl, by rwa [bind_of_ok hx] at h⟩
    | error e t => simp [bind_of_error hx] at h
  · rintro ⟨a, t, hx, hf⟩
    rw [bind_of_ok hx, hf]

/-- Doing nothing ends in its result and in the same store only. -/
@[simp] theorem pure_eq_ok {a b : α} {s t : Store τ σ} :
    (pure a : Run τ σ α) s = .ok b t ↔ a = b ∧ s = t := by
  simp

/-- Reading the target first makes a run depend on the target alone. -/
@[simp] theorem target_bind (f : τ → Run τ σ α) (s : Store τ σ) :
    (target >>= f) s = f s.target s := rfl

/-- A result is handed on. -/
@[simp] theorem ofExcept_ok (a : α) : (ofExcept (.ok a) : Run τ σ α) = pure a := rfl

/-- An error is thrown. -/
@[simp] theorem ofExcept_error (e : SetupError) :
    (ofExcept (.error e) : Run τ σ α) = throw e := rfl

/-- A result that needs no target leaves the store alone. -/
theorem ofExcept_eq_ok {r : Except SetupError α} {a : α} {s t : Store τ σ} :
    (ofExcept r : Run τ σ α) s = .ok a t ↔ r = .ok a ∧ s = t := by
  cases r <;> simp

/-- A run on a part of the target ends in a result exactly when the part's own run does. -/
theorem focus_eq_ok {view : τ → υ} {update : τ → υ → τ} {run : Run υ σ α} {s t : Store τ σ}
    {a : α} : focus view update run s = .ok a t ↔
      ∃ after, run ⟨view s.target, s.caller⟩ = .ok a after ∧
        t = ⟨update s.target after.target, after.caller⟩ := by
  unfold focus
  cases run ⟨view s.target, s.caller⟩ with
  | ok b after =>
    simp only [EStateM.Result.ok.injEq]
    constructor
    · rintro ⟨rfl, rfl⟩
      exact ⟨after, ⟨rfl, rfl⟩, rfl⟩
    · rintro ⟨_, ⟨rfl, rfl⟩, rfl⟩
      exact ⟨rfl, rfl⟩
  | error e after => simp

/-- A run on a part of the target breaks off where the part's own run does. -/
theorem focus_of_error {view : τ → υ} {update : τ → υ → τ} {run : Run υ σ α} {s : Store τ σ}
    {e : SetupError} {after : Store υ σ} (h : run ⟨view s.target, s.caller⟩ = .error e after) :
    focus view update run s = .error e ⟨update s.target after.target, after.caller⟩ := by
  unfold focus
  rw [h]

/-- A run on something beside the target ends in a result exactly when that run does. -/
theorem beside_eq_ok {other : υ} {run : Run υ σ α} {s t : Store τ σ} {result : α × υ} :
    beside other run s = .ok result t ↔
      ∃ after, run ⟨other, s.caller⟩ = .ok result.1 after ∧ result.2 = after.target ∧
        t = ⟨s.target, after.caller⟩ := by
  unfold beside
  cases run ⟨other, s.caller⟩ with
  | ok b after =>
    simp only [EStateM.Result.ok.injEq, Prod.ext_iff]
    constructor
    · rintro ⟨⟨hfst, hsnd⟩, rfl⟩
      exact ⟨after, ⟨hfst, rfl⟩, hsnd.symm, rfl⟩
    · rintro ⟨_, ⟨hfst, rfl⟩, hsnd, rfl⟩
      exact ⟨⟨hfst, hsnd.symm⟩, rfl⟩
  | error e after => simp

end Run

/-- What a run may do to the store: `keeps` when it ends in a result, `breaks` when it ends in an
error. -/
structure Conduct (τ σ : Type) where
  keeps : Store τ σ → Store τ σ → Prop
  breaks : Store τ σ → SetupError → Store τ σ → Prop
  refl : ∀ s, keeps s s
  trans : ∀ {s t u}, keeps s t → keeps t u → keeps s u
  breaks_of_keeps : ∀ {s t e u}, keeps s t → breaks t e u → breaks s e u

/-- Runs that change the target in one way only, whichever of the two endings they have and whatever
becomes of the state of the caller. -/
def Conduct.changing {τ σ : Type} (R : τ → τ → Prop) (hrefl : ∀ t, R t t)
    (htrans : ∀ t u v, R t u → R u v → R t v) : Conduct τ σ where
  keeps s t := R s.target t.target
  breaks s _ t := R s.target t.target
  refl s := hrefl s.target
  trans := htrans _ _ _
  breaks_of_keeps := htrans _ _ _

namespace Run

variable {τ υ σ α β : Type} {c : Conduct τ σ} {s : Store τ σ}

/-- A run begun on a store stays within a conduct. -/
def ObeysAt (run : Run τ σ α) (c : Conduct τ σ) (s : Store τ σ) : Prop :=
  match run s with
  | .ok _ t => c.keeps s t
  | .error e t => c.breaks s e t

/-- A run stays within a conduct wherever it begins. -/
def Obeys (run : Run τ σ α) (c : Conduct τ σ) : Prop := ∀ s, run.ObeysAt c s

/-- A run that obeys a conduct keeps to it when it ends. -/
theorem ObeysAt.keeps {run : Run τ σ α} (h : run.ObeysAt c s) {a : α} {t : Store τ σ}
    (hrun : run s = .ok a t) : c.keeps s t := by
  simpa [ObeysAt, hrun] using h

/-- A run that obeys a conduct breaks off as the conduct allows when it fails. -/
theorem ObeysAt.breaks {run : Run τ σ α} (h : run.ObeysAt c s) {e : SetupError} {t : Store τ σ}
    (hrun : run s = .error e t) : c.breaks s e t := by
  simpa [ObeysAt, hrun] using h

/-- A run obeys a conduct as soon as each of its two endings does. -/
theorem ObeysAt.intro {run : Run τ σ α} (hok : ∀ a t, run s = .ok a t → c.keeps s t)
    (herror : ∀ e t, run s = .error e t → c.breaks s e t) : run.ObeysAt c s := by
  unfold ObeysAt
  cases h : run s with
  | ok a t => exact hok a t h
  | error e t => exact herror e t h

/-- Doing nothing obeys every conduct. -/
theorem obeys_pure (a : α) : (pure a : Run τ σ α).Obeys c := fun s => c.refl s

/-- Failing obeys a conduct that allows it. -/
theorem obeysAt_throw {e : SetupError} (h : c.breaks s e s) :
    (throw e : Run τ σ α).ObeysAt c s := h

/-- Looking at the target obeys a conduct if what follows does. -/
theorem obeysAt_target {f : τ → Run τ σ α} (h : (f s.target).ObeysAt c s) :
    (target >>= f).ObeysAt c s := h

/-- A run of two parts obeys a conduct if the first part does and the second part does on whatever
store the first one leaves. -/
theorem ObeysAt.bind {x : Run τ σ α} {f : α → Run τ σ β} (hx : x.ObeysAt c s)
    (hf : ∀ a t, x s = .ok a t → (f a).ObeysAt c t) : (x >>= f).ObeysAt c s := by
  cases h : x s with
  | error e t =>
    refine ObeysAt.intro (fun b u hb => ?_) (fun e' u hb => ?_)
    · simp [bind_of_error h] at hb
    · rw [bind_of_error h] at hb
      cases hb
      exact hx.breaks h
  | ok a t =>
    have hkeeps : c.keeps s t := hx.keeps h
    refine ObeysAt.intro (fun b u hb => ?_) (fun e' u hb => ?_)
    · rw [bind_of_ok h] at hb
      exact c.trans hkeeps ((hf a t h).keeps hb)
    · rw [bind_of_ok h] at hb
      exact c.breaks_of_keeps hkeeps ((hf a t h).breaks hb)

/-- A run of two parts obeys a conduct if both parts do everywhere. -/
theorem Obeys.bind {x : Run τ σ α} {f : α → Run τ σ β} (hx : x.Obeys c)
    (hf : ∀ a, (f a).Obeys c) : (x >>= f).Obeys c :=
  fun s => (hx s).bind fun a t _ => hf a t

/-- A run that obeys a conduct obeys every wider one. -/
theorem Obeys.mono {run : Run τ σ α} {c' : Conduct τ σ} (h : run.Obeys c)
    (hkeeps : ∀ {s t}, c.keeps s t → c'.keeps s t)
    (hbreaks : ∀ {s e t}, c.breaks s e t → c'.breaks s e t) : run.Obeys c' :=
  fun s => ObeysAt.intro (fun _ _ hrun => hkeeps ((h s).keeps hrun))
    (fun _ _ hrun => hbreaks ((h s).breaks hrun))

/-- A result that needs no target obeys a conduct if its error does. -/
theorem obeysAt_ofExcept {r : Except SetupError α} (h : ∀ e, r = .error e → c.breaks s e s) :
    (ofExcept r : Run τ σ α).ObeysAt c s := by
  cases r with
  | ok a => exact c.refl s
  | error e => exact h e rfl

end Run

end Vetting
