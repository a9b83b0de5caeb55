import Vetting.Rule.Equality
import Vetting.Outcome
import Mathlib.Data.List.Forall2
import Mathlib.Data.Option.Basic

/-!
# Maps in one order

Equality of maps does not look at the order of their names, and whoever walks through a map does.
Two maps are `Parallel` if a walk through both meets the same names in step, with contents that are
related; then their readings are related too (`Parallel.get?`). They are `Paired` if besides no name
occurs twice, and paired maps stay paired when like things are written into them (`Paired.put`,
`Paired.merge`). Maps that are paired with equal contents are equal, whichever kind of content it is
(`Paired.same`).
-/

set_option autoImplicit false

namespace Vetting

/-- Two maps list the same names in the same order, none twice, and what they hold under one name is
related. -/
inductive Fields.Paired {α β : Type} (R : String → α → β → Prop) : Fields α → Fields β → Prop where
  | nil : Paired R [] []
  | cons {name : String} {a : α} {b : β} {as : Fields α} {bs : Fields β} (fresh : name ∉ as.keys)
      (first : R name a b) (rest : Paired R as bs) : Paired R ((name, a) :: as) ((name, b) :: bs)

/-- Two maps list the same names in the same order, with contents that are related. -/
abbrev Fields.Parallel {α β : Type} (R : String → α → β → Prop) : Fields α → Fields β → Prop :=
  List.Forall₂ fun entry entry' => entry.1 = entry'.1 ∧ R entry.1 entry.2 entry'.2

namespace Fields.Parallel

variable {α β : Type} {R : String → α → β → Prop} {as : Fields α} {bs : Fields β}

/-- Parallel maps have the same names. -/
theorem keys_eq (h : Parallel R as bs) : as.keys = bs.keys := by
  induction h with
  | nil => rfl
  | cons first _ ih => exact congrArg₂ List.cons first.1 ih

/-- Under each name both maps hold related things, or neither holds anything. -/
theorem get? (h : Parallel R as bs) (name : String) :
    Option.Rel (R name) (as.get? name) (bs.get? name) := by
  induction h with
  | nil => exact .none
  | @cons entry entry' as bs first _ ih =>
    obtain ⟨key, a⟩ := entry
    obtain ⟨key', b⟩ := entry'
    obtain ⟨rfl, first⟩ := first
    rw [get?_cons, get?_cons]
    by_cases hkey : name = key
    · subst hkey
      rw [if_pos rfl, if_pos rfl]
      exact .some first
    · rw [if_neg hkey, if_neg hkey]
      exact ih

/-- Parallel maps in which no name occurs twice are paired. -/
theorem paired (h : Parallel R as bs) (hdistinct : as.Distinct) : Paired R as bs := by
  induction h with
  | nil => exact .nil
  | @cons entry entry' as bs first _ ih =>
    obtain ⟨key, a⟩ := entry
    obtain ⟨key', b⟩ := entry'
    obtain ⟨rfl, first⟩ := first
    obtain ⟨fresh, hrest⟩ := List.nodup_cons.1 hdistinct
    exact .cons fresh first (ih hrest)

/-- A map is parallel to itself if what it holds is related to itself. -/
theorem refl {R : String → α → α → Prop} (h : ∀ entry ∈ as, R entry.1 entry.2 entry.2) :
    Parallel R as as := by
  induction as with
  | nil => exact .nil
  | cons entry as ih =>
    exact .cons ⟨rfl, h entry List.mem_cons_self⟩
      (ih fun entry hentry => h entry (List.mem_cons_of_mem _ hentry))

/-- Parallel maps with equal contents are equal. -/
theorem eq {as bs : Fields α} (h : Parallel (fun _ a b => a = b) as bs) : as = bs := by
  induction h with
  | nil => rfl
  | cons first _ ih => rw [ih, Prod.ext first.1 first.2]

end Fields.Parallel

namespace Fields.Paired

variable {α β : Type} {R : String → α → β → Prop} {as : Fields α} {bs : Fields β}

/-- Paired maps are parallel. -/
theorem parallel (h : Paired R as bs) : Parallel R as bs := by
  induction h with
  | nil => exact .nil
  | cons _ first _ ih => exact .cons ⟨rfl, first⟩ ih

/-- Paired maps have the same names. -/
theorem keys_eq (h : Paired R as bs) : as.keys = bs.keys :=
  h.parallel.keys_eq

/-- Distinct names are distinct on the other side, too. -/
theorem distinct (h : Paired R as bs) : as.Distinct := by
  induction h with
  | nil => exact List.nodup_nil
  | cons fresh _ _ ih => exact List.nodup_cons.2 ⟨fresh, ih⟩

/-- Of two such maps both are empty or none. -/
theorem isEmpty_eq (h : Paired R as bs) : as.isEmpty = bs.isEmpty := by
  cases h <;> rfl

/-- Two such maps have as many entries. -/
theorem length_eq (h : Paired R as bs) : as.length = bs.length := by
  induction h with
  | nil => rfl
  | cons _ _ _ ih => rw [List.length_cons, List.length_cons, ih]

/-- Under each name both maps hold related things, or neither holds anything. -/
theorem get? (h : Paired R as bs) (name : String) :
    Option.Rel (R name) (as.get? name) (bs.get? name) :=
  h.parallel.get? name

/-- What the one map holds has its counterpart in the other. -/
theorem of_mem (h : Paired R as bs) {name : String} {a : α} (hmem : (name, a) ∈ as) :
    ∃ b, bs.get? name = some b ∧ R name a b := by
  have hboth := h.get? name
  rw [get?_of_mem h.distinct hmem] at hboth
  generalize bs.get? name = found at hboth
  cases hboth with
  | some hab => exact ⟨_, rfl, hab⟩

/-- Maps with the same names in the same order are paired if their readings are related. -/
theorem of_get? (names : as.keys = bs.keys) (distinct : as.Distinct)
    (each : ∀ name a b, as.get? name = some a → bs.get? name = some b → R name a b) :
    Paired R as bs := by
  induction as generalizing bs with
  | nil => cases bs with
    | nil => exact .nil
    | cons => cases names
  | cons entry as ih => cases bs with
    | nil => cases names
    | cons entry' bs =>
      obtain ⟨name, a⟩ := entry
      obtain ⟨name', b⟩ := entry'
      have hnames : name = name' ∧ keys as = keys bs := List.cons.inj names
      obtain ⟨rfl, hnames⟩ := hnames
      obtain ⟨fresh, distinct⟩ := List.nodup_cons.1 distinct
      have hfirst : R name a b :=
        each name a b (by rw [get?_cons, if_pos rfl]) (by rw [get?_cons, if_pos rfl])
      refine .cons fresh hfirst (ih hnames distinct fun other a b ha hb => ?_)
      have hother : other ≠ name := by
        rintro rfl
        rw [get?_eq_none fresh] at ha
        cases ha
      apply each other a b
      · rwa [get?_cons, if_neg hother]
      · rwa [get?_cons, if_neg hother]

/-- A relation may be weakened on the entries that are there. -/
theorem mono {S : String → α → β → Prop} (h : Paired R as bs)
    (hmono : ∀ name a b, (name, a) ∈ as → R name a b → S name a b) : Paired S as bs := by
  induction h with
  | nil => exact .nil
  | cons fresh first _ ih =>
    refine .cons fresh (hmono _ _ _ List.mem_cons_self first) (ih fun name a b hmem => ?_)
    exact hmono name a b (List.mem_cons_of_mem _ hmem)

/-- Putting related values under one name leaves the maps related in order. -/
theorem put (h : Paired R as bs) {name : String} {a : α} {b : β} (hab : R name a b) :
    Paired R (as.put name a) (bs.put name b) := by
  induction h with
  | nil => exact .cons List.not_mem_nil hab .nil
  | @cons key old old' as bs fresh first rest ih =>
    rw [Fields.put, Fields.put]
    by_cases hkey : key = name
    · subst hkey
      rw [if_pos rfl, if_pos rfl]
      exact .cons fresh hab rest
    · rw [if_neg hkey, if_neg hkey]
      refine .cons (fun hmem => ?_) first ih
      rw [keys_put] at hmem
      split at hmem
      · exact fresh hmem
      · rcases List.mem_append.1 hmem with hold | hlast
        · exact fresh hold
        · exact hkey (List.mem_singleton.1 hlast)

/-- Merging related news leaves the maps related in order. -/
theorem merge (h : Paired R as bs) {news : Fields α} {news' : Fields β}
    (hnews : Paired R news news') : Paired R (as.merge news) (bs.merge news') := by
  induction hnews generalizing as bs with
  | nil => exact h
  | cons _ first _ ih => exact ih (h.put first)

end Fields.Paired

/-- A test that looks up the entries of one map in another, one after the other, holds of paired
maps if it holds of what they hold. -/
theorem Fields.Paired.sameAll {α : Type} {R : String → α → α → Prop}
    {sameAll : Fields α → Fields α → Bool} (hnil : ∀ bs, sameAll [] bs = true)
    (hcons : ∀ name a b rest bs, Fields.get? bs name = some b → R name a b →
      sameAll rest bs = true → sameAll ((name, a) :: rest) bs = true)
    {as bs : Fields α} (h : Paired R as bs) : sameAll as bs = true := by
  have hlooked : ∀ turns : Fields α, (∀ entry ∈ turns, entry ∈ as) → sameAll turns bs = true := by
    intro turns hturns
    induction turns with
    | nil => exact hnil bs
    | cons entry rest ih =>
      obtain ⟨name, a⟩ := entry
      obtain ⟨b, hb, hab⟩ := h.of_mem (hturns _ List.mem_cons_self)
      have hrest := ih fun entry hentry => hturns entry (List.mem_cons_of_mem _ hentry)
      exact hcons name a b rest bs hb hab hrest
  exact hlooked as fun _ => id

/-- Maps in order with the same values are the same. -/
theorem Fields.Paired.same {α : Type} {same : α → α → Bool} {as bs : Fields α}
    (h : Paired (fun _ a b => same a b = true) as bs) : Fields.same same as bs = true := by
  rw [Fields.same, h.length_eq, beq_self_eq_true, Bool.true_and, List.all_eq_true]
  rintro ⟨name, a⟩ hmem
  obtain ⟨b, hb, hsame⟩ := h.of_mem hmem
  simp only [hb, hsame]

/-- Findings that are the same in order are all the same. -/
theorem Finding.sameAll_of_paired {as bs : Findings}
    (h : Fields.Paired (fun _ a b => a.same b = true) as bs) : Finding.sameAll as bs = true :=
  h.sameAll (fun _ => by rw [Finding.sameAll]) fun _ _ _ _ _ hb hsame hrest => by
    simp only [Finding.sameAll, hb, hsame, hrest, Bool.and_self]

/-- Reports that are the same in order are all the same. -/
theorem Report.sameAll_of_paired {as bs : Fields Report}
    (h : Fields.Paired (fun _ a b => a.same b = true) as bs) : Report.sameAll as bs = true :=
  h.sameAll (fun _ => by rw [Report.sameAll]) fun _ _ _ _ _ hb hsame hrest => by
    simp only [Report.sameAll, hb, hsame, hrest, Bool.and_self]

end Vetting
