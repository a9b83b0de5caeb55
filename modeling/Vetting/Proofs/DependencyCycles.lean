import Vetting.Proofs.WellFormedRules

/-!
# Cycles of dependencies

A run that ends because of a cyclic dependency names a path, and the path is a cycle indeed: fields
of one rule map, none twice, each with a validator that depends on the next one, and at its end one
of them again (`CyclePath`). The rule map is the one at hand or one for a nested record, at any
depth (`Rules.Reaches`). So two fields that depend on a third one are no cycle, and rules without a
cycle at any depth never make a run end like this, whatever the value (`validate_cyclicDependency`).

The fields in progress are a `Walk` of the graph of dependencies, which is what a step that closes a
cycle has to go by; `Manner.closing` carries that one fact out of the nested runs.
-/

set_option autoImplicit false

namespace Vetting

/-- The rules that a run by some rules may come to: these rules, and those for nested records that
their modules are configured with, at any depth. -/
inductive Rules.Reaches : Rules → Rules → Prop
  | refl (rules : Rules) : Reaches rules rules
  | nest {rules inner last : Rules} {field : String} {rule : Rule} {config : Configuration} :
      (field, rule) ∈ rules.members → ("objectValidator", config) ∈ rule.canonical.modules →
        Module.nestedRules field config = .ok inner → Reaches inner last → Reaches rules last

/-- Rules without a nested record lead to no others. -/
theorem Rules.Reaches.eq_of_noNested {rules inner : Rules} (h : rules.Reaches inner)
    (hnone : ∀ entry ∈ rules.members, ∀ config,
      ("objectValidator", config) ∉ entry.2.canonical.modules) : inner = rules := by
  cases h with
  | refl => rfl
  | nest hrule hconfig => exact absurd hconfig (hnone _ hrule _)

/-- A path around a cycle: it begins at a declared field, each of its fields has a validator that
depends on the next one, and no field occurs twice until the last one does. -/
structure CyclePath (rules : Fields Rule) (path : List String) : Prop where
  declared : ∀ field ∈ path.head?, field ∈ rules.keys
  linked : path.IsChain (DependsOn rules)
  closed : ∃ front last, path = front ++ [last] ∧ front.Nodup ∧ last ∈ front

/-- Where a field in progress comes to depend on one that is in progress already, the path is a
cycle. -/
theorem Walk.cyclePath {rules : Fields Rule} {inProgress : List String} {field d : String}
    (h : Walk rules (inProgress ++ [field])) (hdep : DependsOn rules field d)
    (hmem : d ∈ inProgress ++ [field]) : CyclePath rules (inProgress ++ [field] ++ [d]) where
  declared := by
    -- The path begins with a field in progress, or with the last one if there are no others.
    intro first hfirst
    have hfront : first ∈ (inProgress ++ [field] ++ [d]).dropLast := by
      rw [List.dropLast_concat]
      refine List.mem_of_mem_head? ?_
      rwa [List.head?_append_of_ne_nil _ (by simp)] at hfirst
    rw [List.dropLast_concat, List.mem_append] at hfront
    rcases hfront with hfront | hfront
    · exact h.declared first (by rwa [List.dropLast_concat])
    · obtain ⟨rule, hrule, -⟩ := hdep
      rw [List.mem_singleton.1 hfront]
      exact List.mem_map.2 ⟨_, hrule, rfl⟩
  linked := List.isChain_append.2 ⟨h.linked, List.isChain_singleton d, by
    intro last hlast next hnext
    rw [List.getLast?_concat, Option.mem_some_iff] at hlast
    rw [List.head?_cons, Option.mem_some_iff] at hnext
    rwa [← hlast, ← hnext]⟩
  closed := ⟨inProgress ++ [field], d, rfl, h.nodup, hmem⟩

/-- On the path around a cycle there is a field that depends on itself. -/
theorem CyclePath.exists_cycle {rules : Fields Rule} {path : List String}
    (h : CyclePath rules path) : ∃ field, Relation.TransGen (DependsOn rules) field field := by
  obtain ⟨front, last, rfl, -, hmem⟩ := h.closed
  obtain ⟨hfront, -, hjoint⟩ := List.isChain_append.1 h.linked
  have hlast : front.getLast (List.ne_nil_of_mem hmem) ∈ front.getLast? :=
    List.getLast?_eq_getLast_of_ne_nil _
  -- From the field that occurs twice the path leads to its end, which depends on that field.
  have hreach : Relation.ReflTransGen (DependsOn rules) last _ :=
    reaches_getLast hfront hmem hlast
  exact ⟨last, Relation.TransGen.tail' hreach (hjoint _ hlast last rfl)⟩

/-- A run that ends because of a cyclic dependency only where there is a cycle. -/
def Manner.closing {σ : Type} (rules : Rules) : Manner σ where
  keeps _ _ := True
  breaks _ e _ := ∀ path, e = .cyclicDependency path →
    ∃ inner, rules.Reaches inner ∧ CyclePath inner.members path
  refl _ := trivial
  trans _ _ := trivial
  breaks_of_keeps _ h := h

namespace Engine

variable {σ : Type} {engine : Engine σ}

/-- Evaluations with the built-in modules close only cycles that there are, if nested runs do: the
evaluation itself knows its fields in progress to be a walk. -/
theorem accounted_closing (hmodules : engine.modules = KnownModules.builtin) {rules : Rules}
    (hinner : ∀ inner : Rules, inner.weight < rules.weight →
      (engine.validate inner false).Obeys ((Manner.closing inner).conduct Value)) :
    engine.Accounted engine.validate rules.members fun _ => Manner.closing rules where
  modules := hmodules
  returns _ _ _ _ := trivial
  unwinds _ _ _ _ h := h
  cycles := by
    rintro inProgress field d hwalk hdep hmem _ path heq
    cases heq
    exact ⟨rules, .refl rules, hwalk.cyclePath hdep hmem⟩
  misses := by
    rintro inProgress field rule e _ _ hfind _ path rfl
    obtain ⟨name, -, -, heq⟩ := findAll_error hfind
    cases heq
  defaults := by
    rintro inProgress field rule inner _ _ _ _ path heq
    cases heq
  refuses := by
    rintro inProgress field rule config e _ _ _ hread _ path rfl
    obtain ⟨_, _, heq⟩ := readable_nestedRules _ _ _ hread
    cases heq
  nests := by
    intro inProgress field rule config inner _ hrule hconfig hread s _
    have hlt : inner.weight < rules.weight := nestedRules_weight_lt hrule hconfig hread
    refine Run.obeysAt_target (during_obeysAt (fun _ => trivial) ?_ (hinner inner hlt _))
    intro e _ hbreaks path heq
    obtain ⟨last, hreach, hcycle⟩ := hbreaks path heq
    exact ⟨last, .nest hrule hconfig hread hreach, hcycle⟩
  abandons _ _ _ _ := trivial

/-- Validation closes only cycles that there are: by induction on the weight of rules. -/
theorem validate_closes (hmodules : engine.modules = KnownModules.builtin) (rules : Rules)
    (force : Bool) :
    (engine.validate rules force).Obeys ((Manner.closing rules).conduct Value) := by
  induction hweight : rules.weight using Nat.strong_induction_on generalizing rules force with
  | _ n ih =>
    subst hweight
    intro s
    have haccounted :
        engine.Accounted engine.validate rules.members fun _ => Manner.closing rules :=
      accounted_closing hmodules fun inner hlt => ih inner.weight hlt inner false rfl
    rw [validate_eq_validateBy hmodules]
    refine haccounted.validateBy_obeysAt force fun fields _ _ path heq => ?_
    cases heq

/-- A run that ends because of a cyclic dependency names a path around a cycle, in the rules at hand
or in rules for a nested record; and if there is no cycle at any depth, no run ends like this. -/
theorem validate_cyclicDependency (hmodules : engine.modules = KnownModules.builtin) (rules : Rules)
    (force : Bool) (s : Store Value σ) :
    (∀ path t, engine.validate rules force s = .error (.cyclicDependency path) t →
      ∃ inner, rules.Reaches inner ∧ CyclePath inner.members path) ∧
    ((∀ inner, rules.Reaches inner →
        ∀ field, ¬ Relation.TransGen (DependsOn inner.members) field field) →
      ∀ path t, engine.validate rules force s ≠ .error (.cyclicDependency path) t) := by
  have hsound : ∀ path t, engine.validate rules force s = .error (.cyclicDependency path) t →
      ∃ inner, rules.Reaches inner ∧ CyclePath inner.members path := by
    intro path t hrun
    exact (validate_closes hmodules rules force s).breaks hrun path rfl
  refine ⟨hsound, fun hacyclic path t hrun => ?_⟩
  obtain ⟨inner, hreach, hcycle⟩ := hsound path t hrun
  obtain ⟨field, hfield⟩ := hcycle.exists_cycle
  exact hacyclic inner hreach field hfield

/-- The rule of a field that has to equal other fields. -/
def equalRule (others : List String) : Rule :=
  .bare (.specs [("equalsTo", .ofValues (others.map .dependsOn))])

/-- Rules for a record with a child, two fields of which depend on each other. -/
def mutualRules : Fields Rule :=
  [("child", .descriptor ⟨.list [], [("objectValidator",
    .rules (.fields [("a", equalRule ["b"]), ("b", equalRule ["a"])]))]⟩)]

/-- Rules for a record of which two fields depend on a third one, and a last one on the two. -/
def diamondRules : Fields Rule :=
  [("top", equalRule ["left", "right"]), ("left", equalRule ["bottom"]),
    ("right", equalRule ["bottom"]), ("bottom", .bare (.name "required"))]

/-- The cycle of the nested record is found, with its path; the diamond is no cycle for any
record. -/
theorem validate_cyclicDependency_mutual :
    (∃ t, (standard : Engine Unit).validate (.fields mutualRules) false
        ⟨.object [("child", .object [("a", .ofInt 1), ("b", .ofInt 1)])], ()⟩ =
      .error (.cyclicDependency ["a", "b", "a"]) t) ∧
    (∃ inner, (Rules.fields mutualRules).Reaches inner ∧
      CyclePath inner.members ["a", "b", "a"]) ∧
    ∀ v path t, (standard : Engine Unit).validate (.fields diamondRules) false ⟨v, ()⟩ ≠
      .error (.cyclicDependency path) t := by
  have hrun : (standard : Engine Unit).validate (.fields mutualRules) false
      ⟨.object [("child", .object [("a", .ofInt 1), ("b", .ofInt 1)])], ()⟩ =
        .error (.cyclicDependency ["a", "b", "a"])
          ⟨.object [("child", .object [("a", .ofInt 1), ("b", .ofInt 1)])], ()⟩ := by
    with_unfolding_all rfl
  refine ⟨⟨_, hrun⟩, (validate_cyclicDependency rfl _ _ _).1 _ _ hrun, fun v => ?_⟩
  refine (validate_cyclicDependency rfl (.fields diamondRules) false ⟨v, ()⟩).2
    fun inner hreach => ?_
  have hinner : inner = .fields diamondRules := hreach.eq_of_noNested (by
    intro entry hentry config hconfig
    simp only [Rules.members, diamondRules, List.mem_cons, List.not_mem_nil, or_false] at hentry
    rcases hentry with rfl | rfl | rfl | rfl <;> cases hconfig)
  rw [hinner]
  exact acyclic_of_rank (fun name => diamondRules.keys.idxOf name) (by decide)

end Engine

end Vetting
