import Vetting.Value.Loose
import Vetting.Proofs.RulesFromData
import Mathlib.Data.List.Forall2

/-!
# Values but for the order of members

An object lists its members in some order, which equality does not look at. Two values are
`Unordered` if they differ in nothing but this order, at any depth: then they are equal
(`Unordered.same`), and everything that validation reads off a value is the same for both, its
text and its number, how it compares with others (`Unordered.looselyEquals_eq`,
`Unordered.compare_eq`), and what it is equal to (`Unordered.same_eq`). The converse fails for
numbers: the two zeros are equal and have different texts.
-/

set_option autoImplicit false

namespace Vetting

/-- Two values differ in nothing but the order in which their objects, at any depth, list their
members. No object has a name twice. -/
inductive Value.Unordered : Value → Value → Prop where
  | null : Unordered .null .null
  | bool (b : Bool) : Unordered (.bool b) (.bool b)
  | number (n : Number) : Unordered (.number n) (.number n)
  | string (s : String) : Unordered (.string s) (.string s)
  | array {items items' : List Value} (length : items.length = items'.length)
      (each : ∀ (i : Nat) (v v' : Value), items[i]? = some v → items'[i]? = some v' →
        Unordered v v') :
      Unordered (.array items) (.array items')
  | object {members members' : Fields Value} (distinct : members.Distinct)
      (names : members.keys.Perm members'.keys)
      (each : ∀ name v v', members.get? name = some v → members'.get? name = some v' →
        Unordered v v') :
      Unordered (.object members) (.object members')

namespace Value

/-- What holds of every scalar, and of a container if it holds of all that is in it, holds of every
value. -/
theorem nested_induction {motive : Value → Prop}
    (scalar : ∀ v, v.kind ≠ .array → v.kind ≠ .object → motive v)
    (array : ∀ items, (∀ item ∈ items, motive item) → motive (.array items))
    (object : ∀ members : Fields Value, (∀ name v, (name, v) ∈ members → motive v) →
      motive (.object members))
    (v : Value) : motive v := by
  induction hweight : v.weight using Nat.strong_induction_on generalizing v with
  | _ n ih =>
    subst hweight
    cases v with
    | null | bool | number | string => exact scalar _ (by simp [kind]) (by simp [kind])
    | array items =>
      refine array items fun item hmem => ih _ ?_ item rfl
      have hle : item.weight ≤ itemsWeight items :=
        weight_le_total weight _ (fun _ _ => by rw [itemsWeight]) hmem
      rw [weight]
      omega
    | object members =>
      refine object members fun name v hmem => ih _ ?_ v rfl
      have hle : v.weight ≤ fieldsWeight members :=
        weight_le_total (fun entry => entry.2.weight) _
          (fun entry _ => by cases entry; rw [fieldsWeight]) hmem
      rw [weight]
      omega

/-- Lists are equal when they are place by place. -/
theorem sameItems_iff {as bs : List Value} :
    sameItems as bs = true ↔ List.Forall₂ (fun a b => a.same b = true) as bs := by
  induction as generalizing bs with
  | nil => cases bs <;> simp [sameItems]
  | cons a as ih => cases bs <;> simp [sameItems, ih]

/-- Every member of the one map is equal to what the other one has under its name. -/
theorem sameFields_iff {as bs : Fields Value} :
    sameFields as bs = true ↔
      ∀ name a, (name, a) ∈ as → ∃ b, bs.get? name = some b ∧ a.same b = true := by
  induction as with
  | nil => simp [sameFields]
  | cons entry rest ih =>
    obtain ⟨key, a⟩ := entry
    rw [sameFields, Bool.and_eq_true, ih]
    constructor
    · rintro ⟨hkey, hrest⟩ name b hmem
      rcases List.mem_cons.1 hmem with heq | hmem
      · cases heq
        split at hkey
        · next b hb => exact ⟨b, hb, hkey⟩
        · cases hkey
      · exact hrest name b hmem
    · intro h
      refine ⟨?_, fun name b hmem => h name b (List.mem_cons_of_mem _ hmem)⟩
      obtain ⟨b, hb, hsame⟩ := h key a List.mem_cons_self
      rw [hb]
      exact hsame

namespace Unordered

variable {v w : Value}

/-- The order of members differs both ways. -/
theorem symm (h : v.Unordered w) : w.Unordered v := by
  induction h with
  | null => exact .null
  | bool b => exact .bool b
  | number n => exact .number n
  | string s => exact .string s
  | array length _ ih => exact .array length.symm fun i v v' hv hv' => ih i v' v hv' hv
  | object distinct names _ ih =>
    exact .object (names.nodup_iff.1 distinct) names.symm
      fun name v v' hv hv' => ih name v' v hv' hv

/-- An integer differs from itself in nothing. -/
theorem ofInt (n : Int) : (Value.ofInt n).Unordered (Value.ofInt n) := .number (.int n)

/-- A value in which no object has a name twice differs in nothing from itself. -/
theorem of_distinctNames (h : v.distinctNames = true) : v.Unordered v := by
  induction v using nested_induction with
  | scalar v harray hobject =>
    cases v with
    | null => exact .null
    | bool b => exact .bool b
    | number n => exact .number n
    | string s => exact .string s
    | array items => exact absurd rfl harray
    | object members => exact absurd rfl hobject
  | array items ih =>
    refine .array rfl fun i a b ha hb => ?_
    cases ha.symm.trans hb
    have hmem := List.mem_of_getElem? ha
    exact ih a hmem (itemsDistinctNames_iff.1 h a hmem)
  | object members ih =>
    rw [distinctNames, Bool.and_eq_true, decide_eq_true_eq] at h
    refine .object h.1 (.refl _) fun name a b ha hb => ?_
    cases ha.symm.trans hb
    have hmem := Fields.mem_of_get? ha
    exact ih name a hmem (distinctNames_of_mem h.2 hmem)

/-- The members of an object in another order. -/
theorem of_perm {members members' : Fields Value}
    (h : (Value.object members).distinctNames = true) (hperm : members.Perm members') :
    (Value.object members).Unordered (.object members') := by
  rw [distinctNames, Bool.and_eq_true, decide_eq_true_eq] at h
  obtain ⟨hdistinct, hmembers⟩ := h
  refine .object hdistinct (hperm.map Prod.fst) fun name v v' hv hv' => ?_
  have hmem := Fields.mem_of_get? hv
  have hsame : members.get? name = some v' :=
    Fields.get?_of_mem hdistinct (hperm.mem_iff.2 (Fields.mem_of_get? hv'))
  rw [hv] at hsame
  cases hsame
  exact of_distinctNames (distinctNames_of_mem hmembers hmem)

/-- Two lists whose items correspond place by place. -/
theorem forall₂_items {R : Value → Value → Prop} {items items' : List Value}
    (length : items.length = items'.length)
    (each : ∀ (i : Nat) (v v' : Value), items[i]? = some v → items'[i]? = some v' → R v v') :
    List.Forall₂ R items items' :=
  List.forall₂_iff_get.2 ⟨length, fun i hi hi' =>
    each i _ _ (List.getElem?_eq_getElem hi) (List.getElem?_eq_getElem hi')⟩

/-- Under each name both objects hold something, or neither does. -/
theorem isSome_eq {members members' : Fields Value} (names : members.keys.Perm members'.keys)
    (name : String) : (members.get? name).isSome = (members'.get? name).isSome := by
  rw [Bool.eq_iff_iff, Fields.get?_isSome_iff, Fields.get?_isSome_iff]
  exact names.mem_iff

/-- Values that differ in the order of members only are equal. -/
theorem same (h : v.Unordered w) : v.same w = true := by
  induction h with
  | null => rfl
  | bool b => simp [Value.same]
  | number n =>
    cases n with
    | int n => simp [Value.same, Number.same]
    | double d => simp [Value.same, Number.same, Double.numEq]
  | string s => simp [Value.same]
  | array length _ ih =>
    rw [Value.same, sameItems_iff]
    exact forall₂_items length ih
  | @object members members' distinct names _ ih =>
    rw [Value.same, Bool.and_eq_true, beq_iff_eq, sameFields_iff]
    refine ⟨by simpa [Fields.keys] using names.length_eq, fun name v hmem => ?_⟩
    have hv : members.get? name = some v := Fields.get?_of_mem distinct hmem
    have hboth := isSome_eq names name
    rw [hv, Option.isSome_some] at hboth
    obtain ⟨v', hv'⟩ := Option.isSome_iff_exists.1 hboth.symm
    exact ⟨v', hv', ih name v v' hv hv'⟩

/-- Equality does not look at the order of members, on either side. -/
theorem same_of_same {a a' b b' : Value} (ha : a.Unordered a') (hb : b.Unordered b')
    (h : a.same b = true) : a'.same b' = true := by
  induction ha generalizing b b' with
  | null => cases hb <;> exact h
  | bool x => cases hb <;> exact h
  | number n => cases hb <;> exact h
  | string x => cases hb <;> exact h
  | @array items items' length each ih =>
    cases hb with
    | @array others others' length' each' =>
      rw [Value.same, sameItems_iff] at h ⊢
      have hboth : others.length = items.length := h.length_eq.symm
      refine forall₂_items (by omega) fun i v' w' hv' hw' => ?_
      have hi : i < items.length := by
        rw [length]
        exact (List.getElem?_eq_some_iff.1 hv').1
      have hv : items[i]? = some items[i] := List.getElem?_eq_getElem hi
      have hw : others[i]? = some others[i] := List.getElem?_eq_getElem (hboth ▸ hi)
      have hsame : (items[i]).same others[i] = true :=
        (List.forall₂_iff_get.1 h).2 i hi (hboth ▸ hi)
      exact ih i _ _ hv hv' (each' i _ _ hw hw') hsame
    | _ => cases h
  | @object members members' distinct names each ih =>
    cases hb with
    | @object others others' distinct' names' each' =>
      rw [Value.same, Bool.and_eq_true, beq_iff_eq, sameFields_iff] at h ⊢
      obtain ⟨hlength, hmembers⟩ := h
      have hlen : members'.length = members.length := by
        simpa [Fields.keys] using names.symm.length_eq
      have hlen' : others'.length = others.length := by
        simpa [Fields.keys] using names'.symm.length_eq
      refine ⟨by omega, fun name v' hmem => ?_⟩
      have hv' : members'.get? name = some v' :=
        Fields.get?_of_mem (names.nodup_iff.1 distinct) hmem
      have hboth := isSome_eq names name
      rw [hv', Option.isSome_some] at hboth
      obtain ⟨v, hv⟩ := Option.isSome_iff_exists.1 hboth
      obtain ⟨w, hw, hsame⟩ := hmembers name v (Fields.mem_of_get? hv)
      have hboth' := isSome_eq names' name
      rw [hw, Option.isSome_some] at hboth'
      obtain ⟨w', hw'⟩ := Option.isSome_iff_exists.1 hboth'.symm
      exact ⟨w', hw', ih name v v' hv hv' (each' name w w' hw hw') hsame⟩
    | _ => cases h

/-- Values that differ in the order of members are the same as the same values. -/
theorem same_eq {a a' b b' : Value} (ha : a.Unordered a') (hb : b.Unordered b') :
    a.same b = a'.same b' := by
  rw [Bool.eq_iff_iff]
  exact ⟨same_of_same ha hb, same_of_same ha.symm hb.symm⟩

/-- Values that differ in the order of members are of one kind. -/
theorem kind_eq (h : v.Unordered w) : v.kind = w.kind := by
  cases h <;> rfl

/-- Of values that differ in the order of members both are blank or none. -/
theorem isBlank_eq (h : v.Unordered w) : v.isBlank = w.isBlank := by
  cases h <;> rfl

/-- Of values that differ in the order of members both count as true or none. -/
theorem isTruthy_eq (h : v.Unordered w) : v.isTruthy = w.isTruthy := by
  cases h <;> rfl

/-- Values that differ in the order of members have one length. -/
theorem length?_eq (h : v.Unordered w) : v.length? = w.length? := by
  cases h with
  | array length => rw [length?, length?, length]
  | _ => rfl

/-- Objects have one fixed text, so that the order of members is not seen in a text. -/
theorem display_eq (h : v.Unordered w) : v.display = w.display := by
  induction h with
  | array length each ih =>
    have hitems := forall₂_items length fun i v v' hv hv' =>
      And.intro (each i v v' hv hv') (ih i v v' hv hv')
    have htexts : ∀ {items items' : List Value},
        List.Forall₂ (fun v v' : Value => v.Unordered v' ∧ v.display = v'.display) items items' →
          displayItems items = displayItems items' := by
      intro items items' hall
      induction hall with
      | nil => rfl
      | cons hfirst _ ih =>
        obtain ⟨hunordered, hdisplay⟩ := hfirst
        cases hunordered <;> simp only [displayItems, ih, hdisplay]
    rw [display, display, htexts hitems]
  | _ => rfl

/-- Values that differ in the order of members have one plain form. -/
theorem plain_eq (h : v.Unordered w) : v.plain = w.plain := by
  have hdisplay := h.display_eq
  cases h with
  | array => rw [plain, plain, hdisplay]
  | object => rfl
  | _ => rfl

/-- Values that differ in the order of members have one numeric reading. -/
theorem toNumber?_eq (h : v.Unordered w) : v.toNumber? = w.toNumber? := by
  induction h with
  | @array items items' length each ih =>
    match items, items', length with
    | [], [], _ => rfl
    | [item], [item'], _ =>
      rw [toNumber?, toNumber?]
      exact ih 0 item item' rfl rfl
    | _ :: _ :: _, _ :: _ :: _, _ => rfl
  | _ => rfl

/-- Values that differ in the order of members are numerically equal to the same values. -/
theorem numericEq_eq {v' w' : Value} (h : v.Unordered w) (h' : v'.Unordered w') :
    numericEq v v' = numericEq w w' := by
  rw [numericEq, numericEq, h.toNumber?_eq, h'.toNumber?_eq]

/-- Values that differ in the order of members have one place in the order. -/
theorem compare_eq {v' w' : Value} (h : v.Unordered w) (h' : v'.Unordered w') :
    v.compare v' = w.compare w' := by
  unfold Value.compare
  rw [h.plain_eq, h'.plain_eq]

/-- Values that differ in the order of members are loosely equal to the same values. -/
theorem looselyEquals_eq {v' w' : Value} (h : v.Unordered w) (h' : v'.Unordered w') :
    v.looselyEquals v' = w.looselyEquals w' := by
  have hsame := same_eq h h'
  have hplain := h.plain_eq
  have hplain' := h'.plain_eq
  have hnumeric := numericEq_eq h h'
  cases h <;> cases h' <;>
    first
    | with_reducible rfl
    | simp only [looselyEquals, hsame, hnumeric, hplain, hplain']

/-- A member written into both objects. -/
theorem put {r r' : Record} (h : (Value.object r).Unordered (.object r')) (name : String)
    (hv : v.Unordered w) : (Value.object (r.put name v)).Unordered (.object (r'.put name w)) := by
  cases h with
  | object distinct names each =>
    refine .object (distinct.put name v) ?_ fun other x x' hx hx' => ?_
    · rw [Fields.keys_put, Fields.keys_put]
      by_cases hmem : name ∈ r.keys
      · rw [if_pos hmem, if_pos (names.mem_iff.1 hmem)]
        exact names
      · rw [if_neg hmem, if_neg fun hmem' => hmem (names.mem_iff.2 hmem')]
        exact names.append_right [name]
    · by_cases hother : other = name
      · subst hother
        rw [Fields.get?_put_self] at hx hx'
        cases hx
        cases hx'
        exact hv
      · rw [Fields.get?_put_of_ne _ _ hother] at hx hx'
        exact each other x x' hx hx'

end Unordered

end Value

end Vetting
