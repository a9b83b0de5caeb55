import Vetting.Proofs.RoundingToNearest
import Vetting.Proofs.UnorderedValues
import Vetting.Validator.Builtin
import Mathlib.Data.List.Perm.Subperm

/-!
# How values compare

Equality of values, loose equality and order are three readings of the same data, written apart from
each other. They fit together: equality and loose equality are symmetric and hold of a value and
itself, and equal values are loosely equal (`Value.looselyEquals_symmetric`); turning a comparison
round turns its result round, and values that are neither null nor containers are in the same place
of the order exactly when they are loosely equal (`Validator.compare_mirrored`). Of containers all
that is asked is that no object in them has a name twice.
-/

set_option autoImplicit false

namespace Vetting

-- No proof is to compute how many units make one.
seal unitsPerOne

/-! ## Numbers -/

/-- Equal is the one order that is its own reverse. -/
theorem map_swap_eq_iff {order : Option Ordering} :
    order.map Ordering.swap = some .eq ↔ order = some .eq := by
  cases order with
  | none => simp
  | some order => cases order <;> simp

namespace Extended

/-- Every number but the undefined one has a place. -/
theorem exists_position {x : Extended} (h : x ≠ .undefined) :
    ∃ place, x.position? = some place := by
  cases x with
  | finite d => exact ⟨_, rfl⟩
  | infinite negative => cases negative with
    | false => exact ⟨_, rfl⟩
    | true => exact ⟨_, rfl⟩
  | undefined => exact absurd rfl h

/-- Every number but the undefined one is equal to itself. -/
theorem numEq_self {x : Extended} (h : x ≠ .undefined) : x.numEq x = true := by
  obtain ⟨place, hplace⟩ := exists_position h
  rw [numEq, hplace]
  exact beq_self_eq_true place

/-- Numbers that change places are ordered the other way round. -/
theorem compare_swap (x y : Extended) : y.compare x = (x.compare y).map Ordering.swap := by
  unfold compare
  cases x.position? with
  | none => cases y.position? <;> rfl
  | some m => cases y.position? with
    | none => rfl
    | some n => exact congrArg some Std.OrientedOrd.eq_swap

/-- Numbers have one place in the order exactly if they are equal. -/
theorem compare_eq_iff {x y : Extended} : x.compare y = some .eq ↔ x.numEq y = true := by
  unfold compare numEq
  cases x.position? <;> cases y.position? <;> simp

/-- No quotient is rounded to the undefined number. -/
theorem ofUnits_ne_undefined (negative : Bool) (num den : Nat) :
    ofUnits negative num den ≠ .undefined := by
  rw [ofUnits]
  split <;> simp

end Extended

/-- No number of a value is undefined. -/
theorem Number.toExtended_ne_undefined (n : Number) : n.toExtended ≠ .undefined := by
  cases n with
  | int n =>
    rw [toExtended, Extended.ofInt, Extended.ofRatio]
    exact Extended.ofUnits_ne_undefined _ _ _
  | double d =>
    intro h
    cases h

/-- Equality of numbers is symmetric. -/
theorem Number.same_comm (m n : Number) : m.same n = n.same m := by
  cases m with
  | int m => cases n with
    | int n => exact Bool.beq_comm
    | double e => rfl
  | double d => cases n with
    | int n => rfl
    | double e => exact Bool.beq_comm

/-- Equal numbers are numerically equal, also as the doubles that they are rounded to. -/
theorem Number.numEq_of_same {m n : Number} (h : m.same n = true) :
    m.toExtended.numEq n.toExtended = true := by
  cases m with
  | int m =>
    cases n with
    | int n =>
      obtain rfl := beq_iff_eq.1 h
      exact Extended.numEq_self (toExtended_ne_undefined (.int m))
    | double e => cases h
  | double d =>
    cases n with
    | int n => cases h
    | double e => exact h

namespace Value

/-- The order of the numeric readings of two values, if both have one. -/
def numericOrder (a b : Value) : Option Ordering :=
  a.toNumber?.bind fun x => b.toNumber?.bind fun y => x.compare y

/-- Values that change places are ordered by number the other way round. -/
theorem numericOrder_swap (a b : Value) :
    numericOrder b a = (numericOrder a b).map Ordering.swap := by
  unfold numericOrder
  cases a.toNumber? with
  | none => cases b.toNumber? <;> rfl
  | some x => cases b.toNumber? with
    | none => rfl
    | some y => exact Extended.compare_swap x y

/-- Values are in one place of the order by number exactly if they are numerically equal. -/
theorem numericOrder_eq_iff {a b : Value} :
    numericOrder a b = some .eq ↔ numericEq a b = true := by
  unfold numericOrder numericEq
  cases a.toNumber? with
  | none => simp
  | some x => cases b.toNumber? with
    | none => simp
    | some y => exact Extended.compare_eq_iff

/-- Numeric equality is symmetric. -/
theorem numericEq_comm (a b : Value) : numericEq a b = numericEq b a := by
  rw [Bool.eq_iff_iff, ← numericOrder_eq_iff, ← numericOrder_eq_iff, numericOrder_swap a b,
    map_swap_eq_iff]

/-! ## Equality -/

/-- The members of one object stand for those of another one of the same length under the same
names, so that each of the other one has its counterpart, too. -/
theorem sameFields_symm {as bs : Fields Value} (has : as.Distinct) (hbs : bs.Distinct)
    (hlength : as.length = bs.length)
    (hsymm : ∀ name a b, (name, a) ∈ as → (name, b) ∈ bs → a.same b = true → b.same a = true)
    (h : sameFields as bs = true) : sameFields bs as = true := by
  rw [sameFields_iff] at h ⊢
  have hsubset : as.keys ⊆ bs.keys := by
    intro name hname
    obtain ⟨⟨_, a⟩, hmem, rfl⟩ := List.mem_map.1 hname
    obtain ⟨b, hb, -⟩ := h _ a hmem
    exact List.mem_map.2 ⟨_, Fields.mem_of_get? hb, rfl⟩
  have hkeys : as.keys.length = bs.keys.length := by simpa [Fields.keys] using hlength
  have hperm : as.keys.Perm bs.keys :=
    (List.subperm_of_subset has hsubset).perm_of_length_le hkeys.ge
  intro name b hb
  have hname : name ∈ as.keys := hperm.mem_iff.2 (List.mem_map.2 ⟨_, hb, rfl⟩)
  obtain ⟨⟨_, a⟩, ha, rfl⟩ := List.mem_map.1 hname
  obtain ⟨b', hb', hsame⟩ := h _ a ha
  have hread := Fields.get?_of_mem hbs hb
  cases hread.symm.trans hb'
  exact ⟨a, Fields.get?_of_mem has ha, hsymm _ a b ha hb hsame⟩

/-- Equality is symmetric, since equal objects have as many members as each other. -/
theorem same_symm {a b : Value} (ha : a.distinctNames = true) (hb : b.distinctNames = true)
    (h : a.same b = true) : b.same a = true := by
  induction a using nested_induction generalizing b with
  | scalar a harray hobject =>
    cases a with
    | array items => exact absurd rfl harray
    | object members => exact absurd rfl hobject
    | null => cases b with
      | null => rfl
      | _ => cases h
    | bool p => cases b with
      | bool q => exact Bool.beq_comm.trans h
      | _ => cases h
    | number m => cases b with
      | number n => exact (Number.same_comm n m).trans h
      | _ => cases h
    | string s => cases b with
      | string t => exact Bool.beq_comm.trans h
      | _ => cases h
  | array as ih => cases b with
    | array bs =>
      rw [same, sameItems_iff] at h ⊢
      rw [distinctNames, itemsDistinctNames_iff] at ha hb
      refine List.forall₂_iff_get.2 ⟨h.length_eq.symm, fun i hi hi' => ?_⟩
      have hmem := List.get_mem as ⟨i, hi'⟩
      have hmem' := List.get_mem bs ⟨i, hi⟩
      exact ih _ hmem (ha _ hmem) (hb _ hmem') ((List.forall₂_iff_get.1 h).2 i hi' hi)
    | _ => cases h
  | object as ih => cases b with
    | object bs =>
      rw [distinctNames, Bool.and_eq_true, decide_eq_true_eq] at ha hb
      rw [same, Bool.and_eq_true, beq_iff_eq] at h ⊢
      refine ⟨h.1.symm, sameFields_symm ha.1 hb.1 h.1 (fun name a b hmem hmem' hsame => ?_) h.2⟩
      exact ih name a hmem (distinctNames_of_mem ha.2 hmem) (distinctNames_of_mem hb.2 hmem') hsame
    | _ => cases h

/-- Equality of values with distinct names is symmetric. -/
theorem same_comm {a b : Value} (ha : a.distinctNames = true) (hb : b.distinctNames = true) :
    a.same b = b.same a := by
  rw [Bool.eq_iff_iff]
  exact ⟨same_symm ha hb, same_symm hb ha⟩

/-- A value with distinct names is equal to itself. -/
theorem same_self {a : Value} (ha : a.distinctNames = true) : a.same a = true :=
  (Unordered.of_distinctNames ha).same

/-! ## Loose equality -/

/-- Loose equality goes by the kinds of both values, whichever comes first. -/
theorem looselyEquals_comm {a b : Value} (hsame : a.same b = b.same a) :
    a.looselyEquals b = b.looselyEquals a := by
  cases a with
  | null => cases b <;> simp only [looselyEquals]
  | bool p => cases b with
    | null => simp only [looselyEquals]
    | bool q => simp only [looselyEquals, Bool.beq_comm]
    | _ => simp only [looselyEquals, numericEq_comm]
  | number m => cases b with
    | null => simp only [looselyEquals]
    | _ => simp only [looselyEquals, plain, numericEq_comm]
  | string s => cases b with
    | null => simp only [looselyEquals]
    | bool | number => simp only [looselyEquals, plain, numericEq_comm]
    | _ => simp only [looselyEquals, plain, Bool.beq_comm]
  | array as => cases b with
    | null => simp only [looselyEquals]
    | array bs => simp only [looselyEquals, hsame]
    | bool | number => simp only [looselyEquals, plain, numericEq_comm]
    | _ => simp only [looselyEquals, plain, Bool.beq_comm]
  | object as => cases b with
    | null => simp only [looselyEquals]
    | object bs => simp only [looselyEquals, hsame]
    | bool | number => simp only [looselyEquals, plain, numericEq_comm]
    | _ => simp only [looselyEquals, plain, Bool.beq_comm]

/-- Values that are equal are loosely equal. -/
theorem looselyEquals_of_same {a b : Value} (h : a.same b = true) : a.looselyEquals b = true := by
  cases a with
  | null => cases b with
    | null => simp only [looselyEquals]
    | _ => cases h
  | bool p => cases b with
    | bool q => simpa only [looselyEquals, same] using h
    | _ => cases h
  | number m => cases b with
    | number n =>
      simp only [looselyEquals, plain, numericEq, toNumber?]
      exact Number.numEq_of_same h
    | _ => cases h
  | string s => cases b with
    | string t => simpa only [looselyEquals, plain, same] using h
    | _ => cases h
  | array as => cases b with
    | array bs => simpa only [looselyEquals] using h
    | _ => cases h
  | object as => cases b with
    | object bs => simpa only [looselyEquals] using h
    | _ => cases h

/-- Only null is loosely equal to null. -/
theorem looselyEquals_null_iff {a : Value} : a.looselyEquals .null = true ↔ a = .null := by
  cases a <;> simp [looselyEquals]

/-- Loose equality is symmetric, holds of every value and itself, and of equal values; with null it
holds of null only. -/
theorem looselyEquals_symmetric (a b : Value) (ha : a.distinctNames = true)
    (hb : b.distinctNames = true) :
    a.looselyEquals b = b.looselyEquals a ∧ a.looselyEquals a = true ∧
      (a.same b = true → a.looselyEquals b = true) ∧
      (a.looselyEquals .null = true ↔ a = .null) :=
  ⟨looselyEquals_comm (same_comm ha hb), looselyEquals_of_same (same_self ha),
    looselyEquals_of_same, looselyEquals_null_iff⟩

/-- Objects that list equal members in different orders are loosely equal both ways. -/
theorem looselyEquals_symmetric_members :
    (object [("size", .ofInt 2), ("tags", .array [.string "a", .null])]).distinctNames = true ∧
      (object [("tags", .array [.string "a", .null]), ("size", .ofInt 2)]).distinctNames = true ∧
      (object [("tags", .array [.string "a", .null]), ("size", .ofInt 2)]).looselyEquals
        (object [("size", .ofInt 2), ("tags", .array [.string "a", .null])]) = true := by
  have ha : (object [("size", .ofInt 2), ("tags", .array [.string "a", .null])]).distinctNames =
      true := by decide
  have hb : (object [("tags", .array [.string "a", .null]), ("size", .ofInt 2)]).distinctNames =
      true := by decide
  obtain ⟨hcomm, -, hequal, -⟩ := looselyEquals_symmetric _ _ ha hb
  exact ⟨ha, hb, hcomm.symm.trans (hequal (by decide))⟩

/-! ## Order -/

/-- Two texts are compared by their characters. -/
theorem compare_of_texts {a b : Value} {s t : String} (ha : a.plain = .string s)
    (hb : b.plain = .string t) : a.compare b = some (Ord.compare s t) := by
  rw [compare, ha, hb]

/-- Values that are not both texts are compared by number. -/
theorem compare_of_not_texts {a b : Value}
    (h : ∀ s t, a.plain = .string s → b.plain = .string t → False) :
    a.compare b = numericOrder a.plain b.plain := by
  unfold compare
  split
  · next s t ha hb => exact absurd hb (h s t ha)
  · unfold numericOrder
    cases a.plain.toNumber? <;> cases b.plain.toNumber? <;> rfl

/-- Turning a comparison round turns its result round. -/
theorem compare_swap (a b : Value) : b.compare a = (a.compare b).map Ordering.swap := by
  by_cases htexts : ∃ s t, a.plain = .string s ∧ b.plain = .string t
  · obtain ⟨s, t, ha, hb⟩ := htexts
    rw [compare_of_texts ha hb, compare_of_texts hb ha]
    exact congrArg some Std.OrientedOrd.eq_swap
  · rw [compare_of_not_texts fun s t ha hb => htexts ⟨s, t, ha, hb⟩,
      compare_of_not_texts fun t s hb ha => htexts ⟨s, t, ha, hb⟩, numericOrder_swap]

/-- Whether a value is a truth value, a number or a string. -/
def IsScalar (v : Value) : Prop := v.kind = .boolean ∨ v.kind = .number ∨ v.kind = .string

instance (v : Value) : Decidable v.IsScalar := inferInstanceAs (Decidable (_ ∨ _))

/-- The numbers that the two truth values read as differ. -/
theorem numericEq_bool (p q : Bool) : numericEq (.bool p) (.bool q) = (p == q) := by
  cases p <;> cases q <;> decide +kernel

/-- A scalar is its own plain form. -/
theorem IsScalar.plain_eq {v : Value} (h : v.IsScalar) : v.plain = v := by
  cases v with
  | bool | number | string => rfl
  | null | array | object => simp [IsScalar, kind] at h

/-- Scalars that are not both texts are loosely equal by number. -/
theorem looselyEquals_of_not_texts {a b : Value} (ha : a.IsScalar) (hb : b.IsScalar)
    (h : ∀ s t, a = .string s → b = .string t → False) : a.looselyEquals b = numericEq a b := by
  cases a with
  | bool p => cases b with
    | bool q => rw [numericEq_bool, looselyEquals]
    | number | string => simp only [looselyEquals]
    | null | array | object => simp [IsScalar, kind] at hb
  | number m => cases b with
    | bool | number | string => simp only [looselyEquals, plain]
    | null | array | object => simp [IsScalar, kind] at hb
  | string s => cases b with
    | bool | number => simp only [looselyEquals, plain]
    | string t => exact absurd rfl (h s t rfl)
    | null | array | object => simp [IsScalar, kind] at hb
  | null | array | object => simp [IsScalar, kind] at ha

/-- Scalars are in the same place of the order exactly when they are loosely equal. -/
theorem compare_eq_iff {a b : Value} (ha : a.IsScalar) (hb : b.IsScalar) :
    a.compare b = some .eq ↔ a.looselyEquals b = true := by
  by_cases htexts : ∃ s t, a = .string s ∧ b = .string t
  · obtain ⟨s, t, rfl, rfl⟩ := htexts
    rw [compare_of_texts rfl rfl, Option.some.injEq, Std.LawfulEqOrd.compare_eq_iff_eq]
    simp [looselyEquals, plain]
  · have hnot : ∀ s t, a = .string s → b = .string t → False :=
      fun s t ha hb => htexts ⟨s, t, ha, hb⟩
    rw [looselyEquals_of_not_texts ha hb hnot, ← numericOrder_eq_iff, compare_of_not_texts,
      ha.plain_eq, hb.plain_eq]
    rwa [ha.plain_eq, hb.plain_eq]

end Value

/-! ## The validators of bounds -/

namespace Validator

variable {a b : Value}

/-- What a built-in validator says of a value and a bound. -/
abbrev verdictOn (name : String) (v bound : Value) : Except SetupError Bool :=
  KnownValidators.builtin.invoke name v [.value bound]

/-- The validator `greaterThan` asks for the order from above. -/
theorem verdictOn_greaterThan : verdictOn "greaterThan" a b = .ok (related (· == .gt) a b) := rfl

/-- The validator `lessThan` asks for the order from below. -/
theorem verdictOn_lessThan : verdictOn "lessThan" a b = .ok (related (· == .lt) a b) := rfl

/-- The validator `minValue` asks for no less than the bound. -/
theorem verdictOn_minValue : verdictOn "minValue" a b = .ok (related atLeast a b) := rfl

/-- The validator `maxValue` asks for no more than the bound. -/
theorem verdictOn_maxValue : verdictOn "maxValue" a b = .ok (related atMost a b) := rfl

/-- The validator `equalsTo` asks for loose equality. -/
theorem verdictOn_equalsTo : verdictOn "equalsTo" a b = .ok (a.looselyEquals b) := rfl

/-- A test of the order one way round is the mirrored test the other way round. -/
theorem related_swap {test mirrored : Ordering → Bool}
    (h : ∀ order, mirrored order.swap = test order) (a b : Value) :
    related mirrored b a = related test a b := by
  rw [related, related, Value.compare_swap]
  cases a.compare b with
  | none => rfl
  | some order => exact h order

/-- At least and at most together leave one place of the order. -/
theorem related_both_iff :
    related atLeast a b = true ∧ related atMost a b = true ↔ a.compare b = some .eq := by
  unfold related
  cases a.compare b with
  | none => simp
  | some order => cases order <;> simp [atLeast, atMost]

/-- Turning a comparison round turns its result round, so that `greaterThan` mirrors `lessThan` and
`minValue` mirrors `maxValue`. Scalars are in the same place of the order exactly when they are
loosely equal: a value is neither below nor above a bound exactly when it equals the bound. -/
theorem compare_mirrored (a b : Value) :
    b.compare a = (a.compare b).map Ordering.swap ∧
    (∃ verdict, verdictOn "greaterThan" a b = .ok verdict ∧
      verdictOn "lessThan" b a = .ok verdict) ∧
    (∃ verdict, verdictOn "minValue" a b = .ok verdict ∧
      verdictOn "maxValue" b a = .ok verdict) ∧
    (a.IsScalar → b.IsScalar →
      (a.compare b = some .eq ↔ a.looselyEquals b = true) ∧
      (verdictOn "minValue" a b = .ok true ∧ verdictOn "maxValue" a b = .ok true ↔
        verdictOn "equalsTo" a b = .ok true)) := by
  refine ⟨Value.compare_swap a b, ⟨_, verdictOn_greaterThan, ?_⟩, ⟨_, verdictOn_minValue, ?_⟩,
    fun ha hb => ⟨Value.compare_eq_iff ha hb, ?_⟩⟩
  · rw [verdictOn_lessThan, related_swap]
    rintro (_ | _ | _) <;> rfl
  · rw [verdictOn_maxValue, related_swap]
    rintro (_ | _ | _) <;> rfl
  · rw [verdictOn_minValue, verdictOn_maxValue, verdictOn_equalsTo]
    simp only [Except.ok.injEq]
    rw [related_both_iff, Value.compare_eq_iff ha hb]

/-- A padded text is not below the number that it spells, nor above it, and so it equals it. -/
theorem compare_mirrored_padded :
    (Value.string " 10.0 ").IsScalar ∧ (Value.ofInt 10).IsScalar ∧
      verdictOn "equalsTo" (.string " 10.0 ") (.ofInt 10) = .ok true := by
  have ha : (Value.string " 10.0 ").IsScalar := by decide
  have hb : (Value.ofInt 10).IsScalar := by decide
  obtain ⟨-, -, -, hscalars⟩ := compare_mirrored (.string " 10.0 ") (.ofInt 10)
  have horder : (Value.string " 10.0 ").compare (.ofInt 10) = some .eq := by decide +kernel
  refine ⟨ha, hb, (hscalars ha hb).2.1 ?_⟩
  rw [verdictOn_minValue, verdictOn_maxValue, related, related, horder]
  exact ⟨rfl, rfl⟩

end Validator

end Vetting
