import Vetting.Value.Loose
import Vetting.Proofs.PatternLanguage
import Vetting.Proofs.ShortestDigits

/-!
# The text of a number and the number formats

The plain text of a number has the float format, and of a whole number the int format, unless the
number is a double that is written in scientific notation, where the mark of the exponent spoils
both formats (`accepts_displayNumber`). Scientific are exactly the positive doubles below `10⁻⁵` and
the doubles from `10²¹` up (`Double.Scientific`): between them a double is either a whole number,
which is written without a point, or within reach of the layout of values.
-/

set_option autoImplicit false

namespace Vetting

open Pattern

-- No proof is to compute how many units make one.
seal unitsPerOne

/-- A minus or none is a sign. -/
theorem isSign_ite (negative : Bool) : IsSign (if negative then ['-'] else []) := by
  cases negative
  · exact Or.inl rfl
  · exact Or.inr (Or.inr rfl)

namespace Double

/-- The doubles that plain text writes in scientific notation: those too close to zero, without zero
itself, and those too far from it. -/
def Scientific (d : Double) : Prop :=
  d.units ≠ 0 ∧ (d.units * 10 ^ 5 < unitsPerOne ∨ 10 ^ 21 * unitsPerOne ≤ d.units)

instance (d : Double) : Decidable d.Scientific :=
  inferInstanceAs (Decidable (_ ∧ (_ ∨ _)))

/-! ## Laying out digits -/

/-- Out of the bounds of a layout digits are followed by the mark of an exponent. -/
theorem mark_mem_apply {layout : Layout} {digits : List Char} {exponent : ℤ}
    (h : ¬ (layout.leastPlain ≤ exponent ∧ exponent ≤ layout.greatestPlain)) :
    'e' ∈ layout.apply digits exponent := by
  unfold Layout.apply
  rw [if_neg h]
  exact List.mem_append_cons_self

/-- Digits and zeros are digits, if there are any. -/
theorem isDigits_append_zeros {digits : List Char} (h : ∀ c ∈ digits, c.isDigit = true)
    {count : Nat} (hcount : 0 < digits.length + count) :
    IsDigits (digits ++ List.replicate count '0') := by
  constructor
  · intro hnil
    have hlength := congrArg List.length hnil
    simp only [List.length_append, List.length_replicate, List.length_nil] at hlength
    omega
  · intro c hc
    rcases List.mem_append.1 hc with hc | hc
    · exact h c hc
    · rw [List.eq_of_mem_replicate hc]
      rfl

/-- Zeros behind digits multiply by a power of ten. -/
theorem ofDigitChars_append_zeros (digits : List Char) (zeros : Nat) :
    Nat.ofDigitChars 10 (digits ++ List.replicate zeros '0') 0 =
      Nat.ofDigitChars 10 digits 0 * 10 ^ zeros := by
  rw [Nat.ofDigitChars_append, Nat.ofDigitChars_replicate_zero, Nat.mul_comm]

/-- Within the bounds of a layout digits are laid out around a point, with digits on either side.
Zeros are added to them so that the first digit keeps its exponent. -/
theorem apply_plain {layout : Layout} {digits : List Char} {exponent : ℤ}
    (h : layout.leastPlain ≤ exponent ∧ exponent ≤ layout.greatestPlain)
    (hdigits : IsDigits digits) :
    ∃ whole decimals, ∃ zeros : Nat, layout.apply digits exponent = whole ++ '.' :: decimals ∧
      IsDigits whole ∧ IsDigits decimals ∧
      Nat.ofDigitChars 10 (whole ++ decimals) 0 = Nat.ofDigitChars 10 digits 0 * 10 ^ zeros ∧
      (zeros : ℤ) = exponent + 1 - digits.length + decimals.length := by
  have hpos := List.length_pos_iff.2 hdigits.1
  unfold Layout.apply
  rw [if_pos h]
  split
  · refine ⟨['0'], List.replicate (-exponent - 1).toNat '0' ++ digits, 0, rfl, ?_, ?_, ?_, ?_⟩
    · exact ⟨by simp, List.forall_mem_singleton.2 rfl⟩
    · refine ⟨by simp [hdigits.1], fun c hc => ?_⟩
      rcases List.mem_append.1 hc with hc | hc
      · rw [List.eq_of_mem_replicate hc]
        rfl
      · exact hdigits.2 c hc
    · rw [← List.append_assoc, List.singleton_append, ← List.replicate_succ,
        Nat.ofDigitChars_append, Nat.ofDigitChars_replicate_zero, Nat.mul_zero, Nat.pow_zero,
        Nat.mul_one]
    · rw [List.length_append, List.length_replicate]
      omega
  · dsimp only
    split
    · next hshort =>
      refine ⟨_, ['0'], exponent.toNat + 1 - digits.length + 1, rfl,
        isDigits_append_zeros hdigits.2 (by omega), ?_, ?_, ?_⟩
      · exact ⟨by simp, List.forall_mem_singleton.2 rfl⟩
      · rw [List.append_assoc, ← List.replicate_succ', ofDigitChars_append_zeros]
      · rw [List.length_singleton]
        omega
    · next hlong =>
      refine ⟨_, _, 0, rfl, ⟨?_, fun c hc => hdigits.2 c (List.mem_of_mem_take hc)⟩,
        ⟨?_, fun c hc => hdigits.2 c (List.mem_of_mem_drop hc)⟩, ?_, ?_⟩
      · intro hnil
        have hlength := congrArg List.length hnil
        simp only [List.length_take, List.length_nil] at hlength
        omega
      · intro hnil
        have hlength := congrArg List.length hnil
        simp only [List.length_drop, List.length_nil] at hlength
        omega
      · rw [List.take_append_drop, Nat.pow_zero, Nat.mul_one]
      · rw [List.length_drop]
        omega

/-! ## The text of a double -/

/-- The text of a double is its shortest digits, laid out, behind a minus if it is negative. -/
theorem toList_text {d : Double} (h : d.units ≠ 0) :
    d.text.toList = (if d.negative then ['-'] else []) ++
      layout.apply (shortestDigits d.units).1 (shortestDigits d.units).2 := by
  unfold text
  rw [if_neg h, String.toList_ofList]
  generalize shortestDigits d.units = shortest
  cases d.negative <;> rfl

/-- The shortest digits are digits. -/
theorem isDigits_shortestDigits {d : Double} (h : d.units ≠ 0) :
    IsDigits (shortestDigits d.units).1 := by
  obtain ⟨digits, power, heq, hpos, -⟩ := shortestDigits_eq d.representable h
  rw [heq]
  exact ⟨significant_ne_nil hpos, fun c hc => isDigit_of_mem_significant hc⟩

/-- A scientific double is written with the mark of an exponent. -/
theorem Scientific.mark_mem_text {d : Double} (h : d.Scientific) : 'e' ∈ d.text.toList := by
  obtain ⟨hunits, hsize⟩ := h
  rw [toList_text hunits]
  refine List.mem_append_right _ (mark_mem_apply ?_)
  rintro ⟨hleast, hgreatest⟩
  have hleast : -5 ≤ (shortestDigits d.units).2 := hleast
  have hgreatest : (shortestDigits d.units).2 ≤ 15 := hgreatest
  rcases hsize with hsmall | hlarge
  · have hexp := exponent_lt_of_small d.representable hunits hsmall
    omega
  · have hexp := le_exponent_of_large d.representable hunits hlarge
    omega

/-- A double that is no whole number is out of reach of 53 bits only if it is zero. -/
theorem lt_of_not_isIntegral {d : Double} (h : d.isIntegral = false) :
    d.units ≠ 0 ∧ d.units < 2 ^ 53 * unitsPerOne := by
  have hmod : d.units % unitsPerOne ≠ 0 := by
    rw [isIntegral] at h
    exact beq_eq_false_iff_ne.1 h
  constructor
  · intro hzero
    rw [hzero, Nat.zero_mod] at hmod
    exact hmod rfl
  · by_contra hlarge
    have hdvd := unitsPerOne_dvd d.representable (Nat.le_of_not_lt hlarge)
    exact hmod (Nat.mod_eq_zero_of_dvd hdvd)

/-- A double that is neither scientific nor a whole number is written around a point, with its
shortest digits and zeros. -/
theorem text_of_plain {d : Double} (hplain : ¬ d.Scientific) (h : d.isIntegral = false) :
    ∃ whole decimals, ∃ zeros : Nat,
      d.text.toList = (if d.negative then ['-'] else []) ++ (whole ++ '.' :: decimals) ∧
      IsDigits whole ∧ IsDigits decimals ∧
      Nat.ofDigitChars 10 (whole ++ decimals) 0 =
        Nat.ofDigitChars 10 (shortestDigits d.units).1 0 * 10 ^ zeros ∧
      (zeros : ℤ) = (shortestDigits d.units).2 + 1 - (shortestDigits d.units).1.length +
        decimals.length := by
  obtain ⟨hunits, hhigh⟩ := lt_of_not_isIntegral h
  have hlow : unitsPerOne ≤ d.units * 10 ^ 5 := by
    by_contra hlt
    exact hplain ⟨hunits, Or.inl (Nat.lt_of_not_le hlt)⟩
  have hexp : layout.leastPlain ≤ (shortestDigits d.units).2 ∧
      (shortestDigits d.units).2 ≤ layout.greatestPlain :=
    exponent_of_plain d.representable hlow hhigh
  obtain ⟨whole, decimals, zeros, happly, hdigits⟩ :=
    apply_plain hexp (isDigits_shortestDigits hunits)
  exact ⟨whole, decimals, zeros, by rw [toList_text hunits, happly], hdigits⟩

/-- The text of a double that is neither scientific nor a whole number has the float format. -/
theorem float_accepts_text {d : Double} (hplain : ¬ d.Scientific) (h : d.isIntegral = false) :
    Pattern.float.accepts d.text = true := by
  obtain ⟨whole, decimals, -, htext, hwhole, hdecimals, -⟩ := text_of_plain hplain h
  exact float_accepts_iff.2 ⟨_, whole, '.' :: decimals, htext, isSign_ite d.negative, hwhole,
    Or.inr ⟨'.', decimals, rfl, Or.inl rfl, hdecimals⟩⟩

end Double

/-! ## The plain text of a number -/

/-- The text of a natural number is its digits. -/
theorem isDigits_toString (n : Nat) : IsDigits (toString n).toList := by
  have heq : (toString n).toList = Nat.toDigits 10 n := String.toList_ofList
  rw [heq]
  exact ⟨Nat.toDigits_ne_nil, fun c hc => Nat.isDigit_of_mem_toDigits (by omega) (by omega) hc⟩

/-- The characters of digits with a minus before them or without. -/
theorem toList_signed (negative : Bool) (n : Nat) :
    ((if negative then "-" else "") ++ toString n).toList =
      (if negative then ['-'] else []) ++ (toString n).toList := by
  rw [String.toList_append]
  cases negative <;> rfl

/-- Digits, with a minus before them or without, have the int format. -/
theorem int_accepts_signed (negative : Bool) (n : Nat) :
    Pattern.int.accepts ((if negative then "-" else "") ++ toString n) = true :=
  int_accepts_iff.2 ⟨_, _, toList_signed negative n, isSign_ite negative, isDigits_toString n⟩

/-- The text of an integer has the int format. -/
theorem int_accepts_toString (n : Int) : Pattern.int.accepts (toString n) = true := by
  cases n with
  | ofNat n =>
    have haccepts := int_accepts_signed false n
    rwa [if_neg Bool.false_ne_true, String.empty_append] at haccepts
  | negSucc n => exact int_accepts_signed true (n + 1)

namespace Value

/-- Scientific text has no number format. -/
theorem not_accepts_of_mark {text : String} (h : 'e' ∈ text.toList) :
    Pattern.float.accepts text = false ∧ Pattern.int.accepts text = false := by
  have hfloat : ¬ Pattern.float.accepts text = true := by
    intro haccepts
    rcases mem_of_float_accepts haccepts h with hdigit | hmark
    · exact absurd hdigit (by decide)
    · exact absurd hmark (by decide)
  refine ⟨Bool.not_eq_true _ ▸ hfloat, Bool.not_eq_true _ ▸ fun hint => ?_⟩
  exact hfloat (float_accepts_of_int hint)

/-- The whole doubles that are written without a point are not scientific. -/
theorem not_scientific_of_whole {d : Double} (hwhole : d.isIntegral = true)
    (hbelow : d.units < 10 ^ 21 * unitsPerOne) : ¬ d.Scientific := by
  rintro ⟨hunits, hsmall | hlarge⟩
  · have hmod : d.units % unitsPerOne = 0 := beq_iff_eq.1 hwhole
    have hle := Nat.le_of_dvd (Nat.pos_of_ne_zero hunits) (Nat.dvd_of_mod_eq_zero hmod)
    omega
  · omega

/-- A double is below the bound for plain text exactly when it is below `10²¹`. -/
theorem absBelow_plainBound {d : Double} :
    d.absBelow plainBound = true ↔ d.units < 10 ^ 21 * unitsPerOne := by
  rw [Double.absBelow, decide_eq_true_eq]
  rfl

/-- A whole number that is not scientific is displayed as an integer. -/
theorem displayNumber_of_plain {d : Double} (hwhole : d.isIntegral = true)
    (hplain : ¬ d.Scientific) :
    displayNumber (.double d) =
      (if d.negative then "-" else "") ++ toString (d.units / unitsPerOne) := by
  have hbelow : d.units < 10 ^ 21 * unitsPerOne := by
    by_contra hlarge
    have hone := unitsPerOne_pos
    exact hplain ⟨by omega, Or.inr (Nat.le_of_not_lt hlarge)⟩
  rw [displayNumber, hwhole, absBelow_plainBound.2 hbelow]
  rfl

/-- The plain text of a double has the float format exactly when the double is not scientific, and
for a whole number it has the int format exactly then. -/
theorem accepts_displayNumber (d : Double) :
    (Pattern.float.accepts (displayNumber (.double d)) = true ↔ ¬ d.Scientific) ∧
    (d.isIntegral = true →
      (Pattern.int.accepts (displayNumber (.double d)) = true ↔ ¬ d.Scientific)) := by
  by_cases hplain : (d.isIntegral && d.absBelow plainBound) = true
  · -- The text is a whole number, and the double is not scientific.
    have htext : displayNumber (.double d) =
        (if d.negative then "-" else "") ++ toString (d.units / unitsPerOne) := by
      rw [displayNumber, if_pos hplain]
    obtain ⟨hwhole, hbelow⟩ := Bool.and_eq_true_iff.1 hplain
    have hnot := not_scientific_of_whole hwhole (absBelow_plainBound.1 hbelow)
    have hint := int_accepts_signed d.negative (d.units / unitsPerOne)
    rw [htext]
    exact ⟨iff_of_true (float_accepts_of_int hint) hnot, fun _ => iff_of_true hint hnot⟩
  · have htext : displayNumber (.double d) = d.text := by
      rw [displayNumber, if_neg hplain]
    rw [htext]
    by_cases hscientific : d.Scientific
    · obtain ⟨hfloat, hint⟩ := not_accepts_of_mark hscientific.mark_mem_text
      rw [hfloat, hint]
      exact ⟨iff_of_false Bool.false_ne_true (not_not_intro hscientific),
        fun _ => iff_of_false Bool.false_ne_true (not_not_intro hscientific)⟩
    · -- A whole number that is not written as one is scientific, so this is none.
      have hfraction : d.isIntegral = false := by
        by_contra hwhole
        have hwhole : d.isIntegral = true := Bool.not_eq_false _ ▸ hwhole
        have hlarge : ¬ d.units < 10 ^ 21 * unitsPerOne := by
          rw [← absBelow_plainBound]
          intro hbelow
          exact hplain (Bool.and_eq_true_iff.2 ⟨hwhole, hbelow⟩)
        have hone := unitsPerOne_pos
        exact hscientific ⟨by omega, Or.inr (Nat.le_of_not_lt hlarge)⟩
      refine ⟨iff_of_true (Double.float_accepts_text hscientific hfraction) hscientific, ?_⟩
      intro hwhole
      rw [hfraction] at hwhole
      cases hwhole

end Value

end Vetting
