import Vetting.Proofs.Numerals
import Vetting.Proofs.ValueComparison

/-!
# The numbers that texts spell

A text has a numeric reading if nothing but white space is in it, or a numeral between white space
(`Value.toNumber?_string_eq_none_iff`): a sign, digits with a point among them and an exponent, of
which only the digits must be there (`Decimal.IsNumeral`). A numeral has no letter but the mark of
its exponent, so that no word for infinity is one. An integer is written out with white space around
it, with a plus and with zeros in front, and reads as the double that the integer itself reads as,
so that both are loosely equal and in the same place of the order (`Value.toNumber?_written`).
-/

set_option autoImplicit false

namespace Vetting

open Pattern

-- No proof is to compute how many units make one.
seal unitsPerOne

/-! ## Numerals with a point and an exponent -/

namespace Decimal

/-- Digits with a point before, among or behind them, or with no point. -/
def IsMantissa (cs : List Char) : Prop :=
  ∃ whole point decimals, cs = whole ++ point ∧ IsDigits (whole ++ decimals) ∧
    IsPoint point decimals

/-- An exponent, which is a mark, a sign or none and digits, or no exponent. -/
def IsExponent (cs : List Char) : Prop :=
  cs = [] ∨ ∃ mark sign digits, cs = mark :: (sign ++ digits) ∧ (mark = 'e' ∨ mark = 'E') ∧
    IsSign sign ∧ IsDigits digits

/-- A sign or none, digits with a point or without, and an exponent or none. -/
def IsNumeral (cs : List Char) : Prop :=
  ∃ sign mantissa exponent, cs = sign ++ (mantissa ++ exponent) ∧ IsSign sign ∧
    IsMantissa mantissa ∧ IsExponent exponent

/-- Every text is a sign, or none, and the rest. -/
theorem exists_sign (cs : List Char) : ∃ sign, cs = sign ++ (splitSign cs).2 ∧ IsSign sign := by
  unfold splitSign
  split
  · exact ⟨['-'], rfl, Or.inr (Or.inr rfl)⟩
  · exact ⟨['+'], rfl, Or.inr (Or.inl rfl)⟩
  · exact ⟨[], rfl, Or.inl rfl⟩

/-- Every text is a point with the digits behind it, or none, and the rest. -/
theorem exists_point (cs : List Char) :
    ∃ point, cs = point ++ (splitPoint cs).2 ∧ IsPoint point (splitPoint cs).1 ∧
      ∀ c ∈ (splitPoint cs).1, c.isDigit = true := by
  unfold splitPoint
  split
  · next tail =>
    refine ⟨'.' :: tail.takeWhile Char.isDigit, ?_, Or.inr rfl, fun c => List.mem_takeWhile_imp⟩
    simp [List.takeWhile_append_dropWhile]
  · exact ⟨[], rfl, Or.inl ⟨rfl, rfl⟩, by simp⟩

/-- An exponent is read exactly if it is one. -/
theorem readExponent?_isSome_iff {cs : List Char} :
    (readExponent? cs).isSome = true ↔ IsExponent cs := by
  constructor
  · intro h
    cases cs with
    | nil => exact Or.inl rfl
    | cons mark rest =>
      obtain ⟨sign, hrest, hsign⟩ := exists_sign rest
      rw [readExponent?] at h
      split at h
      · next hmark =>
        dsimp only at h
        split at h
        · cases h
        · next hread =>
          have hdigits : IsDigits (splitSign rest).2 := by simpa [IsDigits] using hread
          exact Or.inr ⟨mark, sign, _, congrArg _ hrest, hmark, hsign, hdigits⟩
      · cases h
  · rintro (rfl | ⟨mark, sign, digits, rfl, hmark, hsign, hdigits⟩)
    · rfl
    · have hsplit := splitSign_append hsign hdigits []
      rw [List.append_nil] at hsplit
      rw [readExponent?, if_pos hmark, hsplit]
      simpa [IsDigits] using hdigits

/-- An exponent begins with neither a digit nor a point. -/
theorem IsExponent.head? {cs : List Char} (h : IsExponent cs) :
    ∀ c ∈ cs.head?, c.isDigit = false ∧ c ≠ '.' := by
  rcases h with rfl | ⟨mark, sign, digits, rfl, rfl | rfl, -⟩ <;> simp

/-- The texts that are read as decimals are the numerals. -/
theorem ofChars?_isSome_iff {cs : List Char} : (ofChars? cs).isSome = true ↔ IsNumeral cs := by
  constructor
  · intro h
    obtain ⟨sign, hcs, hsign⟩ := exists_sign cs
    rw [ofChars?_eq] at h
    dsimp only at h
    -- The parts that are split off are named, since they are split off again behind one another.
    generalize (splitSign cs).2 = body at h hcs
    have hbody := @List.takeWhile_append_dropWhile _ Char.isDigit body
    have hwhole : ∀ c ∈ body.takeWhile Char.isDigit, c.isDigit = true :=
      fun c => List.mem_takeWhile_imp
    generalize body.takeWhile Char.isDigit = whole at h hbody hwhole
    obtain ⟨point, hbehind, hpoint, hdecimals⟩ := exists_point (body.dropWhile Char.isDigit)
    generalize splitPoint (body.dropWhile Char.isDigit) = behind at h hbehind hpoint hdecimals
    split at h
    · cases h
    · next hne =>
      rw [Option.isSome_map] at h
      have hdigits : IsDigits (whole ++ behind.1) := by
        refine ⟨by simpa using hne, fun c hc => ?_⟩
        exact (List.mem_append.1 hc).elim (hwhole c) (hdecimals c)
      refine ⟨sign, whole ++ point, behind.2, ?_, hsign, ⟨whole, point, _, rfl, hdigits, hpoint⟩,
        readExponent?_isSome_iff.1 h⟩
      rw [List.append_assoc, ← hbehind, hbody, ← hcs]
  · rintro ⟨sign, mantissa, exponent, rfl, hsign, hmantissa, hexponent⟩
    obtain ⟨whole, point, decimals, rfl, hdigits, hpoint⟩ := hmantissa
    rw [List.append_assoc, ofChars?_parts hsign hdigits hpoint hexponent.head?, Option.isSome_map]
    exact readExponent?_isSome_iff.2 hexponent

/-- Letters have the codes of capital and of small letters. -/
theorem toNat_of_isAlpha {c : Char} (h : c.isAlpha = true) :
    65 ≤ c.toNat ∧ c.toNat ≤ 90 ∨ 97 ≤ c.toNat ∧ c.toNat ≤ 122 := by
  rcases Bool.or_eq_true_iff.1 h with hupper | hlower
  · obtain ⟨hlow, hhigh⟩ := of_decide_eq_true hupper
    exact Or.inl ⟨UInt32.le_iff_toNat_le.1 hlow, UInt32.le_iff_toNat_le.1 hhigh⟩
  · obtain ⟨hlow, hhigh⟩ := Bool.and_eq_true_iff.1 hlower
    exact Or.inr ⟨UInt32.le_iff_toNat_le.1 (of_decide_eq_true hlow),
      UInt32.le_iff_toNat_le.1 (of_decide_eq_true hhigh)⟩

/-- A digit is no letter. -/
theorem not_isAlpha_of_isDigit {c : Char} (h : c.isDigit = true) : c.isAlpha = false := by
  rw [Bool.eq_false_iff]
  intro halpha
  have hdigit := toNat_of_isDigit h
  have hletter := toNat_of_isAlpha halpha
  omega

/-- There is no letter in a sign. -/
theorem not_isAlpha_of_mem_sign {sign : List Char} (h : IsSign sign) {c : Char} (hc : c ∈ sign) :
    c.isAlpha = false := by
  rcases h with rfl | rfl | rfl
  · cases hc
  · rw [List.mem_singleton.1 hc]
    rfl
  · rw [List.mem_singleton.1 hc]
    rfl

/-- There is no letter in a mantissa. -/
theorem IsMantissa.not_isAlpha {cs : List Char} (h : IsMantissa cs) {c : Char} (hc : c ∈ cs) :
    c.isAlpha = false := by
  obtain ⟨whole, point, decimals, rfl, hdigits, hpoint⟩ := h
  have hdigit : c ∈ whole ++ decimals → c.isAlpha = false := fun hmem =>
    not_isAlpha_of_isDigit (hdigits.2 c hmem)
  rcases List.mem_append.1 hc with hwhole | hpart
  · exact hdigit (List.mem_append_left _ hwhole)
  · rcases hpoint with ⟨rfl, -⟩ | rfl
    · cases hpart
    · rcases List.mem_cons.1 hpart with rfl | hdecimals
      · rfl
      · exact hdigit (List.mem_append_right _ hdecimals)

/-- No letter is in a numeral but the mark of its exponent. -/
theorem IsNumeral.mark_of_isAlpha {cs : List Char} (h : IsNumeral cs) {c : Char} (hc : c ∈ cs)
    (halpha : c.isAlpha = true) : c = 'e' ∨ c = 'E' := by
  obtain ⟨sign, mantissa, exponent, rfl, hsign, hmantissa, hexponent⟩ := h
  have hnot : ∀ {p : Prop}, c.isAlpha = false → p := fun hfalse => by
    rw [hfalse] at halpha
    cases halpha
  rw [List.mem_append, List.mem_append] at hc
  rcases hc with hc | hc | hc
  · exact hnot (not_isAlpha_of_mem_sign hsign hc)
  · exact hnot (hmantissa.not_isAlpha hc)
  · rcases hexponent with rfl | ⟨mark, sign, digits, rfl, hmark, hsign, hdigits⟩
    · cases hc
    · rw [List.mem_cons, List.mem_append] at hc
      rcases hc with rfl | hc | hc
      · exact hmark
      · exact hnot (not_isAlpha_of_mem_sign hsign hc)
      · exact hnot (not_isAlpha_of_isDigit (hdigits.2 c hc))

end Decimal

/-! ## The numeric reading of a text -/

/-- What trimming takes off is white space. -/
theorem Text.exists_padding (cs : List Char) :
    ∃ before after, cs = before ++ (trimChars cs ++ after) ∧
      (∀ c ∈ before, isSpace c = true) ∧ ∀ c ∈ after, isSpace c = true := by
  have hback : cs.dropWhile isSpace =
      trimChars cs ++ ((cs.dropWhile isSpace).reverse.takeWhile isSpace).reverse := by
    rw [trimChars, ← List.reverse_append, List.takeWhile_append_dropWhile, List.reverse_reverse]
  refine ⟨cs.takeWhile isSpace, ((cs.dropWhile isSpace).reverse.takeWhile isSpace).reverse, ?_,
    fun c => List.mem_takeWhile_imp, fun c hc => List.mem_takeWhile_imp (List.mem_reverse.1 hc)⟩
  rw [← hback, List.takeWhile_append_dropWhile]

/-- Letters are not taken off. -/
theorem Text.mem_trim_of_isAlpha {text : String} {c : Char} (hc : c ∈ text.toList)
    (halpha : c.isAlpha = true) : c ∈ (trim text).toList := by
  obtain ⟨before, after, htext, hbefore, hafter⟩ := exists_padding text.toList
  have hvisible : ¬ isSpace c = true := by
    have hletter := Decimal.toNat_of_isAlpha halpha
    rw [not_isSpace_of_bounds (by omega)]
    exact Bool.false_ne_true
  rw [trim, String.toList_ofList]
  rw [htext, List.mem_append, List.mem_append] at hc
  rcases hc with hc | hc | hc
  · exact absurd (hbefore c hc) hvisible
  · exact hc
  · exact absurd (hafter c hc) hvisible

namespace Value

/-- A text reads as a decimal as soon as there is something but white space in it. No letter but the
mark of an exponent is ever read. -/
theorem numberOfText?_eq (text : String) :
    numberOfText? text =
      if Text.trim text = "" then some (Extended.ofInt 0)
      else (Decimal.ofChars? (Text.trim text).toList).map Decimal.toExtended := by
  unfold numberOfText?
  dsimp only
  by_cases hempty : Text.trim text = ""
  · simp [hempty]
  · rw [if_neg (by simpa using hempty), if_neg hempty]
    split
    -- A text that is refused for a letter is no numeral either.
    · next hletter =>
      obtain ⟨c, hc, hbad⟩ := List.any_eq_true.1 hletter
      simp only [Bool.and_eq_true, bne_iff_ne] at hbad
      obtain ⟨⟨halpha, he⟩, hE⟩ := hbad
      have hnone : Decimal.ofChars? (Text.trim text).toList = none := by
        rw [← Option.not_isSome_iff_eq_none, Decimal.ofChars?_isSome_iff]
        intro hnumeral
        exact (hnumeral.mark_of_isAlpha hc halpha).elim he hE
      rw [hnone, Option.map_none]
    · rfl

/-- A text has no numeric reading if there is something but white space in it that is no numeral. -/
theorem toNumber?_string_eq_none_iff {text : String} :
    (Value.string text).toNumber? = none ↔
      Text.trim text ≠ "" ∧ ¬ Decimal.IsNumeral (Text.trim text).toList := by
  rw [toNumber?, numberOfText?_eq, ← Decimal.ofChars?_isSome_iff]
  by_cases hempty : Text.trim text = "" <;> simp [hempty]

/-- A text with a letter that is no mark of an exponent has no numeric reading. -/
theorem toNumber?_of_isAlpha {text : String} {c : Char} (hc : c ∈ text.toList)
    (halpha : c.isAlpha = true) (he : c ≠ 'e') (hE : c ≠ 'E') :
    (Value.string text).toNumber? = none := by
  have hmem := Text.mem_trim_of_isAlpha hc halpha
  refine toNumber?_string_eq_none_iff.2 ⟨fun hempty => ?_, fun hnumeral => ?_⟩
  · rw [hempty] at hmem
    cases hmem
  · exact (hnumeral.mark_of_isAlpha hmem halpha).elim he hE

end Value

/-! ## Integers written out -/

/-- A sign that an integer may have, or none. Only zero may have either. -/
def SignOf (n : ℤ) (sign : List Char) : Prop :=
  sign = ['-'] ∧ n ≤ 0 ∨ (sign = [] ∨ sign = ['+']) ∧ 0 ≤ n

/-- A text is an integer written out: its digits, perhaps behind zeros, and perhaps behind a sign of
it, with nothing but white space around them. -/
def Text.WritesOut (text : String) (n : ℤ) : Prop :=
  ∃ before sign after zeros,
    text.toList = before ++
      ((sign ++ (List.replicate zeros '0' ++ (toString n.natAbs).toList)) ++ after) ∧
    SignOf n sign ∧ (∀ c ∈ before, isSpace c = true) ∧ ∀ c ∈ after, isSpace c = true

/-- A sign of an integer is a sign. -/
theorem SignOf.isSign {n : ℤ} {sign : List Char} (h : SignOf n sign) : IsSign sign := by
  rcases h with ⟨rfl, -⟩ | ⟨rfl | rfl, -⟩
  · exact Or.inr (Or.inr rfl)
  · exact Or.inl rfl
  · exact Or.inr (Or.inl rfl)

/-- Only a negative integer has a minus, unless it is zero. -/
theorem SignOf.negative {n : ℤ} {sign : List Char} (h : SignOf n sign) (hn : n ≠ 0) :
    decide (sign = ['-']) = decide (n < 0) := by
  rcases h with ⟨rfl, hle⟩ | ⟨hplus, hge⟩
  · rw [decide_eq_true rfl, decide_eq_true (by omega)]
  · have hne : sign ≠ ['-'] := by
      rintro rfl
      simp at hplus
    rw [decide_eq_false hne, decide_eq_false (by omega)]

/-- Zeros in front do not count. -/
theorem digitsValue_zeros (zeros n : Nat) :
    Decimal.digitsValue (List.replicate zeros '0' ++ (toString n).toList) = n := by
  rw [Decimal.digitsValue_eq, Nat.ofDigitChars_append, Nat.ofDigitChars_replicate_zero,
    Nat.mul_zero, ← Decimal.digitsValue_eq, Decimal.digitsValue_toString]

/-- Zeros before the digits of a number are digits. -/
theorem isDigits_zeros (zeros n : Nat) :
    IsDigits (List.replicate zeros '0' ++ (toString n).toList) := by
  obtain ⟨hne, hdigits⟩ := isDigits_toString n
  refine ⟨List.append_ne_nil_of_right_ne_nil _ hne, fun c hc => ?_⟩
  rcases List.mem_append.1 hc with hzero | hdigit
  · rw [List.eq_of_mem_replicate hzero]
    rfl
  · exact hdigits c hdigit

namespace Value

/-- Trimming an integer written out leaves its sign and its digits. -/
theorem trim_written {text : String} {n : ℤ} (h : Text.WritesOut text n) :
    ∃ sign digits, (Text.trim text).toList = sign ++ digits ∧ SignOf n sign ∧ IsDigits digits ∧
      Decimal.digitsValue digits = n.natAbs := by
  obtain ⟨before, sign, after, zeros, htext, hsign, hbefore, hafter⟩ := h
  have hdigits := isDigits_zeros zeros n.natAbs
  refine ⟨sign, _, ?_, hsign, hdigits, digitsValue_zeros zeros n.natAbs⟩
  generalize List.replicate zeros '0' ++ (toString n.natAbs).toList = digits at htext hdigits
  have haccepts : Pattern.int.accepts (String.ofList (sign ++ digits)) = true :=
    int_accepts_iff.2 ⟨sign, digits, String.toList_ofList, hsign.isSign, hdigits⟩
  have hvisible : ∀ c ∈ sign ++ digits, Text.isSpace c = false := fun c hc =>
    not_isSpace_of_mem (float_accepts_of_int haccepts) (by rwa [String.toList_ofList])
  rw [Text.trim, String.toList_ofList, htext, trimChars_padded hbefore hafter hvisible]

/-- An integer written out reads as what the integer is rounded to. Only a zero may have the other
sign. -/
theorem numberOfText?_written {text : String} {n : ℤ} (h : Text.WritesOut text n) :
    ∃ negative, numberOfText? text =
        some (Extended.ofUnits negative (n.natAbs * unitsPerOne) 1) ∧
      (n ≠ 0 → negative = decide (n < 0)) := by
  obtain ⟨sign, digits, htrim, hsign, hdigits, hvalue⟩ := trim_written h
  have hread := @ofChars?_numeral sign digits [] [] hsign.isSign hdigits (by simp)
    (Or.inl ⟨rfl, rfl⟩)
  rw [List.append_nil, hvalue] at hread
  have hne : Text.trim text ≠ "" := by
    intro hempty
    rw [hempty] at htrim
    exact hdigits.1 (List.append_eq_nil_iff.1 htrim.symm).2
  refine ⟨decide (sign = ['-']), ?_, hsign.negative⟩
  rw [numberOfText?_eq, if_neg hne, htrim, hread]
  exact congrArg some (Module.toExtended_whole _ _)

/-- An integer is numerically equal to what its digits are rounded to, with its sign. -/
theorem numEq_ofInt {n : ℤ} {negative : Bool} (h : n ≠ 0 → negative = decide (n < 0)) :
    (Extended.ofInt n).numEq (Extended.ofUnits negative (n.natAbs * unitsPerOne) 1) = true := by
  -- The two zeros are in one place of the order.
  by_cases hzero : n = 0
  · subst hzero
    cases negative <;> decide +kernel
  · rw [h hzero, Extended.ofInt, Extended.ofRatio]
    exact Extended.numEq_self (Extended.ofUnits_ne_undefined _ _ _)

/-- An integer, of 64 bits or not, is loosely equal to every text that writes it out, whichever of
the two comes first, and has the same place in the order. A text has no numeric reading if there is
something but white space in it that is no numeral, such as any letter but the mark of an
exponent. -/
theorem toNumber?_written :
    (∀ (text : String) (n : ℤ), Text.WritesOut text n →
      (Value.ofInt n).looselyEquals (.string text) = true ∧
      (Value.string text).looselyEquals (.ofInt n) = true ∧
      (Value.ofInt n).compare (.string text) = some .eq) ∧
    ∀ text : String,
      ((Value.string text).toNumber? = none ↔
        Text.trim text ≠ "" ∧ ¬ Decimal.IsNumeral (Text.trim text).toList) ∧
      ((∃ c ∈ text.toList, c.isAlpha = true ∧ c ≠ 'e' ∧ c ≠ 'E') →
        (Value.string text).toNumber? = none) := by
  refine ⟨fun text n hwritten => ?_, fun text => ⟨toNumber?_string_eq_none_iff, ?_⟩⟩
  · have hscalar : (Value.ofInt n).IsScalar := Or.inr (Or.inl rfl)
    have htext : (Value.string text).IsScalar := Or.inr (Or.inr rfl)
    obtain ⟨negative, hread, hsign⟩ := numberOfText?_written hwritten
    have hequal : (Value.ofInt n).looselyEquals (.string text) = true := by
      rw [looselyEquals_of_not_texts hscalar htext (by simp [ofInt]), numericEq, ofInt, toNumber?,
        toNumber?, hread]
      exact numEq_ofInt hsign
    have hcomm : (Value.string text).looselyEquals (.ofInt n) =
        (Value.ofInt n).looselyEquals (.string text) := looselyEquals_comm rfl
    exact ⟨hequal, hcomm.trans hequal, (compare_eq_iff hscalar htext).2 hequal⟩
  · rintro ⟨c, hc, halpha, he, hE⟩
    exact toNumber?_of_isAlpha hc halpha he hE

/-- An integer that no double is, padded, and a word for infinity. -/
theorem toNumber?_written_inexact :
    Text.WritesOut " +009007199254740993\n" 9007199254740993 ∧
      (Value.string " +009007199254740993\n").looselyEquals (.ofInt 9007199254740993) = true ∧
      (∃ c ∈ "-Infinity".toList, c.isAlpha = true ∧ c ≠ 'e' ∧ c ≠ 'E') ∧
      (Value.string "-Infinity").toNumber? = none := by
  have hwritten : Text.WritesOut " +009007199254740993\n" 9007199254740993 :=
    ⟨[' '], ['+'], ['\n'], 2, by decide +kernel, Or.inr ⟨Or.inr rfl, by decide⟩,
      List.forall_mem_singleton.2 (by decide), List.forall_mem_singleton.2 (by decide)⟩
  have hletter : ∃ c ∈ "-Infinity".toList, c.isAlpha = true ∧ c ≠ 'e' ∧ c ≠ 'E' :=
    ⟨'I', by decide, by decide⟩
  obtain ⟨hintegers, htexts⟩ := toNumber?_written
  exact ⟨hwritten, (hintegers _ _ hwritten).2.1, hletter, (htexts _).2 hletter⟩

end Value

end Vetting
