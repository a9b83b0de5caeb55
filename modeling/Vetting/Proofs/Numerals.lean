import Vetting.Module.Builtin
import Vetting.Proofs.NearestDouble
import Vetting.Proofs.NumberText

/-!
# Numerals and what they are coerced to

A text of a number format spells a number (`floatOfText?_numeral`), so coercing it never fails.
Which number that is can be read off its digits (`Text.digitsNumber`, `Text.integer`).
-/

set_option autoImplicit false

namespace Vetting

open Pattern

-- No proof is to compute how many units make one.
seal unitsPerOne

/-! ## Reading a numeral -/

/-- Digits have the codes from 48 to 57. -/
theorem toNat_of_isDigit {c : Char} (h : c.isDigit = true) : 48 ≤ c.toNat ∧ c.toNat ≤ 57 := by
  simp only [Char.isDigit, ge_iff_le, Bool.and_eq_true, decide_eq_true_eq,
    UInt32.le_iff_toNat_le] at h
  exact h

/-- No white space is among the visible characters of ASCII. -/
theorem not_isSpace_of_bounds {c : Char} (h : 33 ≤ c.toNat ∧ c.toNat ≤ 126) :
    Text.isSpace c = false := by
  have haway : ∀ range ∈ Text.spaceRanges, range.2 < 33 ∨ 126 < range.1 := by decide
  rw [Text.isSpace, Text.inRanges, List.any_eq_false]
  intro range hmem hin
  have hside := haway range hmem
  simp only [Bool.and_eq_true, decide_eq_true_eq] at hin
  omega

/-- There is no white space in a text of the float format. -/
theorem not_isSpace_of_mem {text : String} (h : Pattern.float.accepts text = true) {c : Char}
    (hc : c ∈ text.toList) : Text.isSpace c = false := by
  apply not_isSpace_of_bounds
  rcases mem_of_float_accepts h hc with hdigit | hmark
  · have hbounds := toNat_of_isDigit hdigit
    omega
  · simp only [List.mem_cons, List.not_mem_nil, or_false] at hmark
    rcases hmark with rfl | rfl | rfl | rfl <;> decide

/-- White space around a text without any is taken off. -/
theorem trimChars_padded {before body after : List Char}
    (hbefore : ∀ c ∈ before, Text.isSpace c = true) (hafter : ∀ c ∈ after, Text.isSpace c = true)
    (hbody : ∀ c ∈ body, Text.isSpace c = false) :
    Text.trimChars (before ++ (body ++ after)) = body := by
  have hkeep : ∀ {ds es : List Char}, ds ≠ [] → (∀ c ∈ ds, Text.isSpace c = false) →
      (ds ++ es).dropWhile Text.isSpace = ds ++ es := by
    intro ds es hne hds
    obtain ⟨first, rest, rfl⟩ := List.exists_cons_of_ne_nil hne
    exact List.dropWhile_cons_of_neg (by simp [hds])
  rw [Text.trimChars, List.dropWhile_append_of_pos hbefore]
  by_cases hne : body = []
  · rw [hne, List.nil_append, List.dropWhile_eq_nil_iff.2 hafter]
    rfl
  · have hback := @hkeep body.reverse [] (by simpa using hne) fun c hc =>
      hbody c (List.mem_reverse.1 hc)
    rw [List.append_nil] at hback
    rw [hkeep hne hbody, List.reverse_append,
      List.dropWhile_append_of_pos fun c hc => hafter c (List.mem_reverse.1 hc), hback,
      List.reverse_reverse]

/-- There is nothing to trim off a text of the float format. -/
theorem trim_of_float_accepts {text : String} (h : Pattern.float.accepts text = true) :
    Text.trim text = text := by
  have htrim := @trimChars_padded [] text.toList [] (by simp) (by simp) fun c hc =>
    not_isSpace_of_mem h hc
  rw [List.nil_append, List.append_nil] at htrim
  rw [Text.trim, htrim, String.ofList_toList]

/-- A digit is no sign. -/
theorem ne_sign_of_isDigit {c : Char} (h : c.isDigit = true) : c ≠ '+' ∧ c ≠ '-' := by
  constructor
  · rintro rfl
    cases h
  · rintro rfl
    cases h

/-- A sign is told from what follows it, as long as no second one does. -/
theorem splitSign_sign {sign body : List Char} (hsign : IsSign sign)
    (hbody : ∀ c ∈ body.head?, c ≠ '+' ∧ c ≠ '-') :
    Decimal.splitSign (sign ++ body) = (decide (sign = ['-']), body) := by
  rcases hsign with rfl | rfl | rfl
  · rw [List.nil_append]
    unfold Decimal.splitSign
    split
    · exact absurd rfl (hbody _ rfl).2
    · exact absurd rfl (hbody _ rfl).1
    · rfl
  · rfl
  · rfl

/-- Digits are told from a sign in front of them. -/
theorem splitSign_append {sign digits : List Char} (hsign : IsSign sign) (hdigits : IsDigits digits)
    (tail : List Char) :
    Decimal.splitSign (sign ++ (digits ++ tail)) = (decide (sign = ['-']), digits ++ tail) := by
  refine splitSign_sign hsign fun c hc => ?_
  rw [List.head?_append_of_ne_nil _ hdigits.1] at hc
  exact ne_sign_of_isDigit (hdigits.2 c (List.mem_of_mem_head? hc))

/-- Digits are told from what follows them. -/
theorem span_digits {digits rest : List Char} (hdigits : ∀ c ∈ digits, c.isDigit = true)
    (hrest : ∀ c ∈ rest.head?, c.isDigit = false) :
    (digits ++ rest).takeWhile Char.isDigit = digits ∧
      (digits ++ rest).dropWhile Char.isDigit = rest := by
  rw [List.takeWhile_append_of_pos hdigits, List.dropWhile_append_of_pos hdigits]
  cases rest with
  | nil => exact ⟨List.append_nil digits, rfl⟩
  | cons c rest =>
    have hc : c.isDigit = false := hrest c rfl
    have htake : (c :: rest).takeWhile Char.isDigit = [] :=
      List.takeWhile_cons_of_neg (by rw [hc]; exact Bool.false_ne_true)
    have hdrop : (c :: rest).dropWhile Char.isDigit = c :: rest :=
      List.dropWhile_cons_of_neg (by rw [hc]; exact Bool.false_ne_true)
    rw [htake, hdrop, List.append_nil]
    exact ⟨rfl, rfl⟩

/-- Takes a point and the digits behind it off the front, if there is a point. -/
def Decimal.splitPoint : List Char → List Char × List Char
  | '.' :: tail => (tail.takeWhile Char.isDigit, tail.dropWhile Char.isDigit)
  | cs => ([], cs)

/-- The point, if there is one, and the digits behind it. -/
def IsPoint (point decimals : List Char) : Prop :=
  point = [] ∧ decimals = [] ∨ point = '.' :: decimals

/-- A decimal is read in four steps: the sign, the digits before the point, those behind it, and the
exponent. -/
theorem ofChars?_eq (cs : List Char) :
    Decimal.ofChars? cs =
      let whole := (Decimal.splitSign cs).2.takeWhile Char.isDigit
      let behind := Decimal.splitPoint ((Decimal.splitSign cs).2.dropWhile Char.isDigit)
      if whole.isEmpty && behind.1.isEmpty then none
      else (Decimal.readExponent? behind.2).map fun exponent =>
        ⟨(Decimal.splitSign cs).1, Decimal.digitsValue (whole ++ behind.1),
          exponent - behind.1.length⟩ := by
  unfold Decimal.ofChars?
  dsimp only
  generalize (Decimal.splitSign cs).2.dropWhile Char.isDigit = behind
  split
  · rfl
  · next hnone => rw [Decimal.splitPoint.eq_2 behind hnone]

/-- A point and the digits behind it are told from what follows them. -/
theorem splitPoint_append {point decimals rest : List Char} (hpoint : IsPoint point decimals)
    (hdecimals : ∀ c ∈ decimals, c.isDigit = true)
    (hrest : ∀ c ∈ rest.head?, c.isDigit = false ∧ c ≠ '.') :
    Decimal.splitPoint (point ++ rest) = (decimals, rest) := by
  rcases hpoint with ⟨rfl, rfl⟩ | rfl
  · rw [List.nil_append]
    unfold Decimal.splitPoint
    split
    · exact absurd rfl (hrest _ rfl).2
    · rfl
  · obtain ⟨htake, hdrop⟩ := span_digits hdecimals fun c hc => (hrest c hc).1
    rw [List.cons_append, Decimal.splitPoint, htake, hdrop]

/-- Reading a decimal: its sign, its digits before and behind the point, and its exponent, which is
made smaller by the number of those behind. -/
theorem ofChars?_parts {sign whole point decimals rest : List Char} (hsign : IsSign sign)
    (hdigits : IsDigits (whole ++ decimals)) (hpoint : IsPoint point decimals)
    (hrest : ∀ c ∈ rest.head?, c.isDigit = false ∧ c ≠ '.') :
    Decimal.ofChars? (sign ++ (whole ++ (point ++ rest))) =
      (Decimal.readExponent? rest).map fun exponent =>
        ⟨decide (sign = ['-']), Decimal.digitsValue (whole ++ decimals),
          exponent - decimals.length⟩ := by
  obtain ⟨hne, hall⟩ := hdigits
  have hwhole : ∀ c ∈ whole, c.isDigit = true := fun c hc => hall c (List.mem_append_left _ hc)
  have hdecimals : ∀ c ∈ decimals, c.isDigit = true :=
    fun c hc => hall c (List.mem_append_right _ hc)
  have hbehind : ∀ c ∈ (point ++ rest).head?, c.isDigit = false := by
    rcases hpoint with ⟨rfl, -⟩ | rfl
    · exact fun c hc => (hrest c hc).1
    · rintro c ⟨⟩
      rfl
  have hbody : ∀ c ∈ (whole ++ (point ++ rest)).head?, c ≠ '+' ∧ c ≠ '-' := by
    cases whole with
    | cons first whole =>
      rintro c ⟨⟩
      exact ne_sign_of_isDigit (hwhole _ List.mem_cons_self)
    | nil =>
      rcases hpoint with ⟨-, rfl⟩ | rfl
      · exact absurd rfl hne
      · rintro c ⟨⟩
        decide
  have hempty : (whole.isEmpty && decimals.isEmpty) = false := by
    rw [Bool.eq_false_iff, ne_eq, Bool.and_eq_true, List.isEmpty_iff, List.isEmpty_iff]
    rintro ⟨rfl, rfl⟩
    exact hne rfl
  obtain ⟨htake, hdrop⟩ := span_digits hwhole hbehind
  rw [ofChars?_eq, splitSign_sign hsign hbody]
  dsimp only
  rw [htake, hdrop, splitPoint_append hpoint hdecimals hrest, hempty]
  rfl

/-- Reading a numeral: its sign, its digits before and behind the point, and how many are behind. -/
theorem ofChars?_numeral {sign digits decimals tail : List Char} (hsign : IsSign sign)
    (hdigits : IsDigits digits) (hdecimals : ∀ c ∈ decimals, c.isDigit = true)
    (htail : IsPoint tail decimals) :
    Decimal.ofChars? (sign ++ (digits ++ tail)) =
      some ⟨decide (sign = ['-']), Decimal.digitsValue (digits ++ decimals),
        0 - (decimals.length : ℤ)⟩ := by
  have hall : IsDigits (digits ++ decimals) :=
    ⟨List.append_ne_nil_of_left_ne_nil hdigits.1 _, fun c hc =>
      (List.mem_append.1 hc).elim (hdigits.2 c) (hdecimals c)⟩
  have hread := @ofChars?_parts sign digits tail decimals [] hsign hall htail (by simp)
  rwa [List.append_nil] at hread

/-! ## The number that a numeral spells -/

/-- The number that digits spell, by the library's reader. -/
theorem Decimal.digitsValue_eq (cs : List Char) : digitsValue cs = Nat.ofDigitChars 10 cs 0 := by
  simp only [digitsValue, Nat.ofDigitChars, Nat.mul_comm]

/-- The digits of a number spell that number. -/
theorem Decimal.digitsValue_toString (n : Nat) : digitsValue (toString n).toList = n := by
  rw [digitsValue_eq, Nat.toString_eq_ofList_toDigits, String.toList_ofList,
    Nat.ofDigitChars_ten_toDigits]

namespace Text

/-- The number that the digits of a text spell, whatever stands between them. -/
def digitsNumber (text : String) : Nat := Nat.ofDigitChars 10 (text.toList.filter Char.isDigit) 0

/-- The integer that a text spells: the number of its digits, below zero behind a minus. -/
def integer (text : String) : ℤ :=
  if text.toList.head? = some '-' then -(digitsNumber text : ℤ) else digitsNumber text

/-- The digits of a numeral spell its number, whatever mark stands between them. -/
theorem digitsNumber_numeral {text : String} {sign digits fraction : List Char}
    (htext : text.toList = sign ++ (digits ++ fraction)) (hsign : IsSign sign)
    (hdigits : IsDigits digits) (hfraction : IsFraction fraction) :
    digitsNumber text = Decimal.digitsValue (digits ++ fraction.tail) := by
  have hsigns : sign.filter Char.isDigit = [] := by
    rcases hsign with rfl | rfl | rfl <;> rfl
  have hdecimals : fraction.filter Char.isDigit = fraction.tail := by
    rcases hfraction with rfl | ⟨mark, decimals, rfl, hmark, hdecimals⟩
    · rfl
    · have hpoint : ¬ mark.isDigit = true := by
        rcases hmark with rfl | rfl <;> decide
      rw [List.filter_cons_of_neg hpoint, List.tail_cons, List.filter_eq_self.2 hdecimals.2]
  rw [digitsNumber, Decimal.digitsValue_eq, htext, List.filter_append, List.filter_append, hsigns,
    hdecimals, List.filter_eq_self.2 hdigits.2, List.nil_append]

/-- The integer that a text of the int format spells. -/
theorem integer_whole {text : String} {sign digits : List Char}
    (htext : text.toList = sign ++ digits) (hsign : IsSign sign) (hdigits : IsDigits digits) :
    integer text = if sign = ['-'] then -(Decimal.digitsValue digits : ℤ)
      else Decimal.digitsValue digits := by
  have hnumber : digitsNumber text = Decimal.digitsValue digits := by
    rw [@digitsNumber_numeral text sign digits [] (by rw [List.append_nil, htext]) hsign hdigits
      (Or.inl rfl), List.tail_nil, List.append_nil]
  have hminus : text.toList.head? = some '-' ↔ sign = ['-'] := by
    rw [htext]
    rcases hsign with rfl | rfl | rfl
    · obtain ⟨c, rest, rfl⟩ := List.exists_cons_of_ne_nil hdigits.1
      have hdigit : c.isDigit = true := hdigits.2 c List.mem_cons_self
      refine iff_of_false (fun heq => ?_) (by simp)
      rw [List.nil_append, List.head?_cons, Option.some.injEq] at heq
      rw [heq] at hdigit
      exact absurd hdigit (by decide)
    · exact iff_of_false (fun heq => absurd (Option.some.inj heq) (by decide)) (by decide)
    · exact iff_of_true rfl rfl
  simp only [integer, hnumber, hminus]

/-- The integer that a text spells has the size that its digits spell. -/
theorem natAbs_integer {text : String} {sign digits : List Char}
    (htext : text.toList = sign ++ digits) (hsign : IsSign sign) (hdigits : IsDigits digits) :
    (integer text).natAbs = Decimal.digitsValue digits := by
  rw [integer_whole htext hsign hdigits]
  split
  · rw [Int.natAbs_neg, Int.natAbs_natCast]
  · exact Int.natAbs_natCast _

end Text

/-- An integer that fits 64 bits with a sign. -/
def FitsSigned (n : ℤ) : Prop := -9223372036854775808 ≤ n ∧ n ≤ 9223372036854775807

instance (n : ℤ) : Decidable (FitsSigned n) := inferInstanceAs (Decidable (_ ∧ _))

/-- An integer that does not fit 64 bits has a size of `2⁶³` or more. -/
theorem lt_natAbs_of_not_fitsSigned {n : ℤ} (h : ¬ FitsSigned n) : 2 ^ 63 ≤ n.natAbs := by
  rw [FitsSigned] at h
  omega

/-- The double that an integer beyond 64 bits is rounded to has a size of `2⁶³` or more. -/
theorem Extended.two_pow_mul_le_units {n : ℤ} (hn : ¬ FitsSigned n) {d : Double}
    (h : ofInt n = .finite d) : 2 ^ 63 * unitsPerOne ≤ d.units := by
  rw [(units_of_ofInt h).1]
  exact two_pow_mul_le_nearestUnits (lt_natAbs_of_not_fitsSigned hn)

/-- The double of an integer that does not fit 64 bits is a whole number, and far above those that
arithmetic turns into integers. -/
theorem Extended.large_of_ofInt {n : ℤ} (hn : ¬ FitsSigned n) {d : Double}
    (h : ofInt n = .finite d) :
    unitsPerOne ∣ d.units ∧ Value.ofExtended (.finite d) = .number (.double d) := by
  have hlarge := two_pow_mul_le_units hn h
  have hone := unitsPerOne_pos
  refine ⟨unitsPerOne_dvd d.representable (by omega), ?_⟩
  have habove : d.absBelow Value.integerBound = false := by
    rw [Double.absBelow, Value.integerBound, decide_eq_false_iff_not]
    omega
  rw [Value.ofExtended, habove, Bool.and_false]
  rfl

namespace Module

/-- There is no comma among digits to be replaced. -/
theorem map_comma_of_digits {digits : List Char} (h : ∀ c ∈ digits, c.isDigit = true) :
    digits.map (fun c => if c = ',' then '.' else c) = digits := by
  refine (List.map_congr_left fun c hc => ?_).trans (List.map_id digits)
  rw [if_neg]
  · rfl
  · rintro rfl
    exact absurd (h _ hc) (by decide)

/-- The number that a numeral spells, in the float format: its digits, as many of them behind the
point as there are behind the mark. -/
theorem floatOfText?_numeral {text : String} {sign digits fraction : List Char}
    (htext : text.toList = sign ++ (digits ++ fraction)) (hsign : IsSign sign)
    (hdigits : IsDigits digits) (hfraction : IsFraction fraction) :
    floatOfText? text = some (Decimal.toExtended ⟨decide (sign = ['-']),
      Decimal.digitsValue (digits ++ fraction.tail), 0 - (fraction.tail.length : ℤ)⟩) := by
  have haccepts := float_accepts_iff.2 ⟨sign, digits, fraction, htext, hsign, hdigits, hfraction⟩
  have hsignmap : sign.map (fun c => if c = ',' then '.' else c) = sign := by
    rcases hsign with rfl | rfl | rfl <;> rfl
  rw [floatOfText?, Extended.ofDecimalText?, trim_of_float_accepts haccepts,
    String.toList_ofList, htext, List.map_append, List.map_append, hsignmap,
    map_comma_of_digits hdigits.2]
  rcases hfraction with rfl | ⟨mark, decimals, rfl, hmark, hdecimals⟩
  · rw [List.map_nil, @ofChars?_numeral sign digits [] [] hsign hdigits
      (fun c hc => absurd hc List.not_mem_nil) (Or.inl ⟨rfl, rfl⟩)]
    rfl
  · have hpoint : (if mark = ',' then '.' else mark) = '.' := by
      rcases hmark with rfl | rfl <;> rfl
    rw [List.map_cons, hpoint, map_comma_of_digits hdecimals.2,
      ofChars?_numeral hsign hdigits hdecimals.2 (Or.inr rfl)]
    rfl

/-- A text of the float format spells a number. -/
theorem floatOfText?_of_accepts {text : String} (h : Pattern.float.accepts text = true) :
    ∃ x, floatOfText? text = some x := by
  obtain ⟨sign, digits, fraction, htext, hsign, hdigits, hfraction⟩ := float_accepts_iff.1 h
  exact ⟨_, floatOfText?_numeral htext hsign hdigits hfraction⟩

/-- A decimal without an exponent is a whole number, rounded to a double. -/
theorem toExtended_whole (negative : Bool) (n : Nat) :
    Decimal.toExtended ⟨negative, n, 0⟩ = Extended.ofUnits negative (n * unitsPerOne) 1 := by
  rw [Decimal.toExtended]
  dsimp only
  split
  · next hzero => rw [hzero, Nat.zero_mul]
  · rw [if_pos (Int.le_refl 0), if_neg (by decide), Extended.ofRatio]
    rw [Int.toNat_zero, Nat.pow_eq, Nat.pow_zero, Nat.mul_one]

/-- A text of the int format spells a whole number. -/
theorem floatOfText?_whole {text : String} {sign digits : List Char}
    (htext : text.toList = sign ++ digits) (hsign : IsSign sign) (hdigits : IsDigits digits) :
    floatOfText? text = some (Extended.ofUnits (decide (sign = ['-']))
      (Decimal.digitsValue digits * unitsPerOne) 1) := by
  rw [← toExtended_whole, @floatOfText?_numeral text sign digits []
    (by rw [List.append_nil, htext]) hsign hdigits (Or.inl rfl), List.tail_nil, List.append_nil]
  rfl

/-- The integer that a text of the int format spells, if it fits 64 bits. -/
theorem smallIntOfText?_whole {text : String} {sign digits : List Char}
    (htext : text.toList = sign ++ digits) (hsign : IsSign sign) (hdigits : IsDigits digits) :
    smallIntOfText? text =
      if FitsSigned (Text.integer text) then some (Text.integer text) else none := by
  have hsplit := splitSign_append hsign hdigits []
  rw [List.append_nil] at hsplit
  have hread : (digits.isEmpty || !digits.all Char.isDigit) = false := by
    rw [List.isEmpty_eq_false_iff.2 hdigits.1, List.all_eq_true.2 hdigits.2]
    rfl
  rw [smallIntOfText?, Text.integer_whole htext hsign hdigits, htext, hsplit]
  dsimp only
  rw [hread, if_neg Bool.false_ne_true]
  simp only [decide_eq_true_eq, Bool.and_eq_true]
  rfl

/-- A finite result of arithmetic is the value of some number. -/
theorem exists_number_of_finite (d : Double) :
    ∃ number, Value.ofExtended (.finite d) = .number number := by
  rw [Value.ofExtended]
  split <;> exact ⟨_, rfl⟩

/-- A result that is not finite becomes null. -/
theorem ofExtended_eq_null {x : Extended} (h : ¬ ∃ d, x = .finite d) :
    Value.ofExtended x = .null := by
  cases x with
  | finite d => exact absurd ⟨d, rfl⟩ h
  | infinite negative => rfl
  | undefined => rfl

/-- The double that a quotient is rounded to has the nearest number of units. -/
theorem units_of_ofUnits {negative : Bool} {num den : Nat} {d : Double}
    (h : Extended.ofUnits negative num den = .finite d) : d.units = nearestUnits num den := by
  rw [Extended.ofUnits] at h
  split at h
  · cases h
    rfl
  · cases h

/-- The double nearest to a whole number of 64 bits is not scientific. -/
theorem not_scientific_of_small {negative : Bool} {n : Nat} (hn : n ≤ 2 ^ 63) {d : Double}
    (h : Extended.ofUnits negative (n * unitsPerOne) 1 = .finite d) : ¬ d.Scientific := by
  have hunits := units_of_ofUnits h
  have hlow := le_two_mul_nearestUnits (n * unitsPerOne)
  have hhigh := nearestUnits_le_two_mul (n * unitsPerOne)
  rw [← hunits] at hlow hhigh
  have hone := unitsPerOne_pos
  rintro ⟨hne, hsmall | hlarge⟩
  · have hpos : n ≠ 0 := by
      rintro rfl
      omega
    have hle : unitsPerOne ≤ n * unitsPerOne :=
      Nat.le_mul_of_pos_left _ (Nat.pos_of_ne_zero hpos)
    omega
  · have hle : n * unitsPerOne ≤ 2 ^ 63 * unitsPerOne := Nat.mul_le_mul_right _ hn
    omega

/-- A text of the int format is read as the double of the integer that it spells, if that one does
not fit 64 bits. -/
theorem floatOfText?_of_large {text : String} (h : Pattern.int.accepts text = true)
    (hlarge : ¬ FitsSigned (Text.integer text)) :
    floatOfText? text = some (Extended.ofInt (Text.integer text)) := by
  obtain ⟨sign, digits, htext, hsign, hdigits⟩ := int_accepts_iff.1 h
  have hinteger := Text.integer_whole htext hsign hdigits
  have hsize := lt_natAbs_of_not_fitsSigned hlarge
  have hminus : sign = ['-'] ↔ Text.integer text < 0 := by
    split at hinteger
    · next hsign => exact iff_of_true hsign (by omega)
    · next hsign => exact iff_of_false hsign (by omega)
  rw [floatOfText?_whole htext hsign hdigits, ← Text.natAbs_integer htext hsign hdigits]
  simp only [hminus]
  rfl

/-- What the int module makes of an integer: an integer of 64 bits, or the value of the double that
it is rounded to. -/
def coercedInteger (n : ℤ) : Value :=
  if FitsSigned n then .ofInt n else .ofExtended (Extended.ofInt n)

/-- A text of the int format is coerced by the integer that it spells. -/
theorem intOfText?_eq {text : String} (h : Pattern.int.accepts text = true) :
    intOfText? text = some (coercedInteger (Text.integer text)) := by
  obtain ⟨sign, digits, htext, hsign, hdigits⟩ := int_accepts_iff.1 h
  rw [intOfText?, smallIntOfText?_whole htext hsign hdigits, coercedInteger]
  by_cases hfits : FitsSigned (Text.integer text)
  · rw [if_pos hfits, if_pos hfits]
  · have htrunc : (Extended.ofInt (Text.integer text)).trunc =
        Extended.ofInt (Text.integer text) := by
      cases hx : Extended.ofInt (Text.integer text) with
      | finite d => exact Extended.trunc_of_dvd (Extended.large_of_ofInt hfits hx).1
      | infinite negative => rfl
      | undefined => rfl
    rw [if_neg hfits, if_neg hfits, floatOfText?_of_large h hfits]
    show some (Value.ofExtended _) = _
    rw [htrunc]

/-- What a text of the int format is coerced to: an integer that fits 64 bits, which is never a
scientific double, or the double that is nearest to the number. -/
theorem intOfText?_of_accepts {text : String} (h : Pattern.int.accepts text = true) :
    ∃ x, floatOfText? text = some x ∧
      ((∃ n, intOfText? text = some (.ofInt n) ∧ ∀ d, x = .finite d → ¬ d.Scientific) ∨
        intOfText? text = some (.ofExtended x) ∧ ∀ d, x = .finite d → d.isIntegral = true) := by
  rw [intOfText?_eq h, coercedInteger]
  by_cases hfits : FitsSigned (Text.integer text)
  · obtain ⟨sign, digits, htext, hsign, hdigits⟩ := int_accepts_iff.1 h
    refine ⟨_, floatOfText?_whole htext hsign hdigits, Or.inl ⟨Text.integer text, ?_, fun d => ?_⟩⟩
    · rw [if_pos hfits]
    · refine not_scientific_of_small ?_
      rw [← Text.natAbs_integer htext hsign hdigits]
      rw [FitsSigned] at hfits
      omega
  · refine ⟨_, floatOfText?_of_large h hfits, Or.inr ⟨?_, fun d hd => ?_⟩⟩
    · rw [if_neg hfits]
    · exact beq_iff_eq.2 (Nat.mod_eq_zero_of_dvd (Extended.large_of_ofInt hfits hd).1)

end Module

end Vetting
