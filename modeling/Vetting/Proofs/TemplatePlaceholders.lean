import Vetting.Template
import Vetting.Proofs.Numerals

/-!
# Placeholders of a template

What a template says is read off its text: a placeholder is the decimal text of a number between
braces, and a reading of the template is a list of parts that spell it, in which no placeholder is
broken up (`Template.Reads`). Every template has exactly one reading (`Template.reads_iff`), since
two placeholders never overlap, and filling a template fills each part of it on its own. So a
template may be cut wherever no placeholder lies across the cut (`Template.parts_append`).
-/

set_option autoImplicit false

namespace Vetting

/-! ## Decimal text without leading zeros -/

/-- A digit is written for the number that it stands for. -/
theorem digitChar_of_isDigit {c : Char} (h : c.isDigit = true) : (c.toNat - 48).digitChar = c := by
  have hbounds := toNat_of_isDigit h
  apply Char.toNat_inj.1
  rw [Nat.toNat_digitChar_of_lt_ten (by omega)]
  omega

/-- Digits behind a positive number are the last digits of the number that they make of it. -/
theorem toDigits_ofDigitChars {digits : List Char} (h : ∀ c ∈ digits, c.isDigit = true) {n : Nat}
    (hn : 0 < n) :
    Nat.toDigits 10 (Nat.ofDigitChars 10 digits n) = Nat.toDigits 10 n ++ digits := by
  induction digits generalizing n with
  | nil => rw [Nat.ofDigitChars_nil, List.append_nil]
  | cons c digits ih =>
    have hc := h c List.mem_cons_self
    have hbounds := toNat_of_isDigit hc
    have hlast : Nat.toDigits 10 (c.toNat - 48) = [c] := by
      rw [Nat.toDigits_of_lt_base (by omega), digitChar_of_isDigit hc]
    rw [Nat.ofDigitChars_cons, ih (fun d hd => h d (List.mem_cons_of_mem _ hd)) (by omega)]
    show Nat.toDigits 10 (10 * n + (c.toNat - 48)) ++ digits = _
    rw [← Nat.toDigits_append_toDigits (by omega) hn (by omega), hlast, List.append_assoc,
      List.singleton_append]

/-- The text of a positive number does not begin with a zero. -/
theorem head?_toDigits_ne_zero {n : Nat} (h : 0 < n) : (Nat.toDigits 10 n).head? ≠ some '0' := by
  induction n using Nat.strong_induction_on with
  | _ n ih =>
    rw [Nat.toDigits_eq_if (by omega)]
    split
    · next hsmall =>
      rw [List.head?_cons, ne_eq, Option.some.injEq]
      intro heq
      have hcode := Nat.toNat_digitChar_of_lt_ten hsmall
      rw [heq] at hcode
      have hzero : '0'.toNat = 48 := rfl
      omega
    · rw [List.head?_append_of_ne_nil _ Nat.toDigits_ne_nil]
      exact ih (n / 10) (by omega) (by omega)

namespace Template

/-- An index is zero, or digits the first of which is not. -/
theorem isIndex_iff {digits : List Char} :
    isIndex digits = true ↔ digits = ['0'] ∨
      ∃ first rest, digits = first :: rest ∧ first ≠ '0' ∧ ∀ c ∈ digits, c.isDigit = true := by
  unfold isIndex
  split
  · simp
  · simp
  · next first rest hne =>
    have hzero : ¬ (first = '0' ∧ rest = []) := by
      rintro ⟨rfl, rfl⟩
      exact hne rfl rfl
    simp [hzero, and_assoc]

/-- A number written out is an index. -/
theorem isIndex_toString (n : Nat) : isIndex (toString n).toList = true := by
  rcases Nat.eq_zero_or_pos n with rfl | hpos
  · rfl
  · obtain ⟨hne, hdigits⟩ := isDigits_toString n
    obtain ⟨first, rest, heq⟩ := List.exists_cons_of_ne_nil hne
    refine isIndex_iff.2 (Or.inr ⟨first, rest, heq, ?_, hdigits⟩)
    rintro rfl
    refine head?_toDigits_ne_zero hpos ?_
    rw [← String.toList_ofList (l := Nat.toDigits 10 n), ← Nat.toString_eq_ofList_toDigits, heq,
      List.head?_cons]

/-- An index is the text of the number that it spells. -/
theorem toString_digitsValue {digits : List Char} (h : isIndex digits = true) :
    (toString (Decimal.digitsValue digits)).toList = digits := by
  rcases isIndex_iff.1 h with rfl | ⟨first, rest, rfl, hfirst, hdigits⟩
  · rfl
  · have hdigit := hdigits first List.mem_cons_self
    have hbounds := toNat_of_isDigit hdigit
    have hcode : first.toNat ≠ 48 := fun heq => hfirst (Char.toNat_inj.1 heq)
    rw [Nat.toString_eq_ofList_toDigits, String.toList_ofList, Decimal.digitsValue_eq,
      Nat.ofDigitChars_cons, Nat.mul_zero, Nat.zero_add]
    show Nat.toDigits 10 (Nat.ofDigitChars 10 rest (first.toNat - 48)) = _
    rw [toDigits_ofDigitChars (fun c hc => hdigits c (List.mem_cons_of_mem _ hc)) (by omega),
      Nat.toDigits_of_lt_base (by omega), digitChar_of_isDigit hdigit, List.singleton_append]

/-! ## Readings -/

/-- A part of a template: a character that stands for itself, or a placeholder for a parameter. -/
inductive Part where
  | char (c : Char)
  | placeholder (index : Nat)
  deriving DecidableEq

/-- The text of a part: a placeholder is the decimal text of its index between braces. -/
def Part.source : Part → List Char
  | .char c => [c]
  | .placeholder index => '\x7b' :: (toString index).toList ++ ['\x7d']

/-- What stands in the place of a part: a character itself, and for a placeholder the parameter, if
there is one, or else its own text. -/
def Part.filled (params : List String) : Part → List Char
  | .char c => [c]
  | .placeholder index =>
    if h : index < params.length then params[index].toList
    else (Part.placeholder index).source

/-- A reading of a text: parts that spell it, where every placeholder in the text, wherever it
occurs, is a part of its own. -/
structure Reads (cs : List Char) (parts : List Part) : Prop where
  spells : parts.flatMap Part.source = cs
  unbroken : ∀ (before after : List Char) (index : Nat),
    cs = before ++ ((Part.placeholder index).source ++ after) →
    ∃ front back, parts = front ++ .placeholder index :: back ∧
      front.flatMap Part.source = before ∧ back.flatMap Part.source = after

/-- Whether a text begins with a placeholder. -/
def OpensPlaceholder (cs : List Char) : Prop :=
  ∃ index rest, cs = (Part.placeholder index).source ++ rest

/-- Every part is written as something. -/
theorem Part.source_ne_nil (part : Part) : part.source ≠ [] := by
  cases part with
  | char c => exact List.cons_ne_nil _ _
  | placeholder index => exact List.cons_ne_nil _ _

/-- Parts that are written as nothing are none. -/
theorem Part.eq_nil_of_flatMap {parts : List Part} (h : parts.flatMap Part.source = []) :
    parts = [] := by
  cases parts with
  | nil => rfl
  | cons part rest =>
    rw [List.flatMap_cons, List.append_eq_nil_iff] at h
    exact absurd h.1 part.source_ne_nil

/-- A reading goes on behind its first part. -/
theorem Reads.tail {part : Part} {rest : List Part} {cs : List Char}
    (h : Reads (part.source ++ cs) (part :: rest)) : Reads cs rest := by
  obtain ⟨hspells, hunbroken⟩ := h
  refine ⟨List.append_cancel_left hspells, fun before after index heq => ?_⟩
  obtain ⟨front, back, hparts, hbefore, hafter⟩ :=
    hunbroken (part.source ++ before) after index (by rw [heq, List.append_assoc])
  cases front with
  | nil => exact absurd (List.append_eq_nil_iff.1 hbefore.symm).1 part.source_ne_nil
  | cons first front =>
    cases hparts
    exact ⟨front, back, rfl, List.append_cancel_left hbefore, hafter⟩

/-! ## The parts that the pieces stand for -/

/-- The part that a piece stands for. -/
def Piece.part : Piece → Part
  | .char c => .char c
  | .slot digits => .placeholder (Decimal.digitsValue digits)

/-- The parts of a text, from the left. -/
def parts (cs : List Char) : List Part := (pieces cs).map Piece.part

/-- A slot is an index with a closing brace behind it. -/
theorem slot?_eq_some_iff {cs digits rest : List Char} :
    slot? cs = some (digits, rest) ↔ isIndex digits = true ∧ cs = digits ++ '\x7d' :: rest := by
  constructor
  · intro h
    have heq := eq_of_slot? h
    unfold slot? at h
    dsimp only at h
    split at h
    · split at h
      · next hindex =>
        cases h
        exact ⟨hindex, heq⟩
      · cases h
    · cases h
  · rintro ⟨hindex, rfl⟩
    have hdigits : ∀ c ∈ digits, c.isDigit = true := by
      rw [← toString_digitsValue hindex]
      exact (isDigits_toString _).2
    obtain ⟨htake, hdrop⟩ := @span_digits digits ('\x7d' :: rest) hdigits (by
      rintro c ⟨⟩
      rfl)
    unfold slot?
    rw [htake, hdrop]
    exact if_pos hindex

/-- A number written out with a closing brace behind it is a slot. -/
theorem slot?_toString (index : Nat) (rest : List Char) :
    slot? ((toString index).toList ++ '\x7d' :: rest) = some ((toString index).toList, rest) :=
  slot?_eq_some_iff.2 ⟨isIndex_toString index, rfl⟩

/-- The empty template has no parts. -/
@[simp] theorem parts_nil : parts [] = [] := by
  rw [parts, pieces, List.map_nil]

/-- A placeholder in front is the first part. -/
theorem parts_placeholder (index : Nat) (rest : List Char) :
    parts ((Part.placeholder index).source ++ rest) = .placeholder index :: parts rest := by
  have hsource : (Part.placeholder index).source ++ rest =
      '\x7b' :: ((toString index).toList ++ '\x7d' :: rest) := by
    rw [Part.source, List.append_assoc]
    rfl
  rw [hsource, parts, pieces, if_pos rfl]
  split
  · next digits rest' h =>
    rw [slot?_toString] at h
    cases h
    rw [List.map_cons, Piece.part, Decimal.digitsValue_toString]
    rfl
  · next h =>
    rw [slot?_toString] at h
    cases h

/-- A character that opens no placeholder is the first part. -/
theorem parts_char {c : Char} {cs : List Char} (h : ¬ OpensPlaceholder (c :: cs)) :
    parts (c :: cs) = .char c :: parts cs := by
  rw [parts, pieces]
  split
  · next hbrace =>
    split
    · next digits rest hslot =>
      obtain ⟨hindex, rfl⟩ := slot?_eq_some_iff.1 hslot
      refine absurd ⟨Decimal.digitsValue digits, rest, ?_⟩ h
      rw [Part.source, toString_digitsValue hindex, hbrace, List.append_assoc]
      rfl
    · rfl
  · rfl

/-- Texts grow from the left by a placeholder, or by a character with which none begins. -/
theorem parts_induction {motive : List Char → Prop} (nil : motive [])
    (placeholder : ∀ index rest, motive rest → motive ((Part.placeholder index).source ++ rest))
    (char : ∀ c cs, ¬ OpensPlaceholder (c :: cs) → motive cs → motive (c :: cs))
    (cs : List Char) : motive cs := by
  induction hlength : cs.length using Nat.strong_induction_on generalizing cs with
  | _ n ih =>
    subst hlength
    by_cases hopens : OpensPlaceholder cs
    · obtain ⟨index, rest, rfl⟩ := hopens
      refine placeholder index rest (ih _ ?_ rest rfl)
      have hpos := List.length_pos_iff.2 (Part.source_ne_nil (.placeholder index))
      rw [List.length_append]
      omega
    · cases cs with
      | nil => exact nil
      | cons c cs => exact char c cs hopens (ih _ (Nat.lt_succ_self _) cs rfl)

/-- The parts of a template are written as it. -/
theorem flatMap_source_parts (cs : List Char) : (parts cs).flatMap Part.source = cs := by
  induction cs using parts_induction with
  | nil => rw [parts_nil, List.flatMap_nil]
  | placeholder index rest ih => rw [parts_placeholder, List.flatMap_cons, ih]
  | char c cs hopens ih => rw [parts_char hopens, List.flatMap_cons, ih]; rfl

/-! ## Cutting a template -/

/-- Whether a placeholder lies across the cut between two texts. -/
def Straddles (cs ds : List Char) : Prop :=
  ∃ before head tail after index, head ≠ [] ∧ tail ≠ [] ∧
    (Part.placeholder index).source = head ++ tail ∧ cs = before ++ head ∧ ds = tail ++ after

/-- Where no placeholder lies across the cut, the parts of a text are those of its two sides. -/
theorem parts_append {cs ds : List Char} (h : ¬ Straddles cs ds) :
    parts (cs ++ ds) = parts cs ++ parts ds := by
  induction cs using parts_induction with
  | nil => rw [parts_nil, List.nil_append, List.nil_append]
  | placeholder index rest ih =>
    have hrest : ¬ Straddles rest ds := by
      rintro ⟨before, head, tail, after, inner, hhead, htail, hsource, rfl, rfl⟩
      exact h ⟨(Part.placeholder index).source ++ before, head, tail, after, inner, hhead, htail,
        hsource, (List.append_assoc ..).symm, rfl⟩
    rw [List.append_assoc, parts_placeholder, parts_placeholder, ih hrest, List.cons_append]
  | char c cs hopens ih =>
    have hrest : ¬ Straddles cs ds := by
      rintro ⟨before, head, tail, after, inner, hhead, htail, hsource, rfl, rfl⟩
      exact h ⟨c :: before, head, tail, after, inner, hhead, htail, hsource, rfl, rfl⟩
    -- A placeholder at the front of both ends within the first text, or lies across the cut.
    have hboth : ¬ OpensPlaceholder (c :: (cs ++ ds)) := by
      rintro ⟨index, rest, heq⟩
      rw [← List.cons_append] at heq
      rcases List.append_eq_append_iff.1 heq with ⟨tail, hsource, hds⟩ | ⟨inner, hcs, -⟩
      · by_cases htail : tail = []
        · rw [htail, List.append_nil] at hsource
          exact hopens ⟨index, [], by rw [hsource, List.append_nil]⟩
        · exact h ⟨[], c :: cs, tail, rest, index, List.cons_ne_nil _ _, htail, hsource, rfl, hds⟩
      · exact hopens ⟨index, inner, hcs⟩
    rw [List.cons_append, parts_char hboth, parts_char hopens, ih hrest, List.cons_append]

/-- Behind its first brace a placeholder has digits and then the other brace. -/
theorem source_split {head tail : List Char} {index : Nat} (hhead : head ≠ []) (htail : tail ≠ [])
    (h : (Part.placeholder index).source = head ++ tail) :
    ∃ digits, head = '\x7b' :: digits ∧ (∀ c ∈ digits, c.isDigit = true) ∧
      ∃ c rest, tail = c :: rest ∧ c ≠ '\x7b' := by
  obtain ⟨first, digits, rfl⟩ := List.exists_cons_of_ne_nil hhead
  obtain ⟨c, rest, rfl⟩ := List.exists_cons_of_ne_nil htail
  rw [Part.source, List.cons_append, List.cons_append, List.cons.injEq] at h
  obtain ⟨rfl, h⟩ := h
  have hdigits := (isDigits_toString index).2
  have hfront : (toString index).toList = digits ++ (c :: rest).dropLast := by
    rw [← List.dropLast_append_cons, ← h, List.dropLast_concat]
  have hc : c ∈ (toString index).toList ++ ['\x7d'] :=
    h ▸ List.mem_append_right _ List.mem_cons_self
  refine ⟨digits, rfl, fun d hd => hdigits d (hfront ▸ List.mem_append_left _ hd), c, rest, rfl, ?_⟩
  rintro rfl
  rcases List.mem_append.1 hc with hdigit | hbrace
  · exact absurd (hdigits _ hdigit) (by decide)
  · exact absurd (List.mem_singleton.1 hbrace) (by decide)

/-- Whether a text ends in an open brace with nothing but digits behind it. -/
def EndsOpen (cs : List Char) : Prop :=
  ∃ before digits, cs = before ++ '\x7b' :: digits ∧ ∀ c ∈ digits, c.isDigit = true

/-- A text ends open if an opening brace stands before the digits at its end. -/
theorem endsOpen_iff {cs : List Char} :
    EndsOpen cs ↔ (cs.reverse.dropWhile Char.isDigit).head? = some '\x7b' := by
  constructor
  · rintro ⟨before, digits, rfl, hdigits⟩
    have hreverse : (before ++ '\x7b' :: digits).reverse =
        digits.reverse ++ '\x7b' :: before.reverse := by simp
    rw [hreverse, List.dropWhile_append_of_pos fun c hc => hdigits c (List.mem_reverse.1 hc)]
    rfl
  · intro h
    obtain ⟨before, hdrop⟩ := List.head?_eq_some_iff.1 h
    have hsplit := congrArg List.reverse
      (@List.takeWhile_append_dropWhile _ Char.isDigit cs.reverse)
    rw [hdrop, List.reverse_append, List.reverse_cons, List.append_assoc, List.reverse_reverse]
      at hsplit
    refine ⟨_, _, hsplit.symm, fun c hc => ?_⟩
    exact List.mem_takeWhile_imp (List.mem_reverse.1 hc)

instance (cs : List Char) : Decidable (EndsOpen cs) := decidable_of_iff _ endsOpen_iff.symm

/-- No placeholder straddles the end of a text that does not end open. -/
theorem not_straddles_of_not_endsOpen {cs : List Char} (h : ¬ EndsOpen cs) (ds : List Char) :
    ¬ Straddles cs ds := by
  rintro ⟨before, head, tail, after, index, hhead, htail, hsource, rfl, -⟩
  obtain ⟨digits, rfl, hdigits, -⟩ := source_split hhead htail hsource
  exact h ⟨before, digits, rfl, hdigits⟩

/-- No placeholder lies across the place where a brace opens. -/
theorem not_straddles_brace (cs ds : List Char) : ¬ Straddles cs ('\x7b' :: ds) := by
  rintro ⟨before, head, tail, after, index, hhead, htail, hsource, -, hds⟩
  obtain ⟨-, -, -, c, rest, rfl, hc⟩ := source_split hhead htail hsource
  exact hc (List.cons.inj hds).1.symm

/-! ## The reading of a template -/

/-- A template is read as its parts. -/
theorem reads_parts (cs : List Char) : Reads cs (parts cs) := by
  refine ⟨flatMap_source_parts cs, ?_⟩
  rintro before after index rfl
  refine ⟨parts before, parts after, ?_, flatMap_source_parts before, flatMap_source_parts after⟩
  rw [← parts_placeholder, parts_append]
  exact not_straddles_brace before _

/-- A reading is made from the left: where a placeholder begins, it is the next part, and anywhere
else the next part is a character. -/
theorem Reads.eq_parts {cs : List Char} {ps : List Part} (h : Reads cs ps) : ps = parts cs := by
  induction cs using parts_induction generalizing ps with
  | nil => rw [parts_nil, Part.eq_nil_of_flatMap h.spells]
  | placeholder index rest ih =>
    obtain ⟨front, back, rfl, hfront, -⟩ := h.unbroken [] rest index rfl
    cases Part.eq_nil_of_flatMap hfront
    rw [parts_placeholder, ← ih h.tail, List.nil_append]
  | char c cs hopens ih =>
    have hspells := h.spells
    cases ps with
    | nil => cases hspells
    | cons part ps =>
      cases part with
      | char d =>
        obtain rfl : d = c := (List.cons.inj hspells).1
        have htail : Reads cs ps := @Reads.tail (.char d) ps cs h
        rw [parts_char hopens, ← ih htail]
      | placeholder index => exact absurd ⟨index, _, hspells.symm⟩ hopens

/-- A text is read as its parts and as nothing else. -/
theorem reads_iff {cs : List Char} {ps : List Part} : Reads cs ps ↔ ps = parts cs :=
  ⟨Reads.eq_parts, fun h => h ▸ reads_parts cs⟩

/-- A piece is filled as the part that it stands for. -/
theorem filled_of_mem_pieces {cs : List Char} (params : List String) :
    ∀ piece ∈ pieces cs, piece.fill params = piece.part.filled params := by
  fun_induction pieces cs with
  | case1 => simp
  | case2 cs digits rest hslot ih =>
    have hindex := (slot?_eq_some_iff.1 hslot).1
    refine List.forall_mem_cons.2 ⟨?_, ih⟩
    by_cases hbelow : Decimal.digitsValue digits < params.length
    · rw [Piece.part, Part.filled, dif_pos hbelow, Piece.fill, List.getElem?_eq_getElem hbelow]
    · rw [Piece.part, Part.filled, dif_neg hbelow, Piece.fill,
        List.getElem?_eq_none (Nat.le_of_not_lt hbelow), Part.source, toString_digitsValue hindex]
      rfl
  | case3 cs hslot ih => exact List.forall_mem_cons.2 ⟨rfl, ih⟩
  | case4 c cs hbrace ih => exact List.forall_mem_cons.2 ⟨rfl, ih⟩

/-- Filling a template fills its parts, one after the other. -/
theorem fill_eq {template : String} (h : template ≠ "") (params : List String) :
    fill template params =
      String.ofList ((parts template.toList).flatMap (Part.filled params)) := by
  have hempty : template.isEmpty = false := by simpa using h
  rw [fill, hempty, parts, List.flatMap_map]
  exact congrArg String.ofList (List.flatMap_congr (filled_of_mem_pieces params))

/-- Filling a template that is not empty is one pass over its only reading, part by part: each
placeholder becomes the parameter of its number, or stays if there is none, and every other
character stays. So a template may be filled in two halves that are not empty, unless the first one
ends in an open brace with nothing but digits behind it. -/
theorem fill_reading (template : String) (params : List String) (h : template ≠ "") :
    (∃! ps, Reads template.toList ps) ∧
    (∀ ps, Reads template.toList ps →
      fill template params = String.ofList (ps.flatMap (Part.filled params))) ∧
    ∀ rest : String, rest ≠ "" → ¬ EndsOpen template.toList →
      fill (template ++ rest) params = fill template params ++ fill rest params := by
  refine ⟨⟨_, reads_iff.2 rfl, fun ps => reads_iff.1⟩, fun ps hps => ?_,
    fun rest hrest hopen => ?_⟩
  · rw [fill_eq h, reads_iff.1 hps]
  · have hboth : template ++ rest ≠ "" := fun hnil => h (String.append_eq_empty_iff.1 hnil).1
    rw [fill_eq hboth, fill_eq h, fill_eq hrest, String.toList_append,
      parts_append (not_straddles_of_not_endsOpen hopen _), List.flatMap_append,
      String.ofList_append]

/-- A parameter that looks like a placeholder stays as it is, and so do an index with a leading zero
and one past the last parameter. -/
theorem fill_reading_nested :
    "\x7b\x7b0\x7d\x7d\x7b01\x7d\x7b7\x7d" ≠ "" ∧
      ¬ EndsOpen "\x7b\x7b0\x7d\x7d\x7b01\x7d\x7b7\x7d".toList ∧
      fill ("\x7b\x7b0\x7d\x7d\x7b01\x7d\x7b7\x7d" ++ "-\x7b1\x7d") ["\x7b1\x7d", "x"] =
        "\x7b\x7b1\x7d\x7d\x7b01\x7d\x7b7\x7d-x" := by
  have hne : "\x7b\x7b0\x7d\x7d\x7b01\x7d\x7b7\x7d" ≠ "" := by decide
  have hopen : ¬ EndsOpen "\x7b\x7b0\x7d\x7d\x7b01\x7d\x7b7\x7d".toList := by decide
  obtain ⟨-, -, hcut⟩ := fill_reading _ ["\x7b1\x7d", "x"] hne
  refine ⟨hne, hopen, (hcut "-\x7b1\x7d" (by decide) hopen).trans ?_⟩
  decide +kernel

end Template

end Vetting
