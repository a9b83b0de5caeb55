import Vetting.Proofs.PatternLanguage
import Mathlib.Algebra.BigOperators.Intervals
import Mathlib.Algebra.BigOperators.Ring.Finset
import Mathlib.Computability.Language
import Mathlib.Data.Char

/-!
# The languages of the named patterns

Expressions denote languages, in the algebra of union, concatenation and iteration (`language`), and
the matcher decides the language of an expression (`accepts_iff_mem_language`): it follows every way
of splitting a text at once, however ambiguous the repetitions are. The eight named patterns are
written down once more as languages over sets of characters, with letters in either case wherever
the pattern has them so, and a text has the format of a pattern exactly when the whole of it belongs
to the declared language (`Pattern.accepts_iff_mem_languageOf`).

Two characters are the same letter when they fold to the same one. The matcher looks for a character
among those that it lists as variants of the one it reads; these are all characters that fold like
it (`Text.mem_caseVariants_iff_fold`).
-/

set_option autoImplicit false

namespace Vetting

open scoped Computability

/-! ## Letters in either case -/

namespace Text

/-- A letter outside the usual case is folded to its entry, which is folded to itself. -/
theorem fold_of_mem_foldExceptions {entry : Nat × Nat} (h : entry ∈ foldExceptions) :
    fold entry.1 = entry.2 ∧ fold entry.2 = entry.2 := by
  revert entry
  decide

/-- No character that is folded by the table is a small letter of the two blocks, and all of the
table lies below the surrogates. -/
theorem bounds_of_mem_foldExceptions {entry : Nat × Nat} (h : entry ∈ foldExceptions) :
    (entry.1 < 0x61 ∨ 0x7A < entry.1) ∧ (entry.1 < 0x430 ∨ 0x45F < entry.1) ∧
      entry.1 < 0xD800 ∧ entry.2 < 0xD800 := by
  revert entry
  decide

/-- A letter that is looked up among the exceptions is one. -/
theorem mem_foldExceptions_of_lookup {n letter : Nat}
    (h : foldExceptions.lookup n = some letter) : (n, letter) ∈ foldExceptions := by
  obtain ⟨front, back, hsplit, -⟩ := List.lookup_eq_some_iff.1 h
  rw [hsplit]
  exact List.mem_append_cons_self

/-- Folding leaves the small letters of the two blocks alone. -/
theorem fold_of_small {n : Nat} (h : 0x61 ≤ n ∧ n ≤ 0x7A ∨ 0x430 ≤ n ∧ n ≤ 0x45F) :
    fold n = n := by
  have hlookup : foldExceptions.lookup n = none := by
    rw [List.lookup_eq_none_iff]
    intro entry hentry
    have hbounds := bounds_of_mem_foldExceptions hentry
    exact bne_iff_ne.2 (by omega)
  rw [fold, if_neg (by omega), if_neg (by omega), if_neg (by omega), hlookup, Option.getD_none]

/-- How a character folds: to the small letter of its own block, as the table says, or not at
all. -/
theorem fold_cases (n : Nat) :
    (0x41 ≤ n ∧ n ≤ 0x5A ∧ fold n = n + 32) ∨ (0x410 ≤ n ∧ n ≤ 0x42F ∧ fold n = n + 32) ∨
      (0x400 ≤ n ∧ n ≤ 0x40F ∧ fold n = n + 80) ∨ (n, fold n) ∈ foldExceptions ∨ fold n = n := by
  unfold fold
  split
  · next hlatin => exact Or.inl ⟨hlatin.1, hlatin.2, rfl⟩
  · split
    · next hcyrillic => exact Or.inr (Or.inl ⟨hcyrillic.1, hcyrillic.2, rfl⟩)
    · split
      · next hextended => exact Or.inr (Or.inr (Or.inl ⟨hextended.1, hextended.2, rfl⟩))
      · cases hlookup : foldExceptions.lookup n with
        | none => exact Or.inr (Or.inr (Or.inr (Or.inr rfl)))
        | some letter =>
          exact Or.inr (Or.inr (Or.inr (Or.inl (mem_foldExceptions_of_lookup hlookup))))

/-- What a character folds to is folded. -/
theorem fold_fold (n : Nat) : fold (fold n) = fold n := by
  rcases fold_cases n with ⟨hlow, hhigh, heq⟩ | ⟨hlow, hhigh, heq⟩ | ⟨hlow, hhigh, heq⟩ |
    hentry | heq
  · exact fold_of_small (by omega)
  · exact fold_of_small (by omega)
  · exact fold_of_small (by omega)
  · exact (fold_of_mem_foldExceptions hentry).2
  · rw [heq, heq]

/-- The variants of a character are all characters that fold to the same letter. -/
theorem mem_caseVariants_iff_fold {m n : Nat} : m ∈ caseVariants n ↔ fold m = fold n := by
  have hletter := fold_fold n
  simp only [caseVariants, List.mem_append, List.mem_cons]
  generalize fold n = letter at hletter
  constructor
  · rintro ((rfl | hcapital) | hexception)
    · exact hletter
    · -- A capital is in the block of its small letter.
      split at hcapital
      · next hlatin =>
        rw [List.mem_singleton] at hcapital
        rw [fold, if_pos (by omega)]
        omega
      · split at hcapital
        · next hcyrillic =>
          rw [List.mem_singleton] at hcapital
          rw [fold, if_neg (by omega), if_pos (by omega)]
          omega
        · split at hcapital
          · next hextended =>
            rw [List.mem_singleton] at hcapital
            rw [fold, if_neg (by omega), if_neg (by omega), if_pos (by omega)]
            omega
          · cases hcapital
    · obtain ⟨entry, hentry, rfl⟩ := List.mem_map.1 hexception
      obtain ⟨hmem, hsame⟩ := List.mem_filter.1 hentry
      rw [(fold_of_mem_foldExceptions hmem).1, eq_of_beq hsame]
  · rintro rfl
    rcases fold_cases m with ⟨hlow, hhigh, heq⟩ | ⟨hlow, hhigh, heq⟩ | ⟨hlow, hhigh, heq⟩ |
      hentry | heq
    · refine Or.inl (Or.inr ?_)
      rw [if_pos (by omega), List.mem_singleton]
      omega
    · refine Or.inl (Or.inr ?_)
      rw [if_neg (by omega), if_pos (by omega), List.mem_singleton]
      omega
    · refine Or.inl (Or.inr ?_)
      rw [if_neg (by omega), if_neg (by omega), if_pos (by omega), List.mem_singleton]
      omega
    · exact Or.inr (List.mem_map.2 ⟨_, List.mem_filter.2 ⟨hentry, beq_self_eq_true _⟩, rfl⟩)
    · exact Or.inl (Or.inl heq.symm)

/-- A code point that folds like a character is that of a character. -/
theorem isValidChar_of_fold {m n : Nat} (h : fold m = fold n) (hn : n.isValidChar) :
    m.isValidChar := by
  rcases fold_cases m with ⟨-, hhigh, -⟩ | ⟨-, hhigh, -⟩ | ⟨-, hhigh, -⟩ | hentry | hself
  · exact Or.inl (by omega)
  · exact Or.inl (by omega)
  · exact Or.inl (by omega)
  · exact Or.inl (bounds_of_mem_foldExceptions hentry).2.2.1
  · rw [hself] at h
    subst h
    rcases fold_cases n with ⟨-, hhigh, heq⟩ | ⟨-, hhigh, heq⟩ | ⟨-, hhigh, heq⟩ | hentry | heq
    · exact Or.inl (by omega)
    · exact Or.inl (by omega)
    · exact Or.inl (by omega)
    · exact Or.inl (bounds_of_mem_foldExceptions hentry).2.2.2
    · rwa [heq]

end Text

namespace Format

/-- All characters that are the same letter as one of a set. -/
def eitherCase (characters : Set Char) : Set Char :=
  {c | ∃ d ∈ characters, Text.fold d.toNat = Text.fold c.toNat}

/-- The characters whose code points lie in some ranges. -/
def within (ranges : List (Nat × Nat)) : Set Char :=
  {c | Text.inRanges ranges c.toNat = true}

/-- The characters of a text. -/
def charactersOf (s : String) : Set Char := {c | c ∈ s.toList}

/-- The white space characters. -/
def whiteSpace : Set Char := {c | Text.isSpace c = true}

/-- There are no characters within no ranges. -/
@[simp] theorem within_nil : within [] = ∅ := by
  ext c
  exact iff_of_false (fun h => nomatch h) (Set.notMem_empty c)

/-- Characters are within one list of ranges or the other. -/
@[simp] theorem within_append (first second : List (Nat × Nat)) :
    within (first ++ second) = within first ∪ within second := by
  ext c
  simp only [within, Text.inRanges, List.any_append, Bool.or_eq_true, Set.mem_ofPred_eq,
    Set.mem_union]

/-- The characters within a range are those between its ends. -/
theorem within_singleton_range (first last : Char) :
    within [Pattern.range first last] = Set.Icc first last := by
  ext c
  simp only [within, Pattern.range, Text.inRanges, List.any_cons, List.any_nil, Bool.or_false,
    Bool.and_eq_true, decide_eq_true_eq, Set.mem_ofPred_eq, Set.mem_Icc, Char.le_def,
    UInt32.le_iff_toNat_le]
  exact Iff.rfl

/-- Ranges one by one. -/
@[simp] theorem within_cons_range (first last : Char) (ranges : List (Nat × Nat)) :
    within (Pattern.range first last :: ranges) = Set.Icc first last ∪ within ranges := by
  rw [← List.singleton_append, within_append, within_singleton_range]

/-- The characters of a text are within the ranges that list them. -/
@[simp] theorem within_chars (s : String) : within (Pattern.chars s) = charactersOf s := by
  ext c
  simp only [within, Pattern.chars, Text.inRanges, List.any_map, List.any_eq_true,
    Function.comp_apply, Bool.and_eq_true, decide_eq_true_eq, Set.mem_ofPred_eq, charactersOf]
  constructor
  · rintro ⟨d, hd, hlow, hhigh⟩
    rwa [← Char.toNat_inj.1 (Nat.le_antisymm hlow hhigh)]
  · intro hc
    exact ⟨c, hc, Nat.le_refl _, Nat.le_refl _⟩

/-- White space is what is within its ranges. -/
@[simp] theorem within_spaceRanges : within Text.spaceRanges = whiteSpace := rfl

/-- Some variant of a character lies in some ranges when the character is the same letter as one
that does. -/
theorem any_caseVariants (ranges : List (Nat × Nat)) (c : Char) :
    (Text.caseVariants c.toNat).any (Text.inRanges ranges) = true ↔
      c ∈ eitherCase (within ranges) := by
  rw [List.any_eq_true]
  constructor
  · rintro ⟨n, hmem, hn⟩
    have hsame := Text.mem_caseVariants_iff_fold.1 hmem
    exact ⟨Char.ofNatAux n (Text.isValidChar_of_fold hsame c.valid), hn, hsame⟩
  · rintro ⟨d, hd, hsame⟩
    exact ⟨d.toNat, Text.mem_caseVariants_iff_fold.2 hsame, hd⟩

/-! ## Languages -/

/-- The texts of one character of a set. -/
def oneOf (characters : Set Char) : Language Char := {cs | ∃ c ∈ characters, cs = [c]}

/-- One text of a language or none. -/
def optional (l : Language Char) : Language Char := l + 1

/-- One text of a language after the other, at least one. -/
def oneOrMore (l : Language Char) : Language Char := l * l∗

/-- From the one to the other number of texts of a language. -/
def between (low high : Nat) (l : Language Char) : Language Char :=
  ∑ n ∈ Finset.Ico low (high + 1), l ^ n

/-- At least so many texts of a language. -/
def atLeast (n : Nat) (l : Language Char) : Language Char := l ^ n * l∗

end Format

namespace Pattern

/-- The characters of a set, as a set. -/
def CharSet.members (set : CharSet) : Set Char := {c | set.contains c = true}

namespace Expression

/-- The language of an expression. -/
def language : Expression → Language Char
  | .nothing => 0
  | .empty => 1
  | .one set => Format.oneOf set.members
  | .seq first second => first.language * second.language
  | .either first second => first.language + second.language
  | .many body => body.language∗

/-- One expression after another has the product of their languages. -/
@[simp] theorem language_seq (first second : Expression) :
    (seq first second).language = first.language * second.language := rfl

/-- One expression or another has the sum of their languages. -/
@[simp] theorem language_either (first second : Expression) :
    (either first second).language = first.language + second.language := rfl

/-- Any number of repetitions have the closure of the language. -/
@[simp] theorem language_many (body : Expression) : (many body).language = body.language∗ := rfl

/-- An optional expression has its language and the empty text. -/
@[simp] theorem language_optional (e : Expression) :
    (optional e).language = Format.optional e.language := rfl

/-- One or more repetitions have the closure without none. -/
@[simp] theorem language_oneOrMore (e : Expression) :
    (oneOrMore e).language = Format.oneOrMore e.language := rfl

/-- A repetition matches what is put together from texts of its body. -/
theorem matches_many_iff {body : Expression} {cs : List Char} :
    Matches (.many body) cs ↔ ∃ parts : List (List Char), cs = parts.flatten ∧
      ∀ part ∈ parts, Matches body part := by
  constructor
  · intro h
    generalize he : Expression.many body = e at h
    induction h with
    | stop => exact ⟨[], rfl, fun part hpart => nomatch hpart⟩
    | @again body' s t hs _ _ ih =>
      cases he
      obtain ⟨parts, rfl, hparts⟩ := ih rfl
      exact ⟨s :: parts, rfl, List.forall_mem_cons.2 ⟨hs, hparts⟩⟩
    | _ => cases he
  · rintro ⟨parts, rfl, hparts⟩
    induction parts with
    | nil => exact .stop
    | cons part parts ih =>
      obtain ⟨hpart, hparts⟩ := List.forall_mem_cons.1 hparts
      exact .again hpart (ih hparts)

/-- The language of an expression is what it matches. -/
theorem mem_language_iff {e : Expression} {cs : List Char} :
    cs ∈ e.language ↔ Matches e cs := by
  induction e generalizing cs with
  | nothing => exact iff_of_false (Language.notMem_zero cs) fun h => nomatch h
  | empty => rw [language, Language.mem_one, matches_empty]
  | one set => exact matches_one.symm
  | seq first second hfirst hsecond =>
    rw [language, Language.mem_mul, matches_seq]
    simp only [hfirst, hsecond]
    constructor
    · rintro ⟨s, hs, t, ht, rfl⟩
      exact ⟨s, t, rfl, hs, ht⟩
    · rintro ⟨s, t, rfl, hs, ht⟩
      exact ⟨s, hs, t, ht, rfl⟩
  | either first second hfirst hsecond =>
    rw [language, Language.mem_add, matches_either, hfirst, hsecond]
  | many body hbody =>
    rw [language, Language.mem_kstar, matches_many_iff]
    simp only [hbody]

/-- The matcher decides the language of an expression. -/
theorem accepts_iff_mem_language {e : Expression} {cs : List Char} :
    e.accepts cs = true ↔ cs ∈ e.language :=
  accepts_iff.trans mem_language_iff.symm

/-- A number of repetitions have the power of the language. -/
@[simp] theorem language_times (n : Nat) (e : Expression) :
    (times n e).language = e.language ^ n := by
  induction n with
  | zero => exact (pow_zero _).symm
  | succ n ih => rw [times, language_seq, ih, pow_succ']

/-- At most a number of repetitions have the sum of the powers. -/
theorem language_atMost (n : Nat) (e : Expression) :
    (atMost n e).language = ∑ k ∈ Finset.range (n + 1), e.language ^ k := by
  induction n with
  | zero => rw [Finset.sum_range_one, pow_zero]; rfl
  | succ n ih =>
    have hstep : (atMost (n + 1) e).language = e.language * (atMost n e).language + 1 := rfl
    rw [hstep, ih, Finset.sum_range_succ' _ (n + 1), Finset.mul_sum, pow_zero]
    simp only [pow_succ']

/-- Repetitions between two numbers have the powers between them. -/
theorem language_between {low high : Nat} (h : low ≤ high) (e : Expression) :
    (between low high e).language = Format.between low high e.language := by
  have hcount : high + 1 - low = high - low + 1 := by omega
  rw [between, language_seq, language_times, language_atMost, Format.between,
    Finset.sum_Ico_eq_sum_range, hcount, Finset.mul_sum]
  simp only [pow_add]

/-- At least a number of repetitions have the power and the closure after it. -/
@[simp] theorem language_atLeast (n : Nat) (e : Expression) :
    (atLeast n e).language = Format.atLeast n e.language := by
  rw [atLeast, language_seq, language_times, language_many, Format.atLeast]

/-- A list of expressions has the product of their languages. -/
@[simp] theorem language_all (es : List Expression) :
    (Expression.all es).language = (es.map language).prod := by
  induction es with
  | nil => rfl
  | cons e rest ih =>
    cases rest with
    | nil => rw [List.map_singleton, List.prod_singleton]; rfl
    | cons next rest =>
      rw [List.map_cons, List.prod_cons, ← ih]
      rfl

end Expression

end Pattern

/-! ## The declared languages -/

namespace Format

/-- One character of a set, letters in either case. -/
def caseless (characters : Set Char) : Language Char := oneOf (eitherCase characters)

/-- One character outside a set, letters in either case. -/
def caselessOutside (characters : Set Char) : Language Char := oneOf (eitherCase characters)ᶜ

/-- A fixed text, letters in either case. -/
def word (s : String) : Language Char := (s.toList.map fun c => caseless {c}).prod

/-- A decimal digit. -/
def digit : Language Char := caseless (Set.Icc '0' '9')

/-- Any character but a line feed. -/
def anyChar : Language Char := caselessOutside {'\n'}

/-- A sign, or none. -/
def sign : Language Char := optional (caseless (charactersOf "+-"))

/-- The characters in the name of a host but the hyphen. -/
def hostCharacters : Set Char :=
  Set.Icc 'a' 'z' ∪ Set.Icc 'а' 'я' ∪ charactersOf "ё" ∪ Set.Icc '0' '9'

/-- The scheme of an address. -/
def scheme : Language Char := (word "http" + word "https") * word "://"

/-- The labels of a host with a point behind each, the last label, and a path or none. -/
def hostAndPath : Language Char :=
  oneOrMore (oneOrMore (caseless (hostCharacters ∪ charactersOf "-")) * word ".") *
    atLeast 2 (caseless hostCharacters) * optional (word "/" * anyChar∗)

/-- A character of an unquoted name of a mailbox. -/
def mailboxChar : Language Char :=
  caselessOutside (charactersOf "<>()[]\\.,;:@\"" ∪ whiteSpace)

/-- The name of a mailbox: words with points between them, or any text between quotation marks. -/
def mailbox : Language Char :=
  oneOrMore mailboxChar * (word "." * oneOrMore mailboxChar)∗ +
    word "\"" * oneOrMore anyChar * word "\""

/-- One number of a numeric address. -/
def octet : Language Char := between 1 3 digit

/-- The Latin letters. -/
def latinLetters : Set Char := Set.Icc 'a' 'z' ∪ Set.Icc 'A' 'Z'

/-- The domain of a mailbox: a numeric address in brackets, or labels and at least two letters. -/
def mailDomain : Language Char :=
  word "[" * octet * word "." * octet * word "." * octet * word "." * octet * word "]" +
    oneOrMore (oneOrMore (caseless (latinLetters ∪ Set.Icc '0' '9' ∪ charactersOf "-")) *
      word ".") * atLeast 2 (caseless latinLetters)

/-- The characters of plain text. -/
def textCharacters : Set Char :=
  Set.Icc 'а' 'я' ∪ charactersOf "ёҐґЄєІіЇї–" ∪ (Set.Icc 'a' 'z' ∪ Set.Icc '0' '9') ∪
    charactersOf "_" ∪ whiteSpace ∪ charactersOf "$#№;:\"_.+!*?'\\/[]><%@^&=~(),-"

/-- A fixed text as it stands. -/
def exactly (s : String) : Language Char := {s.toList}

/-- A decimal digit of a telephone number. -/
def phoneDigit : Language Char := oneOf (Set.Icc '0' '9')

/-- The declared language of a pattern. -/
def languageOf : Pattern → Language Char
  | .digits => oneOrMore digit
  | .url => scheme * hostAndPath
  | .shortUrl => optional scheme * hostAndPath
  | .email => mailbox * word "@" * mailDomain
  | .textString => (caseless textCharacters)∗
  | .float => sign * oneOrMore digit * optional (caseless (charactersOf ".,") * oneOrMore digit)
  | .int => sign * oneOrMore digit
  | .phone =>
      optional ((exactly "8" + exactly "+38") * optional (exactly "-")) *
        optional (optional (exactly "(") * phoneDigit ^ 3 * optional (exactly ")")) *
        optional (exactly "-") * phoneDigit ^ 3 * optional (exactly "-") * phoneDigit ^ 2 *
        optional (exactly "-") * phoneDigit ^ 2

end Format

namespace Pattern

/-! ## Each expression has its declared language -/

open Expression

/-- One of some characters matches them in either case. -/
@[simp] theorem language_oneOf (ranges : List (Nat × Nat)) :
    (oneOf ranges).language = Format.caseless (Format.within ranges) := by
  have hmembers : CharSet.members ⟨ranges, true, false⟩ =
      Format.eitherCase (Format.within ranges) := by
    ext c
    rw [← Format.any_caseVariants]
    simp only [CharSet.members, CharSet.contains, Set.mem_ofPred_eq, if_true, Bool.bne_false]
  exact congrArg Format.oneOf hmembers

/-- None of some characters matches the others, in neither case. -/
@[simp] theorem language_noneOf (ranges : List (Nat × Nat)) :
    (noneOf ranges).language = Format.caselessOutside (Format.within ranges) := by
  have hmembers : CharSet.members ⟨ranges, true, true⟩ =
      (Format.eitherCase (Format.within ranges))ᶜ := by
    ext c
    rw [Set.mem_compl_iff, ← Format.any_caseVariants]
    simp [CharSet.members, CharSet.contains]
  exact congrArg Format.oneOf hmembers

/-- Within the range of one character is that character. -/
theorem within_single (c : Char) : Format.within [(c.toNat, c.toNat)] = {c} := by
  rw [← Set.Icc_self c]
  exact Format.within_singleton_range c c

/-- A fixed text matches itself in either case. -/
@[simp] theorem language_fixed (s : String) : (fixed s).language = Format.word s := by
  rw [fixed, language_all, List.map_map, Format.word]
  refine congrArg List.prod (List.map_congr_left fun c _ => ?_)
  rw [Function.comp_apply, language_oneOf, within_single]

/-- One character after the other is the text of these characters. -/
theorem prod_oneOf_singleton (cs : List Char) :
    (cs.map fun c => Format.oneOf {c}).prod = ({cs} : Language Char) := by
  induction cs with
  | nil => rfl
  | cons c cs ih =>
    rw [List.map_cons, List.prod_cons, ih]
    ext text
    rw [Language.mem_mul]
    constructor
    · rintro ⟨_, ⟨d, rfl, rfl⟩, _, rfl, rfl⟩
      rfl
    · rintro rfl
      exact ⟨[c], ⟨c, rfl, rfl⟩, cs, rfl, rfl⟩

/-- Where letters are not in either case, the members of a set are the characters in its ranges. -/
theorem members_sensitive (ranges : List (Nat × Nat)) :
    CharSet.members ⟨ranges, false, false⟩ = Format.within ranges := by
  ext c
  simp [CharSet.members, CharSet.contains, Format.within]

/-- An exact text matches itself alone. -/
@[simp] theorem language_exactly (s : String) : (exactly s).language = Format.exactly s := by
  rw [exactly, language_all, List.map_map, Format.exactly, ← prod_oneOf_singleton]
  refine congrArg List.prod (List.map_congr_left fun c _ => congrArg Format.oneOf ?_)
  rw [members_sensitive, within_single]

/-- The expression for a digit of a phone number has the language of one. -/
@[simp] theorem language_phoneDigit : phoneDigit.language = Format.phoneDigit := by
  have hmembers : CharSet.members ⟨[range '0' '9'], false, false⟩ = Set.Icc '0' '9' := by
    rw [members_sensitive, Format.within_singleton_range]
  exact congrArg Format.oneOf hmembers

/-- The expression for a digit has the language of digits. -/
@[simp] theorem language_digit : digit.language = Format.digit := by
  simp [digit, Format.digit]

/-- The expression for a sign has the language of signs. -/
@[simp] theorem language_sign : sign.language = Format.sign := by
  simp [sign, Format.sign]

/-- The expression for any character has the language of single characters. -/
@[simp] theorem language_anyChar : anyChar.language = Format.anyChar := by
  have hfeed : Format.charactersOf "\n" = {'\n'} := by
    ext c
    simp [Format.charactersOf]
  simp [anyChar, Format.anyChar, hfeed]

/-- The ranges for the name of a host list the characters of one. -/
@[simp] theorem within_hostRanges : Format.within hostRanges = Format.hostCharacters := by
  simp [hostRanges, Format.hostCharacters, Set.union_assoc]

/-- The ranges for the text of an address list the characters of one. -/
@[simp] theorem within_textRanges : Format.within textRanges = Format.textCharacters := by
  simp [textRanges, Format.textCharacters, Set.union_assoc]

/-- The expression for a scheme has the language of schemes. -/
@[simp] theorem language_scheme : scheme.language = Format.scheme := by
  simp [scheme, Format.scheme]

/-- The expression for a host and a path has their language. -/
@[simp] theorem language_hostAndPath : hostAndPath.language = Format.hostAndPath := by
  simp [hostAndPath, Format.hostAndPath, mul_assoc]

/-- The expression for a character of a mailbox has the language of one. -/
@[simp] theorem language_mailboxChar : mailboxChar.language = Format.mailboxChar := by
  simp [mailboxChar, Format.mailboxChar]

/-- The expression for a mailbox has the language of mailboxes. -/
@[simp] theorem language_mailbox : mailbox.language = Format.mailbox := by
  simp [mailbox, Format.mailbox, mul_assoc]

/-- The expression for an octet has the language of octets. -/
@[simp] theorem language_octet : octet.language = Format.octet := by
  rw [octet, language_between (by decide), language_digit, Format.octet]

/-- The expression for the domain of a mailbox has the language of such domains. -/
@[simp] theorem language_mailDomain : mailDomain.language = Format.mailDomain := by
  simp [mailDomain, Format.mailDomain, Format.latinLetters, mul_assoc, Set.union_assoc]

/-- The expression of a pattern has the declared language of the pattern. -/
theorem language_expression (pattern : Pattern) :
    pattern.expression.language = Format.languageOf pattern := by
  cases pattern with
  | digits | url | shortUrl | textString | int => simp [expression, Format.languageOf]
  | email | float | phone => simp [expression, Format.languageOf, mul_assoc]

/-- A text has the format of a named pattern exactly when the whole of it belongs to the declared
language of the pattern. -/
theorem accepts_iff_mem_languageOf (pattern : Pattern) (text : String) :
    pattern.accepts text = true ↔ text.toList ∈ Format.languageOf pattern := by
  rw [accepts, Expression.accepts_iff_mem_language, language_expression]

-- What looks like the prefix of a country, like the last label or like the end of a quotation need
-- not be it.
example : Pattern.phone.accepts "8123456" = true ∧
    Pattern.shortUrl.accepts "HTTP.a-.b.cd.ef/" = true ∧
    Pattern.email.accepts "\"a\"@b\"@x-y.z.co" = true ∧
    Pattern.email.accepts "a.b@x-.co.u" = false := by
  decide +kernel

end Pattern

end Vetting
