import Vetting.Pattern.Basic

/-!
# The language that a matcher decides

A text is accepted exactly when it belongs to the language of the expression (`accepts_iff`): the
expressions that may be left after a character are its partial derivatives (`after_iff`), and a walk
over the text keeps to what the languages of its states have left. With the matcher out of the way
the two number formats read as their authors wrote them: a sign or none and digits, for the float
format with a point or a comma and more digits behind it (`int_accepts_iff`, `float_accepts_iff`).
-/

set_option autoImplicit false

namespace Vetting.Pattern

/-! ## Reading a language off an expression -/

section Matches

variable {set : CharSet} {e first second body : Expression} {c : Char} {cs : List Char}

/-- A set of characters matches any one of them. -/
theorem matches_one : Matches (.one set) cs ↔ ∃ c, set.contains c = true ∧ cs = [c] := by
  constructor
  · intro h
    cases h with
    | one hc => exact ⟨_, hc, rfl⟩
  · rintro ⟨c, hc, rfl⟩
    exact .one hc

/-- One expression after another matches a text in two parts. -/
theorem matches_seq :
    Matches (.seq first second) cs ↔ ∃ s t, cs = s ++ t ∧ Matches first s ∧ Matches second t := by
  constructor
  · intro h
    cases h with
    | seq hs ht => exact ⟨_, _, rfl, hs, ht⟩
  · rintro ⟨s, t, rfl, hs, ht⟩
    exact .seq hs ht

/-- One expression or another matches what either does. -/
theorem matches_either :
    Matches (.either first second) cs ↔ Matches first cs ∨ Matches second cs := by
  constructor
  · intro h
    cases h with
    | left h => exact Or.inl h
    | right h => exact Or.inr h
  · rintro (h | h)
    · exact .left h
    · exact .right h

/-- The empty expression matches the empty text. -/
theorem matches_empty : Matches .empty cs ↔ cs = [] := by
  constructor
  · intro h
    cases h
    rfl
  · rintro rfl
    exact .empty

/-- What an expression matches behind a first part is what it matches after that part. -/
theorem matches_seq_cons :
    Matches (.seq first second) (c :: cs) ↔
      (∃ s t, cs = s ++ t ∧ Matches first (c :: s) ∧ Matches second t) ∨
        Matches first [] ∧ Matches second (c :: cs) := by
  rw [matches_seq]
  constructor
  · rintro ⟨s, t, heq, hs, ht⟩
    cases s with
    | nil =>
      rw [List.nil_append] at heq
      exact Or.inr ⟨hs, heq ▸ ht⟩
    | cons d s =>
      obtain ⟨rfl, rfl⟩ := List.cons.inj heq
      exact Or.inl ⟨s, t, rfl, hs, ht⟩
  · rintro (⟨s, t, rfl, hs, ht⟩ | ⟨hs, ht⟩)
    · exact ⟨c :: s, t, rfl, hs, ht⟩
    · exact ⟨[], c :: cs, rfl, hs, ht⟩

/-- A repetition that matches something begins with a time that matches something: the times that
match nothing may be left out. -/
theorem matches_many_cons :
    Matches (.many body) (c :: cs) ↔
      ∃ s t, cs = s ++ t ∧ Matches body (c :: s) ∧ Matches (.many body) t := by
  constructor
  · intro h
    generalize he : Expression.many body = e at h
    generalize hcs : c :: cs = text at h
    induction h with
    | @again body' s t hs ht _ ih =>
      cases he
      cases s with
      | nil => exact ih rfl (by rw [hcs, List.nil_append])
      | cons d s =>
        obtain ⟨rfl, rfl⟩ := List.cons.inj hcs
        exact ⟨s, t, rfl, hs, ht⟩
    | stop => cases hcs
    | _ => cases he
  · rintro ⟨s, t, rfl, hs, ht⟩
    exact .again hs ht

/-- An optional expression matches what it does, and the empty text. -/
theorem matches_optional : Matches (.optional e) cs ↔ cs = [] ∨ Matches e cs := by
  rw [Expression.optional, matches_either, matches_empty, or_comm]

/-- Any number of characters of a set matches texts of such characters. -/
theorem matches_many_one :
    Matches (.many (.one set)) cs ↔ ∀ c ∈ cs, set.contains c = true := by
  induction cs with
  | nil => exact iff_of_true .stop fun c hc => nomatch hc
  | cons c cs ih =>
    rw [matches_many_cons, List.forall_mem_cons]
    constructor
    · rintro ⟨s, t, rfl, hs, ht⟩
      obtain ⟨d, hd, heq⟩ := matches_one.1 hs
      obtain ⟨rfl, rfl⟩ := List.cons.inj heq
      exact ⟨hd, ih.1 ht⟩
    · rintro ⟨hc, hcs⟩
      exact ⟨[], cs, rfl, .one hc, ih.2 hcs⟩

/-- One or more characters of a set match such texts, unless they are empty. -/
theorem matches_oneOrMore_one :
    Matches (.oneOrMore (.one set)) cs ↔ cs ≠ [] ∧ ∀ c ∈ cs, set.contains c = true := by
  rw [Expression.oneOrMore, matches_seq]
  constructor
  · rintro ⟨s, t, rfl, hs, ht⟩
    obtain ⟨c, hc, rfl⟩ := matches_one.1 hs
    exact ⟨by simp, List.forall_mem_cons.2 ⟨hc, matches_many_one.1 ht⟩⟩
  · rintro ⟨hne, hcs⟩
    obtain ⟨c, cs, rfl⟩ := List.exists_cons_of_ne_nil hne
    obtain ⟨hc, hcs⟩ := List.forall_mem_cons.1 hcs
    exact ⟨[c], cs, rfl, .one hc, matches_many_one.2 hcs⟩

end Matches

namespace Expression

/-! ## The matcher -/

/-- An expression is nullable exactly if it matches the empty text. -/
theorem nullable_iff {e : Expression} : e.nullable = true ↔ Matches e [] := by
  induction e with
  | nothing => exact iff_of_false Bool.false_ne_true fun h => nomatch h
  | empty => exact iff_of_true rfl .empty
  | one set => exact iff_of_false Bool.false_ne_true fun h => nomatch h
  | seq first second hfirst hsecond =>
    rw [nullable, Bool.and_eq_true, hfirst, hsecond, matches_seq]
    constructor
    · rintro ⟨hs, ht⟩
      exact ⟨[], [], rfl, hs, ht⟩
    · rintro ⟨s, t, heq, hs, ht⟩
      obtain ⟨rfl, rfl⟩ := List.nil_eq_append_iff.1 heq
      exact ⟨hs, ht⟩
  | either first second hfirst hsecond =>
    rw [nullable, Bool.or_eq_true, hfirst, hsecond, matches_either]
  | many body _ => exact iff_of_true rfl .stop

/-- Putting an expression behind another one, in short form, makes the same language. -/
theorem matches_followedBy {first second : Expression} {cs : List Char} :
    Matches (first.followedBy second) cs ↔ Matches (.seq first second) cs := by
  cases first with
  | empty =>
    rw [followedBy, matches_seq]
    constructor
    · intro h
      exact ⟨[], cs, rfl, .empty, h⟩
    · rintro ⟨s, t, rfl, hs, ht⟩
      rwa [matches_empty.1 hs]
  | _ => exact Iff.rfl

/-- Something that may be left of a first part, and then the second one. -/
theorem exists_followedBy {states : List Expression} {second : Expression} {cs : List Char} :
    (∃ left ∈ states.map (·.followedBy second), Matches left cs) ↔
      ∃ s t, cs = s ++ t ∧ (∃ left ∈ states, Matches left s) ∧ Matches second t := by
  constructor
  · rintro ⟨_, hleft, h⟩
    obtain ⟨left, hmem, rfl⟩ := List.mem_map.1 hleft
    obtain ⟨s, t, rfl, hs, ht⟩ := matches_seq.1 (matches_followedBy.1 h)
    exact ⟨s, t, rfl, ⟨left, hmem, hs⟩, ht⟩
  · rintro ⟨s, t, rfl, ⟨left, hmem, hs⟩, ht⟩
    exact ⟨_, List.mem_map.2 ⟨left, hmem, rfl⟩, matches_followedBy.2 (.seq hs ht)⟩

/-- What may be left after a character are the partial derivatives. -/
theorem after_iff {e : Expression} {c : Char} {cs : List Char} :
    Matches e (c :: cs) ↔ ∃ left ∈ e.after c, Matches left cs := by
  induction e generalizing cs with
  | nothing => exact iff_of_false (fun h => nomatch h) fun ⟨_, hmem, _⟩ => nomatch hmem
  | empty => exact iff_of_false (fun h => nomatch h) fun ⟨_, hmem, _⟩ => nomatch hmem
  | one set =>
    rw [matches_one, after]
    constructor
    · rintro ⟨d, hd, heq⟩
      obtain ⟨rfl, rfl⟩ := List.cons.inj heq
      rw [if_pos hd]
      exact ⟨.empty, List.mem_singleton.2 rfl, .empty⟩
    · rintro ⟨left, hmem, h⟩
      split at hmem
      · next hc =>
        rw [List.mem_singleton.1 hmem] at h
        exact ⟨c, hc, by rw [matches_empty.1 h]⟩
      · cases hmem
  | seq first second hfirst hsecond =>
    simp only [matches_seq_cons, after, List.mem_append, or_and_right, exists_or,
      exists_followedBy, hfirst]
    refine or_congr Iff.rfl ?_
    rw [← nullable_iff, hsecond]
    cases first.nullable with
    | true => simp
    | false => simp
  | either first second hfirst hsecond =>
    simp only [matches_either, after, List.mem_append, or_and_right, exists_or, hfirst, hsecond]
  | many body hbody => simp only [matches_many_cons, after, exists_followedBy, hbody]

/-- A step of the walk keeps to what the languages of its states have left. -/
theorem exists_advance {states : List Expression} {c : Char} {cs : List Char} :
    (∃ e ∈ advance states c, Matches e cs) ↔ ∃ e ∈ states, Matches e (c :: cs) := by
  simp only [advance, List.mem_eraseDups, List.mem_flatMap, after_iff]
  constructor
  · rintro ⟨left, ⟨e, he, hmem⟩, h⟩
    exact ⟨e, he, left, hmem, h⟩
  · rintro ⟨e, he, left, hmem, h⟩
    exact ⟨left, ⟨e, he, hmem⟩, h⟩

/-- The matcher accepts a text from some states exactly if one of them matches it. -/
theorem walk_iff {states : List Expression} {cs : List Char} :
    (cs.foldl advance states).any nullable = true ↔ ∃ e ∈ states, Matches e cs := by
  induction cs generalizing states with
  | nil => simp only [List.foldl_nil, List.any_eq_true, nullable_iff]
  | cons c cs ih => rw [List.foldl_cons, ih, exists_advance]

/-- The matcher decides the language of an expression. -/
theorem accepts_iff {e : Expression} {cs : List Char} : e.accepts cs = true ↔ Matches e cs := by
  rw [accepts, walk_iff]
  simp only [List.mem_singleton, exists_eq_left]

end Expression

/-! ## Characters without case -/

section Caseless

/-- The characters that fold onto letters, and the letters, stand above the digits. -/
theorem letters_of_mem_foldExceptions {entry : Nat × Nat} (h : entry ∈ Text.foldExceptions) :
    0x41 ≤ entry.1 ∧ 0x41 ≤ entry.2 := by
  revert entry
  decide

/-- Folding leaves alone what stands below the letters, and leads nothing else there. -/
theorem fold_eq_iff {n m : Nat} (hm : m < 0x41) : Text.fold n = m ↔ n = m := by
  unfold Text.fold
  split
  · omega
  · split
    · omega
    · split
      · omega
      · cases hlookup : Text.foldExceptions.lookup n with
        | none => exact Iff.rfl
        | some letter =>
          obtain ⟨front, back, hsplit, -⟩ := List.lookup_eq_some_iff.1 hlookup
          have hmem : (n, letter) ∈ Text.foldExceptions := by
            rw [hsplit]
            exact List.mem_append_cons_self
          have hletters := letters_of_mem_foldExceptions hmem
          simp only [Option.getD_some]
          omega

/-- Code points below the letters stand for themselves in either case, and only for themselves. -/
theorem mem_caseVariants_iff {n m : Nat} (hm : m < 0x41) : m ∈ Text.caseVariants n ↔ m = n := by
  simp only [Text.caseVariants, List.mem_append, List.mem_cons]
  constructor
  · rintro ((hfold | hcapital) | hexception)
    · exact ((fold_eq_iff hm).1 hfold.symm).symm
    · split at hcapital
      · rw [List.mem_singleton] at hcapital
        omega
      · split at hcapital
        · rw [List.mem_singleton] at hcapital
          omega
        · split at hcapital
          · rw [List.mem_singleton] at hcapital
            omega
          · cases hcapital
    · obtain ⟨entry, hentry, rfl⟩ := List.mem_map.1 hexception
      have hletters := letters_of_mem_foldExceptions (List.mem_filter.1 hentry).1
      omega
  · rintro rfl
    exact Or.inl (Or.inl ((fold_eq_iff hm).2 rfl).symm)

/-- A set of characters below the letters is the same set in either case. -/
theorem contains_anyCase {ranges : List (Nat × Nat)} (hlow : ∀ range ∈ ranges, range.2 < 0x41)
    {c : Char} :
    (⟨ranges, true, false⟩ : CharSet).contains c = true ↔
      Text.inRanges ranges c.toNat = true := by
  have hbelow : ∀ n, Text.inRanges ranges n = true → n < 0x41 := by
    intro n hn
    obtain ⟨range, hrange, hn⟩ := List.any_eq_true.1 hn
    have hend := hlow range hrange
    simp only [Bool.and_eq_true, decide_eq_true_eq] at hn
    omega
  rw [CharSet.contains, Bool.bne_false, if_pos rfl, List.any_eq_true]
  constructor
  · rintro ⟨n, hmem, hn⟩
    rwa [← (mem_caseVariants_iff (hbelow n hn)).1 hmem]
  · intro hc
    exact ⟨c.toNat, (mem_caseVariants_iff (hbelow _ hc)).2 rfl, hc⟩

end Caseless

/-! ## The number formats -/

/-- One digit or more. -/
def IsDigits (cs : List Char) : Prop := cs ≠ [] ∧ ∀ c ∈ cs, c.isDigit = true

/-- A sign, or none. -/
def IsSign (cs : List Char) : Prop := cs = [] ∨ cs = ['+'] ∨ cs = ['-']

/-- What may follow the digits of a text of the float format: nothing, or a point or a comma and
digits. -/
def IsFraction (cs : List Char) : Prop :=
  cs = [] ∨ ∃ mark digits, cs = mark :: digits ∧ (mark = '.' ∨ mark = ',') ∧ IsDigits digits

/-- The decimal digits. -/
def digitSet : CharSet := ⟨[('0'.toNat, '9'.toNat)], true, false⟩

/-- The signs. -/
def signSet : CharSet :=
  ⟨[('+'.toNat, '+'.toNat), ('-'.toNat, '-'.toNat)], true, false⟩

/-- The marks before decimals. -/
def markSet : CharSet :=
  ⟨[('.'.toNat, '.'.toNat), (','.toNat, ','.toNat)], true, false⟩

/-- The set of digits has the digits. -/
theorem contains_digitSet {c : Char} : digitSet.contains c = true ↔ c.isDigit = true := by
  rw [digitSet, contains_anyCase (by decide)]
  simp only [Text.inRanges, List.any_cons, List.any_nil, Bool.or_false, Bool.and_eq_true,
    decide_eq_true_eq, Char.isDigit, ge_iff_le, UInt32.le_iff_toNat_le]
  exact Iff.rfl

/-- A set of two single characters below the letters. -/
theorem contains_pair {a b c : Char} (ha : a.toNat < 0x41) (hb : b.toNat < 0x41) :
    (⟨[(a.toNat, a.toNat), (b.toNat, b.toNat)], true, false⟩ : CharSet).contains c = true ↔
      c = a ∨ c = b := by
  rw [contains_anyCase (by simp [ha, hb])]
  simp only [Text.inRanges, List.any_cons, List.any_nil, Bool.or_false, Bool.or_eq_true,
    Bool.and_eq_true, decide_eq_true_eq, ← Char.toNat_inj]
  omega

/-- The set of signs has plus and minus. -/
theorem contains_signSet {c : Char} : signSet.contains c = true ↔ c = '+' ∨ c = '-' :=
  contains_pair (by decide) (by decide)

/-- The set of marks has the point and the comma. -/
theorem contains_markSet {c : Char} : markSet.contains c = true ↔ c = '.' ∨ c = ',' :=
  contains_pair (by decide) (by decide)

/-- One or more digits match digits. -/
theorem matches_digits {cs : List Char} :
    Matches (.oneOrMore (.one digitSet)) cs ↔ IsDigits cs := by
  simp only [matches_oneOrMore_one, contains_digitSet, IsDigits]

/-- An optional sign matches a sign or none. -/
theorem matches_sign {cs : List Char} : Matches (.optional (.one signSet)) cs ↔ IsSign cs := by
  simp only [matches_optional, matches_one, contains_signSet, or_and_right, exists_or,
    exists_eq_left, IsSign]

/-- An optional mark with digits matches a fraction or none. -/
theorem matches_fraction {cs : List Char} :
    Matches (.optional (.seq (.one markSet) (.oneOrMore (.one digitSet)))) cs ↔ IsFraction cs := by
  rw [matches_optional, matches_seq, IsFraction]
  refine or_congr Iff.rfl ⟨?_, ?_⟩
  · rintro ⟨s, t, rfl, hs, ht⟩
    obtain ⟨mark, hmark, rfl⟩ := matches_one.1 hs
    exact ⟨mark, t, rfl, contains_markSet.1 hmark, matches_digits.1 ht⟩
  · rintro ⟨mark, digits, rfl, hmark, hdigits⟩
    exact ⟨[mark], digits, rfl, .one (contains_markSet.2 hmark), matches_digits.2 hdigits⟩

/-- The int format is an optional sign and digits. -/
theorem expression_int :
    Pattern.int.expression = .seq (.optional (.one signSet)) (.oneOrMore (.one digitSet)) := rfl

/-- The float format is the same with an optional fraction. -/
theorem expression_float :
    Pattern.float.expression = .seq (.optional (.one signSet)) (.seq (.oneOrMore (.one digitSet))
      (.optional (.seq (.one markSet) (.oneOrMore (.one digitSet))))) := rfl

/-- The int format: a sign or none, and digits. -/
theorem int_accepts_iff {text : String} :
    Pattern.int.accepts text = true ↔
      ∃ sign digits, text.toList = sign ++ digits ∧ IsSign sign ∧ IsDigits digits := by
  rw [accepts, Expression.accepts_iff, expression_int, matches_seq]
  simp only [matches_sign, matches_digits]

/-- The float format: a sign or none, digits, and a fraction or none. -/
theorem float_accepts_iff {text : String} :
    Pattern.float.accepts text = true ↔
      ∃ sign digits fraction, text.toList = sign ++ (digits ++ fraction) ∧
        IsSign sign ∧ IsDigits digits ∧ IsFraction fraction := by
  rw [accepts, Expression.accepts_iff, expression_float, matches_seq]
  simp only [matches_seq, matches_sign, matches_digits, matches_fraction]
  constructor
  · rintro ⟨sign, _, htext, hsign, digits, fraction, rfl, hdigits, hfraction⟩
    exact ⟨sign, digits, fraction, htext, hsign, hdigits, hfraction⟩
  · rintro ⟨sign, digits, fraction, htext, hsign, hdigits, hfraction⟩
    exact ⟨sign, _, htext, hsign, digits, fraction, rfl, hdigits, hfraction⟩

/-- What has the int format has the float format. -/
theorem float_accepts_of_int {text : String} (h : Pattern.int.accepts text = true) :
    Pattern.float.accepts text = true := by
  obtain ⟨sign, digits, htext, hsign, hdigits⟩ := int_accepts_iff.1 h
  exact float_accepts_iff.2
    ⟨sign, digits, [], by rw [List.append_nil, htext], hsign, hdigits, Or.inl rfl⟩

/-- The characters of a number: digits, signs and the marks before decimals. -/
theorem mem_of_float_accepts {text : String} (h : Pattern.float.accepts text = true) {c : Char}
    (hc : c ∈ text.toList) : c.isDigit = true ∨ c ∈ ['+', '-', '.', ','] := by
  obtain ⟨sign, digits, fraction, htext, hsign, hdigits, hfraction⟩ := float_accepts_iff.1 h
  rw [htext, List.mem_append, List.mem_append] at hc
  rcases hc with hc | hc | hc
  · rcases hsign with rfl | rfl | rfl <;> simp_all
  · exact Or.inl (hdigits.2 c hc)
  · rcases hfraction with rfl | ⟨mark, decimals, rfl, hmark, hdecimals⟩
    · cases hc
    · rcases List.mem_cons.1 hc with rfl | hc
      · rcases hmark with rfl | rfl <;> simp
      · exact Or.inl (hdecimals.2 c hc)

end Vetting.Pattern
