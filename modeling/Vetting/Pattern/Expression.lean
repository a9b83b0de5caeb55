import Vetting.Text.Space
import Vetting.Text.CaseFold

/-!
# Regular expressions and their languages

Expressions over sets of characters, and the language of each: `Matches e text` is the textbook
reading of concatenation, alternation and repetition, with nothing said about how a text is
searched. The other repetitions are written with these.
-/

set_option autoImplicit false

namespace Vetting.Pattern

/-- A set of characters: ranges of code points, possibly read in either case of letters, possibly
turned inside out. -/
structure CharSet where
  ranges : List (Nat × Nat)
  anyCase : Bool
  negated : Bool
  deriving DecidableEq

namespace CharSet

/-- Whether a character belongs to the set. -/
def contains (set : CharSet) (c : Char) : Bool :=
  let codes := if set.anyCase then Text.caseVariants c.toNat else [c.toNat]
  (codes.any (Text.inRanges set.ranges)) != set.negated

end CharSet

/-- A regular expression. -/
inductive Expression where
  | nothing
  | empty
  | one (set : CharSet)
  | seq (first second : Expression)
  | either (first second : Expression)
  | many (body : Expression)
  deriving DecidableEq

/-- The language of an expression. -/
inductive Matches : Expression → List Char → Prop where
  | empty : Matches .empty []
  | one {set : CharSet} {c : Char} : set.contains c = true → Matches (.one set) [c]
  | seq {first second : Expression} {s t : List Char} :
      Matches first s → Matches second t → Matches (.seq first second) (s ++ t)
  | left {first second : Expression} {s : List Char} :
      Matches first s → Matches (.either first second) s
  | right {first second : Expression} {s : List Char} :
      Matches second s → Matches (.either first second) s
  | stop {body : Expression} : Matches (.many body) []
  | again {body : Expression} {s t : List Char} :
      Matches body s → Matches (.many body) t → Matches (.many body) (s ++ t)

namespace Expression

/-- One time or not at all. -/
def optional (e : Expression) : Expression := .either e .empty

/-- At least once. -/
def oneOrMore (e : Expression) : Expression := .seq e (.many e)

/-- Exactly so many times. -/
def times : Nat → Expression → Expression
  | 0, _ => .empty
  | n + 1, e => .seq e (times n e)

/-- At most so many times. -/
def atMost : Nat → Expression → Expression
  | 0, _ => .empty
  | n + 1, e => .optional (.seq e (atMost n e))

/-- From the one to the other number of times. -/
def between (low high : Nat) (e : Expression) : Expression :=
  .seq (times low e) (atMost (high - low) e)

/-- At least so many times. -/
def atLeast (n : Nat) (e : Expression) : Expression :=
  .seq (times n e) (.many e)

/-- One expression after the other. -/
def all : List Expression → Expression
  | [] => .empty
  | [e] => e
  | e :: rest => .seq e (all rest)

end Expression

end Vetting.Pattern
