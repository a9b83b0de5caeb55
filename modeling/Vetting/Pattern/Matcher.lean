import Vetting.Pattern.Expression

/-!
# Deciding whether a text matches

What is left to match after a character is a finite set of expressions, the partial derivatives.
Reading a text walks from set to set, and the text matches when the last set has a member that
matches the empty text. Every way of splitting the text among the parts of an expression is
followed at once, so no choice is ever taken back.
-/

set_option autoImplicit false

namespace Vetting.Pattern

namespace Expression

/-- Whether the empty text matches. -/
def nullable : Expression → Bool
  | .nothing => false
  | .empty => true
  | .one _ => false
  | .seq first second => first.nullable && second.nullable
  | .either first second => first.nullable || second.nullable
  | .many _ => true

/-- Concatenation that drops an empty first part. -/
def followedBy : Expression → Expression → Expression
  | .empty, rest => rest
  | first, rest => .seq first rest

/-- What may be left to match after a character. -/
def after (c : Char) : Expression → List Expression
  | .nothing => []
  | .empty => []
  | .one set => if set.contains c then [.empty] else []
  | .seq first second =>
    (first.after c).map (·.followedBy second) ++
      (if first.nullable then second.after c else [])
  | .either first second => first.after c ++ second.after c
  | .many body => (body.after c).map (·.followedBy (.many body))

/-- One step of the walk: all that may be left after a character, without repetition. -/
def advance (states : List Expression) (c : Char) : List Expression :=
  (states.flatMap (·.after c)).eraseDups

/-- Whether a whole text matches. -/
def accepts (e : Expression) (cs : List Char) : Bool :=
  (cs.foldl advance [e]).any nullable

end Expression

end Vetting.Pattern
