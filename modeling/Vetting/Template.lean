import Vetting.Double.Decimal

/-!
# Message templates

A template is text with slots `{n}` for the parameters of a rule. It is cut into pieces once, and
each piece is filled on its own, so text that a parameter brings in is never looked at again.
A slot index has no leading zero; a slot past the last parameter stays as it is written. That the
pieces spell the template is `flatMap_source_pieces`.
-/

set_option autoImplicit false

namespace Vetting.Template

/-- A piece of a template: a character, or a slot with the digits of its index. -/
inductive Piece where
  | char (c : Char)
  | slot (digits : List Char)
  deriving DecidableEq

/-- The text of a piece in the template. -/
def Piece.source : Piece → List Char
  | .char c => [c]
  | .slot digits => '\x7b' :: digits ++ ['\x7d']

/-- Whether digits are an index without a leading zero. -/
def isIndex (digits : List Char) : Bool :=
  match digits with
  | [] => false
  | ['0'] => true
  | first :: rest => first != '0' && first.isDigit && rest.all Char.isDigit

/-- Reads the rest of a slot after its opening brace: the digits, and the text after the closing
brace. -/
def slot? (cs : List Char) : Option (List Char × List Char) :=
  let digits := cs.takeWhile Char.isDigit
  match cs.dropWhile Char.isDigit with
  | '\x7d' :: rest => if isIndex digits then some (digits, rest) else none
  | _ => none

/-- A slot is written as its digits and the closing brace. -/
theorem eq_of_slot? {cs digits rest : List Char} (h : slot? cs = some (digits, rest)) :
    cs = digits ++ '\x7d' :: rest := by
  unfold slot? at h
  simp only at h
  split at h
  · next rest' hd =>
    split at h
    · obtain ⟨rfl, rfl⟩ := Prod.mk.inj (Option.some.inj h)
      rw [← hd, List.takeWhile_append_dropWhile]
    · cases h
  · cases h

/-- The pieces of a template, from the left; a brace that opens no slot is a character. -/
def pieces : List Char → List Piece
  | [] => []
  | c :: cs =>
    if c = '\x7b' then
      match _h : slot? cs with
      | some (digits, rest) => .slot digits :: pieces rest
      | none => .char c :: pieces cs
    else .char c :: pieces cs
termination_by cs => cs.length
decreasing_by
  · have := congrArg List.length (eq_of_slot? _h)
    simp only [List.length_append, List.length_cons] at this ⊢
    omega
  · simp
  · simp

/-- The pieces spell the template. -/
theorem flatMap_source_pieces (cs : List Char) : (pieces cs).flatMap Piece.source = cs := by
  fun_induction pieces cs with
  | case1 => rfl
  | case2 cs digits rest h ih =>
    simp only [List.flatMap_cons, Piece.source, ih, eq_of_slot? h, List.cons_append,
      List.append_assoc, List.nil_append]
  | case3 cs h ih => simp [Piece.source, ih]
  | case4 c cs hc ih => simp [Piece.source, ih]

/-- A piece with the parameters in place. -/
def Piece.fill (params : List String) (piece : Piece) : List Char :=
  match piece with
  | .char c => [c]
  | .slot digits =>
    match params[Decimal.digitsValue digits]? with
    | some param => param.toList
    | none => piece.source

/-- The message where there is no template. -/
def fallback : String := "Error"

/-- The message of a template for some parameters. -/
def fill (template : String) (params : List String) : String :=
  if template.isEmpty then fallback
  else String.ofList ((pieces template.toList).flatMap (Piece.fill params))

end Vetting.Template
