import Vetting.Value.Basic
import Vetting.Text.Quoted

/-!
# Writing values as JSON text

The compact form: no white space, fields in their order, and only the characters escaped that
have to be.
-/

set_option autoImplicit false

namespace Vetting.Value

/-- One lower-case hexadecimal digit. -/
private def hexDigit (n : Nat) : Char :=
  if n < 10 then Char.ofNat ('0'.toNat + n) else Char.ofNat ('a'.toNat + n - 10)

/-- The characters with a mark in JSON: those common to all formats, backspace and form feed. -/
def jsonMarks : List (Char × Char) :=
  Text.commonMarks ++ [(Char.ofNat 8, 'b'), (Char.ofNat 12, 'f')]

/-- A character without a mark: a control character by its code in four digits, any other as it
is. -/
def bareChar (c : Char) : List Char :=
  if c.toNat < 32 then
    ['\\', 'u', '0', '0', hexDigit (c.toNat / 16), hexDigit (c.toNat % 16)]
  else [c]

/-- A text between quotation marks. -/
def quoted (s : String) : String := Text.quoted jsonMarks bareChar s

mutual

/-- The JSON text of a value. -/
def json : Value → String
  | .null => "null"
  | .bool b => if b then "true" else "false"
  | .number n => n.text
  | .string s => quoted s
  | .array items => "[" ++ ",".intercalate (jsonItems items) ++ "]"
  | .object fields => "\x7b" ++ ",".intercalate (jsonMembers fields) ++ "\x7d"

/-- The JSON texts of the items of a list. -/
def jsonItems : List Value → List String
  | [] => []
  | item :: rest => item.json :: jsonItems rest

/-- The JSON texts of the members of an object. -/
def jsonMembers : List (String × Value) → List String
  | [] => []
  | (name, value) :: rest => (quoted name ++ ":" ++ value.json) :: jsonMembers rest

end

end Vetting.Value
