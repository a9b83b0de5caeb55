/-!
# Quoted text

A text between quotation marks, where some characters are written as a backslash and a mark. Which
characters have a mark is data of each format that quotes; five of them are common to all.
-/

set_option autoImplicit false

namespace Vetting.Text

/-- The characters that have a mark in every quoted text, each with its mark. -/
def commonMarks : List (Char × Char) :=
  [('"', '"'), ('\\', '\\'), ('\n', 'n'), ('\r', 'r'), ('\t', 't')]

/-- A character inside a quoted text: a backslash and its mark when it has one, and what `bare`
makes of it otherwise. -/
def quotedChar (marks : List (Char × Char)) (bare : Char → List Char) (c : Char) : List Char :=
  match marks.lookup c with
  | some mark => ['\\', mark]
  | none => bare c

/-- A text between quotation marks. -/
def quoted (marks : List (Char × Char)) (bare : Char → List Char) (s : String) : String :=
  "\"" ++ String.ofList (s.toList.flatMap (quotedChar marks bare)) ++ "\""

end Vetting.Text
