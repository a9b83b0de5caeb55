import Vetting.Pattern.Matcher

/-!
# The named patterns

Eight formats that rules and coercions refer to by name. A pattern is matched against the whole
text. All of them except the telephone number take letters in either case, and the formats that
allow free text take Cyrillic letters.
-/

set_option autoImplicit false

namespace Vetting

/-- A named text format. -/
inductive Pattern where
  | digits
  | url
  | shortUrl
  | email
  | textString
  | float
  | int
  | phone
  deriving DecidableEq

namespace Pattern

/-- All patterns, in the order of their declaration. -/
def all : List Pattern :=
  [.digits, .url, .shortUrl, .email, .textString, .float, .int, .phone]

/-- The name of a pattern. -/
def name : Pattern → String
  | .digits => "digits"
  | .url => "url"
  | .shortUrl => "shortURL"
  | .email => "email"
  | .textString => "textString"
  | .float => "float"
  | .int => "int"
  | .phone => "phone"

/-- The pattern of a name. -/
def ofName? (name : String) : Option Pattern :=
  all.find? fun pattern => pattern.name == name

open Expression

/-- A range of characters with both ends. -/
def range (first last : Char) : Nat × Nat := (first.toNat, last.toNat)

/-- Single characters as ranges. -/
def chars (s : String) : List (Nat × Nat) := s.toList.map fun c => (c.toNat, c.toNat)

/-- One character of some ranges, in either case. -/
def oneOf (ranges : List (Nat × Nat)) : Expression := .one ⟨ranges, true, false⟩

/-- One character outside some ranges, in either case. -/
def noneOf (ranges : List (Nat × Nat)) : Expression := .one ⟨ranges, true, true⟩

/-- A fixed text, letters in either case. -/
def fixed (s : String) : Expression :=
  Expression.all (s.toList.map fun c => oneOf [(c.toNat, c.toNat)])

/-- One decimal digit. -/
def digit : Expression := oneOf [range '0' '9']

/-- Any character but a line feed. -/
def anyChar : Expression := noneOf (chars "\n")

/-- An optional sign. -/
def sign : Expression := optional (oneOf (chars "+-"))

/-- Latin and Cyrillic letters and digits, as they stand in the name of a host. -/
def hostRanges : List (Nat × Nat) := [range 'a' 'z', range 'а' 'я'] ++ chars "ё" ++
  [range '0' '9']

/-- The scheme of an address. -/
def scheme : Expression := .seq (.either (fixed "http") (fixed "https")) (fixed "://")

/-- A host of at least two labels, with an optional path. -/
def hostAndPath : Expression :=
  Expression.all
    [oneOrMore (.seq (oneOrMore (oneOf (hostRanges ++ chars "-"))) (fixed ".")),
     atLeast 2 (oneOf hostRanges),
     optional (.seq (fixed "/") (.many anyChar))]

/-- A character of an unquoted mailbox name. -/
def mailboxChar : Expression :=
  noneOf (chars "<>()[]\\.,;:@\"" ++ Text.spaceRanges)

/-- The name of a mailbox: dotted words, or anything between quotation marks. -/
def mailbox : Expression :=
  .either
    (.seq (oneOrMore mailboxChar) (.many (.seq (fixed ".") (oneOrMore mailboxChar))))
    (Expression.all [fixed "\"", oneOrMore anyChar, fixed "\""])

/-- One number of a numeric address. -/
def octet : Expression := between 1 3 digit

/-- The domain of a mailbox: a numeric address in brackets, or labels that end in letters. -/
def mailDomain : Expression :=
  .either
    (Expression.all
      [fixed "[", octet, fixed ".", octet, fixed ".", octet, fixed ".", octet, fixed "]"])
    (.seq
      (oneOrMore (.seq
        (oneOrMore (oneOf ([range 'a' 'z', range 'A' 'Z', range '0' '9'] ++ chars "-")))
        (fixed ".")))
      (atLeast 2 (oneOf [range 'a' 'z', range 'A' 'Z'])))

/-- The characters of plain text. -/
def textRanges : List (Nat × Nat) :=
  [range 'а' 'я'] ++ chars "ёҐґЄєІіЇї–" ++ [range 'a' 'z', range '0' '9'] ++ chars "_" ++
    Text.spaceRanges ++ chars "$#№;:\"_.+!*?'\\/[]><%@^&=~(),-"

/-- A digit, a sign or a bracket of a telephone number, which has no letters to fold. -/
def exactly (s : String) : Expression :=
  Expression.all (s.toList.map fun c => .one ⟨[(c.toNat, c.toNat)], false, false⟩)

/-- A digit of a telephone number. -/
def phoneDigit : Expression := .one ⟨[range '0' '9'], false, false⟩

/-- The expression of a pattern. -/
def expression : Pattern → Expression
  | .digits => oneOrMore digit
  | .url => .seq scheme hostAndPath
  | .shortUrl => .seq (optional scheme) hostAndPath
  | .email => Expression.all [mailbox, fixed "@", mailDomain]
  | .textString => .many (oneOf textRanges)
  | .float => Expression.all
      [sign, oneOrMore digit, optional (.seq (oneOf (chars ".,")) (oneOrMore digit))]
  | .int => .seq sign (oneOrMore digit)
  | .phone => Expression.all
      [optional (.seq (.either (exactly "8") (exactly "+38")) (optional (exactly "-"))),
       optional (Expression.all
         [optional (exactly "("), times 3 phoneDigit, optional (exactly ")")]),
       optional (exactly "-"), times 3 phoneDigit, optional (exactly "-"), times 2 phoneDigit,
       optional (exactly "-"), times 2 phoneDigit]

/-- Whether a whole text has the format. -/
def accepts (pattern : Pattern) (text : String) : Bool :=
  pattern.expression.accepts text.toList

end Pattern

end Vetting
