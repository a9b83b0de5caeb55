import Vetting.Value.Basic
import Vetting.Double.Decimal

/-!
# Reading values from JSON text

The text is first cut into tokens by a scanner that takes one character at a time; the tokens
then drive a stack of unfinished containers. Both are folds, so reading ends on every text. A
number without a point and an exponent is an integer when it fits 64 bits, signed or unsigned,
and a double otherwise. A repeated name keeps its first place and its last value.
-/

set_option autoImplicit false

namespace Vetting.Value.Reader

/-- A token of JSON text: a bracket, a mark, a quoted text, or a value written as one word. -/
inductive Token where
  | listOpen
  | listClose
  | objectOpen
  | objectClose
  | comma
  | colon
  | text (s : String)
  | word (v : Value)

/-- Where the scanner is. The characters of the token at hand are kept last first. -/
inductive Mode where
  | between
  | word (chars : List Char)
  | text (chars : List Char) (high : Option Nat)
  | escape (chars : List Char) (high : Option Nat)
  | code (chars : List Char) (high : Option Nat) (left value : Nat)

/-- Cuts the digits of a number off the front. -/
private def digitRun (cs : List Char) : List Char × List Char :=
  (cs.takeWhile Char.isDigit, cs.dropWhile Char.isDigit)

/-- Whether the characters after the whole part are an optional fraction and an optional
exponent. -/
private def isNumberTail (cs : List Char) : Bool :=
  let (fractionOk, rest) := match cs with
    | '.' :: tail => (!(digitRun tail).1.isEmpty, (digitRun tail).2)
    | other => (true, other)
  fractionOk && (rest.isEmpty || (Decimal.readExponent? rest).isSome)

/-- Whether the characters are a number of the JSON grammar. -/
private def isNumber (cs : List Char) : Bool :=
  let body := match cs with
    | '-' :: rest => rest
    | other => other
  match body with
  | '0' :: rest => isNumberTail rest
  | first :: _ => first.isDigit && isNumberTail (digitRun body).2
  | [] => false

/-- Reads a number. -/
def number? (cs : List Char) : Option Number :=
  if !isNumber cs then none
  else
    let (negative, body) := Decimal.splitSign cs
    let magnitude : Int := (Decimal.digitsValue body : Nat)
    let n := if negative then -magnitude else magnitude
    if body.all Char.isDigit && -9223372036854775808 ≤ n && n ≤ 18446744073709551615 then
      some (.int n)
    else
      match (Decimal.ofChars? cs).map Decimal.toExtended with
      | some (.finite d) => some (.double d)
      | _ => none

/-- The value of a word: a constant or a number. -/
def word? (cs : List Char) : Option Value :=
  if cs = ['n', 'u', 'l', 'l'] then some .null
  else if cs = ['t', 'r', 'u', 'e'] then some (.bool true)
  else if cs = ['f', 'a', 'l', 's', 'e'] then some (.bool false)
  else (number? cs).map .number

/-- The value of a hexadecimal digit. -/
private def hexValue? (c : Char) : Option Nat :=
  if c.isDigit then some (c.toNat - '0'.toNat)
  else if 'a' ≤ c && c ≤ 'f' then some (c.toNat - 'a'.toNat + 10)
  else if 'A' ≤ c && c ≤ 'F' then some (c.toNat - 'A'.toNat + 10)
  else none

/-- A character seen between tokens. -/
def between? (c : Char) : Option (Mode × List Token) :=
  if c = ' ' || c = '\t' || c = '\n' || c = '\r' then some (.between, [])
  else if c = '[' then some (.between, [.listOpen])
  else if c = ']' then some (.between, [.listClose])
  else if c = '\x7b' then some (.between, [.objectOpen])
  else if c = '\x7d' then some (.between, [.objectClose])
  else if c = ',' then some (.between, [.comma])
  else if c = ':' then some (.between, [.colon])
  else if c = '"' then some (.text [] none, [])
  else if c.isAlphanum || c = '-' then some (.word [c], [])
  else none

/-- A character of a simple escape. -/
private def escaped? (c : Char) : Option Char :=
  if c = '"' || c = '\\' || c = '/' then some c
  else if c = 'n' then some '\n'
  else if c = 'r' then some '\r'
  else if c = 't' then some '\t'
  else if c = 'b' then some (Char.ofNat 8)
  else if c = 'f' then some (Char.ofNat 12)
  else none

/-- Ends a four-digit escape: a high surrogate waits for its low one. -/
private def finishCode? (chars : List Char) (high : Option Nat) (value : Nat) : Option Mode :=
  match high with
  | some lead =>
    if 0xDC00 ≤ value && value ≤ 0xDFFF then
      some (.text (Char.ofNat (0x10000 + (lead - 0xD800) * 0x400 + (value - 0xDC00)) :: chars) none)
    else none
  | none =>
    if 0xD800 ≤ value && value ≤ 0xDBFF then some (.text chars (some value))
    else if 0xDC00 ≤ value && value ≤ 0xDFFF then none
    else some (.text (Char.ofNat value :: chars) none)

/-- One step of the scanner. -/
def scan? (mode : Mode) (c : Char) : Option (Mode × List Token) :=
  match mode with
  | .between => between? c
  | .word chars =>
    if c.isAlphanum || c = '.' || c = '-' || c = '+' then some (.word (c :: chars), [])
    else do
      let value ← word? chars.reverse
      let (next, tokens) ← between? c
      return (next, .word value :: tokens)
  | .text chars high =>
    if c = '\\' then some (.escape chars high, [])
    else if high.isSome || c.toNat < 32 then none
    else if c = '"' then some (.between, [.text (String.ofList chars.reverse)])
    else some (.text (c :: chars) none, [])
  | .escape chars high =>
    if c = 'u' then some (.code chars high 4 0, [])
    else if high.isSome then none
    else (escaped? c).map fun e => (.text (e :: chars) none, [])
  | .code chars high left value => do
    let digit ← hexValue? c
    let value := value * 16 + digit
    if left ≤ 1 then (finishCode? chars high value).map fun next => (next, [])
    else return (.code chars high (left - 1) value, [])

/-- The tokens of a text. -/
def tokens? (text : String) : Option (List Token) := do
  let (mode, tokens) ← text.toList.foldlM
    (fun (state : Mode × List Token) c => do
      let (mode, news) ← scan? state.1 c
      return (mode, news.reverse ++ state.2))
    (Mode.between, [])
  match mode with
  | .between => return tokens.reverse
  | .word chars => return (tokens.reverse ++ [.word (← word? chars.reverse)])
  | _ => none

/-- A container that is not closed yet; what it holds is kept last first. -/
inductive Frame where
  | list (items : List Value)
  | object (fields : List (String × Value))
  | member (fields : List (String × Value)) (name : String)

/-- What the reader waits for. -/
inductive Phase where
  | value (mayClose : Bool)
  | name (mayClose : Bool)
  | colon (name : String)
  | after
  | finished (v : Value)

/-- The reader: the open containers, innermost first, and what comes next. -/
structure State where
  frames : List Frame
  phase : Phase

/-- Hands a finished value to the innermost open container. -/
def deliver? (v : Value) : List Frame → Option State
  | [] => some ⟨[], .finished v⟩
  | .list items :: rest => some ⟨.list (v :: items) :: rest, .after⟩
  | .member fields name :: rest => some ⟨.object ((name, v) :: fields) :: rest, .after⟩
  | .object _ :: _ => none

/-- Closes the innermost list. -/
private def closeList? : List Frame → Option State
  | .list items :: rest => deliver? (.array items.reverse) rest
  | _ => none

/-- Closes the innermost object. -/
private def closeObject? : List Frame → Option State
  | .object fields :: rest => deliver? (.object (Fields.ofPairs fields.reverse)) rest
  | _ => none

/-- One token drives the reader one step. -/
def step? (state : State) (token : Token) : Option State :=
  match state.phase, token with
  | .value _, .word v => deliver? v state.frames
  | .value _, .text s => deliver? (.string s) state.frames
  | .value _, .listOpen => some ⟨.list [] :: state.frames, .value true⟩
  | .value _, .objectOpen => some ⟨.object [] :: state.frames, .name true⟩
  | .value true, .listClose => closeList? state.frames
  | .name _, .text s => some ⟨state.frames, .colon s⟩
  | .name true, .objectClose => closeObject? state.frames
  | .colon name, .colon =>
    match state.frames with
    | .object fields :: rest => some ⟨.member fields name :: rest, .value false⟩
    | _ => none
  | .after, .comma =>
    match state.frames with
    | .list items :: rest => some ⟨.list items :: rest, .value false⟩
    | .object fields :: rest => some ⟨.object fields :: rest, .name false⟩
    | _ => none
  | .after, .listClose => closeList? state.frames
  | .after, .objectClose => closeObject? state.frames
  | _, _ => none

end Vetting.Value.Reader

namespace Vetting.Value

/-- Reads a whole text as one value. -/
def ofJson? (text : String) : Option Value := do
  let tokens ← Reader.tokens? text
  let state ← tokens.foldlM Reader.step? ⟨[], .value false⟩
  match state.phase with
  | .finished v => some v
  | _ => none

end Vetting.Value
