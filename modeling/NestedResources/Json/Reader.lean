import NestedResources.Json.Basic

/-!
# Reading JSON text

The reader is one automaton over the characters: `Reader.step` takes a character, `Reader.finish`
the end of the text. Open containers are a stack, and the stack may hold at most 127 of them.
Members are stored in key order, and the last value of a repeated key stays.
-/
namespace NestedResources

/-- Why a text is no document. -/
inductive ReadFault where
  | tooDeep
  | endOfValue
  | endOfString
  | endOfArray
  | endOfObject
  | expectedValue
  | expectedWord
  | expectedColon
  | expectedCommaOrBracket
  | expectedCommaOrBrace
  | keyNotString
  | trailingComma
  | trailingCharacters
  | invalidNumber
  | numberOutOfRange
  | invalidEscape
  | invalidCodePoint
  | loneSurrogate
  | endOfHexEscape
  | controlCharacter
deriving DecidableEq

def ReadFault.message : ReadFault → String
  | tooDeep => "recursion limit exceeded"
  | endOfValue => "EOF while parsing a value"
  | endOfString => "EOF while parsing a string"
  | endOfArray => "EOF while parsing a list"
  | endOfObject => "EOF while parsing an object"
  | expectedValue => "expected value"
  | expectedWord => "expected ident"
  | expectedColon => "expected `:`"
  | expectedCommaOrBracket => "expected `,` or `]`"
  | expectedCommaOrBrace => "expected `,` or `\x7d`"
  | keyNotString => "key must be a string"
  | trailingComma => "trailing comma"
  | trailingCharacters => "trailing characters"
  | invalidNumber => "invalid number"
  | numberOutOfRange => "number out of range"
  | invalidEscape => "invalid escape"
  | invalidCodePoint => "invalid unicode code point"
  | loneSurrogate => "lone leading surrogate in hex escape"
  | endOfHexEscape => "unexpected end of hex escape"
  | controlCharacter => "control character (\\u0000-\\u001F) found while parsing a string"

/-- A fault with the line and the byte column it was met at. -/
structure ReadError where
  fault : ReadFault
  line : Nat
  column : Nat
deriving DecidableEq

def ReadError.message (e : ReadError) : String :=
  e.fault.message ++ " at line " ++ toString e.line ++ " column " ++ toString e.column

/-- The number a numeral denotes: an integer if it has neither fraction nor exponent and fits 64
bits, else a double. Minus zero is a double. -/
def Number.read (numeral : List Char) : Except ReadFault Number :=
  let (negative, cs) := match numeral with
    | '-' :: cs => (true, cs)
    | cs => (false, cs)
  let whole := cs.takeWhile Char.isDigit
  let rest := cs.dropWhile Char.isDigit
  let asFloat : Option Decimal → Except ReadFault Number
    | none => .error .invalidNumber
    | some d => match Binary64.ofDecimal? d with
      | some x => .ok (.float x)
      | none => .error .numberOutOfRange
  if whole = [] ∨ (whole.head? = some '0' ∧ whole ≠ ['0']) then .error .invalidNumber
  else match rest with
    | [] => match Numeral.digits? whole with
      | none => .error .invalidNumber
      | some n =>
        if negative then
          if 0 < n ∧ n ≤ 0x8000000000000000 then .ok (.int (-n)) else asFloat (some ⟨true, n, 0⟩)
        else if n < 0x10000000000000000 then .ok (.int n) else asFloat (some ⟨false, n, 0⟩)
    | '.' :: places =>
      if (places.head?.map Char.isDigit).getD false then asFloat (Decimal.ofUnsigned? negative cs)
      else .error .invalidNumber
    | _ => asFloat (Decimal.ofUnsigned? negative cs)

namespace Json

/-- An open container with what it holds so far. -/
inductive Frame where
  | array (reversed : List Json)
  | object (members : List (String × Json)) (key : String)

/-- What may come next between lexemes. -/
inductive Slot where
  | value
  | firstItem
  | firstKey
  | key
  | colon
  | more
  | nothing
deriving DecidableEq

/-- Where a numeral stands. -/
inductive NumeralPart where
  | sign
  | zero
  | whole
  | point
  | places
  | mark
  | markSign
  | exponent
deriving DecidableEq

namespace NumeralPart

/-- The part that a first character begins. -/
def ofFirst (c : Char) : NumeralPart :=
  if c = '-' then sign else if c = '0' then zero else whole

/-- The part after one more character, if the numeral goes on. -/
def next? (part : NumeralPart) (c : Char) : Option NumeralPart :=
  let isMark := c = 'e' || c = 'E'
  match part with
  | sign => if c = '0' then some zero else if c.isDigit then some whole else none
  | zero => if c = '.' then some point else if isMark then some mark else none
  | whole => if c.isDigit then some whole else if c = '.' then some point
    else if isMark then some mark else none
  | point => if c.isDigit then some places else none
  | places => if c.isDigit then some places else if isMark then some mark else none
  | mark => if c = '+' || c = '-' then some markSign else if c.isDigit then some exponent else none
  | markSign | exponent => if c.isDigit then some exponent else none

/-- Whether a numeral may end here. -/
def isComplete : NumeralPart → Bool
  | zero | whole | places | exponent => true
  | _ => false

end NumeralPart

/-- The lexeme the reader is inside of. -/
inductive Lexeme where
  | none
  | word (rest : List Char) (value : Json)
  | numeral (reversed : List Char) (part : NumeralPart)
  | string (reversed : List Char)
  | escape (reversed : List Char)
  | hex (reversed : List Char) (high : Option Nat) (digits : Nat) (value : Nat)
  | lowEscape (reversed : List Char) (high : Nat)
  | lowHex (reversed : List Char) (high : Nat)

structure Reader where
  frames : List Frame
  slot : Slot
  lexeme : Lexeme
  result : Json
  line : Nat
  column : Nat

/-- The greatest number of containers that may be open at once. -/
def depthLimit : Nat := 127

namespace Reader

def start : Reader := ⟨[], .value, .none, .null, 1, 0⟩

def fail {α : Type} (r : Reader) (fault : ReadFault) : Except ReadError α :=
  .error ⟨fault, r.line, r.column⟩

/-- Puts a finished value where it belongs. -/
def place (r : Reader) (v : Json) : Reader :=
  match r.frames with
  | [] => { r with slot := .nothing, result := v, lexeme := .none }
  | .array items :: rest => { r with frames := .array (v :: items) :: rest, slot := .more, lexeme := .none }
  | .object members key :: rest =>
    { r with frames := .object (Entries.insert key v members) key :: rest, slot := .more, lexeme := .none }

/-- Ends a string, which is a key or a value. -/
def placeString (r : Reader) (reversed : List Char) : Reader :=
  let text := String.ofList reversed.reverse
  match r.slot, r.frames with
  | .key, .object members _ :: rest
  | .firstKey, .object members _ :: rest =>
    { r with frames := .object members text :: rest, slot := .colon, lexeme := .none }
  | _, _ => r.place (.str text)

def openFrame (r : Reader) (frame : Frame) (slot : Slot) : Except ReadError Reader :=
  if depthLimit ≤ r.frames.length then r.fail .tooDeep
  else .ok { r with frames := frame :: r.frames, slot }

/-- The start of a value. -/
def beginValue (r : Reader) (c : Char) : Except ReadError Reader :=
  if c = '[' then r.openFrame (.array []) .firstItem
  else if c = '\x7b' then r.openFrame (.object [] "") .firstKey
  else if c = '"' then .ok { r with lexeme := .string [] }
  else if c = '-' ∨ c.isDigit then .ok { r with lexeme := .numeral [c] (.ofFirst c) }
  else if c = 't' then .ok { r with lexeme := .word ['r', 'u', 'e'] (.bool true) }
  else if c = 'f' then .ok { r with lexeme := .word ['a', 'l', 's', 'e'] (.bool false) }
  else if c = 'n' then .ok { r with lexeme := .word ['u', 'l', 'l'] .null }
  else r.fail .expectedValue

/-- A character between lexemes. -/
def between (r : Reader) (c : Char) : Except ReadError Reader :=
  if c = ' ' ∨ c = '\n' ∨ c = '\t' ∨ c = '\r' then .ok r
  else match r.slot with
    | .value => if c = ']' ∧ (r.frames.head?.any fun | .array _ => true | _ => false)
      then r.fail .trailingComma else r.beginValue c
    | .firstItem => if c = ']' then .ok ({ r with frames := r.frames.drop 1 }.place (.arr [])) else r.beginValue c
    | .firstKey =>
      if c = '\x7d' then .ok ({ r with frames := r.frames.drop 1 }.place (.obj []))
      else if c = '"' then .ok { r with lexeme := .string [] }
      else r.fail .keyNotString
    | .key =>
      if c = '"' then .ok { r with lexeme := .string [] }
      else if c = '\x7d' then r.fail .trailingComma
      else r.fail .keyNotString
    | .colon => if c = ':' then .ok { r with slot := .value } else r.fail .expectedColon
    | .more => match r.frames with
      | .array items :: rest =>
        if c = ',' then .ok { r with slot := .value }
        else if c = ']' then .ok ({ r with frames := rest }.place (.arr items.reverse))
        else r.fail .expectedCommaOrBracket
      | .object members _ :: rest =>
        if c = ',' then .ok { r with slot := .key }
        else if c = '\x7d' then .ok ({ r with frames := rest }.place (.obj members))
        else r.fail .expectedCommaOrBrace
      | [] => r.fail .trailingCharacters
    | .nothing => r.fail .trailingCharacters

def hexValue? (c : Char) : Option Nat :=
  if '0' ≤ c ∧ c ≤ '9' then some (c.toNat - '0'.toNat)
  else if 'a' ≤ c ∧ c ≤ 'f' then some (c.toNat - 'a'.toNat + 10)
  else if 'A' ≤ c ∧ c ≤ 'F' then some (c.toNat - 'A'.toNat + 10)
  else none

/-- Ends a `\uXXXX` escape. A high surrogate must be followed by the escape of a low one. -/
def endHex (r : Reader) (reversed : List Char) (high : Option Nat) (code : Nat) : Except ReadError Reader :=
  match high with
  | none =>
    if 0xD800 ≤ code ∧ code ≤ 0xDBFF then .ok { r with lexeme := .lowEscape reversed code }
    else if 0xDC00 ≤ code ∧ code ≤ 0xDFFF then r.fail .loneSurrogate
    else .ok { r with lexeme := .string (Char.ofNat code :: reversed) }
  | some h =>
    if 0xDC00 ≤ code ∧ code ≤ 0xDFFF then
      let point := 0x10000 + (h - 0xD800) * 0x400 + (code - 0xDC00)
      .ok { r with lexeme := .string (Char.ofNat point :: reversed) }
    else r.fail .loneSurrogate

/-- A character inside a string or one of its escapes. -/
def inString (r : Reader) (c : Char) : Except ReadError Reader :=
  match r.lexeme with
  | .string reversed =>
    if c = '"' then .ok (r.placeString reversed)
    else if c = '\\' then .ok { r with lexeme := .escape reversed }
    else if c.toNat < 0x20 then r.fail .controlCharacter
    else .ok { r with lexeme := .string (c :: reversed) }
  | .escape reversed =>
    let plain (d : Char) : Except ReadError Reader := .ok { r with lexeme := .string (d :: reversed) }
    if c = '"' ∨ c = '\\' ∨ c = '/' then plain c
    else if c = 'b' then plain '\x08'
    else if c = 'f' then plain '\x0c'
    else if c = 'n' then plain '\n'
    else if c = 'r' then plain '\r'
    else if c = 't' then plain '\t'
    else if c = 'u' then .ok { r with lexeme := .hex reversed .none 0 0 }
    else r.fail .invalidEscape
  | .hex reversed high digits value => match hexValue? c with
    | none => r.fail .invalidEscape
    | some d =>
      if digits = 3 then r.endHex reversed high (value * 16 + d)
      else .ok { r with lexeme := .hex reversed high (digits + 1) (value * 16 + d) }
  | .lowEscape reversed high =>
    if c = '\\' then .ok { r with lexeme := .lowHex reversed high } else r.fail .endOfHexEscape
  | .lowHex reversed high =>
    if c = 'u' then .ok { r with lexeme := .hex reversed (some high) 0 0 } else r.fail .endOfHexEscape
  | _ => .ok r

/-- Ends a numeral. -/
def endNumeral (r : Reader) (reversed : List Char) : Except ReadError Reader :=
  match Number.read reversed.reverse with
  | .ok n => .ok (r.place (.num n))
  | .error fault => r.fail fault

/-- Counts a character into the position. -/
def advance (r : Reader) (c : Char) : Reader :=
  if c = '\n' then { r with line := r.line + 1, column := 0 }
  else { r with column := r.column + c.utf8Size }

def step (r : Reader) (c : Char) : Except ReadError Reader :=
  let next := r.advance c
  match r.lexeme with
  | .none => next.between c
  | .word (d :: rest) value =>
    if c = d then .ok (if rest = [] then next.place value else { next with lexeme := .word rest value })
    else next.fail .expectedWord
  | .word [] value => (next.place value).between c
  | .numeral reversed part => match part.next? c with
    | some part => .ok { next with lexeme := .numeral (c :: reversed) part }
    | none =>
      if !part.isComplete || (part = .zero && c.isDigit) then next.fail .invalidNumber
      else match r.endNumeral reversed with
        | .ok done => (done.advance c).between c
        | .error e => .error e
  | _ => next.inString c

/-- The value read when the text ends here. -/
def finish (r : Reader) : Except ReadError Json :=
  match r.lexeme with
  | .word _ _ => r.fail .endOfValue
  | .string _ | .escape _ | .hex _ _ _ _ | .lowEscape _ _ | .lowHex _ _ => r.fail .endOfString
  | lexeme =>
    let ended := match lexeme with
      | .numeral reversed part => if part.isComplete then r.endNumeral reversed else r.fail .endOfValue
      | _ => .ok r
    match ended with
    | .error e => .error e
    | .ok r => match r.slot, r.frames with
      | .nothing, _ => .ok r.result
      | .more, .array _ :: _ | .firstItem, _ => r.fail .endOfArray
      | .more, .object _ _ :: _ | .firstKey, _ | .colon, _ => r.fail .endOfObject
      | _, _ => r.fail .endOfValue

end Reader

/-- Reads one document that fills the text, blanks around it apart. -/
def read (text : String) : Except ReadError Json :=
  match text.toList.foldlM Reader.step Reader.start with
  | .ok r => r.finish
  | .error e => .error e

end Json

end NestedResources
