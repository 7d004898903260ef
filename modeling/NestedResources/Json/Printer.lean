import NestedResources.Json.Basic

/-!
# JSON text

`compact` writes a document without blanks, `pretty` with one member a line. In strings the quote,
the backslash and the control characters below U+0020 are escaped and nothing else.
-/
namespace NestedResources

def Number.text : Number → String
  | .int n => toString n
  | .float x => x.render .document

namespace Json

def hexDigit (n : Nat) : Char := if n < 10 then Char.ofNat ('0'.toNat + n) else Char.ofNat ('a'.toNat + n - 10)

/-- A character as it stands inside a string. -/
def escapeChar (c : Char) : List Char :=
  if c = '"' then ['\\', '"']
  else if c = '\\' then ['\\', '\\']
  else if c = '\n' then ['\\', 'n']
  else if c = '\r' then ['\\', 'r']
  else if c = '\t' then ['\\', 't']
  else if c = '\x08' then ['\\', 'b']
  else if c = '\x0c' then ['\\', 'f']
  else if c.toNat < 0x20 then ['\\', 'u', '0', '0', hexDigit (c.toNat / 16), hexDigit (c.toNat % 16)]
  else [c]

def quote (s : String) : String := "\"" ++ String.ofList (s.toList.flatMap escapeChar) ++ "\""

def ofBool (b : Bool) : String := if b then "true" else "false"

mutual

def compact : Json → String
  | null => "null"
  | bool b => ofBool b
  | num n => n.text
  | str s => quote s
  | arr items => "[" ++ compactItems items ++ "]"
  | obj members => "\x7b" ++ compactMembers members ++ "\x7d"

def compactItems : List Json → String
  | [] => ""
  | [item] => compact item
  | item :: items => compact item ++ "," ++ compactItems items

def compactMembers : List (String × Json) → String
  | [] => ""
  | [(key, value)] => quote key ++ ":" ++ compact value
  | (key, value) :: members => quote key ++ ":" ++ compact value ++ "," ++ compactMembers members

end

def indent (depth : Nat) : String := String.ofList (List.replicate (2 * depth) ' ')

mutual

def prettyAt (depth : Nat) : Json → String
  | null => "null"
  | bool b => ofBool b
  | num n => n.text
  | str s => quote s
  | arr [] => "[]"
  | arr (item :: items) =>
    "[\n" ++ indent (depth + 1) ++ prettyAt (depth + 1) item ++ prettyItems (depth + 1) items
      ++ "\n" ++ indent depth ++ "]"
  | obj [] => "\x7b\x7d"
  | obj ((key, value) :: members) =>
    "\x7b\n" ++ indent (depth + 1) ++ quote key ++ ": " ++ prettyAt (depth + 1) value
      ++ prettyMembers (depth + 1) members ++ "\n" ++ indent depth ++ "\x7d"

def prettyItems (depth : Nat) : List Json → String
  | [] => ""
  | item :: items => ",\n" ++ indent depth ++ prettyAt depth item ++ prettyItems depth items

def prettyMembers (depth : Nat) : List (String × Json) → String
  | [] => ""
  | (key, value) :: members =>
    ",\n" ++ indent depth ++ quote key ++ ": " ++ prettyAt depth value ++ prettyMembers depth members

end

/-- A document over several lines, two blanks a level. -/
def pretty (j : Json) : String := prettyAt 0 j

end Json

end NestedResources
