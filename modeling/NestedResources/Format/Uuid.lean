import NestedResources.Text.Basic

/-!
# UUIDs

Thirty-two hexadecimal digits, or groups of 8, 4, 4, 4 and 12 with hyphens between them; with
hyphens the whole may stand in braces or after `urn:uuid:`.
-/
namespace NestedResources.Uuid

def isHex (c : Char) : Bool :=
  ('0' ≤ c && c ≤ '9') || ('a' ≤ c && c ≤ 'f') || ('A' ≤ c && c ≤ 'F')

/-- Thirty-two digits. -/
def isPlain (cs : List Char) : Bool := cs.length = 32 && cs.all isHex

/-- Five groups of digits with hyphens. -/
def isHyphenated (cs : List Char) : Bool :=
  let groups := Text.split '-' cs
  groups.map List.length = [8, 4, 4, 4, 12] && groups.all (·.all isHex)

/-- The text between braces. -/
def braced? : List Char → Option (List Char)
  | '\x7B' :: cs => if cs.getLast? = some '\x7D' then some cs.dropLast else none
  | _ => none

/-- The text after the name space. -/
def urn? (s : String) : Option (List Char) :=
  if Text.asciiLower (String.ofList (s.toList.take 9)) = "urn:uuid:" then some (s.toList.drop 9)
  else none

def isValid (s : String) : Bool :=
  isPlain s.toList || isHyphenated s.toList || (braced? s.toList).any isHyphenated
    || (urn? s).any isHyphenated

end NestedResources.Uuid
