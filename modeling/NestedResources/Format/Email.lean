import NestedResources.Text.Basic
import NestedResources.Text.Category
import NestedResources.Text.Utf8

/-!
# Email addresses

A local part and a domain around the last `@`, with an optional name before the address, which then
stands in angle brackets. The local part is a dotted row of atoms or a quoted text; the domain is a
row of labels or a literal in square brackets. Lengths are those of the UTF-8 form.
-/
namespace NestedResources.Email

def byteLength (cs : List Char) : Nat := (Text.utf8Bytes (String.ofList cs)).length

def isSymbol (c : Char) : Bool := c ∈ "!#$%&'*+-/=?^_\x60\x7B|\x7D~".toList

def isWide (c : Char) : Bool := 0x80 ≤ c.toNat

/-- The characters of atoms. -/
def isAtomChar (c : Char) : Bool := c.isAlphanum || isSymbol c || isWide c

def isAtom (cs : List Char) : Bool := !cs.isEmpty && cs.all isAtomChar

/-- The characters that stand for themselves in a quoted local part. -/
def isQuotedChar (c : Char) : Bool :=
  c = ' ' || c = '\t' || c = '!' || ('#' ≤ c && c ≤ '[') || (']' ≤ c && c ≤ '~') || isWide c

/-- Characters that stand for themselves, and visible ones after a backslash. -/
def isQuotedText : List Char → Bool
  | [] => true
  | ['\\'] => false
  | '\\' :: c :: cs => ('!' ≤ c && c ≤ '~') && isQuotedText cs
  | c :: cs => isQuotedChar c && isQuotedText cs

def isLocalPart (cs : List Char) : Bool :=
  !cs.isEmpty && byteLength cs ≤ 64 &&
    if cs.head? = some '"' && cs.getLast? = some '"' then
      2 < cs.length && isQuotedText (cs.drop 1).dropLast
    else (Text.split '.' cs).all isAtom

/-- A label of a domain: an atom with a letter or digit at both ends. -/
def isLabel (cs : List Char) : Bool :=
  isAtom cs && byteLength cs ≤ 63 && cs.head?.any Text.isAlphanumeric
    && cs.getLast?.any Text.isAlphanumeric

def isLiteralChar (c : Char) : Bool := ('!' ≤ c && c ≤ 'Z') || ('^' ≤ c && c ≤ '~') || isWide c

def isDomain (cs : List Char) : Bool :=
  !cs.isEmpty && byteLength cs ≤ 254 &&
    if cs.head? = some '[' && cs.getLast? = some ']' then (cs.drop 1).dropLast.all isLiteralChar
    else (Text.split '.' cs).all isLabel

/-- The texts before and after the last ` <`. -/
def splitName? : List Char → Option (List Char × List Char)
  | [] => none
  | c :: cs =>
    match splitName? cs with
    | some (before, after) => some (c :: before, after)
    | none => match c, cs with
      | ' ', '<' :: after => some ([], after)
      | _, _ => none

/-- The address inside the brackets that follow a name, or the whole text. -/
def bare? (cs : List Char) : Option (List Char) :=
  match splitName? cs with
  | none => some cs
  | some (_, after) =>
    let after := Text.trimChars after
    if after.getLast? = some '>' then some after.dropLast else none

def isValid (s : String) : Bool :=
  match (bare? s.toList).bind fun cs => Text.splitLast? '@' (String.ofList cs) with
  | some (localPart, domain) => isLocalPart localPart.toList && isDomain domain.toList
  | none => false

end NestedResources.Email
