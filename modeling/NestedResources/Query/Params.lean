import NestedResources.Text.Basic
import NestedResources.Text.Utf8

/-!
# Query parameters

An ordered list of decoded key and value pairs, read from and written as
`application/x-www-form-urlencoded` text. A repeated key has several values.
-/
namespace NestedResources

structure Params where
  pairs : List (String × String)
deriving DecidableEq

namespace Params

def empty : Params := ⟨[]⟩

instance : Inhabited Params := ⟨empty⟩

/-- The first value of a key. -/
def first? (p : Params) (key : String) : Option String := (p.pairs.find? (·.1 = key)).map (·.2)

/-- All values of a key, in order. -/
def all (p : Params) (key : String) : List String := (p.pairs.filter (·.1 = key)).map (·.2)

/-- The distinct keys in the order of their first occurrence. -/
def keys (p : Params) : List String :=
  p.pairs.foldl (fun acc e => if e.1 ∈ acc then acc else acc ++ [e.1]) []

def append (p : Params) (more : List (String × String)) : Params := ⟨p.pairs ++ more⟩

def hexValue? (b : Nat) : Option Nat :=
  if 0x30 ≤ b ∧ b ≤ 0x39 then some (b - 0x30)
  else if 0x41 ≤ b ∧ b ≤ 0x46 then some (b - 0x41 + 10)
  else if 0x61 ≤ b ∧ b ≤ 0x66 then some (b - 0x61 + 10)
  else none

/-- Decodes `%XX`. A percent sign without two hexadecimal digits stands for itself. -/
def percentDecode : List Nat → List Nat
  | 0x25 :: h :: l :: rest => match hexValue? h, hexValue? l with
    | some high, some low => (high * 16 + low) :: percentDecode rest
    | _, _ => 0x25 :: percentDecode (h :: l :: rest)
  | b :: rest => b :: percentDecode rest
  | [] => []

/-- The text of a key or a value: a plus sign is a blank. -/
def decode (bytes : List Nat) : String :=
  Text.decodeLossy (percentDecode (bytes.map fun b => if b = 0x2B then 0x20 else b))

/-- One pair; without an equals sign the value is empty. -/
def decodePair (bytes : List Nat) : String × String :=
  let key := bytes.takeWhile (· ≠ 0x3D)
  (decode key, decode (bytes.drop (key.length + 1)))

/-- Reads a query string, with or without its question mark. Empty pieces are skipped. -/
def parse (query : String) : Params :=
  let query := (Text.dropStart? "?" query).getD query
  ⟨((Text.split 0x26 (Text.utf8Bytes query)).filter (· ≠ [])).map decodePair⟩

def hexDigit (n : Nat) : Char := if n < 10 then Char.ofNat (0x30 + n) else Char.ofNat (0x41 + n - 10)

/-- The bytes that are written as they are. -/
def isUnreserved (b : Nat) : Bool :=
  (0x30 ≤ b && b ≤ 0x39) || (0x41 ≤ b && b ≤ 0x5A) || (0x61 ≤ b && b ≤ 0x7A)
    || b = 0x2A || b = 0x2D || b = 0x2E || b = 0x5F

def encodeByte (b : Nat) : List Char :=
  if b = 0x20 then ['+']
  else if isUnreserved b then [Char.ofNat b]
  else ['%', hexDigit (b / 16), hexDigit (b % 16)]

def encode (s : String) : String := String.ofList ((Text.utf8Bytes s).flatMap encodeByte)

/-- Writes the parameters as a query string. -/
def render (p : Params) : String :=
  Text.join "&" (p.pairs.map fun (key, value) => encode key ++ "=" ++ encode value)

end Params

end NestedResources
