/-!
# Lenient UTF-8

`decodeLossy` reads bytes as UTF-8. Each longest run of bytes that starts a character but does not
complete one becomes a single U+FFFD.
-/
namespace NestedResources.Text

/-- The bytes that may follow a lead byte, and how many follow it: the count with the range of the
first of them. None for a byte that leads no character. -/
def leadByte? (b : Nat) : Option (Nat × Nat × Nat) :=
  if b < 0x80 then some (0, 0x80, 0xBF)
  else if 0xC2 ≤ b ∧ b ≤ 0xDF then some (1, 0x80, 0xBF)
  else if b = 0xE0 then some (2, 0xA0, 0xBF)
  else if (0xE1 ≤ b ∧ b ≤ 0xEC) ∨ b = 0xEE ∨ b = 0xEF then some (2, 0x80, 0xBF)
  else if b = 0xED then some (2, 0x80, 0x9F)
  else if b = 0xF0 then some (3, 0x90, 0xBF)
  else if 0xF1 ≤ b ∧ b ≤ 0xF3 then some (3, 0x80, 0xBF)
  else if b = 0xF4 then some (3, 0x80, 0x8F)
  else none

/-- A character being decoded: the bits so far, how many bytes are missing, and the range of the next. -/
structure Pending where
  bits : Nat
  missing : Nat
  least : Nat
  greatest : Nat

def replacement : Char := Char.ofNat 0xFFFD

/-- The bits of a lead byte that belong to the code point. -/
def leadBits (b count : Nat) : Nat :=
  match count with
  | 0 => b
  | 1 => b % 0x20
  | 2 => b % 0x10
  | _ => b % 0x08

/-- The state after a byte that starts a character, and what it completes. -/
def beginByte (b : Nat) : Option Pending × List Char :=
  match leadByte? b with
  | none => (none, [replacement])
  | some (0, _) => (none, [Char.ofNat b])
  | some (count, least, greatest) => (some ⟨leadBits b count, count, least, greatest⟩, [])

def stepByte (state : Option Pending) (b : Nat) : Option Pending × List Char :=
  match state with
  | none => beginByte b
  | some p =>
    if p.least ≤ b ∧ b ≤ p.greatest then
      let bits := p.bits * 0x40 + b % 0x40
      if p.missing = 1 then (none, [Char.ofNat bits]) else (some ⟨bits, p.missing - 1, 0x80, 0xBF⟩, [])
    else
      let (next, out) := beginByte b
      (next, replacement :: out)

def decodeFrom (state : Option Pending) : List Nat → List Char
  | [] => if state.isSome then [replacement] else []
  | b :: bs =>
    let (next, out) := stepByte state b
    out ++ decodeFrom next bs

def decodeLossy (bytes : List Nat) : String := String.ofList (decodeFrom none bytes)

def utf8Bytes (s : String) : List Nat := s.toUTF8.toList.map UInt8.toNat

end NestedResources.Text
