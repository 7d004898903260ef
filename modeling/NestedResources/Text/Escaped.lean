import NestedResources.Text.Basic
import NestedResources.Text.Category

/-!
# Texts in messages

Lists of texts are written in brackets, each text in double quotes. Quotes, backslashes and what has
no glyph of its own are escaped.
-/
namespace NestedResources.Text

/-- The hexadecimal digits of a number, in lower case. -/
def hexDigits (n : Nat) : List Char := Nat.toDigits 16 n

def escapeChar (c : Char) : List Char :=
  match c with
  | '\x00' => ['\\', '0']
  | '\t' => ['\\', 't']
  | '\r' => ['\\', 'r']
  | '\n' => ['\\', 'n']
  | '\\' => ['\\', '\\']
  | '"' => ['\\', '"']
  | _ =>
    if isInvisible c || isNonspacingMark c then
      ['\\', 'u', '\x7B'] ++ hexDigits c.toNat ++ ['\x7D']
    else [c]

/-- A text in quotes. -/
def quoted (s : String) : String := String.ofList ('"' :: s.toList.flatMap escapeChar ++ ['"'])

/-- A list of quoted texts in brackets. -/
def quotedList (texts : List String) : String := "[" ++ join ", " (texts.map quoted) ++ "]"

end NestedResources.Text
