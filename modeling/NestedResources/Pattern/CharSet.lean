import NestedResources.Text.Basic
import NestedResources.Text.Category

/-!
# Sets of characters

What a bracket expression or a class escape of a pattern stands for.
-/
namespace NestedResources

inductive CharSet where
  | range (low high : Char)
  | property (test : Char → Bool)
  | union (parts : List CharSet)
  | inter (left right : CharSet)
  | diff (left right : CharSet)
  | symmDiff (left right : CharSet)
  | compl (set : CharSet)
  /-- The characters that differ from a member in case alone, or not at all. -/
  | anyCase (set : CharSet)

namespace CharSet

instance : Inhabited CharSet := ⟨union []⟩

def single (c : Char) : CharSet := range c c

/-- Letters of Latin, Greek and Cyrillic whose lower case follows at a fixed distance. -/
def caseBlocks : List (Nat × Nat × Nat) :=
  [(0x41, 0x5A, 32), (0xC0, 0xD6, 32), (0xD8, 0xDE, 32), (0x388, 0x38A, 37), (0x391, 0x3A1, 32),
    (0x3A3, 0x3AB, 32), (0x400, 0x40F, 80), (0x410, 0x42F, 32), (0x531, 0x556, 48)]

/-- Blocks in which the cases alternate, the upper case first. -/
def casePairs : List (Nat × Nat) :=
  [(0x100, 0x12F), (0x132, 0x137), (0x139, 0x148), (0x14A, 0x177), (0x179, 0x17E), (0x3D8, 0x3EF),
    (0x460, 0x481), (0x48A, 0x4BF), (0x4D0, 0x52F), (0x1E00, 0x1E95), (0x1EA0, 0x1EFF)]

/-- Characters that fold together across blocks. -/
def caseFamilies : List (List Nat) :=
  [[0x4B, 0x6B, 0x212A], [0x53, 0x73, 0x17F], [0xC5, 0xE5, 0x212B], [0xB5, 0x39C, 0x3BC],
    [0x3A3, 0x3C2, 0x3C3], [0x178, 0xFF], [0x386, 0x3AC], [0x1E9E, 0xDF]]

/-- The code points that differ from one in case alone. -/
def caseMates (n : Nat) : List Nat :=
  (caseBlocks.flatMap fun (low, high, distance) =>
    (if low ≤ n ∧ n ≤ high then [n + distance] else [])
      ++ (if low + distance ≤ n ∧ n ≤ high + distance then [n - distance] else []))
    ++ (casePairs.flatMap fun (low, high) =>
      if low ≤ n ∧ n ≤ high then [if (n - low) % 2 = 0 then n + 1 else n - 1] else [])
    ++ caseFamilies.flatMap fun family => if n ∈ family then family else []

mutual

def contains (c : Char) : CharSet → Bool
  | range low high => low ≤ c && c ≤ high
  | property test => test c
  | union parts => containsAny c parts
  | inter left right => contains c left && contains c right
  | diff left right => contains c left && !contains c right
  | symmDiff left right => contains c left != contains c right
  | compl set => !contains c set
  | anyCase set => contains c set || (caseMates c.toNat).any fun n => contains (Char.ofNat n) set

def containsAny (c : Char) : List CharSet → Bool
  | [] => false
  | s :: ss => contains c s || containsAny c ss

end

/-! ## Named sets -/

def digits : CharSet := property Text.isDecimalDigit
def blanks : CharSet := property Text.isBlank
def words : CharSet := property Text.isWordChar
def everything : CharSet := property fun _ => true

def asciiRanges (ranges : List (Char × Char)) : CharSet :=
  union (ranges.map fun (low, high) => range low high)

def asciiDigits : CharSet := asciiRanges [('0', '9')]
def asciiBlanks : CharSet := asciiRanges [('\t', '\r'), (' ', ' ')]
def asciiWords : CharSet := asciiRanges [('0', '9'), ('A', 'Z'), ('_', '_'), ('a', 'z')]

/-- The sets that are named like `[:alpha:]`. -/
def bracketed : List (String × CharSet) := [
  ("alnum", asciiRanges [('0', '9'), ('A', 'Z'), ('a', 'z')]),
  ("alpha", asciiRanges [('A', 'Z'), ('a', 'z')]),
  ("ascii", asciiRanges [('\x00', '\x7F')]),
  ("blank", asciiRanges [('\t', '\t'), (' ', ' ')]),
  ("cntrl", asciiRanges [('\x00', '\x1F'), ('\x7F', '\x7F')]),
  ("digit", asciiDigits),
  ("graph", asciiRanges [('!', '~')]),
  ("lower", asciiRanges [('a', 'z')]),
  ("print", asciiRanges [(' ', '~')]),
  ("punct", asciiRanges [('!', '/'), (':', '@'), ('[', '\x60'), ('\x7B', '~')]),
  ("space", asciiBlanks),
  ("upper", asciiRanges [('A', 'Z')]),
  ("word", asciiWords),
  ("xdigit", asciiRanges [('0', '9'), ('A', 'F'), ('a', 'f')])]

/-- The sets that are named like `\p{L}`, under their names without blanks, hyphens and underscores
and in lower case. -/
def properties : List (String × CharSet) := [
  ("any", everything),
  ("ascii", asciiRanges [('\x00', '\x7F')]),
  ("alphabetic", property Text.isAlphabetic), ("alpha", property Text.isAlphabetic),
  ("l", property Text.isLetter), ("letter", property Text.isLetter),
  ("m", property Text.isMark), ("mark", property Text.isMark),
  ("combiningmark", property Text.isMark),
  ("mn", property Text.isNonspacingMark), ("nonspacingmark", property Text.isNonspacingMark),
  ("nd", digits), ("decimalnumber", digits), ("digit", digits),
  ("n", property fun c => Text.isAlphanumeric c && !Text.isLetter c),
  ("number", property fun c => Text.isAlphanumeric c && !Text.isLetter c),
  ("pc", property (Text.inRanges Text.connectorRanges)),
  ("connectorpunctuation", property (Text.inRanges Text.connectorRanges)),
  ("whitespace", blanks), ("wspace", blanks), ("space", blanks),
  ("cc", asciiRanges [('\x00', '\x1F'), ('\x7F', '\u009F')]),
  ("control", asciiRanges [('\x00', '\x1F'), ('\x7F', '\u009F')]),
  ("lu", property fun c => Text.isLetter c && ((caseMates c.toNat).any (c.toNat < ·))),
  ("uppercaseletter", property fun c => Text.isLetter c && ((caseMates c.toNat).any (c.toNat < ·))),
  ("uppercase", property fun c => Text.isLetter c && ((caseMates c.toNat).any (c.toNat < ·))),
  ("ll", property fun c => Text.isLetter c && ((caseMates c.toNat).any (· < c.toNat))),
  ("lowercaseletter", property fun c => Text.isLetter c && ((caseMates c.toNat).any (· < c.toNat))),
  ("lowercase", property fun c => Text.isLetter c && ((caseMates c.toNat).any (· < c.toNat)))]

end CharSet

end NestedResources
