/-!
# Blanks, splitting and joining

Blanks are the characters with the Unicode property `White_Space`. Splitting loses nothing:
joining the pieces with the separator gives the text back (`joinWith_split`).
-/
namespace NestedResources.Text

/-- The characters with the property `White_Space`. -/
def isBlank (c : Char) : Bool :=
  let n := c.toNat
  (0x09 ≤ n && n ≤ 0x0D) || n = 0x20 || n = 0x85 || n = 0xA0 || n = 0x1680
    || (0x2000 ≤ n && n ≤ 0x200A) || n = 0x2028 || n = 0x2029 || n = 0x202F || n = 0x205F
    || n = 0x3000

theorem isBlank_of_isWhitespace {c : Char} (h : c.isWhitespace = true) : isBlank c = true := by
  simp only [Char.isWhitespace, Bool.or_eq_true, decide_eq_true_eq] at h
  rcases h with ((rfl | rfl) | rfl) | rfl <;> decide

/-- Drops the blanks at both ends. -/
def trimChars (cs : List Char) : List Char :=
  ((cs.dropWhile isBlank).reverse.dropWhile isBlank).reverse

def trim (s : String) : String := String.ofList (trimChars s.toList)

/-- The pieces between separators: one more than there are separators. -/
def split {α : Type} [DecidableEq α] (sep : α) : List α → List (List α)
  | [] => [[]]
  | c :: cs =>
    if c = sep then [] :: split sep cs
    else match split sep cs with
      | [] => [[c]]
      | word :: words => (c :: word) :: words

theorem split_ne_nil {α : Type} [DecidableEq α] (sep : α) (cs : List α) : split sep cs ≠ [] := by
  cases cs with
  | nil => simp [split]
  | cons c cs => grind [split]

/-- The pieces with the separator between them. -/
def joinWith {α : Type} (sep : α) : List (List α) → List α
  | [] => []
  | [word] => word
  | word :: words => word ++ sep :: joinWith sep words

theorem joinWith_split {α : Type} [DecidableEq α] (sep : α) (cs : List α) :
    joinWith sep (split sep cs) = cs := by
  induction cs with
  | nil => rfl
  | cons c cs ih =>
    unfold split
    split
    · rename_i h
      subst h
      cases hs : split c cs with
      | nil => exact absurd hs (split_ne_nil c cs)
      | cons word words => simp [joinWith, ← hs, ih]
    · cases hs : split sep cs with
      | nil => exact absurd hs (split_ne_nil sep cs)
      | cons word words =>
        rw [hs] at ih
        cases words with
        | nil => simpa [joinWith] using ih
        | cons w ws => simpa [joinWith] using ih

/-- The pieces of a text between separators. -/
def fields (sep : Char) (s : String) : List String := (split sep s.toList).map String.ofList

/-- The pieces with `sep` between them. -/
def join (sep : String) : List String → String
  | [] => ""
  | [word] => word
  | word :: words => word ++ sep ++ join sep words

/-- The texts before and after the first separator. -/
def splitFirst? (sep : Char) (s : String) : Option (String × String) :=
  let before := s.toList.takeWhile (· ≠ sep)
  match s.toList.drop before.length with
  | [] => none
  | _ :: after => some (String.ofList before, String.ofList after)

/-- The texts before and after the last separator. -/
def splitLast? (sep : Char) (s : String) : Option (String × String) :=
  let cs := s.toList.reverse
  let after := cs.takeWhile (· ≠ sep)
  match cs.drop after.length with
  | [] => none
  | _ :: before => some (String.ofList before.reverse, String.ofList after.reverse)

/-- The rest of a text that starts with `start`. -/
def dropStart? (start : String) (s : String) : Option String :=
  if start.toList.isPrefixOf s.toList then some (String.ofList (s.toList.drop start.length)) else none

/-- The text without the copies of `c` at its end. -/
def dropEnd (c : Char) (s : String) : String :=
  String.ofList ((s.toList.reverse.dropWhile (· = c)).reverse)

/-- The trimmed items of a comma list, without the empty ones. -/
def commaList (s : String) : List String := ((fields ',' s).map trim).filter (· ≠ "")

/-- A text between two copies of the quote used in messages. -/
def ticked (s : String) : String := "`" ++ s ++ "`"

def asciiLower (s : String) : String := String.ofList (s.toList.map Char.toLower)

def asciiUpper (s : String) : String := String.ofList (s.toList.map Char.toUpper)

end NestedResources.Text
