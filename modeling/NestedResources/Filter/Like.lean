import NestedResources.Text.Basic

/-!
# LIKE patterns

`%` stands for any run of characters and `_` for one character; a backslash makes the next character
literal. Matching goes over the items from the right and keeps, for every suffix of the text,
whether the items so far match it, so it takes time in proportion to pattern and text.
-/
namespace NestedResources

namespace Like

inductive Item where
  | anyRun
  | anyOne
  | literal (c : Char)
deriving DecidableEq

/-- The items of a pattern. A backslash at the end stands for itself. -/
def items : List Char → List Item
  | [] => []
  | ['\\'] => [.literal '\\']
  | '\\' :: c :: cs => .literal c :: items cs
  | '%' :: cs => .anyRun :: items cs
  | '_' :: cs => .anyOne :: items cs
  | c :: cs => .literal c :: items cs

/-- One flag for each suffix of the text, the whole text first and the empty one last. -/
abbrev Suffixes := List Bool

/-- The suffixes that one character, then a suffix flagged in `rest`, make up. -/
def stepOne (accepts : Char → Bool) : List Char → Suffixes → Suffixes
  | c :: cs, _ :: rest => (accepts c && rest.headD false) :: stepOne accepts cs rest
  | _, _ => [false]

/-- The suffixes of which some suffix is flagged. -/
def stepRun : Suffixes → Suffixes
  | [] => []
  | flag :: rest =>
    let later := stepRun rest
    (flag || later.headD false) :: later

def Item.step (text : List Char) : Item → Suffixes → Suffixes
  | .anyRun, flags => stepRun flags
  | .anyOne, flags => stepOne (fun _ => true) text flags
  | .literal d, flags => stepOne (· = d) text flags

/-- Before any item only the empty suffix is matched. -/
def initial : List Char → Suffixes
  | [] => [true]
  | _ :: cs => false :: initial cs

/-- Whether the whole text matches the items. -/
def accepts (pattern : List Item) (text : List Char) : Bool :=
  (pattern.foldr (Item.step text) (initial text)).headD false

end Like

/-- Whether the whole text matches a LIKE pattern. -/
def like (pattern text : String) : Bool := Like.accepts (Like.items pattern.toList) text.toList

end NestedResources
