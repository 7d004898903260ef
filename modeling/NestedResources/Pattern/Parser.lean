import NestedResources.Number.Numeral
import NestedResources.Pattern.Basic

/-!
# Reading patterns

The usual syntax of regular expressions, without back references and without looking around. What is
no pattern has no reading.
-/
namespace NestedResources.Pattern

/-- The switches that `(?imsux)` sets. -/
structure Flags where
  anyCase : Bool := false
  lines : Bool := false
  dotAll : Bool := false
  /-- Lines may end in `\r`. -/
  anyLineEnd : Bool := false
  unicode : Bool := true
  /-- Blanks and comments are ignored. -/
  spaced : Bool := false
deriving DecidableEq

namespace Flags

/-- Sets one switch; the lazy switch makes no difference to whether there is a match. -/
def set? (f : Flags) (c : Char) (value : Bool) : Option Flags :=
  match c with
  | 'i' => some { f with anyCase := value }
  | 'm' => some { f with lines := value }
  | 's' => some { f with dotAll := value }
  | 'R' => some { f with anyLineEnd := value }
  | 'u' => some { f with unicode := value }
  | 'x' => some { f with spaced := value }
  | 'U' => some f
  | _ => none

def fold (f : Flags) (set : CharSet) : CharSet := if f.anyCase then .anyCase set else set

def dot (f : Flags) : CharSet :=
  if f.dotAll then .everything
  else if f.anyLineEnd then .compl (.union [.single '\n', .single '\r'])
  else .compl (.single '\n')

def start (f : Flags) : Anchor :=
  if f.lines then (if f.anyLineEnd then .lineStartAny else .lineStart) else .textStart

def stop (f : Flags) : Anchor :=
  if f.lines then (if f.anyLineEnd then .lineEndAny else .lineEnd) else .textEnd

def digits (f : Flags) : CharSet := if f.unicode then .digits else .asciiDigits
def blanks (f : Flags) : CharSet := if f.unicode then .blanks else .asciiBlanks
def words (f : Flags) : CharSet := if f.unicode then .words else .asciiWords

end Flags

/-! ## Small readers: each returns what it read with the characters behind it -/

/-- The characters before the first `close`, and those behind it. -/
def until? (close : Char) (cs : List Char) : Option (List Char × List Char) :=
  let body := cs.takeWhile (· ≠ close)
  match cs.drop body.length with
  | [] => none
  | _ :: rest => some (body, rest)

/-- Drops blanks, and comments up to the end of a line. -/
def dropSpace (inComment : Bool) : List Char → List Char
  | [] => []
  | c :: cs =>
    if inComment then dropSpace (c ≠ '\n') cs
    else if c = '#' then dropSpace true cs
    else if Text.isBlank c then dropSpace false cs
    else c :: cs

def skip (f : Flags) (cs : List Char) : List Char := if f.spaced then dropSpace false cs else cs

def hexDigit? (c : Char) : Option Nat :=
  if 'a' ≤ c ∧ c ≤ 'f' then some (c.toNat - 'a'.toNat + 10)
  else if 'A' ≤ c ∧ c ≤ 'F' then some (c.toNat - 'A'.toNat + 10)
  else digitValue? c

/-- The character that hexadecimal digits spell. -/
def hexChar? (digits : List Char) : Option Char := do
  guard (digits ≠ [])
  let values ← digits.mapM hexDigit?
  let n := values.foldl (fun acc d => acc * 16 + d) 0
  if n.isValidChar then some (Char.ofNat n) else none

/-- The digits behind `\x`, `\u` or `\U`: a fixed number, or any number in braces. -/
def hexEscape? (count : Nat) : List Char → Option (Char × List Char)
  | '\x7B' :: cs => do
    let (body, rest) ← until? '\x7D' cs
    some (← hexChar? body, rest)
  | cs => do
    guard (count ≤ cs.length)
    some (← hexChar? (cs.take count), cs.drop count)

/-- The name of a property without blanks, hyphens and underscores and in lower case. -/
def propertyName (cs : List Char) : String :=
  String.ofList ((cs.filter fun c => c ≠ ' ' && c ≠ '-' && c ≠ '_').map Char.toLower)

def property? (name : List Char) : Option CharSet :=
  (CharSet.properties.find? (·.1 = propertyName name)).map (·.2)

/-- The set behind `\p`: one letter, or a name in braces, which `^` negates. -/
def propertyEscape? : List Char → Option (CharSet × List Char)
  | '\x7B' :: '^' :: cs => do
    let (body, rest) ← until? '\x7D' cs
    some (.compl (← property? body), rest)
  | '\x7B' :: cs => do
    let (body, rest) ← until? '\x7D' cs
    some (← property? body, rest)
  | c :: cs => do some (← property? [c], cs)
  | [] => none

/-- What an escape stands for. -/
inductive Escape where
  | literal (c : Char)
  | set (s : CharSet)
  | anchor (a : Anchor)

/-- A word boundary, which may say in braces which half of it counts. -/
def boundary? (cs : List Char) : Option (Escape × List Char) :=
  match cs with
  | '\x7B' :: body =>
    match until? '\x7D' body with
    | none => some (.anchor .wordBoundary, cs)
    | some (name, rest) =>
      match String.ofList name with
      | "start" => some (.anchor .wordStart, rest)
      | "end" => some (.anchor .wordEnd, rest)
      | "start-half" => some (.anchor .wordStartHalf, rest)
      | "end-half" => some (.anchor .wordEndHalf, rest)
      | _ => if name.all fun c => c.isAlpha || c = '-' then none else some (.anchor .wordBoundary, cs)
  | _ => some (.anchor .wordBoundary, cs)

/-- The escape behind a backslash. -/
def escape? (f : Flags) : List Char → Option (Escape × List Char)
  | [] => none
  | c :: cs =>
    match c with
    | 'd' => some (.set (f.digits), cs)
    | 'D' => some (.set (.compl f.digits), cs)
    | 's' => some (.set f.blanks, cs)
    | 'S' => some (.set (.compl f.blanks), cs)
    | 'w' => some (.set f.words, cs)
    | 'W' => some (.set (.compl f.words), cs)
    | 'p' => (propertyEscape? cs).map fun (s, rest) => (.set (f.fold s), rest)
    | 'P' => (propertyEscape? cs).map fun (s, rest) => (.set (.compl (f.fold s)), rest)
    | 'x' => (hexEscape? 2 cs).map fun (c, rest) => (.literal c, rest)
    | 'u' => (hexEscape? 4 cs).map fun (c, rest) => (.literal c, rest)
    | 'U' => (hexEscape? 8 cs).map fun (c, rest) => (.literal c, rest)
    | 'a' => some (.literal '\x07', cs)
    | 'f' => some (.literal '\x0C', cs)
    | 't' => some (.literal '\t', cs)
    | 'n' => some (.literal '\n', cs)
    | 'r' => some (.literal '\r', cs)
    | 'v' => some (.literal '\x0B', cs)
    | 'A' => some (.anchor .textStart, cs)
    | 'z' => some (.anchor .textEnd, cs)
    | 'b' => boundary? cs
    | 'B' => some (.anchor .noWordBoundary, cs)
    | '<' => some (.anchor .wordStart, cs)
    | '>' => some (.anchor .wordEnd, cs)
    | _ => if c.toNat < 0x80 && !c.isAlphanum then some (.literal c, cs) else none

/-! ## Bracket expressions -/

/-- How the parts of a bracket expression are combined. -/
inductive SetOp where
  | inter
  | diff
  | symmDiff

def SetOp.combine : Option (SetOp × CharSet) → CharSet → CharSet
  | none, s => s
  | some (inter, left), s => .inter left s
  | some (diff, left), s => .diff left s
  | some (symmDiff, left), s => .symmDiff left s

/-- The operator that text starts with. -/
def setOp? : List Char → Option (SetOp × List Char)
  | '&' :: '&' :: cs => some (.inter, cs)
  | '-' :: '-' :: cs => some (.diff, cs)
  | '~' :: '~' :: cs => some (.symmDiff, cs)
  | _ => none

/-- A set such as `[:alpha:]` or `[:^alpha:]`, behind its first bracket. -/
def bracketed? : List Char → Option (CharSet × List Char)
  | ':' :: cs => do
    let (negated, cs) := match cs with
      | '^' :: rest => (true, rest)
      | rest => (false, rest)
    let (name, rest) ← until? ':' cs
    let set ← (CharSet.bracketed.find? (·.1 = String.ofList name)).map (·.2)
    match rest with
    | ']' :: rest => some (if negated then .compl set else set, rest)
    | _ => none
  | _ => none

/-- One member of a bracket expression: a character or a set. -/
def setItem? (f : Flags) : List Char → Option ((Char ⊕ CharSet) × List Char)
  | [] => none
  | '\\' :: cs =>
    match escape? f cs with
    | some (.literal c, rest) => some (.inl c, rest)
    | some (.set s, rest) => some (.inr s, rest)
    | _ => none
  | c :: cs => some (.inl c, cs)

/-- A member of a bracket expression or a range. A hyphen before `]` or another hyphen is no range. -/
def setRange? (f : Flags) (cs : List Char) : Option (CharSet × List Char) := do
  let (first, rest) ← setItem? f cs
  match skip f rest with
  | [] => none
  | '-' :: after =>
    match skip f after with
    | [] => none
    | next :: _ =>
      if next = ']' ∨ next = '-' then
        some (first.elim (fun c => f.fold (.single c)) id, skip f rest)
      else
        let (last, rest) ← setItem? f (skip f after)
        match first, last with
        | .inl low, .inl high => if low ≤ high then some (f.fold (.range low high), rest) else none
        | _, _ => none
  | rest => some (first.elim (fun c => f.fold (.single c)) id, rest)

/-- The members that may stand first: `^`, hyphens, and a bracket that does not close. -/
def openSet? (f : Flags) (cs : List Char) : Option (Bool × List CharSet × List Char) :=
  let (negated, cs) := match skip f cs with
    | '^' :: rest => (true, skip f rest)
    | rest => (false, rest)
  let hyphens := cs.takeWhile (· = '-')
  let items := hyphens.map fun _ => CharSet.single '-'
  match skip f (cs.drop hyphens.length), items with
  | [], _ => none
  | ']' :: rest, [] => some (negated, [.single ']'], rest)
  | rest, _ => some (negated, items, rest)

/-- A bracket expression behind its opening. `items` are the members read so far, last first, and
`left` what stands before the last operator. -/
def setBody? (f : Flags) : Nat → Bool → Option (SetOp × CharSet) → List CharSet → List Char →
    Option (CharSet × List Char)
  | 0, _, _, _, _ => none
  | fuel + 1, negated, left, items, cs =>
    let cs := skip f cs
    match setOp? cs with
    | some (op, rest) =>
      setBody? f fuel negated (some (op, SetOp.combine left (.union items))) [] rest
    | none =>
      match cs with
      | [] => none
      | ']' :: rest =>
        let set := SetOp.combine left (.union items)
        some (if negated then .compl set else set, rest)
      | '[' :: rest =>
        match bracketed? rest with
        | some (set, rest) => setBody? f fuel negated left (f.fold set :: items) rest
        | none => do
          let (inner, first, rest) ← openSet? f rest
          let (set, rest) ← setBody? f fuel inner none first rest
          setBody? f fuel negated left (set :: items) rest
      | cs => do
        let (set, rest) ← setRange? f cs
        setBody? f fuel negated left (set :: items) rest

/-! ## Repetitions and groups -/

/-- The greatest count of a repetition. -/
def greatestCount : Nat := 0xFFFFFFFF

/-- The counts in braces, behind the opening one. -/
def counts? (cs : List Char) : Option (Nat × Option Nat × List Char) := do
  let (body, rest) ← until? '\x7D' cs
  let count? (cs : List Char) : Option Nat :=
    (Numeral.digits? (Text.trimChars cs)).filter (· ≤ greatestCount)
  match Text.split ',' body with
  | [n] => do
    let n ← count? n
    some (n, some n, rest)
  | [least, most] => do
    let least ← count? least
    if Text.trimChars most = [] then some (least, none, rest)
    else do
      let most ← count? most
      if least ≤ most then some (least, some most, rest) else none
  | _ => none

/-- A repetition operator that text starts with. -/
def repetition? : List Char → Option (Option (Nat × Option Nat × List Char))
  | '*' :: cs => some (some (0, none, cs))
  | '+' :: cs => some (some (1, none, cs))
  | '?' :: cs => some (some (0, some 1, cs))
  | '\x7B' :: cs => (counts? cs).map some
  | _ => some none

/-- Drops the mark of a lazy repetition. -/
def dropLazy : List Char → List Char
  | '?' :: cs => cs
  | cs => cs

/-- What opens a group. -/
inductive Opening where
  | group (f : Flags) (name : Option String)
  /-- Switches for the rest of the group around. -/
  | switches (f : Flags)

/-- Switches up to `)` or `:`. Each letter may stand once, and a minus turns off what follows. -/
def switches? (f : Flags) (value : Bool) (seen : List Char) :
    List Char → Option (Opening × List Char)
  | [] => none
  | ')' :: cs => if seen = [] ∨ seen.head? = some '-' then none else some (.switches f, cs)
  | ':' :: cs => if seen.head? = some '-' then none else some (.group f none, cs)
  | c :: cs =>
    if c ∈ seen then none
    else if c = '-' then switches? f false (c :: seen) cs
    else do switches? (← f.set? c value) value (c :: seen) cs

/-- A name of a group, up to the closing bracket. -/
def groupName? (cs : List Char) : Option (String × List Char) := do
  let (name, rest) ← until? '>' cs
  match name with
  | [] => none
  | c :: more =>
    if (c = '_' || Text.isAlphabetic c)
        && more.all fun c => c = '_' || c = '.' || c = '[' || c = ']' || Text.isAlphanumeric c then
      some (String.ofList name, rest)
    else none

/-- What follows an opening parenthesis. -/
def opening? (f : Flags) (cs : List Char) : Option (Opening × List Char) :=
  match cs with
  | '?' :: '=' :: _ | '?' :: '!' :: _ | '?' :: '<' :: '=' :: _ | '?' :: '<' :: '!' :: _ => none
  | '?' :: 'P' :: '<' :: rest | '?' :: '<' :: rest =>
    (groupName? rest).map fun (name, rest) => (.group f (some name), rest)
  | '?' :: rest => switches? f true [] rest
  | _ => some (.group f none, cs)

def seqAll (parts : List Pattern) : Pattern := parts.foldr seq empty

def altAll : List Pattern → Pattern
  | [] => empty
  | [p] => p
  | p :: ps => alt p (altAll ps)

/-- How deep groups may nest. -/
def greatestDepth : Nat := 250

/-- Reads up to the parenthesis that closes the group, or to the end. `done` holds the alternatives
read so far and `items` the parts of the current one, both last first; a part is missing where
switches stood. -/
def group? : Nat → Nat → Flags → List String → List Pattern → List (Option Pattern) → List Char →
    Option (Pattern × List String × List Char)
  | 0, _, _, _, _, _, _ => none
  | fuel + 1, depth, f, names, done, items, cs =>
    let finish : Pattern := altAll ((seqAll (items.reverse.filterMap id) :: done).reverse)
    let cs := skip f cs
    let push (p : Pattern) (rest : List Char) :=
      group? fuel depth f names done (some p :: items) rest
    match cs with
    | [] => some (finish, names, [])
    | ')' :: _ => some (finish, names, cs)
    | '|' :: rest =>
      group? fuel depth f names (seqAll (items.reverse.filterMap id) :: done) [] rest
    | '(' :: rest => do
      match ← opening? f rest with
      | (.switches g, rest) => group? fuel depth g names done (none :: items) rest
      | (.group g name, rest) =>
        guard (depth < greatestDepth)
        guard (name.all (· ∉ names))
        let (p, names, rest) ← group? fuel (depth + 1) g (name.toList ++ names) [] [] rest
        match rest with
        | ')' :: rest => group? fuel depth f names done (some p :: items) rest
        | _ => none
    | '[' :: rest => do
      let (negated, first, rest) ← openSet? f rest
      let (set, rest) ← setBody? f (rest.length + 1) negated none first rest
      push (one set) rest
    | '.' :: rest => push (one f.dot) rest
    | '^' :: rest => push (.anchor f.start) rest
    | '$' :: rest => push (.anchor f.stop) rest
    | '\\' :: rest => do
      match ← escape? f rest with
      | (.literal c, rest) => push (one (f.fold (.single c))) rest
      | (.set s, rest) => push (one s) rest
      | (.anchor a, rest) => push (.anchor a) rest
    | c :: rest => do
      match ← repetition? cs with
      | none => push (one (f.fold (.single c))) rest
      | some (least, most, rest) =>
        match items with
        | some p :: items =>
          group? fuel depth f names done (some (.repeated least most p) :: items) (dropLazy rest)
        | _ => none

/-- The number of parts of a pattern when repetitions are written out. -/
def expandedSize : Pattern → Nat
  | empty | one _ | anchor _ => 1
  | seq p q | alt p q => expandedSize p + expandedSize q
  | repeated least most p => max 1 (most.getD (least + 1)) * expandedSize p + 1

/-- The greatest number of parts of a pattern. -/
def greatestSize : Nat := 200000

/-- The pattern that a text spells. -/
def parse? (source : String) : Option Pattern := do
  let cs := source.toList
  let (p, _, rest) ← group? (cs.length + 1) 0 {} [] [] [] cs
  guard (rest = [] && p.expandedSize ≤ greatestSize)
  some p

end NestedResources.Pattern
