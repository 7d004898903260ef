import NestedResources.Number.Numeral
import NestedResources.Text.Basic

/-!
# TOML

A TOML document is a list of statements, headers and assignments, from which the tables are built.
Building refuses every table or key that is defined twice. Floats and date-times are checked for
their form, but their values are not kept.
-/
namespace NestedResources

/-- How a table came to be, which decides what may be added to it. -/
inductive TableKind where
  /-- Named by a header. -/
  | header
  /-- Named only by the headers of tables inside it. -/
  | implied
  /-- Named by a dotted key. -/
  | dotted
  /-- Written out in braces; nothing can be added. -/
  | closed
deriving DecidableEq

inductive Toml where
  | str (value : String)
  | int (value : Int)
  | bool (value : Bool)
  /-- A float or a date-time. -/
  | other
  | arr (items : List Toml)
  | table (kind : TableKind) (members : List (String × Toml))
  /-- The tables of a header in double brackets. -/
  | tables (rows : List (List (String × Toml)))

namespace Toml

instance : Inhabited Toml := ⟨other⟩

abbrev Members := List (String × Toml)

def find? (key : String) (members : Members) : Option Toml := (members.find? (·.1 = key)).map (·.2)

/-- Sets a member in place, or appends it. -/
def put (key : String) (value : Toml) : Members → Members
  | [] => [(key, value)]
  | (k, v) :: rest => if k = key then (k, value) :: rest else (k, v) :: put key value rest

/-! ## Tables -/

/-- Changes the table that a member stands for: a table that is not closed, or the last of several. -/
def inside? (f : Members → Option Members) : Toml → Option Toml
  | table kind members => if kind = .closed then none else (f members).map (table kind)
  | tables rows => (f (rows.getLastD [])).map fun last => tables (rows.dropLast ++ [last])
  | _ => none

/-- Follows the path of a header, making tables on the way, and changes its last member. -/
def header? (last : Option Toml → Option Toml) : List String → Members → Option Members
  | [], _ => none
  | [key], members => (last (find? key members)).map fun value => put key value members
  | key :: path, members =>
    match find? key members with
    | none => (header? last path []).map fun inner => put key (table .implied inner) members
    | some value => (inside? (header? last path) value).map fun value => put key value members

/-- What `[path]` does to the member it names. -/
def openTable? : Option Toml → Option Toml
  | none => some (table .header [])
  | some (table .implied members) => some (table .header members)
  | some _ => none

/-- What `[[path]]` does to the member it names. -/
def appendTable? : Option Toml → Option Toml
  | none => some (tables [[]])
  | some (tables rows) => some (tables (rows ++ [[]]))
  | some _ => none

/-- Changes the table at the path of a header. -/
def atHeader? (f : Members → Option Members) : List String → Members → Option Members
  | [], members => f members
  | key :: path, members => do
    let value ← find? key members
    some (put key (← inside? (atHeader? f path) value) members)

/-- Assigns to a dotted key, which must be new. -/
def assign? (value : Toml) : List String → Members → Option Members
  | [], _ => none
  | [key], members => if (find? key members).isSome then none else some (put key value members)
  | key :: path, members =>
    match find? key members with
    | none => (assign? value path []).map fun inner => put key (table .dotted inner) members
    | some (table kind inner) =>
      if kind = .implied ∨ kind = .dotted then
        (assign? value path inner).map fun inner => put key (table kind inner) members
      else none
    | some _ => none

inductive Statement where
  | header (path : List String)
  | arrayHeader (path : List String)
  | assign (path : List String) (value : Toml)

/-- Builds the tables. `at_` is the path of the last header. -/
def build? : List Statement → List String → Members → Option Members
  | [], _, members => some members
  | .header path :: rest, _, members => do build? rest path (← header? openTable? path members)
  | .arrayHeader path :: rest, _, members => do
    build? rest path (← header? appendTable? path members)
  | .assign path value :: rest, current, members => do
    build? rest current (← atHeader? (assign? value path) current members)

/-! ## Characters -/

abbrev Reader (α : Type) := List Char → Option (α × List Char)

def isBlank (c : Char) : Bool := c = ' ' || c = '\t'

def skipBlanks (cs : List Char) : List Char := cs.dropWhile isBlank

/-- A control character that may not stand in a document. -/
def isControl (c : Char) : Bool := (c.toNat < 0x20 && c ≠ '\t') || c = '\x7F'

/-- Drops a comment, which ends before the end of its line. -/
def skipComment : List Char → Option (List Char)
  | '#' :: cs =>
    let rest := cs.dropWhile (!isControl ·)
    match rest with
    | [] | '\n' :: _ | '\r' :: '\n' :: _ => some rest
    | _ => none
  | cs => some cs

/-- Drops the end of a line, with blanks and a comment before it. -/
def endLine (cs : List Char) : Option (List Char) := do
  match ← skipComment (skipBlanks cs) with
  | [] => some []
  | '\n' :: rest | '\r' :: '\n' :: rest => some rest
  | _ => none

/-- Drops blanks, comments and line ends. -/
def skipLines : Nat → List Char → Option (List Char)
  | 0, cs => some cs
  | fuel + 1, cs => do
    match ← skipComment (skipBlanks cs) with
    | '\n' :: rest | '\r' :: '\n' :: rest => skipLines fuel rest
    | rest => some rest

/-! ## Texts -/

def hexValue? (c : Char) : Option Nat :=
  if 'a' ≤ c ∧ c ≤ 'f' then some (c.toNat - 'a'.toNat + 10)
  else if 'A' ≤ c ∧ c ≤ 'F' then some (c.toNat - 'A'.toNat + 10)
  else digitValue? c

/-- The character that a fixed number of hexadecimal digits spell. -/
def codePoint (count : Nat) : Reader Char := fun cs => do
  guard (count ≤ cs.length)
  let values ← (cs.take count).mapM hexValue?
  let n := values.foldl (fun acc d => acc * 16 + d) 0
  guard (n.isValidChar)
  some (Char.ofNat n, cs.drop count)

/-- The character of an escape, behind its backslash. -/
def escape : Reader Char
  | 'b' :: cs => some ('\x08', cs)
  | 't' :: cs => some ('\t', cs)
  | 'n' :: cs => some ('\n', cs)
  | 'f' :: cs => some ('\x0C', cs)
  | 'r' :: cs => some ('\r', cs)
  | '"' :: cs => some ('"', cs)
  | '\\' :: cs => some ('\\', cs)
  | 'u' :: cs => codePoint 4 cs
  | 'U' :: cs => codePoint 8 cs
  | _ => none

/-- A text in double quotes, behind the opening one. -/
def basicText : Nat → Reader (List Char)
  | 0, _ => none
  | fuel + 1, cs => match cs with
    | '"' :: rest => some ([], rest)
    | '\\' :: rest => do
      let (c, rest) ← escape rest
      let (more, rest) ← basicText fuel rest
      some (c :: more, rest)
    | c :: rest => do
      guard (!isControl c)
      let (more, rest) ← basicText fuel rest
      some (c :: more, rest)
    | [] => none

/-- A text in single quotes, behind the opening one. -/
def literalText : Reader (List Char)
  | '\'' :: rest => some ([], rest)
  | c :: rest => do
    guard (!isControl c)
    let (more, rest) ← literalText rest
    some (c :: more, rest)
  | [] => none

/-- The run of quotes that ends a text of several lines: up to two of them belong to the text. -/
def closing? (quote : Char) (cs : List Char) : Option (List Char × List Char) :=
  let run := (cs.takeWhile (· = quote)).length
  if run < 3 then none
  else
    let kept := min (run - 3) 2
    some (List.replicate kept quote, cs.drop (kept + 3))

/-- Drops the blanks and line ends behind a backslash at the end of a line. -/
def foldLine (cs : List Char) : Option (List Char) :=
  match skipBlanks cs with
  | '\n' :: rest | '\r' :: '\n' :: rest =>
    some (rest.dropWhile fun c => isBlank c || c = '\n' || c = '\r')
  | _ => none

/-- A text of several lines, behind the opening quotes. -/
def longText (quote : Char) : Nat → Reader (List Char)
  | 0, _ => none
  | fuel + 1, cs =>
    match closing? quote cs with
    | some found => some found
    | none => match cs with
      | [] => none
      | '\r' :: '\n' :: rest => do
        let (more, rest) ← longText quote fuel rest
        some ('\n' :: more, rest)
      | c :: rest =>
        if c = '\\' ∧ quote = '"' then
          match foldLine rest with
          | some rest => longText quote fuel rest
          | none => do
            let (c, rest) ← escape rest
            let (more, rest) ← longText quote fuel rest
            some (c :: more, rest)
        else do
          guard (c = '\n' || !isControl c)
          let (more, rest) ← longText quote fuel rest
          some (c :: more, rest)

/-- A line end right behind the opening quotes is no part of the text. -/
def dropFirstLineEnd : List Char → List Char
  | '\n' :: cs | '\r' :: '\n' :: cs => cs
  | cs => cs

def text (cs : List Char) : Option (List Char × List Char) :=
  match cs with
  | '"' :: '"' :: '"' :: rest => longText '"' (rest.length + 1) (dropFirstLineEnd rest)
  | '\'' :: '\'' :: '\'' :: rest => longText '\'' (rest.length + 1) (dropFirstLineEnd rest)
  | '"' :: rest => basicText (rest.length + 1) rest
  | '\'' :: rest => literalText rest
  | _ => none

/-! ## Keys -/

def isBareKeyChar (c : Char) : Bool := c.isAlphanum || c = '_' || c = '-'

/-- A key without dots. -/
def simpleKey (cs : List Char) : Option (String × List Char) :=
  match cs with
  | '"' :: rest => (basicText (rest.length + 1) rest).map fun (t, rest) => (String.ofList t, rest)
  | '\'' :: rest => (literalText rest).map fun (t, rest) => (String.ofList t, rest)
  | _ =>
    let key := cs.takeWhile isBareKeyChar
    if key = [] then none else some (String.ofList key, cs.drop key.length)

/-- Keys with dots between them. -/
def dottedKey : Nat → Reader (List String)
  | 0, _ => none
  | fuel + 1, cs => do
    let (key, rest) ← simpleKey (skipBlanks cs)
    match skipBlanks rest with
    | '.' :: rest => do
      let (path, rest) ← dottedKey fuel rest
      some (key :: path, rest)
    | rest => some ([key], rest)

/-! ## Scalars -/

/-- Digits of a base, with single underscores between them. -/
def digitRun? (base : Nat) (cs : List Char) : Option Nat := do
  let groups ← (Text.split '_' cs).mapM fun group => do
    guard (group ≠ [])
    group.mapM fun c => (hexValue? c).filter (· < base)
  some (groups.flatten.foldl (fun n d => n * base + d) 0)

/-- A whole number in decimal form, without leading zeros. -/
def decimal? (cs : List Char) : Option Nat :=
  match cs with
  | '0' :: _ :: _ => none
  | _ => digitRun? 10 cs

def integer? (cs : List Char) : Option Int := do
  let n : Int ← match cs with
    | '0' :: 'x' :: rest => (digitRun? 16 rest).map Int.ofNat
    | '0' :: 'o' :: rest => (digitRun? 8 rest).map Int.ofNat
    | '0' :: 'b' :: rest => (digitRun? 2 rest).map Int.ofNat
    | '-' :: rest => (decimal? rest).map fun n => -(n : Int)
    | '+' :: rest => (decimal? rest).map Int.ofNat
    | rest => (decimal? rest).map Int.ofNat
  guard (-0x8000000000000000 ≤ n ∧ n < 0x8000000000000000)
  some n

/-- The form of a float: a whole number with a fraction, an exponent or both, or a special value. -/
def isFloat (cs : List Char) : Bool :=
  let (_, body) := Numeral.sign cs
  if body = "inf".toList ∨ body = "nan".toList then true
  else
    let isMark (c : Char) : Bool := c = 'e' || c = 'E'
    let mantissa := body.takeWhile (!isMark ·)
    let exponent := (body.drop mantissa.length).drop 1
    let whole := mantissa.takeWhile (· ≠ '.')
    let places := (mantissa.drop whole.length).drop 1
    let hasPoint := mantissa.length ≠ whole.length
    let hasMark := body.length ≠ mantissa.length
    (hasPoint || hasMark) && (decimal? whole).isSome && (!hasPoint || (digitRun? 10 places).isSome)
      && (!hasMark || (digitRun? 10 (Numeral.sign exponent).2).isSome)

/-- A number of fixed width within bounds. -/
def isField (width least greatest : Nat) (cs : List Char) : Bool :=
  cs.length = width && (Numeral.digits? cs).any fun n => least ≤ n && n ≤ greatest

def isDate (cs : List Char) : Bool :=
  match Text.split '-' cs with
  | [year, month, day] => isField 4 0 9999 year && isField 2 1 12 month && isField 2 1 31 day
  | _ => false

def isTime (cs : List Char) : Bool :=
  let clock := cs.takeWhile (· ≠ '.')
  let places := cs.drop clock.length
  (match Text.split ':' clock with
    | [hour, minute, second] =>
      isField 2 0 23 hour && isField 2 0 59 minute && isField 2 0 60 second
    | _ => false)
    && (places = [] || (Numeral.digits? (places.drop 1)).isSome)

def isOffset (cs : List Char) : Bool :=
  match cs with
  | ['Z'] | ['z'] => true
  | sign :: rest =>
    (sign = '+' || sign = '-') && match Text.split ':' rest with
      | [hour, minute] => isField 2 0 23 hour && isField 2 0 59 minute
      | _ => false
  | [] => false

/-- The form of a date, a time, or both with or without an offset. -/
def isDateTime (cs : List Char) : Bool :=
  if isDate cs || isTime cs then true
  else
    let date := cs.take 10
    match cs.drop 10 with
    | mark :: rest =>
      let time := rest.takeWhile fun c => c.isDigit || c = ':' || c = '.'
      let offset := rest.drop time.length
      isDate date && (mark = 'T' || mark = 't' || mark = ' ') && isTime time
        && (offset = [] || isOffset offset)
    | [] => false

def isScalarChar (c : Char) : Bool :=
  c.isAlphanum || c = '_' || c = '-' || c = '+' || c = '.' || c = ':'

/-- The characters of a scalar that is no text. A date may be followed by a blank and a time. -/
def scalarChars (cs : List Char) : List Char :=
  let first := cs.takeWhile isScalarChar
  match cs.drop first.length with
  | ' ' :: c :: rest =>
    if isDate first && c.isDigit then first ++ ' ' :: (c :: rest).takeWhile isScalarChar else first
  | _ => first

def scalar (cs : List Char) : Option (Toml × List Char) :=
  let body := scalarChars cs
  let rest := cs.drop body.length
  if body = "true".toList then some (.bool true, rest)
  else if body = "false".toList then some (.bool false, rest)
  else match integer? body with
    | some n => some (.int n, rest)
    | none => if isFloat body || isDateTime body then some (.other, rest) else none

/-! ## Values -/

mutual

def value : Nat → Reader Toml
  | 0, _ => none
  | fuel + 1, cs =>
    match cs with
    | '"' :: _ | '\'' :: _ => (text cs).map fun (t, rest) => (.str (String.ofList t), rest)
    | '[' :: rest => (arrayItems fuel rest).map fun (items, rest) => (.arr items, rest)
    | '\x7B' :: rest =>
      match skipBlanks rest with
      | '\x7D' :: rest => some (.table .closed [], rest)
      | rest => (tableMembers fuel [] rest).map fun (members, rest) => (.table .closed members, rest)
    | _ => scalar cs

/-- The items of an array, behind its bracket or a comma. -/
def arrayItems : Nat → Reader (List Toml)
  | 0, _ => none
  | fuel + 1, cs => do
    match ← skipLines cs.length cs with
    | ']' :: rest => some ([], rest)
    | cs =>
      let (first, rest) ← value fuel cs
      match ← skipLines rest.length rest with
      | ']' :: rest => some ([first], rest)
      | ',' :: rest => do
        let (items, rest) ← arrayItems fuel rest
        some (first :: items, rest)
      | _ => none

/-- The members of a table in braces, behind its brace or a comma. -/
def tableMembers : Nat → Members → Reader Members
  | 0, _, _ => none
  | fuel + 1, members, cs => do
    let (path, rest) ← dottedKey (cs.length + 1) cs
    match rest with
    | '=' :: rest =>
      let (v, rest) ← value fuel (skipBlanks rest)
      let members ← assign? v path members
      match skipBlanks rest with
      | '\x7D' :: rest => some (members, rest)
      | ',' :: rest => tableMembers fuel members rest
      | _ => none
    | _ => none

end

/-! ## Documents -/

/-- One statement, up to the end of its line. -/
def statement (cs : List Char) : Option (Statement × List Char) :=
  match cs with
  | '[' :: '[' :: rest => do
    let (path, rest) ← dottedKey (rest.length + 1) rest
    match rest with
    | ']' :: ']' :: rest => some (.arrayHeader path, ← endLine rest)
    | _ => none
  | '[' :: rest => do
    let (path, rest) ← dottedKey (rest.length + 1) rest
    match rest with
    | ']' :: rest => some (.header path, ← endLine rest)
    | _ => none
  | _ => do
    let (path, rest) ← dottedKey (cs.length + 1) cs
    match rest with
    | '=' :: rest =>
      let (v, rest) ← value (rest.length + 1) (skipBlanks rest)
      some (.assign path v, ← endLine rest)
    | _ => none

def statements : Nat → List Char → Option (List Statement)
  | 0, _ => none
  | fuel + 1, cs => do
    match ← skipLines cs.length cs with
    | [] => some []
    | cs => do
      let (s, rest) ← statement cs
      some (s :: (← statements fuel rest))

/-- The members of the table that a document is. -/
def parse? (source : String) : Option Members := do
  let cs := match source.toList with
    | '\uFEFF' :: cs => cs
    | cs => cs
  build? (← statements (cs.length + 1) cs) [] []

end Toml

end NestedResources
