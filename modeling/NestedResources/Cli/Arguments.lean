import NestedResources.Method

/-!
# Arguments

A command line is switches, a verb, and what the verb takes. General switches may stand anywhere,
those of a verb behind it; `--` ends the switches.
-/
namespace NestedResources.Cli

inductive OutputFormat where
  | table
  | json
  | compact
deriving DecidableEq

def OutputFormat.ofName? (s : String) : Option OutputFormat :=
  match s with
  | "table" => some table
  | "json" => some json
  | "compact" => some compact
  | _ => none

inductive Verb where
  | request (method : Method)
  | resources
  | seed
deriving DecidableEq

def Verb.ofName? (s : String) : Option Verb :=
  match s with
  | "get" => some (request .get)
  | "post" => some (request .post)
  | "put" => some (request .put)
  | "patch" => some (request .patch)
  | "delete" => some (request .delete)
  | "options" => some (request .options)
  | "resources" => some resources
  | "seed" => some seed
  | _ => none

inductive Switch where
  | output
  | config
  | quiet
  | verbose
  | noColor
  | param
  | query
  | body
  | bodyFile
  | ctx
  | clear
deriving DecidableEq

namespace Switch

def all : List Switch :=
  [output, config, quiet, verbose, noColor, param, query, body, bodyFile, ctx, clear]

def longName : Switch → String
  | output => "output"
  | config => "config"
  | quiet => "quiet"
  | verbose => "verbose"
  | noColor => "no-color"
  | param => "param"
  | query => "query"
  | body => "body"
  | bodyFile => "body-file"
  | ctx => "ctx"
  | clear => "clear"

def shortName? : Switch → Option Char
  | quiet => some 'q'
  | verbose => some 'v'
  | param => some 'p'
  | _ => none

def ofLongName? (s : String) : Option Switch := all.find? (·.longName = s)

def ofShortName? (c : Char) : Option Switch := all.find? (·.shortName? = some c)

def takesValue : Switch → Bool
  | quiet | verbose | noColor | clear => false
  | _ => true

/-- Whether a switch may stand more than once. -/
def repeats : Switch → Bool
  | param | ctx => true
  | _ => false

/-- Whether a switch may stand behind a verb, or before it where there is none. -/
def allowedBehind (s : Switch) (verb : Option Verb) : Bool :=
  match s, verb with
  | output, _ | config, _ | quiet, _ | verbose, _ | noColor, _ => true
  | clear, some .seed => true
  | clear, _ => false
  | _, some (.request _) => true
  | _, _ => false

end Switch

/-! ## Words -/

/-- What one argument says. -/
inductive Word where
  | plain (text : String)
  | endOfSwitches
  /-- Switches without a value, and perhaps one with a value, given here or by the next argument. -/
  | switches (flags : List Switch) (last : Option (Switch × Option String))
  | unknown
deriving DecidableEq

namespace Word

/-- The letters behind one dash. What follows a letter that takes a value is its value. -/
def cluster : List Char → Word
  | [] => switches [] none
  | c :: cs =>
    match Switch.ofShortName? c with
    | none => unknown
    | some s =>
      if s.takesValue then
        match cs with
        | [] => switches [] (some (s, none))
        | '=' :: value => switches [] (some (s, some (String.ofList value)))
        | value => switches [] (some (s, some (String.ofList value)))
      else match cluster cs with
        | switches flags last => switches (s :: flags) last
        | other => other

/-- A name behind two dashes, perhaps with an equals sign and a value. -/
def long (text : String) : Word :=
  let (name, value) := match Text.splitFirst? '=' text with
    | some (name, value) => (name, some value)
    | none => (text, none)
  match Switch.ofLongName? name, value with
  | none, _ => unknown
  | some s, value =>
    if s.takesValue then switches [] (some (s, value))
    else if value.isSome then unknown
    else switches [s] none

def ofArgument (arg : String) : Word :=
  match arg.toList with
  | ['-', '-'] => endOfSwitches
  | '-' :: '-' :: name => long (String.ofList name)
  | '-' :: c :: cs => cluster (c :: cs)
  | _ => plain arg

/-- Whether an argument can be the value of the switch before it. -/
def isValue (arg : String) : Bool :=
  match ofArgument arg with
  | plain _ => true
  | _ => false

end Word

/-! ## Invocations -/

/-- One call of the program. -/
structure Invocation where
  verb : Option Verb := none
  path : Option String := none
  format : OutputFormat := .table
  config : Option String := none
  quiet : Bool := false
  verbose : Bool := false
  query : Option String := none
  params : List String := []
  body : Option String := none
  bodyFile : Option String := none
  context : List String := []
  clear : Bool := false
  /-- The switches seen so far. -/
  seen : List Switch := []
deriving DecidableEq

namespace Invocation

/-- Takes a verb, or the path of a request. -/
def addPlain (i : Invocation) (text : String) : Option Invocation :=
  match i.verb, i.path with
  | none, _ => (Verb.ofName? text).map fun verb => { i with verb := some verb }
  | some (.request _), none => some { i with path := some text }
  | _, _ => none

/-- Takes a switch with its value, which is empty for one that takes none. -/
def addSwitch (i : Invocation) (s : Switch) (value : String) : Option Invocation :=
  if !s.allowedBehind i.verb || (s ∈ i.seen && !s.repeats) then none
  else
    let i := { i with seen := s :: i.seen }
    match s with
    | .output => (OutputFormat.ofName? value).map fun format => { i with format }
    | .config => some { i with config := some value }
    | .quiet => some { i with quiet := true }
    | .verbose => some { i with verbose := true }
    | .noColor => some i
    | .param => some { i with params := i.params ++ [value] }
    | .query => some { i with query := some value }
    | .body => some { i with body := some value }
    | .bodyFile => some { i with bodyFile := some value }
    | .ctx => some { i with context := i.context ++ [value] }
    | .clear => some { i with clear := true }

def addFlags (i : Invocation) (flags : List Switch) : Option Invocation :=
  flags.foldlM (fun i s => i.addSwitch s "") i

/-- Takes arguments one after the other. -/
def addAll (i : Invocation) : List String → Option Invocation
  | [] => some i
  | arg :: rest =>
    match Word.ofArgument arg with
    | .plain text => do addAll (← i.addPlain text) rest
    | .endOfSwitches => rest.foldlM addPlain i
    | .unknown => none
    | .switches flags none => do addAll (← i.addFlags flags) rest
    | .switches flags (some (s, some value)) => do
      addAll (← (← i.addFlags flags).addSwitch s value) rest
    | .switches flags (some (s, none)) =>
      match rest with
      | [] => none
      | value :: rest =>
        if Word.isValue value then do addAll (← (← i.addFlags flags).addSwitch s value) rest
        else none

/-- Whether a call has all that its verb needs, and one body at most. -/
def isComplete (i : Invocation) : Bool :=
  match i.verb with
  | none => false
  | some (.request _) => i.path.isSome && !(i.body.isSome && i.bodyFile.isSome)
  | some _ => true

/-- Reads a command line. -/
def ofArguments? (args : List String) : Option Invocation := (({} : Invocation).addAll args).filter isComplete

end Invocation

end NestedResources.Cli
