import NestedResources.Cli.Arguments
import NestedResources.Cli.Table
import NestedResources.Json.Printer
import NestedResources.Service.Router

/-!
# What is printed

Collections are printed as tables with a row for each item, entities with a row for each member, and
other values bare. A quiet call prints nothing but errors and the list of resources.
-/
namespace NestedResources.Cli

/-- What a call has printed. -/
structure Transcript where
  stdout : String := ""
  stderr : String := ""
deriving DecidableEq

namespace Transcript

def print (t : Transcript) (line : String) : Transcript := { t with stdout := t.stdout ++ line ++ "\n" }

def printError (t : Transcript) (line : String) : Transcript := { t with stderr := t.stderr ++ line ++ "\n" }

end Transcript

/-- How much a line matters. -/
inductive Level where
  | error
  | warning
  | info
  | trace
deriving DecidableEq

def Level.sign : Level → String
  | error => "✗"
  | warning => "⚠"
  | info => "ℹ"
  | trace => "→"

def Level.line (level : Level) (message : String) : String := level.sign ++ " " ++ message

abbrev Printing := StateM Transcript

/-! ## Bodies -/

def cellText : Json → String
  | .null => ""
  | .str s => s
  | value => value.compact

/-- The keys of objects, ascending. -/
def columnsOf (items : List Json) : List String :=
  (Dict.ofList (items.flatMap fun item =>
    ((item.object?).getD []).map fun (key, _) => (key, ()))).keys

/-- A row for each item; the columns are the keys of all items. -/
def itemTable (items : List Json) : TextTable :=
  if items.isEmpty then { rows := [["No items found"]] }
  else
    let columns := columnsOf items
    { header := some columns
      rows := items.map fun item => columns.map fun key => cellText (item.getD key) }

/-- A row for each member. -/
def memberTable (members : List (String × Json)) : TextTable where
  header := some ["Field", "Value"]
  rows := members.map fun (key, value) => [key, cellText value]

def pageLine (page : Json) : String :=
  Level.info.line ("page " ++ (page.getD "current_page").compact ++ " of "
    ++ (page.getD "last_page").compact ++ " (" ++ (page.getD "resources_available").compact
    ++ " available)")

/-- The lines of a body in table format. -/
def tableLines (body : Json) : List String :=
  match body with
  | .obj members =>
    match body.getD "items" with
    | .arr items => (itemTable items).render :: ((body.get? "pagination").map pageLine).toList
    | _ => [(memberTable members).render]
  | .arr items => [(itemTable items).render]
  | value => [cellText value]

def bodyLines (format : OutputFormat) (body : Json) : List String :=
  match format with
  | .table => tableLines body
  | .json => [body.pretty]
  | .compact => [body.compact]

/-! ## Resources -/

/-- A resource as a row of a table. -/
def resourceRow (r : Resource) : List String := [
  r.name,
  Text.join ", " r.identity,
  Text.join ", " ((r.fields.filter Field.isRendered).map (·.name)),
  Text.join "\n" (r.relationships.map fun rel => rel.name ++ " → " ++ rel.target),
  (r.pageCeiling.map toString).getD ""]

def resourceTable (resources : List Resource) : TextTable where
  header := some ["Resource", "Identity", "Fields", "Relationships", "Page size"]
  rows := resources.map resourceRow

/-! ## Printing -/

namespace Invocation

variable (i : Invocation)

/-- Prints a line whatever the call says. -/
def always (line : String) : Printing Unit := modify (·.print line)

def print (line : String) : Printing Unit := if i.quiet then pure () else always line

def emit (level : Level) (message : String) : Printing Unit :=
  match level with
  | .error => modify (·.printError (level.line message))
  | .trace => if i.verbose && !i.quiet then modify (·.printError (level.line message)) else pure ()
  | _ => i.print (level.line message)

/-- Prints an underlined heading. -/
def heading (text : String) : Printing Unit :=
  i.print ("\n" ++ text ++ "\n" ++ String.ofList (text.toList.map fun _ => '-'))

/-- Prints a successful response. -/
def showResponse (r : Response) : Printing Unit := do
  if !r.allow.isEmpty then i.print ("Allow: " ++ Text.join ", " (r.allow.map Method.name))
  (bodyLines i.format r.body).forM i.print

/-- Prints the message of an error body, and a line for each item of a list of issues in it. -/
def showRefusal (body : Json) : Printing Unit := do
  i.emit .error (((body.getD "message").string?).getD "request failed")
  let text (issue : Json) (key : String) : String := ((issue.getD key).string?).getD ""
  (((body.getD "errors").array?).getD []).forM fun issue =>
    i.print ("  • " ++ text issue "field" ++ ": " ++ text issue "message" ++ " (" ++ text issue "code"
      ++ ")")

end Invocation

end NestedResources.Cli
