import NestedResources.Cli.Display
import NestedResources.Config.Settings
import NestedResources.Demo.Music
import NestedResources.Schema.Codec

/-!
# Running a call

A call reads its settings, builds the demo service on a fresh store, and sends one request or lists
the resources. Whatever fails ends the call with one line on the error output.
-/
namespace NestedResources.Cli

/-- What a call reads from its surroundings. -/
structure Inputs where
  settingsFile : String
  /-- The text of the settings file, if there is one. -/
  settings : Option String := none
  /-- The text of the body file, if it can be read. -/
  body : Option String := none
  env : Environment := .empty

/-- Why a call fails. -/
inductive Failure where
  | usage
  | notAPair (argument : String)
  | bodyUnreadable (file : String)
  | bodyNotJson (why : ReadError)
  | settingsInvalid (file : String)
  | noStoreAddress
  | storeUnreachable (url : String)
  | schema (error : Error)
  | refused (method : Method) (path : String) (status : Nat)
deriving DecidableEq

namespace Failure

def message : Failure → String
  | usage => "the arguments do not make a command"
  | notAPair argument => "Expected KEY=VALUE, got " ++ Text.ticked argument
  | bodyUnreadable file => "Failed to read body from " ++ file ++ ": No such file or directory (os error 2)"
  | bodyNotJson why => "Request body is not valid JSON: " ++ why.message
  | settingsInvalid file => "Failed to load config from " ++ file ++ ": invalid config"
  | noStoreAddress => "The redis backend needs " ++ Text.ticked "store.redis_url" ++ " or REDIS_URL"
  | storeUnreachable url => "Failed to connect to Redis at " ++ url
  | schema error => error.message
  | refused method path status =>
    method.name ++ " " ++ path ++ " failed with status " ++ toString status

/-- The exit code. -/
def code : Failure → Nat
  | usage => 2
  | _ => 1

end Failure

abbrev Running := ExceptT Failure Printing

/-- What a call leaves behind. -/
structure Result where
  code : Nat
  transcript : Transcript
deriving DecidableEq

/-! ## Parts of a request -/

def pair (argument : String) : Except Failure (String × String) :=
  match Text.splitFirst? '=' argument with
  | some p => .ok p
  | none => .error (.notAPair argument)

/-- A context value: JSON if it reads as such, else text. -/
def contextValue (text : String) : Json :=
  match Json.read text with
  | .ok value => value
  | .error _ => .str text

namespace Invocation

variable (i : Invocation)

/-- The parameters of the query string, then the single ones. -/
def requestParams : Except Failure Params := do
  let pairs ← i.params.mapM pair
  pure ((Params.parse (i.query.getD "")).append pairs)

def requestContext : Except Failure Context := do
  let pairs ← i.context.mapM pair
  pure ⟨.ofList (pairs.map fun (key, text) => (key, contextValue text))⟩

def bodyText (inputs : Inputs) : Except Failure (Option String) :=
  match i.body, i.bodyFile with
  | some text, _ => .ok (some text)
  | none, some file =>
    match inputs.body with
    | some text => .ok (some text)
    | none => .error (.bodyUnreadable file)
  | none, none => .ok none

def requestBody (inputs : Inputs) : Except Failure (Option Json) := do
  match ← i.bodyText inputs with
  | none => pure none
  | some text =>
    match Json.read text with
    | .ok body => pure (some body)
    | .error why => throw (.bodyNotJson why)

/-! ## Verbs -/

/-- Sends a request and prints the response. -/
def runRequest (service : Service) (store : Store) (inputs : Inputs) (method : Method) :
    Running Unit := do
  let path := i.path.getD ""
  let params ← i.requestParams
  let ctx ← i.requestContext
  i.emit .trace (method.name ++ " " ++ path ++ " ?" ++ params.render)
  let body ← i.requestBody inputs
  let (response, _) := service.dispatch ctx { method, path, params, body } { store }
  if response.isSuccess then
    i.showResponse response
    i.print (method.name ++ " " ++ path ++ " → " ++ toString response.status)
  else
    i.showRefusal response.body
    throw (.refused method path response.status)

/-- Prints the resources, as a table or as a document. -/
def listResources (service : Service) : Running Unit := do
  let resources := service.schema.resources
  if i.format = .json then always (Json.arr (resources.map Resource.toJson)).pretty
  else
    i.heading "Registered resources"
    always (resourceTable resources).render
    if service.style.links then
      i.emit .info ("links rendered under " ++ Text.ticked service.style.urlStart)

def readSettings (inputs : Inputs) : Except Failure Settings :=
  match inputs.settings with
  | none => .ok {}
  | some text =>
    match Settings.read? inputs.env text with
    | some settings => .ok settings
    | none => .error (.settingsInvalid inputs.settingsFile)

/-- Only the store in memory is at hand. -/
def ensureInMemory (inputs : Inputs) (s : StoreSettings) : Except Failure Unit :=
  match s.backend with
  | .memory => .ok ()
  | .redis =>
    match s.resolvedUrl? inputs.env with
    | none => .error .noStoreAddress
    | some url => .error (.storeUnreachable url)

/-- The demo service with a store that holds its data. -/
def demo (settings : Settings) : Except Failure (Service × Store) :=
  let built : Except Error (Service × Store) := do
    let registry ← Registry.build Music.resources [] []
    let tables ← Music.seed registry.schema
    pure ({ registry, limits := settings.limits, style := settings.style }, { tables })
  built.mapError Failure.schema

def run (inputs : Inputs) : Running Unit := do
  let settings ← readSettings inputs
  ensureInMemory inputs settings.store
  let (service, store) ← demo settings
  i.emit .trace "store backend: Memory"
  match i.verb with
  | none => throw .usage
  | some (.request method) => i.runRequest service store inputs method
  | some .resources => i.listResources service
  | some .seed => i.emit .warning "The memory backend is seeded on every run; nothing to do."

/-- Runs a call to its end. -/
def result (inputs : Inputs) : Result :=
  match (i.run inputs).run.run {} with
  | (.ok (), transcript) => ⟨0, transcript⟩
  | (.error f, transcript) => ⟨f.code, transcript.printError ("Error: " ++ f.message)⟩

end Invocation

/-- The result of a command line that cannot be read. -/
def usageResult : Result := ⟨Failure.usage.code, ({} : Transcript).printError ("Error: " ++ Failure.usage.message)⟩

end NestedResources.Cli
