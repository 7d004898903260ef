import NestedResources.Config.Toml
import NestedResources.Json.Basic
import NestedResources.Query.OfParams
import NestedResources.Read.Selection

/-!
# Settings

Settings come from a TOML document in which every section and key is optional. References such as
`${NAME}` in its texts stand for values of the environment.
-/
namespace NestedResources

inductive Backend where
  | memory
  | redis
deriving DecidableEq

def Backend.name : Backend → String
  | memory => "memory"
  | redis => "redis"

structure StoreSettings where
  backend : Backend := .memory
  redisUrl : String := "$\x7BREDIS_URL\x7D"
  keySpace : String := "nestql"
deriving DecidableEq

structure Settings where
  limits : QueryLimits := {}
  style : RenderStyle := {}
  store : StoreSettings := {}
deriving DecidableEq

/-- The environment: values by name. -/
abbrev Environment := Dict String

namespace Environment

def isNameStart (c : Char) : Bool := c.isAlpha || c = '_'

def isNameChar (c : Char) : Bool := c.isAlphanum || c = '_'

/-- The name of a reference, behind its dollar sign, and what follows it. -/
def reference? : List Char → Option (String × List Char)
  | '\x7B' :: cs =>
    let name := cs.takeWhile isNameChar
    match name, cs.drop name.length with
    | c :: _, '\x7D' :: rest => if isNameStart c then some (String.ofList name, rest) else none
    | _, _ => none
  | _ => none

theorem length_of_reference? {cs : List Char} {name : String} {rest : List Char}
    (h : reference? cs = some (name, rest)) : rest.length < cs.length := by
  unfold reference? at h
  split at h
  · rename_i cs
    dsimp only at h
    split at h
    · rename_i c more rest' h₁ h₂
      split at h
      · simp only [Option.some.injEq, Prod.mk.injEq] at h
        have := congrArg List.length h₂
        simp only [List.length_drop, List.length_cons] at this ⊢
        rw [← h.2]
        omega
      · cases h
    · cases h
  · cases h

/-- Replaces every reference; a name without a value stands for nothing. -/
def expandChars (env : Environment) (cs : List Char) : List Char :=
  match cs with
  | [] => []
  | c :: cs =>
    if c = '$' then
      match _h : reference? cs with
      | some (name, rest) => ((env.get? name).getD "").toList ++ expandChars env rest
      | none => c :: expandChars env cs
    else c :: expandChars env cs
termination_by cs.length
decreasing_by
  · have := length_of_reference? _h
    simp only [List.length_cons]
    omega
  all_goals simp

/-- The names that a text refers to. -/
def names : List Char → List String
  | [] => []
  | c :: cs =>
    if c = '$' then ((reference? cs).map (·.1)).toList ++ names cs else names cs

def expand (env : Environment) (s : String) : String := String.ofList (expandChars env s.toList)

end Environment

namespace StoreSettings

/-- The address of the shared store, unless it is blank. -/
def resolvedUrl? (s : StoreSettings) (env : Environment) : Option String :=
  let url := Text.trim (env.expand s.redisUrl)
  if url = "" then none else some url

end StoreSettings

namespace Settings

/-- A member of a table that may be missing. -/
def memberOr? {α : Type} (members : Toml.Members) (key : String) (default : α)
    (read : Toml → Option α) : Option α :=
  match Toml.find? key members with
  | none => some default
  | some value => read value

def text? : Toml → Option String
  | .str s => some s
  | _ => none

def flag? : Toml → Option Bool
  | .bool b => some b
  | _ => none

def natural? : Toml → Option Nat
  | .int n => if 0 ≤ n then some n.toNat else none
  | _ => none

def backend? : Toml → Option Backend
  | .str "memory" => some .memory
  | .str "redis" => some .redis
  | _ => none

def members? : Toml → Option Toml.Members
  | .table _ members => some members
  | _ => none

def limits? (members : Toml.Members) : Option QueryLimits := do
  some {
    filterNodes := ← memberOr? members "max_filter_nodes" 100 natural?
    pageCeiling := ← memberOr? members "default_page_max_size" none fun v =>
      (natural? v).map fun n => some n.toUInt64 }

def style? (env : Environment) (members : Toml.Members) : Option RenderStyle := do
  some {
    links := ← memberOr? members "links" false flag?
    urlStart := env.expand (← memberOr? members "url_prefix" "" text?) }

def store? (env : Environment) (members : Toml.Members) : Option StoreSettings := do
  let default : StoreSettings := {}
  some {
    backend := ← memberOr? members "backend" default.backend backend?
    redisUrl := ← memberOr? members "redis_url" default.redisUrl text?
    keySpace := env.expand (← memberOr? members "namespace" default.keySpace text?) }

/-- The settings in a TOML document. -/
def read? (env : Environment) (source : String) : Option Settings := do
  let members ← Toml.parse? source
  some {
    limits := ← limits? (← memberOr? members "query" [] members?)
    style := ← style? env (← memberOr? members "render" [] members?)
    store := ← store? env (← memberOr? members "store" [] members?) }

def toJson (s : Settings) : Json :=
  .object [
    ("query", .object [("max_filter_nodes", .nat s.limits.filterNodes),
      ("default_page_max_size", .ofOption (fun n => .nat n.toNat) s.limits.pageCeiling)]),
    ("render", .object [("links", .bool s.style.links), ("url_prefix", .str s.style.urlStart)]),
    ("store", .object [("backend", .str s.store.backend.name), ("redis_url", .str s.store.redisUrl),
      ("namespace", .str s.store.keySpace)])]

end Settings

end NestedResources
