import NestedResources.Json.Basic

/-!
# Methods, actions and request context

What a request asks for, and what a write does to an entity, a field or a relationship.
-/
namespace NestedResources

inductive Method where
  | get
  | post
  | put
  | patch
  | delete
  | options
deriving DecidableEq

namespace Method

def name : Method → String
  | get => "GET"
  | post => "POST"
  | put => "PUT"
  | patch => "PATCH"
  | delete => "DELETE"
  | options => "OPTIONS"

def all : List Method := [get, post, put, patch, delete, options]

/-- The method with a name in any case. -/
def ofName? (s : String) : Option Method := all.find? (·.name = Text.asciiUpper s)

end Method

inductive Action where
  | create
  | update
  | delete
  /-- Associates a member with a relationship. -/
  | add
  /-- Detaches a member from a relationship. -/
  | remove
deriving DecidableEq

def Action.name : Action → String
  | create => "create"
  | update => "update"
  | delete => "delete"
  | add => "add"
  | remove => "remove"

/-- What an action is done to. -/
inductive Subject where
  | entity
  | field (name : String)
  | relationship (name : String)
deriving DecidableEq

/-- Something a gate may refuse. -/
inductive Attempt where
  | method (m : Method)
  | change (action : Action) (subject : Subject)
deriving DecidableEq

def Attempt.describe : Attempt → String
  | method m => m.name
  | change action .entity => action.name
  | change action (.field name) => action.name ++ " field " ++ Text.ticked name
  | change action (.relationship name) => action.name ++ " through " ++ Text.ticked name

/-- Ambient values of one request, such as the current user. -/
structure Context where
  values : Dict Json

namespace Context

def empty : Context := ⟨.empty⟩

instance : Inhabited Context := ⟨empty⟩

def get? (ctx : Context) (key : String) : Option Json := ctx.values.get? key

end Context

end NestedResources
