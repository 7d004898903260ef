import NestedResources.Error
import NestedResources.Filter.Basic
import NestedResources.Json.Reader

/-!
# Structured filters

The JSON syntax of filters: `$and`, `$or` and `$not` over scopes, a path with a literal for equality,
a path with comparison tokens, and a path with a scope whose paths start there. Documents of any depth
are read with a stack of tasks. Every node of the filter is counted when it is met, and a document with
more nodes than allowed is given up at once.
-/
namespace NestedResources

namespace Structured

/-- The parameter that a document belongs to, and how many nodes its filter may have. -/
structure Site where
  parameter : String
  limit : Nat

/-- Counts one more node. -/
def Site.spend (site : Site) (nodes : Nat) : Except Error Nat :=
  if nodes < site.limit then .ok (nodes + 1) else .error (.tooComplex site.limit)

def Site.refuse {α : Type} (site : Site) (fault : ParameterFault) : Except Error α :=
  .error (.malformedQuery site.parameter fault)

/-! ## Keys -/

inductive Combinator where
  | and
  | or
  | not
deriving DecidableEq

namespace Combinator

def ofKey? (key : String) : Option Combinator :=
  if key = "$and" then some and
  else if key = "$or" then some or
  else if key = "$not" then some not
  else none

def build : Combinator → List Filter → Filter
  | and => .and
  | or => .or
  | not => .not

end Combinator

def isToken (key : String) : Bool := key.toList.head? = some '$'

def isCombinator (key : String) : Bool := (Combinator.ofKey? key).isSome

/-- Comparison tokens only. -/
def isOperatorMap (members : List (String × Json)) : Bool :=
  !members.isEmpty && members.all fun e => isToken e.1 && !isCombinator e.1

/-- Paths and combinators only. -/
def isScope (members : List (String × Json)) : Bool :=
  !members.isEmpty && members.all fun e => !isToken e.1 || isCombinator e.1

/-! ## Comparisons -/

/-- One comparison; its value must be a scalar. -/
def leaf (path : String) (operator : Operator) (value : Json) : Except Error Filter :=
  if value.isScalar then .ok (.compare ⟨path, operator, value⟩)
  else .error (.malformedQuery path .notAScalar)

/-- The comparisons of a path with tokens, and the number of nodes after them. -/
def comparisons (site : Site) (path : String) :
    List (String × Json) → Nat → Except Error (List Filter × Nat)
  | [], nodes => .ok ([], nodes)
  | (token, value) :: rest, nodes =>
    match Operator.ofToken? token with
    | none => .error (.malformedQuery path (.unknownOperator token))
    | some operator => do
      let first ← leaf path operator value
      let nodes ← site.spend nodes
      (comparisons site path rest nodes).map fun done => (first :: done.1, done.2)

/-- The one filter of a list, or the conjunction of several. -/
def conjunction : List Filter → Filter
  | [only] => only
  | several => .and several

/-- A path with tokens: one comparison, or the conjunction of several. -/
def operatorMap (site : Site) (path : String) (members : List (String × Json)) (nodes : Nat) :
    Except Error (Filter × Nat) := do
  let nodes ← if 1 < members.length then site.spend nodes else pure nodes
  (comparisons site path members nodes).map fun done => (conjunction done.1, done.2)

/-- A path with a literal. -/
def literal (site : Site) (path : String) (value : Json) (nodes : Nat) :
    Except Error (Filter × Nat) := do
  let only ← leaf path .eq value
  pure (only, ← site.spend nodes)

/-! ## Tasks -/

/-- What is still to be done. `base` is the path of a scope, with a point at its end unless it is
empty. -/
inductive Task where
  /-- Reads an object whose keys are combinators and paths. -/
  | scope (base : String) (members : List (String × Json))
  /-- Reads one member of such an object. -/
  | member (base key : String) (value : Json)
  /-- Combines the last `arity` filters. -/
  | build (combinator : Combinator) (arity : Nat)

/-- What has been read so far. -/
structure State where
  /-- The filters that are complete, the last one first. -/
  output : List Filter := []
  nodes : Nat := 0

namespace State

/-- Adds a filter that is complete, with the number of nodes after it. -/
def finish (s : State) (done : Filter × Nat) : State := ⟨done.1 :: s.output, done.2⟩

/-- Combines the last filters, all of them if there are not as many as wanted. -/
def combine (s : State) (combinator : Combinator) (arity : Nat) : State :=
  { s with output := combinator.build (s.output.take arity).reverse :: s.output.drop arity }

end State

/-- The members of an object are read in turn; those of an object with several are combined. -/
def enterScope (site : Site) (base : String) (members : List (String × Json)) (s : State) :
    Except Error (List Task × State) :=
  let entries := members.map fun e => Task.member base e.1 e.2
  match members with
  | [] =>
    let spot := Text.dropEnd '.' base
    .error (.malformedQuery (if spot = "" then site.parameter else spot) .emptyObject)
  | [_] => .ok (entries, s)
  | _ => do
    let nodes ← site.spend s.nodes
    pure (entries ++ [Task.build .and members.length], { s with nodes })

/-- A combinator takes the scopes of an array. `$not` takes a single scope as well. -/
def enterCombinator (site : Site) (base key : String) (combinator : Combinator) (value : Json)
    (s : State) : Except Error (List Task × State) :=
  match combinator, value with
  | combinator, .arr items => do
    let nodes ← site.spend s.nodes
    match items.mapM Json.object? with
    | none => site.refuse (.childNotAnObject key)
    | some scopes =>
      pure (scopes.map (Task.scope base) ++ [Task.build combinator items.length], { s with nodes })
  | .not, .obj members => do
    let nodes ← site.spend s.nodes
    pure ([.scope base members, .build .not 1], { s with nodes })
  | .not, _ => do
    let _ ← site.spend s.nodes
    site.refuse .notObjectOrArray
  | _, _ => site.refuse (.notAnArray key)

/-- A path takes comparison tokens, a scope or a literal. -/
def enterPath (site : Site) (path : String) (value : Json) (s : State) :
    Except Error (List Task × State) :=
  match value with
  | .obj members =>
    if isOperatorMap members then
      (operatorMap site path members s.nodes).map fun done => ([], s.finish done)
    else if isScope members then .ok ([.scope (path ++ ".") members], s)
    else if members.isEmpty then .error (.malformedQuery path .emptyObject)
    else .error (.malformedQuery path .mixedScope)
  | value => (literal site path value s.nodes).map fun done => ([], s.finish done)

/-- Does one task; the tasks that it leaves come before all others. -/
def step (site : Site) (s : State) : Task → Except Error (List Task × State)
  | .scope base members => enterScope site base members s
  | .member base key value =>
    match Combinator.ofKey? key with
    | some combinator => enterCombinator site base key combinator value s
    | none =>
      if isToken key then site.refuse (.unknownOperator key)
      else enterPath site (base ++ key) value s
  | .build combinator arity => .ok ([], s.combine combinator arity)

/-! ## Running

The tasks that a task leaves weigh less than the task: an object weighs more than its members. -/

noncomputable def Task.weight : Task → Nat
  | .scope _ members => 2 * sizeOf members + 2
  | .member _ _ value => 2 * sizeOf value + 2
  | .build _ _ => 1

noncomputable def weight : List Task → Nat
  | [] => 0
  | t :: tasks => t.weight + weight tasks

@[simp] theorem weight_nil : weight [] = 0 := rfl

@[simp] theorem weight_cons (t : Task) (tasks : List Task) :
    weight (t :: tasks) = t.weight + weight tasks := rfl

@[simp] theorem weight_append (tasks more : List Task) :
    weight (tasks ++ more) = weight tasks + weight more := by
  induction tasks with
  | nil => simp
  | cons t tasks ih =>
    simp only [List.cons_append, weight_cons, ih]
    omega

theorem weight_members (base : String) (members : List (String × Json)) :
    weight (members.map fun e => Task.member base e.1 e.2) + 2 ≤ 2 * sizeOf members := by
  induction members with
  | nil => simp
  | cons e rest ih =>
    obtain ⟨key, value⟩ := e
    simp only [List.map_cons, weight_cons, Task.weight, List.cons.sizeOf_spec, Prod.mk.sizeOf_spec]
    omega

theorem weight_scopes (base : String) {items : List Json} {scopes : List (List (String × Json))}
    (h : items.mapM Json.object? = some scopes) :
    weight (scopes.map (Task.scope base)) + 2 ≤ 2 * sizeOf items := by
  induction items generalizing scopes with
  | nil =>
    cases h
    simp
  | cons item items ih =>
    rw [List.mapM_cons] at h
    obtain ⟨members, hitem, h⟩ := Option.bind_eq_some_iff.1 h
    obtain ⟨rest, hrest, h⟩ := Option.bind_eq_some_iff.1 h
    cases h
    cases item with
    | obj ms =>
      cases hitem
      have hweight := ih hrest
      simp only [List.map_cons, weight_cons, Task.weight, List.cons.sizeOf_spec, Json.obj.sizeOf_spec]
      omega
    | _ => cases hitem

section

variable {site : Site} {base key : String} {s : State} {next : List Task × State}

theorem weight_enterScope {members : List (String × Json)}
    (h : enterScope site base members s = .ok next) : weight next.1 < (Task.scope base members).weight := by
  have hmembers := weight_members base members
  unfold enterScope at h
  split at h
  · cases h
  · cases h
    simp only [Task.weight]
    omega
  · cases hn : site.spend s.nodes with
    | error e =>
      rw [hn] at h
      cases h
    | ok nodes =>
      rw [hn] at h
      cases h
      simp only [weight_append, weight_cons, weight_nil, Task.weight] at hmembers ⊢
      omega

theorem weight_enterCombinator {combinator : Combinator} {value : Json}
    (h : enterCombinator site base key combinator value s = .ok next) :
    weight next.1 < (Task.member base key value).weight := by
  unfold enterCombinator at h
  cases hn : site.spend s.nodes with
  | error e =>
    rw [hn] at h
    split at h <;> cases h
  | ok nodes =>
    rw [hn] at h
    split at h
    · rename_i items
      dsimp only [bind, Except.bind] at h
      split at h
      · cases h
      · rename_i scopes hscopes
        have hitems := weight_scopes base hscopes
        cases h
        simp only [weight_append, weight_cons, weight_nil, Task.weight, Json.arr.sizeOf_spec]
          at hitems ⊢
        omega
    · cases h
      simp only [weight_cons, weight_nil, Task.weight, Json.obj.sizeOf_spec]
      omega
    · cases h
    · cases h

theorem weight_enterPath {path : String} {value : Json} (h : enterPath site path value s = .ok next) :
    weight next.1 < (Task.member base key value).weight := by
  have hfinish : ∀ {x : Except Error (Filter × Nat)},
      (x.map fun done => (([] : List Task), s.finish done)) = .ok next →
        weight next.1 < (Task.member base key value).weight := by
    intro x hx
    cases x with
    | error e => cases hx
    | ok done =>
      cases hx
      simp only [weight_nil, Task.weight]
      omega
  unfold enterPath at h
  split at h
  · split at h
    · exact hfinish h
    · split at h
      · cases h
        simp only [weight_cons, weight_nil, Task.weight, Json.obj.sizeOf_spec]
        omega
      · split at h <;> cases h
  · exact hfinish h

theorem weight_step {t : Task} (h : step site s t = .ok next) : weight next.1 < t.weight := by
  cases t with
  | scope base members => exact weight_enterScope h
  | member base key value =>
    rw [step] at h
    split at h
    · exact weight_enterCombinator h
    · split at h
      · cases h
      · exact weight_enterPath h
  | build combinator arity =>
    cases h
    exact Nat.one_pos

end

/-- Does all tasks. -/
def run (site : Site) (s : State) : List Task → Except Error State
  | [] => .ok s
  | t :: tasks =>
    match _h : step site s t with
    | .error e => .error e
    | .ok next => run site next.2 (next.1 ++ tasks)
termination_by tasks => weight tasks
decreasing_by
  rw [weight_append, weight_cons]
  exact Nat.add_lt_add_right (weight_step _h) _

end Structured

/-- The filter that a structured document stands for, of at most `limit` nodes. -/
def Filter.ofStructured (parameter : String) (limit : Nat) : Json → Except Error Filter
  | .obj members => do
    let site : Structured.Site := ⟨parameter, limit⟩
    let done ← Structured.run site {} [.scope "" members]
    match done.output with
    | [f] => pure f
    | _ => site.refuse .unbalanced
  | _ => .error (.malformedQuery parameter .notAnObject)

/-- The filter that the text of a parameter stands for. -/
def Filter.readStructured (parameter : String) (limit : Nat) (text : String) : Except Error Filter :=
  match Json.read text with
  | .ok document => Filter.ofStructured parameter limit document
  | .error e =>
    if e.fault = .tooDeep then .error (.tooComplex limit)
    else .error (.malformedQuery parameter (.invalidJson e.message))

end NestedResources
