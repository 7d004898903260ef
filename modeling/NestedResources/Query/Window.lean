import NestedResources.Error
import NestedResources.Query.Params

/-!
# Windows and pages

A window is an offset with an optional limit, over an ordered list. Page numbers and offsets are
64-bit words.
-/
namespace NestedResources

structure Window where
  offset : UInt64
  limit : Option UInt64
deriving DecidableEq

namespace Window

def unbounded : Window := ⟨0, none⟩

instance : Inhabited Window := ⟨unbounded⟩

def isUnbounded (w : Window) : Bool := w.offset = 0 && w.limit.isNone

/-- The part of a list inside the window. -/
def apply {α : Type} (w : Window) (items : List α) : List α :=
  match w.limit with
  | some limit => (items.drop w.offset.toNat).take limit.toNat
  | none => items.drop w.offset.toNat

def natural? (raw : String) : Option UInt64 := Numeral.unsigned64? (Text.trim raw)

def positive? (raw : String) : Option UInt64 := (natural? raw).filter (0 < ·)

/-- A parameter that must be positive, if it is given. -/
def positiveParameter (params : Params) (parameter : String) : Except Error (Option UInt64) :=
  match params.first? parameter with
  | none => .ok none
  | some raw => match positive? raw with
    | some n => .ok (some n)
    | none => .error (.malformedQuery parameter (.notPositive parameter))

/-- The product, or the greatest word if it is greater. -/
def saturatingMul (a b : UInt64) : UInt64 :=
  if a.toNat * b.toNat < 0x10000000000000000 then a * b else 0xFFFFFFFFFFFFFFFF

/-- Reads `limit`, `offset` and `page`. The page size is the limit, else the ceiling; a limit above
the ceiling is refused. A page overrides the offset. -/
def ofParams (params : Params) (ceiling : Option UInt64) : Except Error Window := do
  let limit ← positiveParameter params "limit"
  match limit, ceiling with
  | some l, some c => if c < l then throw (.malformedQuery "limit" (.aboveCeiling l c))
  | _, _ => pure ()
  let size := limit.or ceiling
  let offset ← match params.first? "offset" with
    | none => pure 0
    | some raw => match natural? raw with
      | some n => pure n
      | none => throw (.malformedQuery "offset" .notNatural)
  match ← positiveParameter params "page" with
  | none => pure ⟨offset, size⟩
  | some page =>
    if 1 < page then match size with
      | some s => pure ⟨saturatingMul (page - 1) s, size⟩
      | none => throw (.malformedQuery "page" .pageWithoutSize)
    else pure ⟨0, size⟩

def toJson (w : Window) : Json :=
  .object [("offset", .nat w.offset.toNat), ("limit", .ofOption (fun n => .nat n.toNat) w.limit)]

end Window

/-- Where a window stands among the pages of a result. -/
structure PageInfo where
  available : UInt64
  pageSize : Option UInt64
  current : UInt64
  last : UInt64
  next : Option UInt64
  previous : Option UInt64
deriving DecidableEq

namespace PageInfo

/-- The quotient rounded up. -/
def ceilDiv (a b : UInt64) : UInt64 := if a % b = 0 then a / b else a / b + 1

/-- Without a limit there is one page. -/
def ofWindow (w : Window) (available : UInt64) : PageInfo :=
  let (current, last) := match w.limit with
    | some size => if 0 < size then (w.offset / size + 1, max 1 (ceilDiv available size)) else (1, 1)
    | none => (1, 1)
  { available, pageSize := w.limit, current, last
    next := if current < last then some (current + 1) else none
    previous := if 1 < current then some (current - 1) else none }

def toJson (p : PageInfo) : Json :=
  let word (n : UInt64) : Json := .nat n.toNat
  .object [("resources_available", word p.available), ("page_size", .ofOption word p.pageSize),
    ("current_page", word p.current), ("first_page", .nat 1), ("last_page", word p.last),
    ("next_page", .ofOption word p.next), ("previous_page", .ofOption word p.previous)]

end PageInfo

end NestedResources
