import NestedResources.Text.Basic
import NestedResources.Text.Width

/-!
# Tables of text

A table is drawn in a frame, each column as wide as its widest line. Cells may hold several lines;
the cells of a row are filled up with blanks to one height and, in each column, to one width.
-/
namespace NestedResources.Cli

structure TextTable where
  header : Option (List String) := none
  rows : List (List String) := []
deriving DecidableEq

namespace TextTable

def cellLines (cell : String) : List String := Text.fields '\n' cell

/-- The header and the rows. -/
def allRows (t : TextTable) : List (List String) := t.header.toList ++ t.rows

def columnCount (t : TextTable) : Nat := (t.allRows.map List.length).foldl max 0

/-- The width of a column with these cells, at least 1. -/
def widthOf (cells : List String) : Nat :=
  ((cells.flatMap cellLines).map Text.width).foldl max 1

def columnWidths (t : TextTable) : List Nat :=
  (List.range t.columnCount).map fun i => widthOf (t.allRows.filterMap (·[i]?))

def fill (n : Nat) (c : Char) : String := String.ofList (List.replicate n c)

/-- A line of a cell between blanks. -/
def pad (width : Nat) (line : String) : String :=
  " " ++ line ++ fill (width - Text.width line) ' ' ++ " "

def drawLine (widths : List Nat) (parts : List String) : String :=
  "|" ++ Text.join "|" (List.zipWith pad widths parts) ++ "|"

/-- The lines of a row: as many as its highest cell has. -/
def drawRow (widths : List Nat) (cells : List String) : List String :=
  let columns := (List.range widths.length).map fun i => cellLines (cells[i]?.getD "")
  let height := (columns.map List.length).foldl max 0
  (List.range height).map fun k => drawLine widths (columns.map fun lines => lines[k]?.getD "")

/-- A horizontal rule: how it ends, what it is made of, and how it crosses the columns. -/
structure Rule where
  edge : String
  stroke : Char
  crossing : String

/-- At the top and at the bottom. -/
def frameRule : Rule := ⟨"+", '-', "+"⟩
def headerRule : Rule := ⟨"+", '=', "="⟩
def rowRule : Rule := ⟨"|", '-', "+"⟩

def drawRule (widths : List Nat) (r : Rule) : String :=
  r.edge ++ Text.join r.crossing (widths.map fun w => fill (w + 2) r.stroke) ++ r.edge

/-- Rows with a rule between them. -/
def drawRows (widths : List Nat) : List (List String) → List String
  | [] => []
  | [row] => drawRow widths row
  | row :: rows => drawRow widths row ++ drawRule widths rowRule :: drawRows widths rows

def lines (t : TextTable) : List String :=
  let widths := t.columnWidths
  let header := match t.header with
    | some cells => drawRow widths cells ++ [drawRule widths headerRule]
    | none => []
  drawRule widths frameRule :: header ++ drawRows widths t.rows ++ [drawRule widths frameRule]

def render (t : TextTable) : String := Text.join "\n" t.lines

end TextTable

end NestedResources.Cli
