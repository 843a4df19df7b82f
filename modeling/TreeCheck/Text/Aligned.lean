/-!
Aligned columns. Each tab ends a cell. In consecutive lines that have a cell in the same column,
the cells of that column are filled up to one width; the text after the last tab of a line belongs
to no column. Widths are counted in characters.
-/

namespace TreeCheck.Text

namespace Aligned

/-- A line: what is laid out already, the cells that are still to be laid out, and the rest. -/
structure Row where
  done : String := ""
  cells : List String
  rest : String
deriving DecidableEq, Repr, Inhabited

/-- A vertical tab ends a cell as well. -/
def Row.ofLine (line : String) : Row :=
  let parts := (line.map fun c => if c == '\x0b' then '\t' else c).splitOn "\t"
  { cells := parts.dropLast, rest := parts.getLastD "" }

def Row.text (row : Row) : String := row.done ++ row.rest

def fill (width : Nat) (text : String) : String :=
  text ++ String.ofList (List.replicate (width - text.length) ' ')

/-- Lays out the next cell of a row, if it has one. -/
def Row.place (width : Nat) (row : Row) : Row :=
  match row.cells with
  | [] => row
  | cell :: cells => { row with done := row.done ++ fill width cell, cells }

/-- The width of the widest next cell. -/
def widest (rows : List Row) : Nat :=
  rows.foldl (fun width row => max width (row.cells.headD "").length) 0

/-- Lays out one column. Each run of rows that have a cell in it gets a width of its own. -/
def placeColumn (padding : Nat) (rows : List Row) : List Row :=
  let runs := rows.splitBy fun a b => a.cells.isEmpty == b.cells.isEmpty
  runs.flatMap fun run => run.map (Row.place (widest run + padding))

/-- Lays out columns from left to right. -/
def placeColumns (padding : Nat) : Nat → List Row → List Row
  | 0, rows => rows
  | columns + 1, rows => placeColumns padding columns (placeColumn padding rows)

/-- Lays out the lines of a text that belong together. -/
def block (padding : Nat) (text : String) : String :=
  let rows := (text.splitOn "\n").map Row.ofLine
  let columns := rows.foldl (fun n row => max n row.cells.length) 0
  "\n".intercalate ((placeColumns padding columns rows).map Row.text)

end Aligned

/-- Aligns the columns of a text, with blanks between them. A form feed ends a line, and no column
goes on past it. -/
def align (padding : Nat) (text : String) : String :=
  "\n".intercalate ((text.splitOn "\x0c").map (Aligned.block padding))

end TreeCheck.Text
