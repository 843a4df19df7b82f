import TreeCheck.Defect
import TreeCheck.Match.Shape
import TreeCheck.Number.Binary64
import TreeCheck.Text.Quoted

/-!
Pattern matrices. A column is a part of the matched value, a row an arm or one alternative of an
arm. The steps of match compilation replace one column by others: those of a product, or those that
a test opens up.
-/

namespace TreeCheck.Match

/-- A test on a part of a value. -/
inductive Test where
  | bool (value : Bool)
  | variant (variant : Variant)
  /-- Both ends are included. -/
  | range (low high : Int)
  | string (value : Octets)
  | float (value : Binary64)
  /-- An array of an exact length. -/
  | length (count : Nat)
  /-- An array of at least a length, of which the first `front` elements are looked at. -/
  | atLeast (count front : Nat)
deriving Repr, Inhabited

/-- A part of the matched value. -/
structure Column where
  path : Path
  type : Ty
deriving Repr, Inhabited

namespace Test

def text : Test → String
  | .bool value => toString value
  | .variant v => v.name
  | .range low high => Shape.rangeText low high
  | .string value => value.quoted
  | .float value => value.text
  | .length count => s!"len {count}"
  | .atLeast count _ => s!"len >= {count}"

/-- The number of parts that a passed test opens up. -/
def arity : Test → Nat
  | .variant v => v.arity
  | .length count => count
  | .atLeast _ front => front
  | .bool _ | .range .. | .string _ | .float _ => 0

/-- The first elements of an array. -/
def items (path : Path) (element : Ty) (count : Nat) : List Column :=
  (List.range count).map fun i => ⟨path ++ [.item i], element⟩

/-- The parts that a passed test opens up. -/
def columns (decls : Decls) (col : Column) : Test → Except Failure (List Column)
  | .variant v =>
    match col.type with
    | .enum name args =>
      match decls.enum? name with
      | some d => .ok <| (Decls.slots d args v).mapIdx fun i type =>
        ⟨col.path ++ [.payload v.name i], type⟩
      | none => .error (.crash "variant of an unknown enum")
    | _ => .error (.crash "variant of a type that is no enum")
  | .length count =>
    match col.type with
    | .array element => .ok (items col.path element count)
    | _ => .error (.crash "element of a type that is no array")
  | .atLeast _ front =>
    match col.type with
    | .array element => .ok (items col.path element front)
    | _ => .error (.crash "element of a type that is no array")
  | .bool _ | .range .. | .string _ | .float _ => .ok []

/-- Whether a shape that tests something admits values that pass a test; if so, the shapes of the
parts and what it binds at the path. -/
def specialize? (path : Path) : Test → Shape → Option (List Shape × List Extraction)
  | .bool value, .bool wanted => if wanted == value then some ([], []) else none
  | .variant v, .variant wanted args =>
    if wanted.index == v.index then some (Shape.fit args v.arity, []) else none
  | .range low high, .range least greatest =>
    if least ≤ low && high ≤ greatest then some ([], []) else none
  | .string value, .string wanted => if wanted == value then some ([], []) else none
  | .float value, .float wanted => if wanted.same value then some ([], []) else none
  | .length count, .list front false _ => if front.length == count then some (front, []) else none
  | .length count, .list front true rest => openList count front rest
  | .atLeast _ count, .list front true rest => openList count front rest
  | _, _ => none
where
  openList (count : Nat) (front : List Shape) (rest : Option String) :
      Option (List Shape × List Extraction) :=
    if count < front.length then none
    else some (Shape.fit front count,
      rest.toList.map fun name => ⟨name, path ++ [.rest front.length]⟩)

end Test

/-- An arm, or one alternative of an arm. -/
structure Row where
  pats : List Shape
  arm : Nat := 0
  guarded : Bool := false
  /-- What was bound in columns that are gone. -/
  binds : List Extraction := []
deriving Repr, Inhabited

structure Matrix where
  cols : List Column
  rows : List Row
deriving Repr, Inhabited

namespace Row

/-- All that a row binds once its shapes test nothing more. -/
def bindings (r : Row) (cols : List Column) : List Extraction :=
  r.binds ++ (r.pats.zip cols).flatMap fun (s, col) => s.bound col.path

/-- The first column in which a row tests something. -/
def tested? (r : Row) : Option Nat := r.pats.findIdx? fun s => !s.isAny

def spread (r : Row) : List Row :=
  (Shape.spread r.pats).map fun (guarded, pats) =>
    { r with pats, guarded := r.guarded || guarded }

/-- One row for each alternative of the first shape; alternatives under a guard are dropped, for a
guard never covers a value for sure. -/
def sureHead (r : Row) : List Row :=
  match r.pats with
  | [] => [r]
  | head :: rest => head.sureHeads.map fun s => { r with pats := s :: rest }

/-- The tests in all alternatives of a row, and the alternatives themselves. -/
def weight (r : Row) : Nat := Shape.weightProduct r.pats + Shape.countProduct r.pats

def weightAll : List Row → Nat
  | [] => 0
  | r :: rest => r.weight + weightAll rest

end Row

namespace Matrix

/-- Every step of match compilation makes this smaller. -/
def weight (m : Matrix) : Nat := Row.weightAll m.rows

def spread (m : Matrix) : Matrix := { m with rows := m.rows.flatMap Row.spread }

def column (m : Matrix) (i : Nat) : List Shape := m.rows.filterMap fun r => r.pats[i]?

/-- The first column that some row takes apart as a product. -/
def productColumn? (m : Matrix) : Option Nat :=
  (List.range m.cols.length).find? fun i => (m.column i).any Shape.isProduct

/-- Replaces the shape at a column of each row by others, or drops the row. -/
def spliceRows (width i : Nat) (change : Shape → Option (List Shape × List Extraction)) :
    List Row → Except Failure (List Row)
  | [] => .ok []
  | r :: rest => do
    if r.pats.length != width then
      throw (.defect (.malformedMatrix
        s!"row for arm {r.arm} has {r.pats.length} patterns for {width} columns"))
    match r.pats[i]? with
    | none => throw (.crash "column out of range")
    | some s =>
      let rest ← spliceRows width i change rest
      match change s with
      | none => return rest
      | some (shapes, binds) =>
        let pats := r.pats.take i ++ shapes ++ r.pats.drop (i + 1)
        return { r with pats, binds := r.binds ++ binds } :: rest

/-- Replaces a column by others. -/
def splice (m : Matrix) (i : Nat) (sub : List Column)
    (change : Shape → Option (List Shape × List Extraction)) : Except Failure Matrix := do
  let rows ← spliceRows m.cols.length i change m.rows
  return { cols := m.cols.take i ++ sub ++ m.cols.drop (i + 1), rows }

def column? (m : Matrix) (i : Nat) : Except Failure Column :=
  match m.cols[i]? with
  | some col => .ok col
  | none => .error (.crash "column out of range")

/-- The parts of a tuple, a struct or a reference. -/
def parts (decls : Decls) (col : Column) : List Column :=
  match col.type with
  | .tuple elements => elements.mapIdx fun i type => ⟨col.path ++ [.element i], type⟩
  | .struct name args => (decls.fields name args).mapIdx fun i f =>
    ⟨col.path ++ [.field i f.name], f.type⟩
  | .ref _ target => [⟨col.path ++ [.target], target⟩]
  | _ => []

def partShapes (count : Nat) : Shape → List Shape
  | .product args => Shape.fit args count
  | .target inner => Shape.fit [inner] count
  | _ => Shape.wilds count

/-- Takes a column apart as a product; also tells the number of its parts. -/
def expand (m : Matrix) (decls : Decls) (i : Nat) : Except Failure (Matrix × Nat) := do
  let col ← m.column? i
  let sub := parts decls col
  let m ← m.splice i sub fun s => some (partShapes sub.length s, s.bound col.path)
  return (m, sub.length)

/-- The rows that admit a passed test, with the parts that it opens up. -/
def specialize (m : Matrix) (decls : Decls) (i : Nat) (test : Test) : Except Failure Matrix := do
  let col ← m.column? i
  let sub ← test.columns decls col
  m.splice i sub fun s =>
    if s.isAny then some (Shape.wilds sub.length, s.bound col.path) else test.specialize? col.path s

/-- The rows that test nothing in a column, without that column. -/
def without (m : Matrix) (i : Nat) : Except Failure Matrix := do
  let col ← m.column? i
  m.splice i [] fun s => if s.isAny then some ([], s.bound col.path) else none

def text (m : Matrix) : String :=
  let header := " | ".intercalate (m.cols.map fun col => s!"{col.path.text}: {col.type.text}")
  let row (r : Row) : String :=
    let mark := if r.guarded then " (guarded)" else ""
    " | ".intercalate (r.pats.map Shape.text) ++ s!"  => arm {r.arm}{mark}\n"
  header ++ "\n" ++ String.join (m.rows.map row)

end Matrix

end TreeCheck.Match
