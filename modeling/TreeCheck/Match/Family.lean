import TreeCheck.Match.Matrix
import TreeCheck.Number.Numeral

/-!
Families of tests. A column is switched on by a family of tests that no value passes twice: the
variants or truth values that occur, segments of the integers, lengths of arrays, the constants that
occur. A family also tells which values pass none of its tests.
-/

namespace TreeCheck.Match

/-- What a compilation may be told. -/
structure Options where
  /-- The integers that occur, in place of the bounds of their type. -/
  domain : Option (Int × Int) := none
  /-- Whether to keep the text of the matrix. -/
  verbose : Bool := false
deriving Repr, Inhabited

/-- The integers that a part of a type can be. -/
def Options.bounds (options : Options) (t : Ty) : Int × Int :=
  options.domain.getD (t.bounds?.getD (Numeral.minInt64, Numeral.maxInt64))

/-- A run of integers that the same rows admit. -/
structure Segment where
  low : Int
  high : Int
  /-- The positions of the rows. -/
  cover : List Nat
deriving DecidableEq, Repr, Inhabited

namespace Segment

/-- The positions of the shapes that admit all integers of a run. -/
def covering (column : List Shape) (low high : Int) : List Nat :=
  column.zipIdx.filterMap fun
    | (.range least greatest, i) => if least ≤ low && high ≤ greatest then some i else none
    | _ => none

/-- The nearest integer between two others. -/
def clamp (low high n : Int) : Int := if n < low then low else if high < n then high else n

/-- Where a column may change its mind, from `low` up to and including `stop`. -/
def points (column : List Shape) (low stop : Int) : List Int :=
  let inner := column.flatMap fun
    | .range least greatest =>
      if greatest < least then [] else [clamp low stop least, clamp low stop (greatest + 1)]
    | _ => []
  (low :: stop :: inner).mergeSort

/-- Drops repetitions that stand side by side. -/
def distinct : List Int → List Int
  | a :: b :: rest => if a == b then distinct (b :: rest) else a :: distinct (b :: rest)
  | ns => ns

/-- The runs between neighbouring points. -/
def pieces (column : List Shape) : List Int → List Segment
  | a :: b :: rest => ⟨a, b - 1, covering column a (b - 1)⟩ :: pieces column (b :: rest)
  | _ => []

/-- Joins neighbours with one cover. -/
def merge : List Segment → List Segment
  | [] => []
  | s :: rest =>
    match merge rest with
    | [] => [s]
    | next :: more =>
      if s.cover == next.cover then { s with high := next.high } :: more else s :: next :: more

def all (column : List Shape) (low high : Int) : List Segment :=
  merge (pieces column (distinct (points column low (high + 1))))

end Segment

namespace Family

/-- A variant with shapes of its payload; slots without one are wild. -/
def variantPattern (d : EnumDef) (v : Variant) (args : List Pattern) : Pattern :=
  if v.isNamed then
    let slots := v.fields.zipIdx.map fun (f, i) => (f.name, args[i]?)
    let fields := slots.filterMap fun
      | (_, none) | (_, some (.wildcard _)) => none
      | (name, some p) => some (FieldPattern.mk name p)
    .variant default d.name v.name [] fields (fields.length < slots.length)
  else
    .variant default d.name v.name
      ((List.range v.payload.length).map fun i => args[i]?.getD (.wildcard default)) [] false

def bools (column : List Shape) : List Test × List Pattern :=
  let occurs (value : Bool) : Bool := column.any fun
    | .bool b => b == value
    | _ => false
  ([false, true].filter occurs |>.map .bool,
    [false, true].filter (fun b => !occurs b) |>.map fun b => .literal default (.bool b))

def variants (d : EnumDef) (column : List Shape) : List Test × List Pattern :=
  let occurs (v : Variant) : Bool := column.any fun
    | .variant w _ => w.index == v.index
    | _ => false
  (d.variants.filter occurs |>.map .variant,
    d.variants.filter (fun v => !occurs v) |>.map fun v => variantPattern d v [])

def integers (column : List Shape) (bounds : Int × Int) : List Test × List Pattern :=
  let segments := Segment.all column bounds.1 bounds.2
  let gap := segments.find? fun s => s.cover.isEmpty
  (segments.filterMap fun s => if s.cover.isEmpty then none else some (.range s.low s.high),
    gap.toList.map fun s => .literal default (.int s.low))

def distinct (tests : List Test) : List Test :=
  tests.foldl (fun kept test =>
    if kept.any fun other => other.text == test.text then kept else kept ++ [test]) []

def constants (column : List Shape) : List Test × List Pattern :=
  (distinct (column.filterMap fun
    | .string value => some (.string value)
    | .float value => some (.float value)
    | _ => none), [.wildcard default])

def lengths (column : List Shape) : List Test × List Pattern :=
  let longest := column.foldl (fun n s => match s with
    | .list front _ _ => max n front.length
    | _ => n) 0
  let longestOpen := column.foldl (fun n s => match s with
    | .list front true _ => max n front.length
    | _ => n) 0
  ((List.range (longest + 1)).map .length ++ [.atLeast (longest + 1) longestOpen], [])

end Family

/-- The tests that a switch on a column needs, and patterns for the values that pass none of them.
There are no such patterns exactly when every value passes a test. -/
def Matrix.family (m : Matrix) (decls : Decls) (options : Options) (i : Nat) :
    Except Failure (List Test × List Pattern) := do
  let col ← m.column? i
  let column := m.column i
  match column.find? fun s => !s.isAny with
  | some (.bool _) => return Family.bools column
  | some (.variant ..) =>
    match col.type with
    | .enum name _ =>
      match decls.enum? name with
      | some d => return Family.variants d column
      | none => throw (.crash "variant of an unknown enum")
    | _ => throw (.crash "variant of a type that is no enum")
  | some (.range ..) => return Family.integers column (options.bounds col.type)
  | some (.string _) | some (.float _) => return Family.constants column
  | some (.list ..) => return Family.lengths column
  | _ => return ([], [.wildcard default])

end TreeCheck.Match
