import TreeCheck.Match.Family

/-!
Witnesses: patterns for values that no arm matches. Each step of a compilation is remembered as a
frame; going back through the frames turns patterns for the columns at hand into patterns for the
matched value.
-/

namespace TreeCheck.Match

/-- How the patterns of some columns become one pattern. -/
inductive Frame.Form where
  /-- The parts of a product of a type. -/
  | product (type : Ty)
  /-- The parts that a passed test opened up. -/
  | test (type : Ty) (test : Test)
  /-- The values that passed no test; there are no parts. -/
  | missing (patterns : List Pattern)

/-- A step of a compilation: `arity` columns from `col` on came from one column. -/
structure Frame where
  col : Nat
  arity : Nat
  form : Frame.Form

namespace Frame

def isWildcard : Pattern → Bool
  | .wildcard _ => true
  | _ => false

def structPattern (name : String) (fields : List Field) (args : List Pattern) : Pattern :=
  let shown := (fields.zip args).filterMap fun (f, p) =>
    if isWildcard p then none else some (FieldPattern.mk f.name p)
  .record default name shown (args.any isWildcard)

def productPattern (decls : Decls) (type : Ty) (args : List Pattern) : Except Failure Pattern :=
  match type with
  | .tuple _ => .ok (.tuple default args)
  | .struct name typeArgs =>
    let fields := decls.fields name typeArgs
    if fields.length < args.length then .error (.crash "field out of range")
    else .ok (structPattern name fields args)
  | .ref .. =>
    match args with
    | inner :: _ => .ok inner
    | [] => .error (.crash "reference without a target")
  | _ => .ok (.tuple default [])

def testPattern (decls : Decls) (type : Ty) (args : List Pattern) : Test → Except Failure Pattern
  | .bool value => .ok (.literal default (.bool value))
  | .variant v =>
    match type with
    | .enum name _ =>
      match decls.enum? name with
      | some d => .ok (Family.variantPattern d v args)
      | none => .error (.crash "variant of an unknown enum")
    | _ => .error (.crash "variant of a type that is no enum")
  | .range low _ => .ok (.literal default (.int low))
  | .string value => .ok (.literal default (.string value))
  | .float value => .ok (.literal default (.float value))
  | .length _ => .ok (.list default args false none)
  | .atLeast count _ =>
    .ok (.list default (args ++ List.replicate (count - args.length) (.wildcard default)) true none)

/-- The patterns of one column from those of the columns it was replaced by. -/
def build (decls : Decls) (args : List Pattern) : Form → Except Failure (List Pattern)
  | .product type => return [← productPattern decls type args]
  | .test type test => return [← testPattern decls type args test]
  | .missing patterns => .ok patterns

/-- Goes back through one frame. -/
def undo (decls : Decls) (f : Frame) (vector : List Pattern) :
    Except Failure (List (List Pattern)) := do
  if vector.length < f.col + f.arity then throw (.crash "column out of range")
  let built ← build decls ((vector.drop f.col).take f.arity) f.form
  return built.map fun p => vector.take f.col ++ [p] ++ vector.drop (f.col + f.arity)

/-- Goes back through one frame with several patterns. -/
def undoAll (decls : Decls) (f : Frame) : List (List Pattern) →
    Except Failure (List (List Pattern))
  | [] => .ok []
  | vector :: rest => return (← f.undo decls vector) ++ (← undoAll decls f rest)

/-- The number of witnesses that are kept. -/
def limit : Nat := 8

/-- Goes back through all frames, the latest first. -/
def unwind (decls : Decls) : List Frame → List (List Pattern) →
    Except Failure (List (List Pattern))
  | [], vectors => .ok vectors
  | f :: rest, vectors => do unwind decls rest ((← f.undoAll decls vectors).take limit)

/-- Patterns for the values that reach a point with some columns left, of which nothing more is
known. -/
def witnesses (decls : Decls) (frames : List Frame) (width : Nat) :
    Except Failure (List Pattern) := do
  let vectors ← unwind decls frames [List.replicate width (.wildcard default)]
  return vectors.filterMap List.head?

end Frame

end TreeCheck.Match
