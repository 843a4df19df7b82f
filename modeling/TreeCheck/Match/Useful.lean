import TreeCheck.Match.Tree

/-!
Usefulness of rows. A row is useful after others if it admits a value that none of them admits; an
arm without a useful row is never selected.
-/

namespace TreeCheck.Match

/-- Whether a test on a list holds of some element; elements are tried in order. -/
def anyM {α : Type} (test : α → Except Failure Bool) : List α → Except Failure Bool
  | [] => .ok false
  | a :: rest => do if ← test a then return true else anyM test rest

namespace Context

/-- One step of the search for a value that a row admits and a matrix does not. Columns in which
neither tests anything are skipped; what is left goes to `search`. -/
def usefulStep (ctx : Context) (search : Matrix → List Shape → Except Failure Bool) :
    Matrix → List Shape → Except Failure Bool
  | m, [] => .ok m.rows.isEmpty
  | m, head :: rest => do
    if m.rows.isEmpty then return true
    match head with
    | .choice alternatives => anyM (fun s => search m (s :: rest)) alternatives
    | .guarded inner => search m (inner :: rest)
    | _ =>
      let m := { m with rows := m.rows.flatMap Row.sureHead }
      if m.rows.isEmpty then return true
      if head.isProduct || (m.column 0).any Shape.isProduct then
        let (sub, arity) ← m.expand ctx.decls 0
        search sub (Matrix.partShapes arity head ++ rest)
      else
        let both : Matrix := ⟨m.cols, m.rows ++ [{ pats := head :: rest }]⟩
        let (tests, missing) ← both.family ctx.decls ctx.options 0
        if !head.isAny then
          anyM (fun test => match test.specialize? [] head with
            | some (args, _) => do search (← m.specialize ctx.decls 0 test) (args ++ rest)
            | none => .ok false) tests
        else if missing.isEmpty && !tests.isEmpty then
          anyM (fun test => do
            search (← m.specialize ctx.decls 0 test) (Shape.wilds test.arity ++ rest)) tests
        else ctx.usefulStep search (← m.without 0) rest

def usefulWithin (ctx : Context) : Nat → Matrix → List Shape → Except Failure Bool
  | 0, _, _ => .error (.crash "endless search")
  | fuel + 1, m, row => ctx.usefulStep (ctx.usefulWithin fuel) m row

/-- Whether a row admits a value that no row of a matrix admits. Every step of the search makes the
matrix lighter or the row smaller. -/
def useful (ctx : Context) (m : Matrix) (row : List Shape) : Except Failure Bool :=
  ctx.usefulWithin (m.weight + Shape.sizeAll row + 1) m row

/-- The arms none of whose alternatives is useful after the unguarded rows of earlier arms. -/
def unreachableAfter (ctx : Context) (cols : List Column) :
    List Row → List Row → Except Failure (List Nat)
  | _, [] => .ok []
  | prior, r :: rest => do
    let reachable ← anyM (fun a => ctx.useful ⟨cols, prior⟩ a.pats) r.spread
    let sure := r.spread.filter fun a => !a.guarded
    let later ← ctx.unreachableAfter cols (prior ++ sure) rest
    return if reachable then later else r.arm :: later

/-- The arms of a matrix that are never selected. -/
def unreachable (ctx : Context) (m : Matrix) : Except Failure (List Nat) :=
  ctx.unreachableAfter m.cols [] m.rows

end Context

/-- An arm of a match. -/
structure Arm where
  pattern : Pattern
  guarded : Bool := false
deriving Inhabited

/-- A compiled match. -/
structure Decision where
  tree : Tree
  /-- The positions of the arms that are never selected. -/
  unreachable : List Nat
  /-- The text of the first matrix, if it was asked for. -/
  matrix : String := ""
deriving Inhabited

namespace Decision

/-- Whether every value is matched by some arm. -/
def isExhaustive (d : Decision) : Bool := d.tree.failures.isEmpty

/-- Patterns for the values that no arm matches, each text once. -/
def witnesses (d : Decision) : List Pattern :=
  d.tree.failures.flatten.foldl (fun kept p =>
    if kept.any fun other => other.text == p.text then kept else kept ++ [p]) []

end Decision

/-- One row for each arm over the matched value. -/
def Matrix.ofArms (decls : Decls) (type : Ty) (arms : List Arm) : Matrix :=
  { cols := [⟨[], type⟩]
    rows := arms.zipIdx.map fun (a, i) =>
      { pats := [Shape.ofPattern decls a.pattern type], arm := i, guarded := a.guarded } }

def compile (ctx : Context) (type : Ty) (arms : List Arm) : Except Failure Decision := do
  let m := Matrix.ofArms ctx.decls type arms
  let tree ← ctx.tree m
  let unreachable ← ctx.unreachable m
  return { tree, unreachable, matrix := if ctx.options.verbose then m.spread.text else "" }

end TreeCheck.Match
