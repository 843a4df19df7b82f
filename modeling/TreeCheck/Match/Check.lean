import TreeCheck.Match.Useful
import TreeCheck.Syntax.Nodes
import TreeCheck.Typing.State

/-!
The matches of a function: every match must cover all values and reach all its arms, and a pattern
that binds an initial value must not fail.
-/

namespace TreeCheck.Match

/-- What match checking finds out about a function. A match is filed under its own number, a binding
that may fail under the number of its pattern. -/
structure Result where
  decisions : NodeTable Decision := []
  diagnostics : List Diagnostic := []
deriving Inhabited

/-- Names up to three patterns, or two and the number of the others. -/
def listed (patterns : List Pattern) : String :=
  match patterns.map fun p => s!"`{p.text}`" with
  | [] => "`_`"
  | [a] => a
  | [a, b] => s!"{a} and {b}"
  | [a, b, c] => s!"{a}, {b} and {c}"
  | a :: b :: rest => s!"{a}, {b} and {rest.length} more"

/-- What a function is checked against. -/
structure Scope where
  compiler : Context
  function : String
  notes : Typing.Annotations

namespace Scope

/-- The report on values that are not matched. -/
def uncovered (scope : Scope) (span : Span) (problem hint : String) (d : Decision) :
    List Diagnostic :=
  if d.isExhaustive then []
  else
    [{ kind := .nonExhaustiveMatch, span, hint, function := scope.function
       message := s!"{problem}: {listed d.witnesses} not covered"
       detail := d.matrix }]

def checkMatch (scope : Scope) (info : NodeInfo) (scrutinee : Expr) (arms : List MatchArm) :
    Except Failure (Decision × List Diagnostic) := do
  let d ← compile scope.compiler (scope.notes.typeOf scrutinee.id)
    (arms.map fun a => { pattern := a.pattern, guarded := a.guard.isSome })
  let gaps := scope.uncovered info.span "non-exhaustive patterns"
    "add an arm for the missing patterns, or a `_` arm" d
  let idle := d.unreachable.filterMap fun i => (arms[i]?).map fun a =>
    let unreached : Diagnostic :=
      { kind := .unreachableArm, span := a.pattern.span, function := scope.function
        message := s!"unreachable pattern: arm {i + 1} is covered by earlier arms" }
    unreached.withLabel info.span "in this match"
  return (d, gaps ++ idle)

def checkBinding (scope : Scope) (p : Pattern) : Except Failure (Decision × List Diagnostic) := do
  let d ← compile scope.compiler (scope.notes.typeOf p.id) [{ pattern := p }]
  return (d, scope.uncovered p.span "refutable pattern in local binding"
    "use `match` to handle the remaining cases" d)

def checkNode (scope : Scope) : TreeNode → Except Failure (Option (Nat × Decision × List Diagnostic))
  | .expr (.select info scrutinee arms) => do
    return some (info.id, ← scope.checkMatch info scrutinee arms)
  | .stmt (.bind _ pattern _ (some _)) => do
    if pattern.irrefutable then return none
    return some (pattern.id, ← scope.checkBinding pattern)
  | _ => return none

def checkNodes (scope : Scope) : List TreeNode → Result → Except Failure Result
  | [], r => .ok r
  | node :: rest, r => do
    match ← scope.checkNode node with
    | none => scope.checkNodes rest r
    | some (id, d, ds) =>
      scope.checkNodes rest
        { decisions := r.decisions.insert id d, diagnostics := r.diagnostics ++ ds }

end Scope

def check (decls : Decls) (options : Options) (f : FuncDecl) (notes : Typing.Annotations) :
    Except Failure Result :=
  Scope.checkNodes { compiler := { decls, options }, function := f.qualifiedName, notes }
    f.body.nodes {}

end TreeCheck.Match
