import TreeCheck.Syntax.Nodes
import TreeCheck.Typing.Infer

/-!
Type checking of a function: inference over its body, then the checks that need final types.
-/

namespace TreeCheck

/-- Where a node of a body stands. -/
def Block.spanOf? (b : Block) (id : Nat) : Option Span :=
  b.nodes.findSome? fun
    | .expr e => if e.id == id then some e.span else none
    | .pattern p => if p.id == id then some p.span else none
    | .stmt _ => none

namespace Typing

/-- What type checking finds out about a function. -/
structure Result where
  notes : Annotations := {}
  diagnostics : List Diagnostic := []
deriving Inhabited

def Result.isOk (r : Result) : Bool := r.diagnostics.isEmpty

namespace Context

/-- Declares the parameters and infers the body against the result type. -/
def checkBody (ctx : Context) (f : FuncDecl) : Check Unit := inScope do
  if let some t := ctx.signature.receiverType? then declare "self" t
  ctx.signature.params.forM fun p => declare p.name p.type
  let result := ctx.signature.result
  let _ ← recorded f.body.id (inferBlock ctx f.body (some result))
  match f.body.tail with
  | some value =>
    if let some found := (← get).notes.types.get? value.id then ctx.assign value result found
  | none =>
    if !f.body.endsInReturn && !result.isUnit then
      ctx.report .typeMismatch f.span
        (s!"function `{ctx.signature.name}` returns `{result.text}` "
          ++ "but its body produces no value")

/-- Binds open literals to their default types, and blocks that only return to the unit type. -/
def settle : Check Unit :=
  modify fun s =>
    let engine := s.diverging.foldl (fun engine t =>
      if (engine.shallow t).isVar then (engine.unify t .unit).1 else engine) s.engine.default
    { s with engine }

/-- Reports integer literals out of the range of their type. -/
def checkLiterals (ctx : Context) : Check Unit := do
  let s ← get
  s.literals.forM fun lit => do
    let t := s.engine.resolve (s.notes.typeOf lit.id)
    if t.isInteger && !t.fits lit.value then
      ctx.report .typeMismatch lit.span
        s!"integer literal `{lit.value}` does not fit in `{t.text}`"

/-- Reports casts that are not allowed. -/
def checkCasts (ctx : Context) : Check Unit := do
  let s ← get
  s.casts.forM fun cast => do
    let source := s.engine.resolve (s.notes.typeOf cast.operand)
    if !source.isVar && !source.canCast cast.target then
      ctx.add
        { kind := .invalidCast, span := cast.span
          message := s!"cannot cast `{source.text}` as `{cast.target.text}`"
          hint := "only numeric types and bool-to-integer conversions are allowed" }

/-- Replaces all types by what they were found to be, and reports the first node whose type stays
open. -/
def resolveTypes (ctx : Context) (f : FuncDecl) : Check Unit := do
  let engine := (← get).engine
  note fun a =>
    { a with
      types := a.types.entries.map fun entry => (entry.1, engine.resolve entry.2)
      instantiations := NodeTable.map a.instantiations (List.map engine.resolve) }
  match (← get).notes.types.find? fun entry => entry.2.hasVars with
  | none => pure ()
  | some (id, t) =>
    ctx.add
      { kind := .unresolvedType, span := (f.body.spanOf? id).getD default
        message := s!"cannot infer a type for this expression (found `{t.text}`)"
        hint := "add a type annotation" }

def run (ctx : Context) (f : FuncDecl) : Check Unit := do
  ctx.checkBody f
  settle
  ctx.checkLiterals
  ctx.checkCasts
  ctx.resolveTypes f

end Context

/-- Type-checks the function at a position of a program. A declaration that was rejected has no
signature and is passed over. -/
def check (table : Table) (position : Nat) (f : FuncDecl) : Except Failure Result := do
  match table.signature? position f with
  | none => return {}
  | some signature =>
    let ((), s) ← (Context.run { table, signature } f).run {}
    return { notes := s.notes, diagnostics := s.bag.items }

end Typing

end TreeCheck
