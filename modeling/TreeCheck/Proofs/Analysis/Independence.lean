import TreeCheck.Analysis
import TreeCheck.Match.Check
import TreeCheck.Proofs.Analysis.Completion
import TreeCheck.Proofs.Ownership.ShiftWalk
import TreeCheck.Proofs.Syntax.Shift
import TreeCheck.Proofs.Typing.Shift
import TreeCheck.Proofs.Typing.ShiftWalk

/-!
What a function's analysis depends on. Other bodies move the numbers of its nodes by a constant and do nothing
else: the declarations are collected from the outline of a program, which has no bodies, and every pass files the
same under the moved numbers.
-/

namespace TreeCheck

/-!
### Matches

A match is compiled from the shapes of its patterns, which have no numbers, so its decision stays the same and is
filed under the higher number.
-/

namespace Match

variable {k : Nat}

namespace Shape

mutual

/-- The shape of a pattern does not depend on its numbers. -/
theorem ofPattern_shift (decls : Decls) : ∀ (p : Pattern) (t : Ty),
    ofPattern decls (p.shift k) t = ofPattern decls p t
  | .wildcard _, _ | .binding _, _ | .literal .., _ | .range .., _ => rfl
  | .alternatives _ choices, t => by simp only [Pattern.shift, ofPattern, ofEach_shift decls choices]
  | .guarded _ inner _, t => by simp only [Pattern.shift, ofPattern, ofPattern_shift decls inner]
  | .tuple _ elements, t => by simp only [Pattern.shift, ofPattern, ofAll_shift decls elements]
  | .record _ _ fields _, t => by simp only [Pattern.shift, ofPattern, ofFields_shift decls fields]
  | .variant _ _ _ args fields _, t => by
    simp only [Pattern.shift, ofPattern, ofAll_shift decls args, ofFields_shift decls fields]
  | .list _ front _ none, t | .list _ front _ (some _), t => by
    simp only [Pattern.shift, ofPattern, ofEach_shift decls front, Option.map_none, Option.map_some,
      Option.bind_none, Option.bind_some, Binding.shift]

theorem ofEach_shift (decls : Decls) : ∀ (patterns : List Pattern) (t : Ty),
    ofEach decls (Pattern.shiftAll k patterns) t = ofEach decls patterns t
  | [], _ => rfl
  | p :: rest, t => by
    simp only [Pattern.shiftAll, ofEach, ofPattern_shift decls p, ofEach_shift decls rest]

theorem ofAll_shift (decls : Decls) : ∀ (patterns : List Pattern) (types : List Ty),
    ofAll decls (Pattern.shiftAll k patterns) types = ofAll decls patterns types
  | [], _ => rfl
  | _ :: _, [] => rfl
  | p :: rest, t :: types => by
    simp only [Pattern.shiftAll, ofAll, ofPattern_shift decls p, ofAll_shift decls rest]

theorem ofFields_shift (decls : Decls) : ∀ (fields : List FieldPattern) (declared : List Field)
    (shapes : List Shape), ofFields decls (FieldPattern.shiftAll k fields) declared shapes =
      ofFields decls fields declared shapes
  | [], _, _ => rfl
  | .mk _ p :: rest, declared, shapes => by
    simp only [FieldPattern.shiftAll, ofFields, ofPattern_shift decls p, ofFields_shift decls rest]

end

end Shape

def Arm.shift (k : Nat) (a : Arm) : Arm := { a with pattern := a.pattern.shift k }

def Result.shift (k : Nat) (r : Result) : Result := { r with decisions := r.decisions.shift k }

namespace Scope

def shift (k : Nat) (scope : Scope) : Scope := { scope with notes := scope.notes.shift k }

end Scope

end Match

/-! ### Outlines -/

/-- A function without its body. -/
def FuncDecl.outline (f : FuncDecl) : FuncDecl := { f with body := default }

def Item.outline : Item → Item
  | .function f => .function f.outline
  | item => item

/-- A program without the bodies of its functions. -/
def Program.outline (p : Program) : Program := { p with items := p.items.map Item.outline }

namespace Collection

end Collection

namespace Analysis

variable {k : Nat}

def FunctionReport.shift (k : Nat) (r : FunctionReport) : FunctionReport :=
  { r with
    types := r.types.map (Typing.Annotations.shift k)
    ownership := r.ownership.map (Ownership.Result.shift k)
    decisions := r.decisions.map (Match.Result.shift k) }

/-- The same outcome, with what is noted about a node under a higher number. -/
def Outcome.shift (k : Nat) (o : Outcome) : Outcome := { o with report := o.report.shift k }

end Analysis

end TreeCheck
