import TreeCheck.Symbol.Table
import TreeCheck.Syntax.NodeTable
import TreeCheck.Syntax.Printer
import TreeCheck.Ty.Engine

/-!
The state of type inference over one function: the engine, what is known about nodes, the names in
scope, and the checks that have to wait for final types. Inference stops only at an infinite type;
all other faults are reported.
-/

namespace TreeCheck.Typing

/-- What inference finds out about the nodes of a function. -/
structure Annotations where
  /-- The types of expressions and patterns. -/
  types : NodeTable Ty := []
  /-- Implicit conversions of values. -/
  coercions : NodeTable Coercion := []
  /-- The structs chosen for struct literals without a name. -/
  literalTargets : NodeTable String := []
  /-- The type arguments chosen for generic functions, structs and enums. -/
  instantiations : NodeTable (List Ty) := []
  calls : NodeTable Signature := []
  methods : NodeTable Signature := []
  variants : NodeTable VariantRef := []
  structs : NodeTable String := []
deriving Inhabited

/-- The type of a node; the invalid type if there is none. -/
def Annotations.typeOf (a : Annotations) (id : Nat) : Ty := (a.types.get? id).getD .invalid

/-- An integer literal whose range is checked once its type is known. -/
structure PendingLiteral where
  id : Nat
  span : Span
  value : Int
deriving Inhabited

/-- A cast that is checked once the type of its operand is known. -/
structure PendingCast where
  operand : Nat
  span : Span
  target : Ty
deriving Inhabited

structure State where
  engine : Engine := {}
  notes : Annotations := {}
  bag : Bag := {}
  /-- The types of the names in scope; innermost scope first, latest name first. -/
  scopes : List (List (String × Ty)) := []
  literals : List PendingLiteral := []
  casts : List PendingCast := []
  /-- The types of blocks that end in a return. -/
  diverging : List Ty := []
deriving Inhabited

/-- What a function is checked against. -/
structure Context where
  table : Table
  signature : Signature

abbrev Check : Type → Type := StateT State (Except Failure)

/-! ### Reporting -/

def Context.add (ctx : Context) (d : Diagnostic) : Check Unit :=
  modify fun s => { s with bag := s.bag.add { d with function := ctx.signature.name } }

def Context.report (ctx : Context) (kind : Diagnostic.Kind) (span : Span) (message : String) :
    Check Unit :=
  ctx.add { kind, span, message }

/-! ### Scopes -/

def push : Check Unit := modify fun s => { s with scopes := [] :: s.scopes }

/-- Leaves the innermost scope and tells what it declared. -/
def pop : Check (List (String × Ty)) :=
  modifyGet fun s => (s.scopes.headD [], { s with scopes := s.scopes.tail })

def inScope {α : Type} (check : Check α) : Check α := do
  push
  let result ← check
  let _ ← pop
  return result

def declare (name : String) (t : Ty) : Check Unit :=
  modify fun s => { s with scopes := match s.scopes with
    | [] => [[(name, t)]]
    | scope :: outer => ((name, t) :: scope) :: outer }

def lookup? (name : String) : Check (Option Ty) := do
  let s ← get
  return (s.scopes.findSome? fun scope => scope.find? fun entry => entry.1 == name).map Prod.snd

/-! ### Notes -/

def note (change : Annotations → Annotations) : Check Unit :=
  modify fun s => { s with notes := change s.notes }

def record (id : Nat) (t : Ty) : Check Unit :=
  note fun a => { a with types := a.types.insert id t }

/-- Records the type that a check finds for a node. -/
def recorded (id : Nat) (check : Check Ty) : Check Ty := do
  let t ← check
  record id t
  return t

def coerce (id : Nat) (coercion : Coercion) : Check Unit :=
  note fun a => { a with coercions := a.coercions.insert id coercion }

/-- Records type arguments, unless there are none. -/
def instantiated (id : Nat) (args : List Ty) : Check Unit :=
  if args.isEmpty then pure ()
  else note fun a => { a with instantiations := a.instantiations.insert id args }

def pendLiteral (id : Nat) (span : Span) (value : Int) : Check Unit :=
  modify fun s => { s with literals := s.literals ++ [⟨id, span, value⟩] }

/-- A literal below a minus sign is checked with its sign, at the sign. -/
def negateLiteral (id : Nat) (span : Span) (value : Int) : Check Unit :=
  modify fun s => { s with literals := s.literals.map fun lit =>
    if lit.id == id then ⟨id, span, -value⟩ else lit }

/-! ### Types -/

def fresh (literal : LiteralClass) : Check Ty :=
  modifyGet fun s =>
    let (t, engine) := s.engine.fresh literal
    (t, { s with engine })

def freshAll {α : Type} (params : List α) : Check (List Ty) :=
  modifyGet fun s =>
    let (types, engine) := s.engine.freshAll params.length
    (types, { s with engine })

/-- The outermost form of a type, as far as it is known. -/
def shallow (t : Ty) : Check Ty := return (← get).engine.shallow t

def shallow? (t : Option Ty) : Check (Option Ty) :=
  match t with
  | some t => some <$> shallow t
  | none => pure none

/-- The type inside references, and their number. The fuel bounds the number; a type and its
bindings are finite. -/
def derefWithin (engine : Engine) : Nat → Ty → Ty × Nat
  | 0, t => (engine.shallow t, 0)
  | fuel + 1, t =>
    match engine.shallow t with
    | .ref _ target =>
      let (base, count) := derefWithin engine fuel target
      (base, count + 1)
    | base => (base, 0)

def deref (t : Ty) : Check (Ty × Nat) := do
  let engine := (← get).engine
  return derefWithin engine (engine.resolve t).depth t

/-- Makes two types equal; tells whether that worked. -/
def Context.unify (ctx : Context) (span : Span) (expected found : Ty) : Check Bool := do
  let s ← get
  let (engine, error) := s.engine.unify expected found
  set { s with engine }
  match error with
  | none => return true
  | some (.infinite defect) => throw (.defect defect)
  | some (.mismatch expected found) =>
    ctx.report .typeMismatch span
      s!"mismatched types: expected `{expected.text}`, found `{found.text}`"
    return false

/-- Checks that the value of a node may be stored where a type is required, and records how it is
converted. -/
def Context.assign (ctx : Context) (e : Expr) (expected found : Ty) : Check Unit := do
  let s ← get
  let (engine, coercion, error) := s.engine.assign expected found
  set { s with engine }
  match error with
  | none => if coercion != .none then coerce e.id coercion
  | some (.infinite defect) => throw (.defect defect)
  | some (.mismatch expected found) =>
    ctx.report .typeMismatch e.span
      s!"mismatched types: expected `{expected.text}`, found `{found.text}`"

def Context.resolve (ctx : Context) (t : WrittenType) : Check Ty := do
  let (type, faults) := ctx.table.decls.resolve ctx.signature.typeParams t.span t.type
  let named := faults.map fun d => { d with function := ctx.signature.name }
  modify fun s => { s with bag := s.bag.addAll named }
  return type

/-- What an operator asks of a type that is known, and of an open literal. -/
structure Requirement where
  known : Ty → Bool
  literal : LiteralClass → Bool

namespace Requirement

def numeric : Requirement := ⟨Ty.isNumeric, fun _ => true⟩

def orderable : Requirement := ⟨fun t => t.isNumeric || t.isString, fun _ => true⟩

def signed : Requirement := ⟨fun t => t.isSigned || t.isFloat, fun _ => true⟩

def integer : Requirement := ⟨Ty.isInteger, fun literal => literal != .float⟩

def integerOrBool : Requirement :=
  ⟨fun t => t.isInteger || t.isBool, fun literal => literal != .float⟩

/-- Whether a type that is shallow meets a requirement. An invalid type meets every one. -/
def holds (r : Requirement) : Ty → Bool
  | .invalid => true
  | .var _ literal => r.literal literal
  | t => r.known t

end Requirement

/-- Reports an operator that cannot be applied to a type. -/
def Context.require (ctx : Context) (span : Span) (operator : String) (t : Ty) (r : Requirement) :
    Check Unit := do
  let t ← shallow t
  if !r.holds t then
    ctx.report .typeMismatch span s!"{operator} cannot be applied to `{t.text}`"

end TreeCheck.Typing
