import TreeCheck.Number.Numeral
import TreeCheck.Typing.State

/-!
What names stand for in an expression or pattern: variables, functions, methods, fields, structs and
variants.
-/

namespace TreeCheck

/-- Operators with one typing rule. -/
inductive BinaryOp.Group where
  | arithmetic
  | bitwise
  | shift
  | ordering
  | equality
  | logical
deriving DecidableEq, Repr

def BinaryOp.group : BinaryOp → BinaryOp.Group
  | .add | .sub | .mul | .div | .rem => .arithmetic
  | .bitAnd | .bitOr | .bitXor => .bitwise
  | .shl | .shr => .shift
  | .lt | .gt | .le | .ge => .ordering
  | .eq | .ne => .equality
  | .and | .or => .logical

/-- Whether a block has no value because its last statement returns. -/
def Block.endsInReturn (b : Block) : Bool :=
  b.tail.isNone && match b.stmts.getLast? with
    | some (.ret ..) => true
    | _ => false

/-- The position in a tuple that a field name means: a decimal number with an optional sign. -/
def tupleIndex? (name : String) : Option Nat := do
  let n ← match name.toList with
    | '+' :: '-' :: _ => none
    | '+' :: digits => Numeral.readDecimal? digits
    | text => Numeral.readDecimal? text
  guard (Numeral.fitsInt64 n && 0 ≤ n)
  return n.toNat

namespace Typing

/-- The type of a field by its name; of equal names the last counts. -/
def fieldNamed? (fields : List Field) (name : String) : Option Ty :=
  (fields.reverse.find? fun f => f.name == name).map Field.type

namespace Context

/-- A name is a variable in scope, or else a declared function. -/
def nameType (ctx : Context) (info : NodeInfo) (name : String) : Check Ty := do
  match ← lookup? name with
  | some t => return t
  | none =>
    match ctx.table.function? name with
    | some signature =>
      let args ← freshAll signature.typeParams
      instantiated info.id args
      note fun a => { a with calls := a.calls.insert info.id signature }
      return signature.type.instantiate signature.typeParams args
    | none =>
      ctx.report .undefinedName info.span s!"cannot find value `{name}` in this scope"
      return .invalid

/-- The declared function that a callee names, unless a variable hides it. -/
def namedFunction? (ctx : Context) (callee : Expr) : Check (Option Signature) := do
  match callee with
  | .ident _ name =>
    match ← lookup? name with
    | some _ => return none
    | none => return ctx.table.function? name
  | _ => return none

/-- Calls a declared function: its parameter types and its result type with fresh type arguments. -/
def enterCall (info : NodeInfo) (callee : Expr) (signature : Signature) :
    Check (List Ty × Ty) := do
  let args ← freshAll signature.typeParams
  let open_ := Ty.instantiate signature.typeParams args
  let params := signature.params.map fun p => open_ p.type
  let result := open_ signature.result
  record callee.id (.function params result)
  note fun a => { a with calls := a.calls.insert info.id signature }
  instantiated info.id args
  return (params, result)

/-- The parameter types for a number of arguments, or nothing if there are more or fewer. -/
def arity (ctx : Context) (span : Span) (name : String) (count : Nat) (params : List Ty) :
    Check (Option (List Ty)) := do
  if count == params.length then return some params
  ctx.report .arityMismatch span
    s!"`{name}` takes {params.length} argument(s) but {count} were supplied"
  return none

/-- Whether a type is known to be no reference. -/
def isValue : Ty → Bool
  | .ref .. | .invalid => false
  | .var _ literal => literal != .general
  | _ => true

/-- Passes an argument to a parameter, whose type had the form `known` before. A place that holds a
plain value is borrowed where a reference is wanted. -/
def pass (ctx : Context) (a : Expr) (want known found : Ty) : Check Unit := do
  match known with
  | .ref mutable target =>
    if a.isPlace && isValue (← shallow found) then
      if ← ctx.unify a.span target found then
        coerce a.id (if mutable then .autoRefMut else .autoRef)
    else ctx.assign a want found
  | _ => ctx.assign a want found

/-- The method that a call on a value of a type means. A type without a name has none. -/
def method? (ctx : Context) (info : NodeInfo) (receiver : Expr) (name : String) (base : Ty) :
    Check (Option Signature) := do
  let missing : Check (Option Signature) := do
    ctx.report .undefinedName info.span s!"no method `{name}` on type `{base.text}`"
    return none
  match base with
  | .struct type _ | .enum type _ =>
    if type.isEmpty then return none
    match ctx.table.method? type name with
    | some signature => return some signature
    | none => missing
  | .invalid => return none
  | .var .. =>
    ctx.report .unresolvedType receiver.span
      s!"type of method receiver must be known to call `{name}`"
    return none
  | _ => missing

/-- Checks that a value may be taken the way a method takes it; `derefs` references are around the
value. -/
def takeReceiver (ctx : Context) (receiver : Expr) (name : String) (outer base : Ty)
    (derefs : Nat) : SelfMode → Check Unit
  | .value => do
    if 0 < derefs then
      ctx.report .typeMismatch receiver.span
        s!"cannot move `{base.text}` out of a reference to call `{name}`"
  | .shared => do if derefs == 0 then coerce receiver.id .autoRef
  | .exclusive => do
    if derefs == 0 then coerce receiver.id .autoRefMut
    else
      match ← shallow outer with
      | .ref true _ => pure ()
      | _ =>
        ctx.report .typeMismatch receiver.span
          s!"cannot borrow `{receiver.text}` as mutable through a `&` reference to call `{name}`"

/-- Calls a method: its parameter types and its result type with fresh type arguments. -/
def enterMethod (ctx : Context) (info : NodeInfo) (receiver : Expr) (name : String)
    (outer base : Ty) (derefs : Nat) (signature : Signature) : Check (List Ty × Ty) := do
  let some self := signature.self | throw (.crash "method without a receiver")
  let args ← freshAll signature.typeParams
  let open_ := Ty.instantiate signature.typeParams args
  let _ ← ctx.unify receiver.span (open_ self.type) base
  note fun a => { a with methods := a.methods.insert info.id signature }
  instantiated info.id args
  ctx.takeReceiver receiver name outer base derefs self.mode
  return (signature.params.map fun p => open_ p.type, open_ signature.result)

/-- The type of a part of a value. -/
def fieldType (ctx : Context) (info : NodeInfo) (object : Expr) (name : String) (base : Ty) :
    Check Ty := do
  let missing : Check Ty := do
    ctx.report .undefinedName info.span s!"no field `{name}` on type `{base.text}`"
    return .invalid
  match base with
  | .struct struct args =>
    match ctx.table.decls.fieldType? struct args name with
    | some t => return t
    | none => missing
  | .tuple elements =>
    match (tupleIndex? name).bind fun i => elements[i]? with
    | some t => return t
    | none => missing
  | .invalid => return .invalid
  | .var .. =>
    ctx.report .unresolvedType object.span s!"type must be known to access field `{name}`"
    return .invalid
  | _ => missing

def elementType (ctx : Context) (info : NodeInfo) (object : Expr) (base : Ty) : Check Ty := do
  match base with
  | .array element => return element
  | .var .. =>
    let element ← fresh .general
    let _ ← ctx.unify object.span (.array element) base
    return element
  | .invalid => return .invalid
  | _ =>
    ctx.report .typeMismatch info.span s!"cannot index into a value of type `{base.text}`"
    return .invalid

/-- The type that a reference points to. -/
def targetType (ctx : Context) (info : NodeInfo) (t : Ty) : Check Ty := do
  match ← shallow t with
  | .ref _ target => return target
  | .invalid => return .invalid
  | .var .. =>
    ctx.report .unresolvedType info.span "type of dereferenced value must be known here"
    return .invalid
  | known =>
    ctx.report .typeMismatch info.span s!"type `{known.text}` cannot be dereferenced"
    return .invalid

/-- A struct with fresh type arguments. -/
def enterStruct (info : NodeInfo) (d : StructDef) : Check (String × List Ty) := do
  let args ← freshAll d.params
  instantiated info.id args
  return (d.name, args)

/-- Whether a struct has exactly the given number of fields, and all of the given names. -/
def hasFields (d : StructDef) (names : List String) : Bool :=
  d.fields.length == names.length && names.all fun name => (d.field? name).isSome

/-- The struct that a hint asks for, if it has the given fields. -/
def hintedStruct? (ctx : Context) (names : List String) (hint : Option Ty) :
    Check (Option (String × List Ty)) := do
  match ← shallow? hint with
  | some (.struct name args) =>
    match ctx.table.decls.struct? name with
    | some d => return if hasFields d names then some (name, args) else none
    | none => return none
  | _ => return none

/-- The struct that a literal without a name constructs: the one the context asks for, or else the
only one with these fields. -/
def unnamedStruct? (ctx : Context) (info : NodeInfo) (names : List String) (hint : Option Ty) :
    Check (Option (String × List Ty)) := do
  match ← ctx.hintedStruct? names hint with
  | some found => return some found
  | none =>
    match ctx.table.structsWithFields names with
    | [d] => some <$> enterStruct info d
    | [] =>
      let listed := ", ".intercalate names
      ctx.report .undefinedName info.span s!"no struct has exactly the fields \x7b{listed}\x7d"
      return none
    | several =>
      let listed := ", ".intercalate (several.map StructDef.name)
      ctx.add
        { kind := .ambiguousOverload, span := info.span
          message := s!"struct literal matches several structs: {listed}"
          hint := "name the struct explicitly" }
      return none

/-- The struct that a literal constructs, with its type arguments. -/
def literalStruct? (ctx : Context) (info : NodeInfo) (name : String) (names : List String)
    (hint : Option Ty) : Check (Option (String × List Ty)) := do
  if name.isEmpty then
    let found ← ctx.unnamedStruct? info names hint
    if let some (struct, _) := found then
      note fun a => { a with literalTargets := a.literalTargets.insert info.id struct }
    return found
  else
    match ctx.table.decls.struct? name with
    | some d => some <$> enterStruct info d
    | none =>
      ctx.report .undefinedName info.span s!"cannot find struct `{name}`"
      return none

/-- Reports the declared fields that an initializer leaves out. -/
def requireFields (ctx : Context) (span : Span) (owner : String) (fields : List Field)
    (given : List String) : Check Unit :=
  (fields.filter fun f => !given.contains f.name).forM fun f =>
    ctx.report .typeMismatch span s!"missing field `{f.name}` in initializer of `{owner}`"

/-- Reports the declared fields that a closed pattern leaves out. -/
def requireFieldPatterns (ctx : Context) (span : Span) (owner : String) (fields : List Field)
    (given : List String) : Check Unit :=
  (fields.filter fun f => !given.contains f.name).forM fun f =>
    ctx.add
      { kind := .typeMismatch, span
        message := s!"pattern does not mention field `{f.name}` of `{owner}`"
        hint := "use `..` to ignore the remaining fields" }

def hintedVariant? (ctx : Context) (enum variant : String) (hint : Option Ty) :
    Check (Option VariantRef) := do
  if !enum.isEmpty then return none
  match ← shallow? hint with
  | some (.enum name _) =>
    return (ctx.table.decls.enum? name).bind fun d =>
      (d.variant? variant).map fun v => ⟨d, v⟩
  | _ => return none

/-- The variant that a name means; without an enum the one the context asks for is preferred. -/
def variant? (ctx : Context) (span : Span) (enum variant : String) (hint : Option Ty) :
    Check (Option VariantRef) := do
  match ← ctx.hintedVariant? enum variant hint with
  | some found => return some found
  | none =>
    match ctx.table.candidates enum variant with
    | [found] => return some found
    | [] =>
      ctx.report .undefinedName span (if enum.isEmpty then s!"no variant named `{variant}`"
        else s!"no variant `{enum}::{variant}`")
      return none
    | several =>
      let listed := ", ".intercalate (several.map fun r => r.enum.name)
      ctx.report .ambiguousOverload span s!"variant `{variant}` exists in several enums: {listed}"
      return none

/-- Constructs a variant: type arguments that fit the hint as far as possible. -/
def enterVariant (info : NodeInfo) (found : VariantRef) (hint : Option Ty) :
    Check (List Ty) := do
  let args ← freshAll found.enum.params
  if let some (.enum name hinted) := ← shallow? hint then
    if name == found.enum.name then
      let s ← get
      let (engine, error) := s.engine.unify (.enum name hinted) (.enum name args)
      set { s with engine }
      if let some (.infinite defect) := error then throw (.defect defect)
  note fun a => { a with variants := a.variants.insert info.id found }
  instantiated info.id args
  return args

def slotFields (v : Variant) (slots : List Ty) : List Field :=
  (v.fields.zip slots).map fun (f, type) => { f with type }

/-- The types that a tuple pattern gives its elements; none of them is known if the pattern does
not fit. -/
def elementTypes (ctx : Context) (info : NodeInfo) (elements : List Pattern) (t : Ty) :
    Check (List Ty) := do
  let unknown : Check (List Ty) := do
    let types ← freshAll elements
    let _ ← ctx.unify info.span t (.product types)
    return types
  let misfit (known : Ty) : Check (List Ty) := do
    ctx.report .typeMismatch info.span
      (s!"mismatched types: expected `{known.text}`, found a tuple pattern with "
        ++ s!"{elements.length} element(s)")
    return []
  match ← shallow t with
  | .tuple types =>
    if types.length == elements.length then return types else misfit (.tuple types)
  | .unit => if elements.isEmpty then return [] else misfit .unit
  | .var .. | .invalid => unknown
  | known => misfit known

/-- Compares what an alternative binds with what the first one binds. -/
def compareBindings (ctx : Context) (span : Span) (first : List String)
    (scope : List (String × Ty)) : Check Unit := do
  let names := (scope.map Prod.fst).reverse.eraseDups
  names.forM fun name => do
    if !first.contains name then
      ctx.report .typeMismatch span s!"variable `{name}` is not bound in all alternatives"
    else if let some bound := scope.lookup name then
      if let some t ← lookup? name then
        let _ ← ctx.unify span t bound
  (first.filter fun name => !names.contains name).forM fun name =>
    ctx.report .typeMismatch span s!"variable `{name}` is not bound in all alternatives"

end Context

end Typing

end TreeCheck
