import TreeCheck.Ty.Basic

/-!
Declared types: the fields of structs and the variants of enums, with the type parameters that their
types may mention.
-/

namespace TreeCheck

/-- A named member. -/
structure Field where
  name : String
  type : Ty
deriving Repr, Inhabited

structure StructDef where
  name : String
  params : List String
  fields : List Field
deriving Repr, Inhabited

/-- One alternative of an enum: positional payload types or named fields. -/
structure Variant where
  name : String
  index : Nat
  payload : List Ty
  fields : List Field
deriving Repr, Inhabited

namespace Variant

/-- Whether the payload is addressed by names. -/
def isNamed (v : Variant) : Bool := !v.fields.isEmpty

/-- The types of the payload in declaration order. -/
def slots (v : Variant) : List Ty :=
  if v.isNamed then v.fields.map Field.type else v.payload

def arity (v : Variant) : Nat := v.slots.length

end Variant

structure EnumDef where
  name : String
  params : List String
  variants : List Variant
deriving Repr, Inhabited

def StructDef.field? (d : StructDef) (name : String) : Option Field :=
  d.fields.find? fun f => f.name == name

def EnumDef.variant? (d : EnumDef) (name : String) : Option Variant :=
  d.variants.find? fun v => v.name == name

/-- The declared types of a program. A name belongs to at most one of them. -/
structure Decls where
  structs : List StructDef := []
  enums : List EnumDef := []
deriving Repr, Inhabited

namespace Decls

def struct? (decls : Decls) (name : String) : Option StructDef :=
  decls.structs.find? fun d => d.name == name

def enum? (decls : Decls) (name : String) : Option EnumDef :=
  decls.enums.find? fun d => d.name == name

def fieldType? (decls : Decls) (struct : String) (args : List Ty) (field : String) : Option Ty := do
  let d ← decls.struct? struct
  let f ← d.field? field
  return f.type.instantiate d.params args

def fields (decls : Decls) (struct : String) (args : List Ty) : List Field :=
  match decls.struct? struct with
  | some d => d.fields.map fun f => { f with type := f.type.instantiate d.params args }
  | none => []

/-- The payload types of a variant of an enum applied to arguments. -/
def slots (d : EnumDef) (args : List Ty) (v : Variant) : List Ty :=
  v.slots.map (Ty.instantiate d.params args)

def components (decls : Decls) : Ty → List Ty
  | .struct name args => (decls.fields name args).map Field.type
  | .enum name args =>
    match decls.enum? name with
    | some d => d.variants.flatMap (slots d args)
    | none => []
  | _ => []

mutual

/-- Looks for a reference in a type. A struct or enum is entered once per name, by `enter`, which is
given the names entered so far; they are returned. -/
def seek (decls : Decls) (enter : List String → List Ty → Bool × List String) :
    List String → Ty → Bool × List String
  | seen, .ref .. => (true, seen)
  | seen, .tuple elements => seekAll decls enter seen elements
  | seen, .array element => seek decls enter seen element
  | seen, .struct name args =>
    if seen.contains name then (false, seen)
    else enter (name :: seen) (decls.components (.struct name args))
  | seen, .enum name args =>
    if seen.contains name then (false, seen)
    else enter (name :: seen) (decls.components (.enum name args))
  | seen, _ => (false, seen)

def seekAll (decls : Decls) (enter : List String → List Ty → Bool × List String) :
    List String → List Ty → Bool × List String
  | seen, [] => (false, seen)
  | seen, t :: rest =>
    match seek decls enter seen t with
    | (true, seen) => (true, seen)
    | (false, seen) => seekAll decls enter seen rest

end

/-- Looks for a reference in types, entering at most the given number of declarations in a row. -/
def seekWithin (decls : Decls) : Nat → List String → List Ty → Bool × List String
  | 0, seen, _ => (false, seen)
  | depth + 1, seen, types => seekAll decls (seekWithin decls depth) seen types

/-- Whether a value of a type can carry a reference, looking through fields and payloads. Each
declaration is entered once, for the arguments it is met with first. -/
def containsReference (decls : Decls) (t : Ty) : Bool :=
  (seekWithin decls (decls.structs.length + decls.enums.length + 1) [] [t]).1

end Decls

end TreeCheck
