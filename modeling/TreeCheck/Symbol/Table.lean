import TreeCheck.Diagnostic
import TreeCheck.Syntax.Tree
import TreeCheck.Ty.Decls

/-!
The declared names of a program: types, functions and methods, and how written types are read
against them.
-/

namespace TreeCheck

inductive Signature.Kind where
  | function
  | method
  | builtin
deriving DecidableEq, Repr, Inhabited

def Signature.Kind.text : Signature.Kind → String
  | .function => "function"
  | .method => "method"
  | .builtin => "builtin"

/-- A parameter with its type. -/
structure Signature.Param where
  name : String
  type : Ty
  mutable : Bool := false
deriving Repr, Inhabited

/-- What a method is called on: the way it is taken and the type it belongs to. -/
structure Signature.Self where
  mode : SelfMode
  type : Ty
deriving Repr, Inhabited

/-- The signature of a function or method; its type parameters stand for any type. -/
structure Signature where
  name : String
  kind : Signature.Kind
  typeParams : List String
  params : List Signature.Param
  result : Ty
  self : Option Signature.Self := none
  /-- The parameters a returned reference may point into, if that is declared. -/
  lives : Option (List String) := none
  /-- The position of the declaration among the functions of the program. -/
  origin : Option Nat := none
  span : Span := default
deriving Repr, Inhabited

namespace Signature

def type (s : Signature) : Ty := .function (s.params.map Param.type) s.result

/-- The type that the value a method is called on is passed as. -/
def receiverType? (s : Signature) : Option Ty :=
  s.self.map fun self => match self.mode with
    | .value => self.type
    | .shared => .ref false self.type
    | .exclusive => .ref true self.type

/-- The position of the first parameter with a name. -/
def paramIndex? (s : Signature) (name : String) : Option Nat :=
  s.params.findIdx? fun p => p.name == name

end Signature

/-- A variant with its enum. -/
structure VariantRef where
  enum : EnumDef
  variant : Variant
deriving Repr, Inhabited

def VariantRef.text (r : VariantRef) : String := r.enum.name ++ "::" ++ r.variant.name

/-- The declared names. Functions are found by name, methods by type and name. -/
structure Table where
  decls : Decls := {}
  functions : List (String × Signature) := []
  methods : List ((String × String) × Signature) := []
  /-- Where types were declared. -/
  spans : List (String × Span) := []
deriving Repr, Inhabited

namespace Table

def function? (t : Table) (name : String) : Option Signature :=
  (t.functions.find? fun entry => entry.1 == name).map Prod.snd

def method? (t : Table) (type name : String) : Option Signature :=
  (t.methods.find? fun entry => entry.1 == (type, name)).map Prod.snd

def span? (t : Table) (name : String) : Option Span :=
  (t.spans.find? fun entry => entry.1 == name).map Prod.snd

def variantsNamed (t : Table) (name : String) : List VariantRef :=
  t.decls.enums.flatMap fun d =>
    (d.variants.filter fun v => v.name == name).map fun v => ⟨d, v⟩

/-- The variants that a written name may mean: those of the enum it gives, or of all enums. -/
def candidates (t : Table) (enum variant : String) : List VariantRef :=
  if enum.isEmpty then t.variantsNamed variant
  else match t.decls.enum? enum with
    | some d => (d.variant? variant).toList.map fun v => ⟨d, v⟩
    | none => []

/-- The one variant that a written name means. -/
def variant? (t : Table) (enum variant : String) : Option VariantRef :=
  match t.candidates enum variant with
  | [found] => some found
  | _ => none

def sortNames (names : List String) : List String := names.mergeSort fun a b => a ≤ b

/-- The text under which structs with a set of field names are filed. -/
def shapeKey (names : List String) : String := ",".intercalate (sortNames names)

/-- The structs whose field names are filed under the same text, sorted by name. -/
def structsWithFields (t : Table) (names : List String) : List StructDef :=
  (t.decls.structs.filter fun d => shapeKey (d.fields.map Field.name) == shapeKey names).mergeSort
    fun a b => a.name ≤ b.name

/-- The signatures that the program declares, sorted by name; of one name, the function comes before the methods, and
these are in the order of their types. -/
def declared (t : Table) : List Signature :=
  let functions := (t.functions.map Prod.snd).filter fun s => s.kind != .builtin
  let entries := functions.map (fun s => ("", s)) ++ t.methods.map fun ((type, _), s) => ("." ++ type, s)
  let sorted := entries.mergeSort fun (owner, s) (owner', s') =>
    if s.name == s'.name then owner ≤ owner' else s.name ≤ s'.name
  sorted.map Prod.snd

/-- The signature that a declaration gave rise to; a rejected declaration has none. -/
def signature? (t : Table) (position : Nat) (f : FuncDecl) : Option Signature :=
  let found := match f.receiver with
    | some receiver => t.method? receiver.typeName f.name
    | none => t.function? f.name
  found.filter fun s => s.origin == some position

end Table

namespace Decls

private def wrongArity (span : Span) (name : String) (want got : Nat) : Diagnostic :=
  { kind := .arityMismatch, span
    message := s!"type `{name}` takes {want} type argument(s) but {got} were supplied" }

/-- A name applied to arguments: a type parameter, a primitive or declared type. -/
def resolveNamed (decls : Decls) (params : List String) (span : Span) (name : String)
    (args : List Ty) : Ty × List Diagnostic :=
  let applied (want : Nat) (type : Ty) : Ty × List Diagnostic :=
    if args.length == want then (type, [])
    else (.invalid, [wrongArity span name want args.length])
  if params.contains name then applied 0 (.generic name)
  else match Ty.ofName? name with
    | some prim => applied 0 prim
    | none =>
      match decls.struct? name, decls.enum? name with
      | some d, _ => applied d.params.length (.struct name args)
      | none, some d => applied d.params.length (.enum name args)
      | none, none =>
        (.invalid, [{ kind := .undefinedName, span, message := s!"undefined type `{name}`" }])

mutual

/-- Reads type syntax as a type. Unknown names and wrong numbers of arguments are reported and
yield the invalid type. -/
def resolve (decls : Decls) (params : List String) (span : Span) : TypeExpr → Ty × List Diagnostic
  | .named name args =>
    let (args, faults) := resolveAll decls params span args
    let (type, more) := decls.resolveNamed params span name args
    (type, faults ++ more)
  | .ref mutable target =>
    let (target, faults) := resolve decls params span target
    (.ref mutable target, faults)
  | .array element =>
    let (element, faults) := resolve decls params span element
    (.array element, faults)
  | .tuple elements =>
    let (elements, faults) := resolveAll decls params span elements
    (.product elements, faults)
  | .function args none =>
    let (args, faults) := resolveAll decls params span args
    (.function args .unit, faults)
  | .function args (some result) =>
    let (args, faults) := resolveAll decls params span args
    let (result, more) := resolve decls params span result
    (.function args result, faults ++ more)

def resolveAll (decls : Decls) (params : List String) (span : Span) :
    List TypeExpr → List Ty × List Diagnostic
  | [] => ([], [])
  | t :: rest =>
    let (type, faults) := resolve decls params span t
    let (types, more) := resolveAll decls params span rest
    (type :: types, faults ++ more)

end

def resolveWritten (decls : Decls) (params : List String) (t : Option WrittenType) :
    Ty × List Diagnostic :=
  match t with
  | some t => decls.resolve params t.span t.type
  | none => (.unit, [])

end Decls

end TreeCheck
