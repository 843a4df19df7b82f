import TreeCheck.Symbol.Table

/-!
Collecting the declarations of a program. Type names are registered first, so that declarations may
refer to each other in any order; then the members of types and the signatures of functions are
resolved. A declaration whose name is taken is reported and left out.
-/

namespace TreeCheck

/-- The functions every program can call. -/
def builtins : List String := ["print", "println"]

/-- A builtin takes any value by shared reference. -/
def builtinSignature (name : String) : Signature :=
  { name, kind := .builtin, typeParams := ["T"]
    params := [{ name := "value", type := .ref false (.generic "T") }], result := .unit }

/-- The names collected so far and what was reported. -/
structure Collection where
  table : Table := {}
  bag : Bag := {}
deriving Inhabited

namespace Collection

def report (c : Collection) (d : Diagnostic) : Collection := { c with bag := c.bag.add d }

def reportAll (c : Collection) (ds : List Diagnostic) : Collection :=
  { c with bag := c.bag.addAll ds }

def duplicate (c : Collection) (name : String) (span : Span) : Diagnostic :=
  let d : Diagnostic :=
    { kind := .duplicateDefinition, span, message := s!"`{name}` is defined more than once" }
  match c.table.span? name with
  | some first => d.withLabel first "first defined here"
  | none => d

/-- Registers the name of a type, unless it is taken. -/
def declareType (c : Collection) (name : String) (span : Span) : Collection × Bool :=
  if (Ty.ofName? name).isSome then
    (c.report { kind := .duplicateDefinition, span, message := s!"`{name}` is a builtin type" },
      false)
  else if (c.table.span? name).isSome then (c.report (c.duplicate name span), false)
  else ({ c with table := { c.table with spans := c.table.spans ++ [(name, span)] } }, true)

/-- Registers a struct or enum, without its members. -/
def declare (c : Collection) : Item → Collection
  | .struct d =>
    match c.declareType d.name d.span with
    | (c, true) =>
      let decls := c.table.decls
      let structs := decls.structs ++ [{ name := d.name, params := d.typeParams, fields := [] }]
      { c with table := { c.table with decls := { decls with structs } } }
    | (c, false) => c
  | .enum d =>
    match c.declareType d.name d.span with
    | (c, true) =>
      let decls := c.table.decls
      let enums := decls.enums ++ [{ name := d.name, params := d.typeParams, variants := [] }]
      { c with table := { c.table with decls := { decls with enums } } }
    | (c, false) => c
  | .function _ => c

def resolve (c : Collection) (params : List String) (t : Option WrittenType) : Ty × Collection :=
  let (type, faults) := c.table.decls.resolveWritten params t
  (type, c.reportAll faults)

/-- Resolves fields; a name that came before is reported and left out. -/
def resolveFields (params : List String) (owner : String) :
    Collection → List Field → List FieldDecl → List Field × Collection
  | c, fields, [] => (fields, c)
  | c, fields, f :: rest =>
    if fields.any fun g => g.name == f.name then
      resolveFields params owner (c.report
        { kind := .duplicateDefinition, span := f.span
          message := s!"field `{f.name}` is declared twice in `{owner}`" }) fields rest
    else
      let (type, c) := c.resolve params (some f.type)
      resolveFields params owner c (fields ++ [{ name := f.name, type }]) rest

def setFields (c : Collection) (name : String) (fields : List Field) : Collection :=
  let decls := c.table.decls
  let structs := decls.structs.map fun d => if d.name == name then { d with fields } else d
  { c with table := { c.table with decls := { decls with structs } } }

def setVariants (c : Collection) (name : String) (variants : List Variant) : Collection :=
  let decls := c.table.decls
  let enums := decls.enums.map fun d => if d.name == name then { d with variants } else d
  { c with table := { c.table with decls := { decls with enums } } }

def resolveAll (params : List String) :
    Collection → List (Option WrittenType) → List Ty × Collection
  | c, [] => ([], c)
  | c, t :: rest =>
    let (type, c) := c.resolve params t
    let (types, c) := resolveAll params c rest
    (type :: types, c)

/-- Resolves variants; a name that came before is reported and left out. -/
def resolveVariants (params : List String) (enum : String) :
    Collection → List Variant → List VariantDecl → List Variant × Collection
  | c, variants, [] => (variants, c)
  | c, variants, v :: rest =>
    if variants.any fun w => w.name == v.name then
      resolveVariants params enum (c.report
        { kind := .duplicateDefinition, span := v.span
          message := s!"variant `{enum}::{v.name}` is declared twice" }) variants rest
    else
      let (payload, c) := resolveAll params c v.payload
      let (types, c) := resolveAll params c (v.fields.map fun f => some f.type)
      let fields := (v.fields.zip types).map fun (f, type) => { name := f.name, type : Field }
      resolveVariants params enum c
        (variants ++ [{ name := v.name, index := variants.length, payload, fields }]) rest

def collectStructs (c : Collection) (d : StructDecl) : Collection :=
  let (fields, c) := resolveFields d.typeParams d.name c [] d.fields
  c.setFields d.name fields

def collectEnums (c : Collection) (d : EnumDecl) : Collection :=
  let (variants, c) := resolveVariants d.typeParams d.name c [] d.variants
  c.setVariants d.name variants

/-- The type a method belongs to, applied to its own parameters, and those parameters. -/
def selfType? (decls : Decls) (name : String) : Option (Ty × List String) :=
  match decls.struct? name, decls.enum? name with
  | some d, _ => some (.struct name (d.params.map .generic), d.params)
  | none, some d => some (.enum name (d.params.map .generic), d.params)
  | none, none => none

/-- Resolves parameters; a name that came before is reported but kept. -/
def resolveParams (typeParams : List String) (isMethod : Bool) :
    Collection → List Signature.Param → List Param → List Signature.Param × Collection
  | c, params, [] => (params, c)
  | c, params, p :: rest =>
    let taken := params.any (fun q => q.name == p.name) || (isMethod && p.name == "self")
    let c := if taken then c.report
        { kind := .duplicateDefinition, span := p.span
          message := s!"parameter `{p.name}` is bound more than once" }
      else c
    let (type, c) := c.resolve typeParams (some p.type)
    resolveParams typeParams isMethod c
      (params ++ [{ name := p.name, type, mutable := p.mutable }]) rest

/-- The sources of a lives clause that are parameters; others are reported. -/
def resolveLives (c : Collection) (function : String) (isMethod : Bool)
    (params : List Signature.Param) (clause : LivesClause) : List String × Collection :=
  clause.sources.foldl (fun (sources, c) source =>
    if params.any (fun p => p.name == source) || (source == "self" && isMethod) then
      (sources ++ [source], c)
    else
      (sources, c.report
        { kind := .undefinedName, span := clause.span
          message := s!"lives clause names `{source}`, which is not a parameter of `{function}`" }))
    ([], c)

def resolveSignature (c : Collection) (position : Nat) (f : FuncDecl) (typeParams : List String)
    (self : Option Signature.Self) : Signature × Collection :=
  let name := f.qualifiedName
  let isMethod := f.receiver.isSome
  let (params, c) := resolveParams typeParams isMethod c [] f.params
  let (result, c) := c.resolve typeParams f.result
  let (lives, c) := match f.lives with
    | none => (none, c)
    | some clause =>
      let (sources, c) := c.resolveLives name isMethod params clause
      (some sources, c)
  ({ name, kind := if isMethod then .method else .function, typeParams, params, result, self, lives
     origin := some position, span := f.span }, c)

def collectFunction (c : Collection) (position : Nat) (f : FuncDecl) : Collection :=
  match f.receiver with
  | some receiver =>
    match selfType? c.table.decls receiver.typeName with
    | none => c.report
        { kind := .undefinedName, span := receiver.span
          message := s!"cannot declare a method on undefined type `{receiver.typeName}`" }
    | some (type, params) =>
      if (c.table.method? receiver.typeName f.name).isSome then
        c.report (c.duplicate f.qualifiedName f.span)
      else
        let (signature, c) := c.resolveSignature position f (params ++ f.typeParams)
          (some ⟨receiver.mode, type⟩)
        let methods := c.table.methods ++ [((receiver.typeName, f.name), signature)]
        { c with table := { c.table with methods } }
  | none =>
    match c.table.function? f.name with
    | some previous =>
      if previous.kind == .builtin then c.report
        { kind := .duplicateDefinition, span := f.span
          message := s!"`{f.name}` shadows a builtin function" }
      else c.report
        (({ kind := .duplicateDefinition, span := f.span
            message := s!"function `{f.name}` is defined more than once" } : Diagnostic).withLabel
          previous.span "first defined here")
    | none =>
      let (signature, c) := c.resolveSignature position f f.typeParams none
      let functions := c.table.functions ++ [(f.name, signature)]
      { c with table := { c.table with functions } }

end Collection

/-- The items whose names were free when they were declared. -/
def Program.registered (items : List Item) : Collection × List Item :=
  items.foldl (fun (c, kept) item =>
    let before := c.table.spans.length
    let c := c.declare item
    (c, if before < c.table.spans.length then kept ++ [item] else kept))
    ({ table := { functions := builtins.map fun name => (name, builtinSignature name) } }, [])

/-- Registers every declaration of a program and resolves all signatures. -/
def Program.collect (p : Program) : Table × List Diagnostic :=
  let (c, kept) := Program.registered p.items
  let c := kept.foldl (fun c item => match item with
    | .struct d => c.collectStructs d
    | _ => c) c
  let c := kept.foldl (fun c item => match item with
    | .enum d => c.collectEnums d
    | _ => c) c
  let c := p.functions.zipIdx.foldl (fun c (f, position) => c.collectFunction position f) c
  (c.table, c.bag.items)

end TreeCheck
