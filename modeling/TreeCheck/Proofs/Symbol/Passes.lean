import TreeCheck.Proofs.Symbol.Collection
import TreeCheck.Proofs.Symbol.Reading

/-!
The passes over the declarations of a program. As far as no name is declared twice, each declaration adds to the table
and to the reports what it adds alone, so the table and the reports are known item by item.
-/

namespace TreeCheck

namespace Item

/-- The struct that an item declares, unless its name is that of a primitive type. -/
def struct? : Item → Option StructDecl
  | .struct d => if (Ty.ofName? d.name).isNone then some d else none
  | _ => none

/-- The enum that an item declares, unless its name is that of a primitive type. -/
def enum? : Item → Option EnumDecl
  | .enum d => if (Ty.ofName? d.name).isNone then some d else none
  | _ => none

/-- The type that an item declares and where it does. -/
def place? (item : Item) : Option (String × Span) :=
  item.typeName?.bind fun name => if (Ty.ofName? name).isNone then some (name, item.span) else none

/-- The report that a declared type has the name of a primitive one. -/
def refusal? (item : Item) : Option Diagnostic :=
  item.typeName?.bind fun name => if (Ty.ofName? name).isNone then none else some
    { kind := .duplicateDefinition, span := item.span, message := s!"`{name}` is a builtin type" }

theorem struct?_eq_some {item : Item} {d : StructDecl} (found : item.struct? = some d) : item = .struct d := by
  cases item with
  | struct e =>
    obtain ⟨-, same⟩ := Option.ite_none_right_eq_some.mp found
    rw [Option.some.inj same]
  | enum e | function f => cases found

theorem enum?_eq_some {item : Item} {d : EnumDecl} (found : item.enum? = some d) : item = .enum d := by
  cases item with
  | enum e =>
    obtain ⟨-, same⟩ := Option.ite_none_right_eq_some.mp found
    rw [Option.some.inj same]
  | struct e | function f => cases found

theorem place?_eq_some {item : Item} {place : String × Span} (found : item.place? = some place) :
    item.typeName? = some place.1 ∧ place.2 = item.span := by
  obtain ⟨name, named, found⟩ := Option.bind_eq_some_iff.mp found
  obtain ⟨-, same⟩ := Option.ite_none_right_eq_some.mp found
  cases same
  exact ⟨named, rfl⟩

end Item

namespace Program

/-- The declared types before their members are read. -/
def opening (items : List Item) : Collection where
  table := { Table.start with
    decls.structs := (items.filterMap Item.struct?).map fun d => ⟨d.name, d.typeParams, []⟩
    decls.enums := (items.filterMap Item.enum?).map fun d => ⟨d.name, d.typeParams, []⟩
    spans := items.filterMap Item.place? }
  bag := Bag.addAll {} (items.filterMap Item.refusal?)

end Program

namespace Collection

end Collection

namespace Program

end Program

/-! ### What is read -/

section

variable {α β : Type}

end

namespace Collection

end Collection

/-- What declarations are read as, and what is reported then, where the declared types have given parameters. -/
structure Reading (decls : Decls) (places : Span → Prop) where
  fields : StructDecl → List Field
  variants : EnumDecl → List Variant
  signature : FuncDecl → Option Signature
  ofStruct : StructDecl → List Diagnostic
  ofEnum : EnumDecl → List Diagnostic
  ofFunction : FuncDecl → List Diagnostic
  struct : ∀ d, (∀ f ∈ d.fields, f.Placed places) → (∀ e ∈ ofStruct d, Diagnostic.Plain places e) ∧
    ∀ c : Collection, c.table.decls.heads = decls.heads →
      c.collectStructs d = (c.reportAll (ofStruct d)).setFields d.name (fields d)
  enum : ∀ d, (∀ v ∈ d.variants, v.Placed places) → (∀ e ∈ ofEnum d, Diagnostic.Plain places e) ∧
    ∀ c : Collection, c.table.decls.heads = decls.heads →
      c.collectEnums d = (c.reportAll (ofEnum d)).setVariants d.name (variants d)
  function : ∀ f, f.Placed places → Collection.Adds decls places f (signature f) (ofFunction f)

namespace Reading

variable {decls : Decls} {places : Span → Prop}

theorem nonempty (decls : Decls) (places : Span → Prop) : Nonempty (Reading decls places) := by
  have structs (d : StructDecl) (placed : ∀ f ∈ d.fields, f.Placed places) : ∃ fields faults,
      (∀ e ∈ faults, Diagnostic.Plain places e) ∧ ∀ c : Collection, c.table.decls.heads = decls.heads →
        c.collectStructs d = (c.reportAll faults).setFields d.name fields := by
    obtain ⟨fields, faults, plain, read⟩ :=
      Collection.resolveFields_fixed decls d.typeParams d.name d.fields placed []
    refine ⟨fields, faults, plain, fun c same => ?_⟩
    have known : Collection.resolveFields d.typeParams d.name c [] d.fields = (fields, _) := read c same
    rw [Collection.collectStructs, known]
  have enums (d : EnumDecl) (placed : ∀ v ∈ d.variants, v.Placed places) : ∃ variants faults,
      (∀ e ∈ faults, Diagnostic.Plain places e) ∧ ∀ c : Collection, c.table.decls.heads = decls.heads →
        c.collectEnums d = (c.reportAll faults).setVariants d.name variants := by
    obtain ⟨variants, faults, plain, read⟩ :=
      Collection.resolveVariants_fixed decls d.typeParams d.name d.variants placed []
    refine ⟨variants, faults, plain, fun c same => ?_⟩
    have known : Collection.resolveVariants d.typeParams d.name c [] d.variants = (variants, _) := read c same
    rw [Collection.collectEnums, known]
  have functions (f : FuncDecl) (placed : f.Placed places) :=
    Collection.collectFunction_adds decls placed
  choose! fields ofStruct struct using structs
  choose! variants ofEnum enum using enums
  choose! signature ofFunction function using functions
  exact ⟨⟨fields, variants, signature, ofStruct, ofEnum, ofFunction, struct, enum, function⟩⟩

variable (r : Reading decls places)

/-- The entry that a function makes among the functions of a table, if it is no method. -/
def plain? (entry : FuncDecl × Nat) : Option (String × Signature) :=
  match entry.1.receiver with
  | none => (r.signature entry.1).map fun s => (entry.1.name, Collection.located entry.2 s)
  | some _ => none

def method? (entry : FuncDecl × Nat) : Option ((String × String) × Signature) :=
  match entry.1.receiver with
  | none => none
  | some receiver => (r.signature entry.1).map fun s =>
    ((receiver.typeName, entry.1.name), Collection.located entry.2 s)

end Reading

/-- The name of a function, or that of a method with its type. -/
def FuncDecl.key (f : FuncDecl) : Option String × String := (f.receiver.map Receiver.typeName, f.name)

namespace Reading

variable {decls : Decls} {places : Span → Prop} (r : Reading decls places)

def table (p : Program) : Table where
  decls.structs := (p.items.filterMap Item.struct?).map fun d => ⟨d.name, d.typeParams, r.fields d⟩
  decls.enums := (p.items.filterMap Item.enum?).map fun d => ⟨d.name, d.typeParams, r.variants d⟩
  functions := Table.start.functions ++ p.functions.zipIdx.filterMap r.plain?
  methods := p.functions.zipIdx.filterMap r.method?
  spans := p.items.filterMap Item.place?

/-- What is reported about a program, repetitions included. -/
def faults (p : Program) : List Diagnostic :=
  p.items.filterMap Item.refusal? ++ (p.items.filterMap Item.struct?).flatMap r.ofStruct ++
    (p.items.filterMap Item.enum?).flatMap r.ofEnum ++ p.functions.flatMap r.ofFunction

end Reading

/-- Parts of things whose names differ have different names. -/
theorem nodup_map_filterMap {α β κ : Type} {part : α → Option β} (name : α → Option κ) (key : β → κ)
    (named : ∀ a b, part a = some b → name a = some (key b)) {list : List α}
    (distinct : (list.filterMap name).Nodup) : ((list.filterMap part).map key).Nodup := by
  rw [List.map_filterMap]
  refine distinct.sublist ?_
  clear distinct
  induction list with
  | nil => exact .slnil
  | cons a list ih =>
    rw [List.filterMap_cons, List.filterMap_cons]
    cases found : part a with
    | none =>
      cases name a with
      | none => exact ih
      | some k => exact ih.cons k
    | some b =>
      rw [named a b found]
      exact ih.cons_cons _

namespace Program

/-- No name is declared twice: no type, no function and no method of a type. -/
structure Distinct (p : Program) : Prop where
  types : (p.items.filterMap Item.typeName?).Nodup
  functions : (p.functions.map FuncDecl.key).Nodup

variable {p : Program}

theorem Distinct.structs (distinct : p.Distinct) : ((p.items.filterMap Item.struct?).map StructDecl.name).Nodup :=
  nodup_map_filterMap _ _ (fun _ _ found => Item.struct?_eq_some found ▸ rfl) distinct.types

theorem Distinct.enums (distinct : p.Distinct) : ((p.items.filterMap Item.enum?).map EnumDecl.name).Nodup :=
  nodup_map_filterMap _ _ (fun _ _ found => Item.enum?_eq_some found ▸ rfl) distinct.types

theorem Distinct.places (distinct : p.Distinct) : ((p.items.filterMap Item.place?).map Prod.fst).Nodup :=
  nodup_map_filterMap _ _ (fun _ _ found => (Item.place?_eq_some found).1) distinct.types

theorem Distinct.keys (distinct : p.Distinct) : (p.functions.zipIdx.map fun entry => entry.1.key).Nodup := by
  have keys := congrArg (List.map FuncDecl.key) (List.zipIdx_map_fst 0 p.functions)
  rw [List.map_map] at keys
  exact keys ▸ distinct.functions

end Program

end TreeCheck
