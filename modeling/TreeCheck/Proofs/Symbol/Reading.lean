import TreeCheck.Proofs.Diagnostics
import TreeCheck.Proofs.Syntax.Decoded
import TreeCheck.Symbol.Collect

/-!
Reading the members of declarations. What they are read as, and what is reported, depends on the declaration and on
the type parameters of the declared types, not on what else has been collected.
-/

namespace TreeCheck

/-- A diagnostic without remarks at one of the given places. -/
structure Diagnostic.Plain (places : Span → Prop) (d : Diagnostic) : Prop where
  placed : places d.span
  listed : d.kind ∈ Kind.catalogue
  bare : d = { kind := d.kind, span := d.span, message := d.message }

theorem Diagnostic.plain {places : Span → Prop} {kind : Kind} {span : Span} {message : String} (placed : places span)
    (listed : kind ∈ Kind.catalogue) : Plain places { kind, span, message } := ⟨placed, listed, rfl⟩

namespace Decls

/-- The type parameters of the struct and of the enum with a name. -/
def heads (decls : Decls) (name : String) : Option (List String) × Option (List String) :=
  ((decls.struct? name).map StructDef.params, (decls.enum? name).map EnumDef.params)

variable {decls decls' : Decls} {places : Span → Prop}

theorem resolveNamed_congr (same : decls'.heads = decls.heads) (params : List String) (span : Span) (name : String)
    (args : List Ty) : decls'.resolveNamed params span name args = decls.resolveNamed params span name args := by
  have known := congrFun same name
  unfold resolveNamed
  unfold heads at known
  cases struct : decls.struct? name <;> cases struct' : decls'.struct? name <;> cases enum : decls.enum? name <;>
    cases enum' : decls'.enum? name <;> simp_all

theorem resolveNamed_plain {params : List String} {span : Span} (placed : places span) {name : String}
    {args : List Ty} : ∀ d ∈ (decls.resolveNamed params span name args).2, d.Plain places := by
  have arity {want : Nat} {type : Ty} {d : Diagnostic} (plain : d.Plain places) :
      ∀ e ∈ (if args.length == want then (type, []) else (Ty.invalid, [d])).2, e.Plain places := by
    split
    · exact List.forall_mem_nil _
    · exact List.forall_mem_singleton.mpr plain
  unfold resolveNamed
  dsimp only
  split
  · exact arity (Diagnostic.plain placed (by decide))
  · split
    · exact arity (Diagnostic.plain placed (by decide))
    · split
      · exact arity (Diagnostic.plain placed (by decide))
      · exact arity (Diagnostic.plain placed (by decide))
      · exact List.forall_mem_singleton.mpr (Diagnostic.plain placed (by decide))

mutual

theorem resolve_congr (same : decls'.heads = decls.heads) (params : List String) (span : Span) :
    ∀ t : TypeExpr, decls'.resolve params span t = decls.resolve params span t
  | .named name args => by
    simp only [resolve, resolveAll_congr same params span args, resolveNamed_congr same]
  | .ref _ target => by simp only [resolve, resolve_congr same params span target]
  | .array element => by simp only [resolve, resolve_congr same params span element]
  | .tuple elements => by simp only [resolve, resolveAll_congr same params span elements]
  | .function args none => by simp only [resolve, resolveAll_congr same params span args]
  | .function args (some result) => by
    simp only [resolve, resolveAll_congr same params span args, resolve_congr same params span result]

theorem resolveAll_congr (same : decls'.heads = decls.heads) (params : List String) (span : Span) :
    ∀ types : List TypeExpr, decls'.resolveAll params span types = decls.resolveAll params span types
  | [] => rfl
  | t :: rest => by simp only [resolveAll, resolve_congr same params span t, resolveAll_congr same params span rest]

end

mutual

theorem resolve_plain {params : List String} {span : Span} (placed : places span) :
    ∀ t : TypeExpr, ∀ d ∈ (decls.resolve params span t).2, d.Plain places
  | .named name args => by
    rw [resolve]
    exact List.forall_mem_append.mpr ⟨resolveAll_plain placed args, resolveNamed_plain placed⟩
  | .ref _ target => by
    rw [resolve]
    exact resolve_plain placed target
  | .array element => by
    rw [resolve]
    exact resolve_plain placed element
  | .tuple elements => by
    rw [resolve]
    exact resolveAll_plain placed elements
  | .function args none => by
    rw [resolve]
    exact resolveAll_plain placed args
  | .function args (some result) => by
    rw [resolve]
    exact List.forall_mem_append.mpr ⟨resolveAll_plain placed args, resolve_plain placed result⟩

theorem resolveAll_plain {params : List String} {span : Span} (placed : places span) :
    ∀ types : List TypeExpr, ∀ d ∈ (decls.resolveAll params span types).2, d.Plain places
  | [] => List.forall_mem_nil _
  | t :: rest => by
    rw [resolveAll]
    exact List.forall_mem_append.mpr ⟨resolve_plain placed t, resolveAll_plain placed rest⟩

end

end Decls

namespace Collection

theorem selfType?_congr {decls decls' : Decls} (same : decls'.heads = decls.heads) (name : String) :
    selfType? decls' name = selfType? decls name := by
  have known := congrFun same name
  unfold selfType?
  unfold Decls.heads at known
  cases struct : decls.struct? name <;> cases struct' : decls'.struct? name <;> cases enum : decls.enum? name <;>
    cases enum' : decls'.enum? name <;> simp_all

/-- What is read and what is reported is the same in all collections with the same type parameters. -/
def Fixed {α : Type} (decls : Decls) (places : Span → Prop) (read : Collection → α × Collection) : Prop :=
  ∃ out faults, (∀ d ∈ faults, Diagnostic.Plain places d) ∧
    ∀ c : Collection, c.table.decls.heads = decls.heads → read c = (out, c.reportAll faults)

section

variable {α β : Type} {decls : Decls} {places : Span → Prop} {read : Collection → α × Collection}

theorem reportAll_append (c : Collection) (ds es : List Diagnostic) :
    (c.reportAll ds).reportAll es = c.reportAll (ds ++ es) :=
  congrArg (Collection.mk c.table) (c.bag.addAll_append ds es)

namespace Fixed

protected theorem pure (a : α) : Fixed decls places fun c => (a, c) :=
  ⟨a, [], List.forall_mem_nil _, fun _ _ => rfl⟩

protected theorem bind {next : α → Collection → β × Collection} (first : Fixed decls places read)
    (rest : ∀ a, Fixed decls places (next a)) : Fixed decls places fun c => next (read c).1 (read c).2 := by
  obtain ⟨a, faults, plain, first⟩ := first
  obtain ⟨b, more, plain', rest⟩ := rest a
  refine ⟨b, faults ++ more, List.forall_mem_append.mpr ⟨plain, plain'⟩, fun c same => ?_⟩
  dsimp only
  rw [first c same, rest (c.reportAll faults) same, reportAll_append]

theorem report {d : Diagnostic} (plain : d.Plain places) (rest : Fixed decls places read) :
    Fixed decls places fun c => read (c.report d) := by
  obtain ⟨a, faults, known, rest⟩ := rest
  refine ⟨a, d :: faults, List.forall_mem_cons.mpr ⟨plain, known⟩, fun c same => ?_⟩
  exact rest (c.report d) same

theorem resolve (params : List String) {t : Option WrittenType} (placed : ∀ written ∈ t, places written.span) :
    Fixed decls places fun c => c.resolve params t := by
  refine ⟨(decls.resolveWritten params t).1, (decls.resolveWritten params t).2, ?_, fun c same => ?_⟩
  · cases t with
    | none => exact List.forall_mem_nil _
    | some t => exact Decls.resolve_plain (placed t rfl) t.type
  · unfold Collection.resolve
    cases t with
    | none => rfl
    | some t => simp only [Decls.resolveWritten, Decls.resolve_congr same]

end Fixed

theorem resolveFields_fixed (decls : Decls) (params : List String) (owner : String) (ds : List FieldDecl)
    (placed : ∀ d ∈ ds, d.Placed places) :
    ∀ fields : List Field, Fixed decls places fun c => resolveFields params owner c fields ds := by
  induction ds with
  | nil => exact fun fields => .pure fields
  | cons d ds ih =>
    obtain ⟨own, others⟩ := List.forall_mem_cons.mp placed
    intro fields
    simp only [resolveFields]
    split
    · exact .report (Diagnostic.plain own.span (by decide)) (ih others fields)
    · exact .bind (.resolve params (t := some d.type) (by rintro _ ⟨⟩; exact own.type)) fun type =>
        ih others (fields ++ [⟨d.name, type⟩])

theorem resolveAll_fixed (params : List String) (ts : List (Option WrittenType))
    (placed : ∀ t ∈ ts, ∀ written ∈ t, places written.span) :
    Fixed decls places fun c => resolveAll params c ts := by
  induction ts with
  | nil => exact .pure []
  | cons t ts ih =>
    obtain ⟨own, others⟩ := List.forall_mem_cons.mp placed
    exact .bind (.resolve params own) fun type => .bind (ih others) fun types => .pure (type :: types)

theorem resolveVariants_fixed (decls : Decls) (params : List String) (enum : String) (ds : List VariantDecl)
    (placed : ∀ d ∈ ds, d.Placed places) :
    ∀ variants : List Variant, Fixed decls places fun c => resolveVariants params enum c variants ds := by
  induction ds with
  | nil => exact fun variants => .pure variants
  | cons d ds ih =>
    obtain ⟨own, others⟩ := List.forall_mem_cons.mp placed
    intro variants
    simp only [resolveVariants]
    split
    · exact .report (Diagnostic.plain own.span (by decide)) (ih others variants)
    · have types : ∀ t ∈ d.fields.map fun f => some f.type, ∀ written ∈ t, places written.span := by
        rintro t member written rfl
        obtain ⟨f, inside, same⟩ := List.mem_map.mp member
        cases same
        exact (own.fields f inside).type
      exact .bind (resolveAll_fixed params d.payload own.payload) fun payload =>
        .bind (resolveAll_fixed params _ types) fun types => ih others (variants ++
          [⟨d.name, variants.length, payload, (d.fields.zip types).map fun x => ⟨x.1.name, x.2⟩⟩])

theorem resolveParams_fixed (decls : Decls) (typeParams : List String) (isMethod : Bool) (ps : List Param)
    (placed : ∀ p ∈ ps, places p.span ∧ places p.type.span) :
    ∀ params : List Signature.Param, Fixed decls places fun c => resolveParams typeParams isMethod c params ps := by
  induction ps with
  | nil => exact fun params => .pure params
  | cons p ps ih =>
    obtain ⟨own, others⟩ := List.forall_mem_cons.mp placed
    intro params
    have rest : Fixed decls places fun c => resolveParams typeParams isMethod (c.resolve typeParams (some p.type)).2
        (params ++ [⟨p.name, (c.resolve typeParams (some p.type)).1, p.mutable⟩]) ps :=
      .bind (.resolve typeParams (t := some p.type) (by rintro _ ⟨⟩; exact own.2)) fun type =>
        ih others (params ++ [⟨p.name, type, p.mutable⟩])
    simp only [resolveParams]
    by_cases taken : (params.any (fun q => q.name == p.name) || (isMethod && p.name == "self")) = true
    · simp only [if_pos taken]
      exact .report (Diagnostic.plain own.1 (by decide)) rest
    · simp only [if_neg taken]
      exact rest

theorem resolveSources_fixed (function : String) (isMethod : Bool) (params : List Signature.Param)
    {clause : LivesClause} (placed : places clause.span) (sources : List String) :
    ∀ found : List String, Fixed decls places fun c => sources.foldl (fun (sources, c) source =>
      if params.any (fun p => p.name == source) || (source == "self" && isMethod) then (sources ++ [source], c)
      else (sources, c.report { kind := .undefinedName, span := clause.span, message :=
        s!"lives clause names `{source}`, which is not a parameter of `{function}`" })) (found, c) := by
  induction sources with
  | nil => exact fun found => .pure found
  | cons source sources ih =>
    intro found
    simp only [List.foldl_cons]
    split
    · exact ih _
    · exact .report (Diagnostic.plain placed (by decide)) (ih found)

theorem resolveSignature_fixed (decls : Decls) {f : FuncDecl} (placed : f.Placed places) (position : Nat) (typeParams : List String)
    (self : Option Signature.Self) :
    Fixed decls places fun c => c.resolveSignature position f typeParams self := by
  have params := resolveParams_fixed decls typeParams f.receiver.isSome f.params placed.params []
  unfold resolveSignature
  cases same : f.lives with
  | none =>
    exact .bind params fun params => .bind (.resolve typeParams placed.result) fun result => .pure
      (Signature.mk f.qualifiedName _ typeParams params result self none (some position) f.span)
  | some clause =>
    exact .bind params fun params => .bind (.resolve typeParams placed.result) fun result =>
      .bind (resolveSources_fixed _ _ params (placed.lives clause same) clause.sources []) fun sources => .pure
      (Signature.mk f.qualifiedName _ typeParams params result self (some sources) (some position) f.span)

/-! ### Declarations -/

def located (position : Nat) (s : Signature) : Signature := { s with origin := some position }

theorem resolveSignature_located (c : Collection) (position : Nat) (f : FuncDecl) (typeParams : List String)
    (self : Option Signature.Self) : c.resolveSignature position f typeParams self =
      (located position (c.resolveSignature 0 f typeParams self).1, (c.resolveSignature 0 f typeParams self).2) := by
  unfold resolveSignature
  cases f.lives <;> rfl

theorem resolveSignature_named (c : Collection) (position : Nat) (f : FuncDecl) (typeParams : List String)
    (self : Option Signature.Self) : (c.resolveSignature position f typeParams self).1.name = f.qualifiedName ∧
      (c.resolveSignature position f typeParams self).1.kind ≠ .builtin := by
  refine ⟨rfl, ?_⟩
  unfold resolveSignature
  dsimp only
  split <;> decide

def enter (c : Collection) (f : FuncDecl) (found : Option Signature) : Collection :=
  match f.receiver, found with
  | _, none => c
  | some receiver, some s =>
    { c with table := { c.table with methods := c.table.methods ++ [((receiver.typeName, f.name), s)] } }
  | none, some s => { c with table := { c.table with functions := c.table.functions ++ [(f.name, s)] } }

end

end Collection

namespace Table

def named? (t : Table) (f : FuncDecl) : Option Signature :=
  match f.receiver with
  | some receiver => t.method? receiver.typeName f.name
  | none => t.function? f.name

/-- The table before anything is collected. -/
def start : Table := { functions := builtins.map fun name => (name, builtinSignature name) }

theorem kind_of_start {name : String} {s : Signature} (found : start.function? name = some s) : s.kind = .builtin := by
  obtain ⟨entry, member, rfl⟩ := Option.map_eq_some_iff.mp found
  obtain ⟨name, -, rfl⟩ := List.mem_map.mp (List.mem_of_find?_eq_some member)
  rfl

end Table

namespace Collection

variable {decls : Decls} {places : Span → Prop} {f : FuncDecl}

theorem resolveSignature_read (decls : Decls) (placed : f.Placed places) (typeParams : List String) (self : Option Signature.Self) :
    ∃ s faults, (∀ d ∈ faults, Diagnostic.Plain places d) ∧ (s.name = f.qualifiedName ∧ s.kind ≠ .builtin) ∧
      ∀ c : Collection, c.table.decls.heads = decls.heads → ∀ position,
        c.resolveSignature position f typeParams self = (located position s, c.reportAll faults) := by
  obtain ⟨s, faults, plain, read⟩ := resolveSignature_fixed decls placed 0 typeParams self
  refine ⟨s, faults, plain, ?_, fun c same position => ?_⟩
  · have alone := read { table := { decls } } rfl
    have named := resolveSignature_named { table := { decls } } 0 f typeParams self
    dsimp only at alone
    rwa [alone] at named
  · have known : c.resolveSignature 0 f typeParams self = (s, c.reportAll faults) := read c same
    rw [resolveSignature_located, known]

/-- What a function adds to every collection that knows the declared types and nothing of its name. -/
structure Adds (decls : Decls) (places : Span → Prop) (f : FuncDecl) (found : Option Signature)
    (faults : List Diagnostic) : Prop where
  plain : ∀ d ∈ faults, Diagnostic.Plain places d
  free : found.isSome → Table.start.named? f = none
  named : ∀ s ∈ found, s.name = f.qualifiedName ∧ s.kind ≠ .builtin
  step : ∀ c : Collection, c.table.decls.heads = decls.heads → c.table.named? f = Table.start.named? f →
    ∀ position, c.collectFunction position f = (c.reportAll faults).enter f (found.map (located position))

theorem collectMethod_adds (decls : Decls) (placed : f.Placed places) {receiver : Receiver} (method : f.receiver = some receiver) :
    ∃ found faults, Adds decls places f found faults := by
  cases own : selfType? decls receiver.typeName with
  | none =>
    have plain : Diagnostic.Plain places { kind := .undefinedName, span := receiver.span, message :=
        s!"cannot declare a method on undefined type `{receiver.typeName}`" } :=
      Diagnostic.plain (placed.receiver receiver method) (by decide)
    refine ⟨none, _, List.forall_mem_singleton.mpr plain, by rintro ⟨⟩, by rintro s ⟨⟩, fun c same free position => ?_⟩
    simp only [collectFunction, method, selfType?_congr same, own]
    simp only [enter, method]
    rfl
  | some found =>
    obtain ⟨s, faults, plain, named, read⟩ :=
      resolveSignature_read decls placed (found.2 ++ f.typeParams) (some ⟨receiver.mode, found.1⟩)
    refine ⟨some s, faults, plain, fun _ => ?_, by rintro _ ⟨⟩; exact named, fun c same free position => ?_⟩
    · rw [Table.named?, method]
      rfl
    simp only [Table.named?, method] at free
    replace free : c.table.method? receiver.typeName f.name = none := free
    simp only [collectFunction, method, selfType?_congr same, own, free, read c same]
    simp only [enter, method]
    rfl

theorem collectPlain_adds (decls : Decls) (placed : f.Placed places) (plain : f.receiver = none) :
    ∃ found faults, Adds decls places f found faults := by
  cases taken : Table.start.function? f.name with
  | some previous =>
    have bare : Diagnostic.Plain places { kind := .duplicateDefinition, span := f.span, message :=
        s!"`{f.name}` shadows a builtin function" } := Diagnostic.plain placed.span (by decide)
    refine ⟨none, _, List.forall_mem_singleton.mpr bare, by rintro ⟨⟩, by rintro s ⟨⟩, fun c same free position => ?_⟩
    simp only [Table.named?, plain, taken] at free
    simp only [collectFunction, plain, free, Table.kind_of_start taken]
    simp only [enter, plain]
    rfl
  | none =>
    obtain ⟨s, faults, bare, named, read⟩ := resolveSignature_read decls placed f.typeParams none
    refine ⟨some s, faults, bare, fun _ => ?_, by rintro _ ⟨⟩; exact named, fun c same free position => ?_⟩
    · rw [Table.named?, plain]
      exact taken
    simp only [Table.named?, plain, taken] at free
    simp only [collectFunction, plain, free, read c same]
    simp only [enter, plain]
    rfl

theorem collectFunction_adds (decls : Decls) (placed : f.Placed places) : ∃ found faults, Adds decls places f found faults := by
  cases receiver : f.receiver with
  | some known => exact collectMethod_adds decls placed receiver
  | none => exact collectPlain_adds decls placed receiver

end Collection

end TreeCheck
