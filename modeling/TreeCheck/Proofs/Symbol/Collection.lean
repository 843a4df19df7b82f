import TreeCheck.Proofs.Diagnostics
import TreeCheck.Proofs.Symbol.Proper
import TreeCheck.Symbol.Collect

/-!
What collecting the declarations of a program gives. Every method in the table says what it is called on, and if
nothing is reported and all types have names, the table is proper. Every function has its own signature, or it is
reported once that there is no place for it.
-/

namespace TreeCheck

def Item.typeName? : Item → Option String
  | .struct d => some d.name
  | .enum d => some d.name
  | .function _ => none

/-- All declared types have names. -/
def Program.Named (p : Program) : Prop := ∀ item ∈ p.items, item.typeName? ≠ some ""

/-- Why a table has no place for a function, and what is reported then, remarks left out. -/
inductive Table.Rejects (t : Table) (f : FuncDecl) : Diagnostic → Prop
  | stray {receiver : Receiver} (method : f.receiver = some receiver)
      (unknown : Collection.selfType? t.decls receiver.typeName = none) : t.Rejects f
        { kind := .undefinedName, span := receiver.span
          message := s!"cannot declare a method on undefined type `{receiver.typeName}`" }
  | method {receiver : Receiver} {previous : Signature} (method : f.receiver = some receiver)
      (taken : t.method? receiver.typeName f.name = some previous) : t.Rejects f
        { kind := .duplicateDefinition, span := f.span, message := s!"`{f.qualifiedName}` is defined more than once" }
  | builtin {previous : Signature} (plain : f.receiver = none) (taken : t.function? f.name = some previous)
      (own : previous.kind = .builtin) : t.Rejects f
        { kind := .duplicateDefinition, span := f.span, message := s!"`{f.name}` shadows a builtin function" }
  | function {previous : Signature} (plain : f.receiver = none) (taken : t.function? f.name = some previous)
      (declared : previous.kind ≠ .builtin) : t.Rejects f
        { kind := .duplicateDefinition, span := f.span, message := s!"function `{f.name}` is defined more than once" }

namespace Collection

/-- Nothing has been reported. -/
def Quiet (c : Collection) : Prop := c.bag.contents = []

/-- Reading a part of a declaration: the table stays as it is, no report is taken back, and what is read without
one is good. -/
structure Reads (c c' : Collection) (good : Prop) : Prop where
  table : c'.table = c.table
  bag : c.bag.Grows c'.bag
  good : c'.Quiet → c.table.decls.Proper → good

namespace Reads

variable {c c' c'' : Collection} {p q : Prop}

theorem refl (c : Collection) (holds : p) : Reads c c p := ⟨rfl, .refl _, fun _ _ => holds⟩

theorem quiet (reads : Reads c c' p) (quiet : c'.Quiet) : c.Quiet := reads.bag.quiet quiet

theorem trans (first : Reads c c' p) (second : Reads c' c'' q) : Reads c c'' (p ∧ q) where
  table := second.table.trans first.table
  bag := first.bag.trans second.bag
  good := fun quiet proper =>
    ⟨first.good (second.quiet quiet) proper, second.good quiet (first.table ▸ proper)⟩

theorem imp (reads : Reads c c' p) (use : p → q) : Reads c c' q :=
  ⟨reads.table, reads.bag, fun quiet proper => use (reads.good quiet proper)⟩

end Reads

variable {c : Collection}

theorem report_loud (d : Diagnostic) : ¬ (c.report d).Quiet := Bag.add_ne_nil _ _

theorem report_reads (c : Collection) (d : Diagnostic) : Reads c (c.report d) False :=
  ⟨rfl, .add _ d, fun quiet => (report_loud d quiet).elim⟩

theorem resolve_reads (c : Collection) (params : List String) (t : Option WrittenType) :
    Reads c (c.resolve params t).2 ((c.resolve params t).1.Proper []) :=
  ⟨rfl, ⟨_, rfl⟩, fun quiet proper => proper.resolveWritten (Bag.addAll_eq_nil.mp quiet).2⟩

theorem resolveFields_reads (params : List String) (owner : String) (ds : List FieldDecl) :
    ∀ (c : Collection) (fields : List Field), Reads c (resolveFields params owner c fields ds).2
      ((∀ f ∈ fields, f.type.Proper []) → ∀ f ∈ (resolveFields params owner c fields ds).1, f.type.Proper []) := by
  induction ds with
  | nil => exact fun c _ => .refl c id
  | cons d ds ih =>
    intro c fields
    rw [resolveFields]
    split
    · exact ((report_reads c _).trans (ih _ fields)).imp fun given => given.1.elim
    · have read := resolve_reads c params (some d.type)
      refine (read.trans (ih _ (fields ++ [{ name := d.name, type := _ }]))).imp fun given before => given.2 ?_
      exact List.forall_mem_append.mpr ⟨before, List.forall_mem_singleton.mpr given.1⟩

theorem resolveAll_reads (params : List String) (ts : List (Option WrittenType)) : ∀ c : Collection,
    Reads c (resolveAll params c ts).2 (∀ t ∈ (resolveAll params c ts).1, t.Proper []) := by
  induction ts with
  | nil => exact fun c => .refl c (List.forall_mem_nil _)
  | cons t ts ih =>
    exact fun c => ((resolve_reads c params t).trans (ih _)).imp fun given => List.forall_mem_cons.mpr given

theorem resolveVariants_reads (params : List String) (enum : String) (ds : List VariantDecl) :
    ∀ (c : Collection) (variants : List Variant), Reads c (resolveVariants params enum c variants ds).2
      ((∀ v ∈ variants, ∀ t ∈ v.slots, t.Proper []) →
        ∀ v ∈ (resolveVariants params enum c variants ds).1, ∀ t ∈ v.slots, t.Proper []) := by
  induction ds with
  | nil => exact fun c _ => .refl c id
  | cons d ds ih =>
    intro c variants
    rw [resolveVariants]
    split
    · exact ((report_reads c _).trans (ih _ variants)).imp fun given => given.1.elim
    · refine ((resolveAll_reads params d.payload c).trans ((resolveAll_reads params _ _).trans (ih _ _))).imp
        fun ⟨payload, fields, rest⟩ before => rest ?_
      refine List.forall_mem_append.mpr ⟨before, List.forall_mem_singleton.mpr fun t member => ?_⟩
      unfold Variant.slots at member
      split at member
      · obtain ⟨g, inside, rfl⟩ := List.mem_map.mp member
        obtain ⟨pair, paired, rfl⟩ := List.mem_map.mp inside
        exact fields _ (List.of_mem_zip paired).2
      · exact payload t member

theorem resolveParams_reads (typeParams : List String) (isMethod : Bool) (ps : List Param) :
    ∀ (c : Collection) (params : List Signature.Param), Reads c (resolveParams typeParams isMethod c params ps).2
      ((∀ p ∈ params, p.type.Proper []) →
        ∀ p ∈ (resolveParams typeParams isMethod c params ps).1, p.type.Proper []) := by
  induction ps with
  | nil => exact fun c _ => .refl c id
  | cons p ps ih =>
    intro c params
    rw [resolveParams]
    have rest (c : Collection) := ((resolve_reads c typeParams (some p.type)).trans (ih _ (params ++
      [{ name := p.name, type := (c.resolve typeParams (some p.type)).1, mutable := p.mutable }]))).imp
      fun given before => given.2 (List.forall_mem_append.mpr ⟨before, List.forall_mem_singleton.mpr given.1⟩)
    dsimp only
    by_cases taken : (params.any (fun q => q.name == p.name) || (isMethod && p.name == "self")) = true
    · rw [if_pos taken]
      exact ((report_reads c _).trans (rest _)).imp fun given => given.1.elim
    · rw [if_neg taken]
      exact rest c

theorem resolveSources_reads {c : Collection} (function : String) (isMethod : Bool)
    (params : List Signature.Param) (clause : LivesClause) (sources : List String)
    (start : List String × Collection) (reads : Reads c start.2 True) :
    Reads c (sources.foldl (fun (sources, c) source =>
      if params.any (fun p => p.name == source) || (source == "self" && isMethod) then (sources ++ [source], c)
      else (sources, c.report { kind := .undefinedName, span := clause.span, message :=
        s!"lives clause names `{source}`, which is not a parameter of `{function}`" })) start).2 True := by
  induction sources generalizing start with
  | nil => exact reads
  | cons source sources ih =>
    refine ih _ ?_
    dsimp only
    split
    · exact reads
    · exact (reads.trans (report_reads _ _)).imp fun _ => trivial

theorem resolveLives_reads (c : Collection) (function : String) (isMethod : Bool) (params : List Signature.Param)
    (clause : LivesClause) : Reads c (c.resolveLives function isMethod params clause).2 True :=
  resolveSources_reads function isMethod params clause clause.sources ([], c) (.refl c trivial)

theorem resolveSignature_reads (c : Collection) (position : Nat) (f : FuncDecl) (typeParams : List String)
    (self : Option Signature.Self) : Reads c (c.resolveSignature position f typeParams self).2
      ((∀ own ∈ self, own.type.Proper []) → (c.resolveSignature position f typeParams self).1.Proper) := by
  have read := (resolveParams_reads typeParams f.receiver.isSome f.params c []).trans
    (resolve_reads _ typeParams f.result)
  unfold resolveSignature
  cases f.lives with
  | none => exact read.imp fun given own => ⟨given.1 (List.forall_mem_nil _), given.2, own⟩
  | some clause =>
    exact (read.trans (resolveLives_reads _ _ _ _ clause)).imp fun given own =>
      ⟨given.1.1 (List.forall_mem_nil _), given.1.2, own⟩

/-! ### Types -/

/-- Declaring and reading types: no report is taken back, and if they are named, proper declarations stay
proper. -/
structure Declares (named : Prop) (c c' : Collection) : Prop where
  functions : c'.table.functions = c.table.functions
  methods : c'.table.methods = c.table.methods
  bag : c.bag.Grows c'.bag
  proper : named → c'.Quiet → c.table.decls.Proper → c'.table.decls.Proper

namespace Declares

variable {named : Prop} {c' c'' : Collection}

theorem refl (c : Collection) : Declares named c c := ⟨rfl, rfl, .refl _, fun _ _ => id⟩

theorem quiet (declares : Declares named c c') (quiet : c'.Quiet) : c.Quiet := declares.bag.quiet quiet

theorem trans (first : Declares named c c') (second : Declares named c' c'') : Declares named c c'' where
  functions := second.functions.trans first.functions
  methods := second.methods.trans first.methods
  bag := first.bag.trans second.bag
  proper := fun known quiet proper => second.proper known quiet (first.proper known (second.quiet quiet) proper)

theorem report (c : Collection) (d : Diagnostic) : Declares named c (c.report d) :=
  ⟨rfl, rfl, .add _ d, fun _ quiet => (report_loud d quiet).elim⟩

theorem foldl {step : Collection → Item → Collection} (items : List Item)
    (each : ∀ c, ∀ item ∈ items, Declares named c (step c item)) (c : Collection) :
    Declares named c (items.foldl step c) := by
  induction items generalizing c with
  | nil => exact refl c
  | cons item items ih =>
    exact (each c item List.mem_cons_self).trans
      (ih (fun c other member => each c other (List.mem_cons_of_mem _ member)) _)

end Declares

theorem collectStructs_declares {named : Prop} (c : Collection) (d : StructDecl) :
    Declares named c (c.collectStructs d) := by
  have read := resolveFields_reads d.typeParams d.name d.fields c []
  have same := read.table
  refine ⟨(congrArg Table.functions same :), (congrArg Table.methods same :), read.bag, fun _ quiet proper => ?_⟩
  have fields := read.good quiet proper (List.forall_mem_nil _)
  refine ⟨fun s member => ?_, ?_⟩
  · obtain ⟨before, inside, rfl⟩ := List.mem_map.mp member
    have known := proper.structs before (congrArg (fun t => t.decls.structs) same ▸ inside)
    split
    · exact ⟨known.1, fields⟩
    · exact known
  · exact fun e member => proper.enums e (congrArg (fun t => t.decls.enums) same ▸ member)

theorem collectEnums_declares {named : Prop} (c : Collection) (d : EnumDecl) :
    Declares named c (c.collectEnums d) := by
  have read := resolveVariants_reads d.typeParams d.name d.variants c []
  have same := read.table
  refine ⟨(congrArg Table.functions same :), (congrArg Table.methods same :), read.bag, fun _ quiet proper => ?_⟩
  have variants := read.good quiet proper (List.forall_mem_nil _)
  refine ⟨?_, fun e member => ?_⟩
  · exact fun s member => proper.structs s (congrArg (fun t => t.decls.structs) same ▸ member)
  · obtain ⟨before, inside, rfl⟩ := List.mem_map.mp member
    have known := proper.enums before (congrArg (fun t => t.decls.enums) same ▸ inside)
    split
    · exact ⟨known.1, variants⟩
    · exact known

/-- The pass over the items that reads the fields of structs. -/
def collectStruct (c : Collection) : Item → Collection
  | .struct d => c.collectStructs d
  | _ => c

/-- The pass over the items that reads the variants of enums. -/
def collectEnum (c : Collection) : Item → Collection
  | .enum d => c.collectEnums d
  | _ => c

theorem collectStruct_declares {named : Prop} (c : Collection) (item : Item) :
    Declares named c (c.collectStruct item) := by
  cases item with
  | struct d => exact c.collectStructs_declares d
  | enum d | function f => exact .refl c

theorem collectEnum_declares {named : Prop} (c : Collection) (item : Item) :
    Declares named c (c.collectEnum item) := by
  cases item with
  | enum d => exact c.collectEnums_declares d
  | struct d | function f => exact .refl c

theorem declareType_declares {named : Prop} (c : Collection) (name : String) (span : Span) :
    Declares named c (c.declareType name span).1 := by
  unfold declareType
  split
  · exact .report c _
  · split
    · exact .report c _
    · exact ⟨rfl, rfl, .refl _, fun _ _ => id⟩

theorem declare_declares {named : Prop} (c : Collection) {item : Item} (own : named → item.typeName? ≠ some "") :
    Declares named c (c.declare item) := by
  have filled {name : String} (same : item.typeName? = some name) (given : named) : name ≠ "" :=
    fun empty => own given (same.trans (congrArg some empty))
  cases item with
  | function f => exact .refl c
  | struct d =>
    have first : Declares named c (c.declareType d.name d.span).1 := c.declareType_declares d.name d.span
    unfold declare
    dsimp only
    split
    next c' ran =>
      rw [ran] at first
      refine first.trans ⟨rfl, rfl, .refl _, fun given _ proper => ⟨?_, proper.enums⟩⟩
      exact List.forall_mem_append.mpr
        ⟨proper.structs, List.forall_mem_singleton.mpr ⟨filled rfl given, List.forall_mem_nil _⟩⟩
    next c' ran =>
      rw [ran] at first
      exact first
  | enum d =>
    have first : Declares named c (c.declareType d.name d.span).1 := c.declareType_declares d.name d.span
    unfold declare
    dsimp only
    split
    next c' ran =>
      rw [ran] at first
      refine first.trans ⟨rfl, rfl, .refl _, fun given _ proper => ⟨proper.structs, ?_⟩⟩
      exact List.forall_mem_append.mpr
        ⟨proper.enums, List.forall_mem_singleton.mpr ⟨filled rfl given, List.forall_mem_nil _⟩⟩
    next c' ran =>
      rw [ran] at first
      exact first

/-! ### Functions -/

/-- Collecting functions: what has been collected stays, no report is taken back, and proper tables stay
proper. -/
structure Collects (c c' : Collection) : Prop where
  decls : c'.table.decls = c.table.decls
  functions : c.table.functions <+: c'.table.functions
  methods : c.table.methods <+: c'.table.methods
  bag : c.bag.Grows c'.bag
  proper : c'.Quiet → c.table.Proper → c'.table.Proper
  received : c.table.Received → c'.table.Received

namespace Collects

variable {c' c'' : Collection}

theorem refl (c : Collection) : Collects c c :=
  ⟨rfl, List.prefix_refl _, List.prefix_refl _, .refl _, fun _ => id, id⟩

theorem quiet (collects : Collects c c') (quiet : c'.Quiet) : c.Quiet := collects.bag.quiet quiet

theorem trans (first : Collects c c') (second : Collects c' c'') : Collects c c'' where
  decls := second.decls.trans first.decls
  functions := first.functions.trans second.functions
  methods := first.methods.trans second.methods
  bag := first.bag.trans second.bag
  proper := fun quiet proper => second.proper quiet (first.proper (second.quiet quiet) proper)
  received := fun received => second.received (first.received received)

theorem report (c : Collection) (d : Diagnostic) : Collects c (c.report d) :=
  ⟨rfl, List.prefix_refl _, List.prefix_refl _, .add _ d, fun quiet => (report_loud d quiet).elim, id⟩

theorem function? (collects : Collects c c') {name : String} {s : Signature}
    (found : c.table.function? name = some s) : c'.table.function? name = some s := by
  obtain ⟨functions, added⟩ := collects.functions
  unfold Table.function? at found ⊢
  obtain ⟨entry, first, rfl⟩ := Option.map_eq_some_iff.mp found
  simp [← added, first]

theorem method? (collects : Collects c c') {type name : String} {s : Signature}
    (found : c.table.method? type name = some s) : c'.table.method? type name = some s := by
  obtain ⟨methods, added⟩ := collects.methods
  unfold Table.method? at found ⊢
  obtain ⟨entry, first, rfl⟩ := Option.map_eq_some_iff.mp found
  simp [← added, first]

theorem signature (collects : Collects c c') {position : Nat} {f : FuncDecl} {s : Signature}
    (found : c.table.signature? position f = some s) : c'.table.signature? position f = some s := by
  unfold Table.signature? at found ⊢
  obtain ⟨here, own⟩ := Option.filter_eq_some_iff.mp found
  refine Option.filter_eq_some_iff.mpr ⟨?_, own⟩
  cases receiver : f.receiver with
  | none =>
    rw [receiver] at here
    exact collects.function? here
  | some known =>
    rw [receiver] at here
    exact collects.method? here

theorem rejects (collects : Collects c c') {f : FuncDecl} {d : Diagnostic} (rejected : c.table.Rejects f d) :
    c'.table.Rejects f d := by
  cases rejected with
  | stray method unknown => exact .stray method (by rwa [collects.decls])
  | method method taken => exact .method method (collects.method? taken)
  | builtin plain taken own => exact .builtin plain (collects.function? taken) own
  | function plain taken declared => exact .function plain (collects.function? taken) declared

end Collects

theorem selfType?_proper {decls : Decls} (proper : decls.Proper) {name : String} {type : Ty} {params : List String}
    (found : selfType? decls name = some (type, params)) : type.Proper [] := by
  unfold selfType? at found
  split at found
  next d struct =>
    cases found
    exact Ty.proper_struct.mpr ⟨(proper.struct struct).2.1, by simp⟩
  next d enum =>
    cases found
    exact Ty.proper_enum.mpr ⟨(proper.enum enum).2.1, by simp⟩
  · cases found

theorem key_duplicate (c : Collection) (name : String) (span : Span) : (c.duplicate name span).key =
    Diagnostic.key { kind := .duplicateDefinition, span, message := s!"`{name}` is defined more than once" } := by
  unfold duplicate
  split
  · exact Diagnostic.withLabel_key _ _ _
  · rfl

/-- A function has its own signature, or it has been reported that there is no place for it. -/
def Settles (c : Collection) (position : Nat) (f : FuncDecl) : Prop :=
  (∃ s, c.table.signature? position f = some s) ∨ ∃ d, c.table.Rejects f d ∧ d.key ∈ c.bag.keys

theorem Collects.settles {c' : Collection} (collects : Collects c c') {position : Nat} {f : FuncDecl}
    (settled : c.Settles position f) : c'.Settles position f :=
  settled.imp (fun ⟨s, found⟩ => ⟨s, collects.signature found⟩)
    fun ⟨d, rejected, told⟩ => ⟨d, collects.rejects rejected, collects.bag.subset told⟩

theorem collectFunction_collects (c : Collection) (position : Nat) (f : FuncDecl) :
    Collects c (c.collectFunction position f) ∧ (c.collectFunction position f).Settles position f := by
  have reported {d e : Diagnostic} (rejected : c.table.Rejects f d) (same : e.key = d.key) :
      Collects c (c.report e) ∧ (c.report e).Settles position f := by
    refine ⟨.report c e, .inr ⟨d, rejected, ?_⟩⟩
    rw [← same, report, Bag.keys_add]
    split
    · assumption
    · exact List.mem_append_right _ List.mem_cons_self
  unfold collectFunction
  cases receiver : f.receiver with
  | some known =>
    dsimp only
    split
    next unknown => exact reported (.stray receiver unknown) rfl
    next type params own =>
      split
      next taken =>
        obtain ⟨previous, found⟩ := Option.isSome_iff_exists.mp taken
        exact reported (.method receiver found) (c.key_duplicate _ _)
      next free =>
        have read := c.resolveSignature_reads position f (params ++ f.typeParams) (some ⟨known.mode, type⟩)
        have same := read.table
        refine ⟨⟨congrArg (·.decls) same, ?_, ?_, read.bag, fun quiet proper => ⟨?_, ?_, ?_⟩, ?_⟩, .inl ?_⟩
        · exact congrArg (·.functions) same ▸ List.prefix_refl _
        · exact congrArg (·.methods) same ▸ List.prefix_append _ _
        · exact congrArg (·.decls) same ▸ proper.decls
        · exact congrArg (·.functions) same ▸ proper.functions
        · refine List.forall_mem_append.mpr ⟨congrArg (·.methods) same ▸ proper.methods,
            List.forall_mem_singleton.mpr (read.good quiet proper.decls fun self member => ?_)⟩
          cases member
          exact selfType?_proper proper.decls own
        · exact fun received => List.forall_mem_append.mpr
            ⟨congrArg (·.methods) same ▸ received, List.forall_mem_singleton.mpr rfl⟩
        · refine ⟨(c.resolveSignature position f (params ++ f.typeParams) (some ⟨known.mode, type⟩)).1,
            Option.filter_eq_some_iff.mpr ⟨?_, beq_iff_eq.mpr rfl⟩⟩
          have free : c.table.methods.find? (fun entry => entry.1 == (known.typeName, f.name)) = none := by
            simpa only [Table.method?, Bool.not_eq_true, Option.isSome_eq_false_iff, Option.isNone_iff_eq_none,
              Option.map_eq_none_iff] using free
          simp only [receiver, Table.method?, congrArg (·.methods) same]
          simp [free]
  | none =>
    dsimp only
    split
    next previous taken =>
      split
      next own => exact reported (.builtin receiver taken (beq_iff_eq.mp own)) rfl
      next declared => exact reported (.function receiver taken (by simpa using declared)) (by simp)
    next free =>
      have read := c.resolveSignature_reads position f f.typeParams none
      have same := read.table
      refine ⟨⟨congrArg (·.decls) same, ?_, ?_, read.bag, fun quiet proper => ⟨?_, ?_, ?_⟩, ?_⟩, .inl ?_⟩
      · exact congrArg (·.functions) same ▸ List.prefix_append _ _
      · exact congrArg (·.methods) same ▸ List.prefix_refl _
      · exact congrArg (·.decls) same ▸ proper.decls
      · exact List.forall_mem_append.mpr ⟨congrArg (·.functions) same ▸ proper.functions,
          List.forall_mem_singleton.mpr (read.good quiet proper.decls fun _ member => by cases member)⟩
      · exact congrArg (·.methods) same ▸ proper.methods
      · exact fun received => congrArg (·.methods) same ▸ received
      · refine ⟨(c.resolveSignature position f f.typeParams none).1,
          Option.filter_eq_some_iff.mpr ⟨?_, beq_iff_eq.mpr rfl⟩⟩
        have free : c.table.functions.find? (fun entry => entry.1 == f.name) = none := by
          simpa [Table.function?] using free
        simp only [receiver, Table.function?, congrArg (·.functions) same]
        simp [free]

/-- Of functions that are collected one after the other, each has its signature or is reported. -/
theorem collectFunctions_collects (functions : List (FuncDecl × Nat)) : ∀ c : Collection,
    let c' := functions.foldl (fun c (f, position) => c.collectFunction position f) c
    Collects c c' ∧ ∀ entry ∈ functions, c'.Settles entry.2 entry.1 := by
  induction functions with
  | nil => exact fun c => ⟨.refl c, List.forall_mem_nil _⟩
  | cons entry functions ih =>
    intro c
    obtain ⟨first, own⟩ := c.collectFunction_collects entry.2 entry.1
    obtain ⟨rest, others⟩ := ih (c.collectFunction entry.2 entry.1)
    exact ⟨first.trans rest, List.forall_mem_cons.mpr ⟨rest.settles own, others⟩⟩

end Collection

namespace Program

variable {p : Program}

theorem registered_fst (items : List Item) : (registered items).1 = items.foldl Collection.declare
    { table := { functions := builtins.map fun name => (name, builtinSignature name) } } := by
  exact (List.foldl_hom Prod.fst fun _ _ => rfl).symm

theorem builtinSignature_proper (name : String) : (builtinSignature name).Proper where
  params := by simp [builtinSignature]
  result := Ty.proper_unit
  self := fun _ member => by cases member

/-- Before any function is collected, only the built-in ones are known. -/
theorem collect_collects (p : Program) : ∃ before after : Collection, Collection.Collects before after ∧
    p.collect = (after.table, after.bag.items) ∧ before.table.methods = [] ∧
    (∀ entry ∈ before.table.functions, entry.2.Proper) ∧
    (p.Named → before.Quiet → before.table.decls.Proper) ∧
    after.bag.keys.Nodup ∧ ∀ entry ∈ p.functions.zipIdx, after.Settles entry.2 entry.1 := by
  have declared := Collection.Declares.foldl p.items
    (fun c item member => c.declare_declares fun named : p.Named => named item member)
    { table := { functions := builtins.map fun name => (name, builtinSignature name) } }
  rw [← registered_fst] at declared
  have structs := declared.trans (.foldl (registered p.items).2 (fun c item _ => c.collectStruct_declares item) _)
  have types := structs.trans (.foldl (registered p.items).2 (fun c item _ => c.collectEnum_declares item) _)
  have collects := Collection.collectFunctions_collects p.functions.zipIdx
  refine ⟨_, _, (collects _).1, ?_, types.methods, ?_, fun named quiet => ?_,
    (types.bag.trans (collects _).1.bag).nodup List.nodup_nil, (collects _).2⟩
  · rfl
  · rw [types.functions]
    simpa using fun name _ => builtinSignature_proper name
  · exact types.proper named quiet ⟨List.forall_mem_nil _, List.forall_mem_nil _⟩

/-- Every method in the table says what it is called on. -/
theorem collect_received (p : Program) : p.collect.1.Received := by
  obtain ⟨before, after, collects, same, none, -⟩ := p.collect_collects
  rw [same]
  refine collects.received fun entry member => ?_
  rw [none] at member
  cases member

/-- A table that was collected without a report is proper. -/
theorem collect_proper (named : p.Named) (collected : p.collect.2 = []) : p.collect.1.Proper := by
  obtain ⟨before, after, collects, same, none, functions, decls, -, -⟩ := p.collect_collects
  rw [same] at collected ⊢
  have quiet := Bag.items_eq_nil.mp collected
  refine collects.proper quiet ⟨decls named (collects.quiet quiet), functions, fun entry member => ?_⟩
  rw [none] at member
  cases member

/-- Without a report every function has its own signature. -/
theorem collect_signature (collected : p.collect.2 = []) {f : FuncDecl} {position : Nat}
    (member : (f, position) ∈ p.functions.zipIdx) : ∃ s, p.collect.1.signature? position f = some s := by
  obtain ⟨before, after, -, same, -, -, -, -, settled⟩ := p.collect_collects
  rw [same] at collected ⊢
  rcases settled _ member with own | ⟨d, -, told⟩
  · exact own
  · simp [Bag.keys, Bag.items_eq_nil.mp collected] at told

/-- That there is no place for a function is reported once. -/
theorem collect_rejects {f : FuncDecl} {position : Nat} (member : (f, position) ∈ p.functions.zipIdx)
    (rejected : p.collect.1.signature? position f = none) :
    ∃ d, p.collect.1.Rejects f d ∧ (p.collect.2.map Diagnostic.key).count d.key = 1 := by
  obtain ⟨before, after, -, same, -, -, -, apart, settled⟩ := p.collect_collects
  rw [same] at rejected ⊢
  rcases settled _ member with ⟨s, found⟩ | ⟨d, why, told⟩
  · cases rejected.symm.trans found
  · exact ⟨d, why, Bag.count_items apart told⟩

end Program

end TreeCheck
