import TreeCheck.Proofs.Symbol.Regular

/-!
The members of declared types. They are declared without variables, so a struct or enum that inference has found only
in part has the members of the type it turns out to be, up to what is still open.
-/

namespace TreeCheck

namespace Decls

variable {decls : Decls}

/-! ### Written types -/

theorem ofName?_shut {name : String} {t : Ty} (found : Ty.ofName? name = some t) : t.hasVars = false := by
  have all : ∀ t ∈ Ty.primitives, t.hasVars = false := by decide
  exact all t (List.mem_of_find?_eq_some found)

theorem resolveNamed_shut (params : List String) (span : Span) (name : String) {args : List Ty}
    (shut : ∀ a ∈ args, a.hasVars = false) : (decls.resolveNamed params span name args).1.hasVars = false := by
  have applied {want : Nat} {type : Ty} {d : Diagnostic} (own : type.hasVars = false) :
      (if args.length == want then (type, []) else (Ty.invalid, [d])).1.hasVars = false := by
    split
    · exact own
    · rfl
  unfold resolveNamed
  dsimp only
  split
  · exact applied rfl
  · split
    next t found => exact applied (ofName?_shut found)
    next =>
      split
      · exact applied (by simpa [Ty.hasVars_eq (.struct ..), Ty.isVar, Ty.children] using shut)
      · exact applied (by simpa [Ty.hasVars_eq (.enum ..), Ty.isVar, Ty.children] using shut)
      · rfl

mutual

/-- No variable is ever written, so none is read, whether or not faults are found. -/
theorem resolve_shut (decls : Decls) (params : List String) (span : Span) : ∀ t : TypeExpr,
    (decls.resolve params span t).1.hasVars = false
  | .named name args => by
    rw [resolve]
    exact resolveNamed_shut params span name (decls.resolveAll_shut params span args)
  | .ref mutable target => by
    rw [resolve]
    simpa [Ty.hasVars_eq (.ref ..), Ty.isVar, Ty.children] using decls.resolve_shut params span target
  | .array element => by
    rw [resolve]
    simpa [Ty.hasVars_eq (.array _), Ty.isVar, Ty.children] using decls.resolve_shut params span element
  | .tuple elements => by
    rw [resolve, Ty.hasVars_product, List.any_eq_false]
    simpa using decls.resolveAll_shut params span elements
  | .function args none => by
    rw [resolve]
    simpa [Ty.hasVars_eq (.function ..), Ty.isVar, Ty.children, or_imp, forall_and]
      using ⟨decls.resolveAll_shut params span args, rfl⟩
  | .function args (some result) => by
    rw [resolve]
    simpa [Ty.hasVars_eq (.function ..), Ty.isVar, Ty.children, or_imp, forall_and]
      using ⟨decls.resolveAll_shut params span args, decls.resolve_shut params span result⟩

theorem resolveAll_shut (decls : Decls) (params : List String) (span : Span) : ∀ types : List TypeExpr,
    ∀ t ∈ (decls.resolveAll params span types).1, t.hasVars = false
  | [] => by simp [resolveAll]
  | t :: rest => by
    rw [resolveAll]
    exact List.forall_mem_cons.mpr ⟨decls.resolve_shut params span t, decls.resolveAll_shut params span rest⟩

end

theorem resolveWritten_shut (decls : Decls) (params : List String) (t : Option WrittenType) :
    (decls.resolveWritten params t).1.hasVars = false := by
  cases t with
  | none => rfl
  | some t => exact decls.resolve_shut params t.span t.type

end Decls

namespace Collection

variable {c : Collection}

/-! ### Collected declarations -/

theorem resolve_shut (c : Collection) (params : List String) (t : Option WrittenType) :
    (c.resolve params t).1.hasVars = false := c.table.decls.resolveWritten_shut params t

theorem resolveFields_shut (params : List String) (owner : String) (ds : List FieldDecl) :
    ∀ (c : Collection) (fields : List Field), (∀ f ∈ fields, f.type.hasVars = false) →
      ∀ f ∈ (resolveFields params owner c fields ds).1, f.type.hasVars = false := by
  induction ds with
  | nil => exact fun _ _ before => before
  | cons d ds ih =>
    intro c fields before
    rw [resolveFields]
    split
    · exact ih _ fields before
    · exact ih _ _ (List.forall_mem_append.mpr
        ⟨before, List.forall_mem_singleton.mpr (c.resolve_shut params (some d.type))⟩)

theorem resolveAll_shut (params : List String) (ts : List (Option WrittenType)) :
    ∀ c : Collection, ∀ t ∈ (resolveAll params c ts).1, t.hasVars = false := by
  induction ts with
  | nil => exact fun _ => List.forall_mem_nil _
  | cons t ts ih => exact fun c => List.forall_mem_cons.mpr ⟨c.resolve_shut params t, ih _⟩

theorem resolveVariants_shut (params : List String) (enum : String) (ds : List VariantDecl) :
    ∀ (c : Collection) (variants : List Variant), (∀ v ∈ variants, ∀ t ∈ v.slots, t.hasVars = false) →
      ∀ v ∈ (resolveVariants params enum c variants ds).1, ∀ t ∈ v.slots, t.hasVars = false := by
  induction ds with
  | nil => exact fun _ _ before => before
  | cons d ds ih =>
    intro c variants before
    rw [resolveVariants]
    split
    · exact ih _ variants before
    · refine ih _ _ (List.forall_mem_append.mpr ⟨before, List.forall_mem_singleton.mpr fun t member => ?_⟩)
      unfold Variant.slots at member
      split at member
      · rw [List.map_map] at member
        obtain ⟨⟨f, type⟩, inside, rfl⟩ := List.mem_map.mp member
        exact resolveAll_shut params _ _ type (List.of_mem_zip inside).2
      · exact resolveAll_shut params d.payload c t member

/-- The members collected so far have no variables. -/
def Shut (c : Collection) : Prop := c.table.decls.Shut

theorem Shut.collectStruct (shut : c.Shut) (item : Item) : (c.collectStruct item).Shut := by
  cases item with
  | struct d =>
    have read := (resolveFields_reads d.typeParams d.name d.fields c []).table
    have kept : (resolveFields d.typeParams d.name c [] d.fields).2.Shut := by rwa [Shut, read]
    refine ⟨fun e member => ?_, kept.slots⟩
    obtain ⟨before, inside, rfl⟩ := List.mem_map.mp member
    split
    · exact resolveFields_shut d.typeParams d.name d.fields c [] (List.forall_mem_nil _)
    · exact kept.fields before inside
  | enum d | function f => exact shut

theorem Shut.collectEnum (shut : c.Shut) (item : Item) : (c.collectEnum item).Shut := by
  cases item with
  | enum d =>
    have read := (resolveVariants_reads d.typeParams d.name d.variants c []).table
    have kept : (resolveVariants d.typeParams d.name c [] d.variants).2.Shut := by rwa [Shut, read]
    refine ⟨kept.fields, fun e member => ?_⟩
    obtain ⟨before, inside, rfl⟩ := List.mem_map.mp member
    split
    · exact resolveVariants_shut d.typeParams d.name d.variants c [] (List.forall_mem_nil _)
    · exact kept.slots before inside
  | struct d | function f => exact shut

theorem Shut.declare (shut : c.Shut) (item : Item) : (c.declare item).Shut := by
  unfold Shut at shut ⊢
  rcases c.declare_cases item with same | ⟨name, span, params, -, -, -, same | same⟩
  · rwa [same]
  · rw [same]
    exact ⟨List.forall_mem_append.mpr
      ⟨shut.fields, List.forall_mem_singleton.mpr (List.forall_mem_nil _)⟩, shut.slots⟩
  · rw [same]
    exact ⟨shut.fields, List.forall_mem_append.mpr
      ⟨shut.slots, List.forall_mem_singleton.mpr (List.forall_mem_nil _)⟩⟩

end Collection

/-- Whatever was reported, no member of a declared type has a variable. -/
theorem Program.collect_shut (p : Program) : p.collect.1.decls.Shut := by
  have start : (registered p.items).1.Shut := by
    rw [registered_fst]
    exact List.foldlRecOn p.items Collection.declare ⟨List.forall_mem_nil _, List.forall_mem_nil _⟩
      fun c shut item _ => shut.declare item
  have structs := List.foldlRecOn (registered p.items).2 Collection.collectStruct start
    fun c shut item _ => shut.collectStruct item
  have enums := List.foldlRecOn (registered p.items).2 Collection.collectEnum structs
    fun c shut item _ => shut.collectEnum item
  have same : p.collect.1.decls = _ := (Collection.collectFunctions_collects p.functions.zipIdx _).1.decls
  rw [same]
  exact enums

/-- Arguments can be resolved before they are put in the place of parameters or after, for a declared type alone and
for all that is looked up in the declarations of a program. Arguments put in later go to the arguments alone, even
where these mention parameters of the same names. -/
theorem instantiate_commutes :
    (∀ (t : Ty) (params : List String) (args : List Ty) (s : Subst), t.hasVars = false →
      s.apply (t.instantiate params args) = t.instantiate params (args.map s.apply)) ∧
    (∀ (t : Ty) (params others : List String) (args more : List Ty), args.length = params.length →
      (∀ name, .generic name ∈ t.parts → name ∈ params) →
      (t.instantiate params args).instantiate others more =
        t.instantiate params (args.map (Ty.instantiate others more))) ∧
    ∀ (p : Program) (s : Subst) (name : String) (args args' : List Ty),
      (s.apply (.struct name args) = .struct name args' →
        p.collect.1.decls.fields name args' =
          (p.collect.1.decls.fields name args).map (fun f => { f with type := s.apply f.type }) ∧
        ∀ field, p.collect.1.decls.fieldType? name args' field =
          (p.collect.1.decls.fieldType? name args field).map s.apply) ∧
      (s.apply (.enum name args) = .enum name args' → ∀ d, p.collect.1.decls.enum? name = some d →
        ∀ v ∈ d.variants, Decls.slots d args' v = (Decls.slots d args v).map s.apply) := by
  refine ⟨fun t params args s shut => s.apply_instantiate shut params args,
    fun t params others args more sized covered => Ty.instantiate_instantiate sized covered others more,
    fun p s name args args' => ⟨fun resolved => ?_, fun resolved d found v member => ?_⟩⟩
  · rw [s.apply_eq, Ty.fill_struct] at resolved
    cases resolved
    exact ⟨p.collect_shut.fields_apply s name args, p.collect_shut.fieldType?_apply s name args⟩
  · rw [s.apply_eq, Ty.fill_enum] at resolved
    cases resolved
    exact Decls.slots_apply (p.collect_shut.slots d (List.mem_of_find?_eq_some found) v member) s d args

/-- A struct that leads back to itself with its parameters exchanged, and an enum over the same parameters. -/
def couples : Program where
  language := ""
  file := "t.yaml"
  items := [
    .struct ⟨"Pair", ["A", "B"], [⟨"first", ⟨default, .named "A" []⟩, default⟩,
      ⟨"turned", ⟨default, .ref false (.named "Pair" [.named "B" [], .named "A" []])⟩, default⟩], default⟩,
    .enum ⟨"Either", ["A", "B"], [⟨"Left", [some ⟨default, .named "A" []⟩], [], default⟩,
      ⟨"Right", [], [⟨"value", ⟨default, .array (.named "B" [])⟩, default⟩], default⟩], default⟩]

/-- What is declared as the second member of the struct, with its parameters exchanged by arguments of the same names
and with one that is only partly known. -/
theorem instantiate_commutes_couples :
    let t : Ty := .ref false (.struct "Pair" [.generic "B", .generic "A"])
    let s : Subst := [(1, .array (.var 2 .integer))]
    let found : List Ty := [.var 1 .general, .generic "A"]
    t.hasVars = false ∧ s.apply (t.instantiate ["A", "B"] found) =
        .ref false (.struct "Pair" [.generic "A", .array (.var 2 .integer)]) ∧
      (t.instantiate ["A", "B"] [.generic "B", .generic "A"]).instantiate ["A", "B"] [.bool, .string] =
        .ref false (.struct "Pair" [.bool, .string]) ∧
      couples.collect.1.decls.fieldType? "Pair" [.array (.var 2 .integer), .generic "A"] "turned" =
        (couples.collect.1.decls.fieldType? "Pair" found "turned").map s.apply ∧
      ∃ d v, couples.collect.1.decls.enum? "Either" = some d ∧ v ∈ d.variants ∧
        Decls.slots d [.array (.var 2 .integer), .generic "A"] v = (Decls.slots d found v).map s.apply := by
  intro t s found
  have shut : t.hasVars = false := rfl
  have covered : ∀ name, .generic name ∈ t.parts → name ∈ ["A", "B"] := by
    simp [t, Ty.parts, Ty.partsAll]
  obtain ⟨before, turned, members⟩ := instantiate_commutes
  have fields := ((members couples s "Pair" found [.array (.var 2 .integer), .generic "A"]).1 rfl).2
  refine ⟨shut, (before t ["A", "B"] found s shut).trans rfl,
    (turned t ["A", "B"] ["A", "B"] [.generic "B", .generic "A"] [.bool, .string] rfl covered).trans rfl,
    fields "turned", _, _, rfl, List.mem_cons_self, ?_⟩
  exact (members couples s "Either" found _).2 rfl _ rfl _ List.mem_cons_self

end TreeCheck
