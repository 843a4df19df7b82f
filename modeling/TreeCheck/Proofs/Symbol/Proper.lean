import TreeCheck.Proofs.Ty.Proper
import TreeCheck.Symbol.Table

/-!
Proper declarations: every type in them is proper and has no variables. Written types that are read against
them without a report are proper too.
-/

namespace TreeCheck

/-- Declared types with names, all of whose members have proper types. -/
structure Decls.Proper (decls : Decls) : Prop where
  structs : ∀ d ∈ decls.structs, d.name ≠ "" ∧ ∀ f ∈ d.fields, f.type.Proper []
  enums : ∀ d ∈ decls.enums, d.name ≠ "" ∧ ∀ v ∈ d.variants, ∀ t ∈ v.slots, t.Proper []

/-- Declared types whose members have no variables. -/
structure Decls.Shut (decls : Decls) : Prop where
  fields : ∀ d ∈ decls.structs, ∀ f ∈ d.fields, f.type.hasVars = false
  slots : ∀ d ∈ decls.enums, ∀ v ∈ d.variants, ∀ t ∈ v.slots, t.hasVars = false

/-- A signature over proper types. -/
structure Signature.Proper (s : Signature) : Prop where
  params : ∀ p ∈ s.params, p.type.Proper []
  result : s.result.Proper []
  self : ∀ self ∈ s.self, self.type.Proper []

structure Table.Proper (t : Table) : Prop where
  decls : t.decls.Proper
  functions : ∀ entry ∈ t.functions, entry.2.Proper
  methods : ∀ entry ∈ t.methods, entry.2.Proper

/-- Every method says what it is called on. -/
def Table.Received (t : Table) : Prop := ∀ entry ∈ t.methods, entry.2.self.isSome = true

namespace Signature.Proper

variable {s : Signature}

theorem type (proper : s.Proper) : s.type.Proper [] := by
  rw [Signature.type, Ty.proper_function]
  exact ⟨by simpa using proper.params, proper.result⟩

theorem receiverType (proper : s.Proper) {t : Ty} (known : s.receiverType? = some t) : t.Proper [] := by
  obtain ⟨self, some, rfl⟩ := Option.map_eq_some_iff.mp known
  have own := proper.self self some
  cases self.mode <;> simpa using own

end Signature.Proper

namespace Decls

variable {decls : Decls}

theorem Proper.shut (proper : decls.Proper) : decls.Shut :=
  ⟨fun d member f inside => ((proper.structs d member).2 f inside).noVars,
    fun d member v inside t slot => ((proper.enums d member).2 v inside t slot).noVars⟩

/-! ### Members of a type that is resolved -/

theorem Shut.fields_apply (shut : decls.Shut) (s : Subst) (name : String) (args : List Ty) :
    decls.fields name (args.map s.apply) = (decls.fields name args).map fun f => { f with type := s.apply f.type } := by
  unfold Decls.fields
  cases found : decls.struct? name with
  | none => rfl
  | some d =>
    rw [List.map_map]
    refine List.map_congr_left fun f member => congrArg (Field.mk f.name) ?_
    exact (s.apply_instantiate (shut.fields d (List.mem_of_find?_eq_some found) f member) d.params args).symm

theorem Shut.fieldType?_apply (shut : decls.Shut) (s : Subst) (name : String) (args : List Ty) (field : String) :
    decls.fieldType? name (args.map s.apply) field = (decls.fieldType? name args field).map s.apply := by
  simp only [Decls.fieldType?, Option.bind_eq_bind, Option.pure_def, Option.map_bind, Function.comp_def,
    Option.map_some]
  cases declared : decls.struct? name with
  | none => rfl
  | some d =>
    simp only [Option.bind_some]
    cases found : d.field? field with
    | none => rfl
    | some f =>
      have own := shut.fields d (List.mem_of_find?_eq_some declared) f (List.mem_of_find?_eq_some found)
      exact congrArg some (s.apply_instantiate own d.params args).symm

theorem slots_apply {v : Variant} (shut : ∀ t ∈ v.slots, t.hasVars = false) (s : Subst) (d : EnumDef) (args : List Ty) :
    slots d (args.map s.apply) v = (slots d args v).map s.apply := by
  unfold slots
  rw [List.map_map]
  exact List.map_congr_left fun t member => (s.apply_instantiate (shut t member) d.params args).symm

end Decls

namespace Decls.Proper

variable {decls : Decls}

theorem struct (proper : decls.Proper) {name : String} {d : StructDef} (found : decls.struct? name = some d) :
    d.name = name ∧ name ≠ "" ∧ ∀ f ∈ d.fields, f.type.Proper [] := by
  obtain ⟨named, fields⟩ := proper.structs d (List.mem_of_find?_eq_some found)
  have same : d.name = name := by simpa using List.find?_some found
  exact ⟨same, same ▸ named, fields⟩

theorem enum (proper : decls.Proper) {name : String} {d : EnumDef} (found : decls.enum? name = some d) :
    d.name = name ∧ name ≠ "" ∧ ∀ v ∈ d.variants, ∀ t ∈ v.slots, t.Proper [] := by
  obtain ⟨named, variants⟩ := proper.enums d (List.mem_of_find?_eq_some found)
  have same : d.name = name := by simpa using List.find?_some found
  exact ⟨same, same ▸ named, variants⟩

theorem fields (proper : decls.Proper) {classes : List LiteralClass} {args : List Ty}
    (known : ∀ a ∈ args, a.Proper classes) (name : String) :
    ∀ f ∈ decls.fields name args, f.type.Proper classes := by
  intro f member
  unfold Decls.fields at member
  split at member
  next d found =>
    obtain ⟨g, inside, rfl⟩ := List.mem_map.mp member
    exact ((proper.struct found).2.2 g inside).instantiate known
  · cases member

theorem fieldType (proper : decls.Proper) {classes : List LiteralClass} {args : List Ty}
    (known : ∀ a ∈ args, a.Proper classes) {name field : String} {t : Ty}
    (found : decls.fieldType? name args field = some t) : t.Proper classes := by
  simp only [Decls.fieldType?, Option.bind_eq_bind, Option.bind_eq_some_iff, Option.pure_def] at found
  obtain ⟨d, declared, f, inside, found⟩ := found
  cases found
  exact ((proper.struct declared).2.2 f (List.mem_of_find?_eq_some inside)).instantiate known

theorem slots {classes : List LiteralClass} {args : List Ty} {d : EnumDef} {v : Variant}
    (proper : ∀ t ∈ v.slots, t.Proper []) (known : ∀ a ∈ args, a.Proper classes) :
    ∀ t ∈ Decls.slots d args v, t.Proper classes := by
  intro t member
  obtain ⟨slot, inside, rfl⟩ := List.mem_map.mp member
  exact (proper slot inside).instantiate known

/-! ### Written types -/

theorem ofName? {name : String} {t : Ty} (found : Ty.ofName? name = some t) : t.Proper [] := by
  have member := List.mem_of_find?_eq_some found
  simp only [Ty.primitives, IntType.all, List.map_cons, List.map_nil, List.mem_append, List.mem_cons,
    List.not_mem_nil, or_false] at member
  rcases member with ((rfl | rfl) | member) | rfl | rfl | rfl
  all_goals first
    | (rcases member with rfl | rfl | rfl | rfl | rfl | rfl | rfl | rfl <;> simp)
    | simp

theorem resolveNamed (proper : decls.Proper) {params : List String} {span : Span} {name : String}
    {args : List Ty} (known : ∀ a ∈ args, a.Proper [])
    (quiet : (decls.resolveNamed params span name args).2 = []) :
    (decls.resolveNamed params span name args).1.Proper [] := by
  have applied {want : Nat} {type : Ty} {d : Diagnostic} (own : type.Proper [])
      (quiet : (if args.length == want then (type, []) else (Ty.invalid, [d])).2 = []) :
      (if args.length == want then (type, []) else (Ty.invalid, [d])).1.Proper [] := by
    by_cases same : (args.length == want) = true
    · rwa [if_pos same]
    · rw [if_neg same] at quiet
      cases quiet
  unfold Decls.resolveNamed at quiet ⊢
  dsimp only at quiet ⊢
  by_cases param : params.contains name = true
  · rw [if_pos param] at quiet ⊢
    exact applied (Ty.proper_generic name) quiet
  · rw [if_neg param] at quiet ⊢
    cases primitive : Ty.ofName? name with
    | some t =>
      rw [primitive] at quiet
      exact applied (ofName? primitive) quiet
    | none =>
      rw [primitive] at quiet
      cases struct : decls.struct? name with
      | some d =>
        rw [struct] at quiet
        exact applied (Ty.proper_struct.mpr ⟨(proper.struct struct).2.1, known⟩) quiet
      | none =>
        rw [struct] at quiet
        cases enum : decls.enum? name with
        | some d =>
          rw [enum] at quiet
          exact applied (Ty.proper_enum.mpr ⟨(proper.enum enum).2.1, known⟩) quiet
        | none =>
          rw [enum] at quiet
          cases quiet

mutual

/-- A written type that is read without a report is proper. -/
theorem resolve (proper : decls.Proper) (params : List String) (span : Span) : ∀ t : TypeExpr,
    (decls.resolve params span t).2 = [] → (decls.resolve params span t).1.Proper []
  | .named name args, quiet => by
    rw [Decls.resolve] at quiet ⊢
    obtain ⟨first, last⟩ := List.append_eq_nil_iff.mp quiet
    exact proper.resolveNamed (proper.resolveAll params span args first) last
  | .ref _ target, quiet => by
    rw [Decls.resolve] at quiet ⊢
    exact Ty.proper_ref.mpr (proper.resolve params span target quiet)
  | .array element, quiet => by
    rw [Decls.resolve] at quiet ⊢
    exact Ty.proper_array.mpr (proper.resolve params span element quiet)
  | .tuple elements, quiet => by
    rw [Decls.resolve] at quiet ⊢
    exact Ty.proper_product.mpr (proper.resolveAll params span elements quiet)
  | .function args none, quiet => by
    rw [Decls.resolve] at quiet ⊢
    exact Ty.proper_function.mpr ⟨proper.resolveAll params span args quiet, Ty.proper_unit⟩
  | .function args (some result), quiet => by
    rw [Decls.resolve] at quiet ⊢
    obtain ⟨first, last⟩ := List.append_eq_nil_iff.mp quiet
    exact Ty.proper_function.mpr
      ⟨proper.resolveAll params span args first, proper.resolve params span result last⟩

theorem resolveAll (proper : decls.Proper) (params : List String) (span : Span) : ∀ types : List TypeExpr,
    (decls.resolveAll params span types).2 = [] → ∀ t ∈ (decls.resolveAll params span types).1, t.Proper []
  | [], _ => by simp [Decls.resolveAll]
  | t :: rest, quiet => by
    rw [Decls.resolveAll] at quiet ⊢
    obtain ⟨first, last⟩ := List.append_eq_nil_iff.mp quiet
    exact List.forall_mem_cons.mpr
      ⟨proper.resolve params span t first, proper.resolveAll params span rest last⟩

end

theorem resolveWritten (proper : decls.Proper) {params : List String} {t : Option WrittenType}
    (quiet : (decls.resolveWritten params t).2 = []) : (decls.resolveWritten params t).1.Proper [] := by
  cases t with
  | none => exact Ty.proper_unit
  | some t => exact proper.resolve params t.span t.type quiet

end Decls.Proper

end TreeCheck
