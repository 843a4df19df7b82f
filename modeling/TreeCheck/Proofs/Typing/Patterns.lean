import TreeCheck.Proofs.Match.Typed
import TreeCheck.Proofs.Symbol.Regular
import TreeCheck.Proofs.Typing.Final

/-!
The shape of patterns. A pattern of an accepted function is a pattern of the type that is found for it: a tuple pattern
has one pattern for each element, a variant with named fields is matched by names, and any other variant has one pattern
for each slot.
-/

namespace TreeCheck

/-- Named patterns for declared fields: each name is declared and given once, and without a rest none is left out. -/
structure FieldPattern.Names (fields : List FieldPattern) (declared : List Field) (rest : Bool) : Prop where
  once : (fields.map FieldPattern.name).Nodup
  known : ∀ field ∈ fields, ∃ f ∈ declared, f.name = field.name
  all : rest = false → ∀ f ∈ declared, f.name ∈ fields.map FieldPattern.name

/-- The patterns of a type. What a pattern binds may have any type, and whether a rest is allowed is not asked of a
variant that is matched by position. -/
inductive Pattern.HasType (decls : Decls) : Pattern → Ty → Prop
  | wildcard {info : NodeInfo} {t : Ty} : HasType decls (.wildcard info) t
  | binding {b : Binding} {t : Ty} : HasType decls (.binding b) t
  | int {info : NodeInfo} {n : Int} {t : Ty} (integer : t.isInteger = true) : HasType decls (.literal info (.int n)) t
  | float {info : NodeInfo} {value : Binary64} {t : Ty} (float : t.isFloat = true) :
      HasType decls (.literal info (.float value)) t
  | string {info : NodeInfo} {text : Octets} : HasType decls (.literal info (.string text)) .string
  | bool {info : NodeInfo} {value : Bool} : HasType decls (.literal info (.bool value)) .bool
  | range {info : NodeInfo} {low high : Int} {inclusive : Bool} {t : Ty} (integer : t.isInteger = true) :
      HasType decls (.range info low high inclusive) t
  | tuple {info : NodeInfo} {elements : List Pattern} {types : List Ty}
      (parts : List.Forall₂ (HasType decls) elements types) : HasType decls (.tuple info elements) (.product types)
  | list {info : NodeInfo} {front : List Pattern} {isOpen : Bool} {rest : Option Binding} {element : Ty}
      (parts : ∀ p ∈ front, HasType decls p element) : HasType decls (.list info front isOpen rest) (.array element)
  | record {info : NodeInfo} {name : String} {fields : List FieldPattern} {rest : Bool} {args : List Ty}
      (names : FieldPattern.Names fields (decls.fields name args) rest)
      (parts : ∀ field ∈ fields, ∀ f ∈ decls.fields name args, f.name = field.name →
        HasType decls field.pattern f.type) : HasType decls (.record info name fields rest) (.struct name args)
  | named {info : NodeInfo} {enum variant : String} {fields : List FieldPattern} {rest : Bool} {d : EnumDef}
      {v : Variant} {args : List Ty} (declared : decls.enum? d.name = some d) (member : d.variant? variant = some v)
      (named : v.isNamed = true)
      (names : FieldPattern.Names fields (Typing.Context.slotFields v (Decls.slots d args v)) rest)
      (parts : ∀ field ∈ fields, ∀ f ∈ Typing.Context.slotFields v (Decls.slots d args v), f.name = field.name →
        HasType decls field.pattern f.type) :
      HasType decls (.variant info enum variant [] fields rest) (.enum d.name args)
  | positional {info : NodeInfo} {enum variant : String} {elements : List Pattern} {rest : Bool} {d : EnumDef}
      {v : Variant} {args : List Ty} (declared : decls.enum? d.name = some d) (member : d.variant? variant = some v)
      (unnamed : v.isNamed = false) (parts : List.Forall₂ (HasType decls) elements (Decls.slots d args v)) :
      HasType decls (.variant info enum variant elements [] rest) (.enum d.name args)
  | alternatives {info : NodeInfo} {choices : List Pattern} {t : Ty} (parts : ∀ p ∈ choices, HasType decls p t) :
      HasType decls (.alternatives info choices) t
  | guarded {info : NodeInfo} {inner : Pattern} {condition : Expr} {t : Ty} (inside : HasType decls inner t) :
      HasType decls (.guarded info inner condition) t

namespace Typing

variable {ctx : Context} {P : State → Prop}

/-! ### What is reported -/

theorem forM_quiet {α : Type} [Lasting P] {items : List α} {check : α → Check Unit}
    (each : ∀ item ∈ items, Sound ctx P (check item) fun _ _ => False) :
    Sound ctx P (items.forM check) fun _ _ => items = [] := by
  cases items with
  | nil => exact .pure fun _ _ _ => rfl
  | cons item items =>
    refine .bind (each item List.mem_cons_self) fun _ => ?_
    refine Sound.unreachable (Context.forM_sound (P := P) fun other member => ?_) fun _ _ given => given.2
    exact (each other (List.mem_cons_of_mem _ member)).imp (fun _ _ given => given) fun _ _ _ _ => trivial

theorem none_missing {α : Type} [Lasting P] {items : List α} (name : α → String) {given : List String}
    {report : α → Check Unit} (reported : ∀ item, Sound ctx P (report item) fun _ _ => False) :
    Sound ctx P ((items.filter fun item => !given.contains (name item)).forM report)
      fun _ _ => ∀ item ∈ items, name item ∈ given := by
  refine (forM_quiet (P := P) fun item _ => reported item).imp (fun _ _ known => known)
    fun _ _ _ none item member => ?_
  by_contra absent
  have left : item ∈ items.filter fun item => !given.contains (name item) := by simpa using ⟨member, absent⟩
  exact absurd none (List.ne_nil_of_mem left)

/-- Declared enums are found by their names. -/
theorem enum?_of_mem {decls : Decls} (once : (decls.enums.map EnumDef.name).Nodup) {d : EnumDef}
    (member : d ∈ decls.enums) : decls.enum? d.name = some d := (find?_key_iff once).mpr ⟨member, rfl⟩

theorem variant?_of_mem {d : EnumDef} (once : (d.variants.map Variant.name).Nodup) {v : Variant}
    (member : v ∈ d.variants) : d.variant? v.name = some v := (find?_key_iff once).mpr ⟨member, rfl⟩

theorem slotFields_names {v : Variant} (named : v.isNamed = true) (d : EnumDef) (args : List Ty) :
    (Context.slotFields v (Decls.slots d args v)).map Field.name = v.fields.map Field.name := by
  have enough : v.fields.length ≤ (Decls.slots d args v).length := by simp [Decls.slots, Variant.slots, named]
  have paired := congrArg (List.map Field.name) (List.map_fst_zip enough)
  rw [List.map_map] at paired
  rw [Context.slotFields, List.map_map, ← paired]
  rfl

/-- Declarations as a program that was read has them. -/
structure Context.Collected (ctx : Context) : Prop where
  received : ctx.table.Received
  regular : ctx.table.decls.Regular
  apart : (ctx.table.decls.enums.map EnumDef.name).Nodup

theorem Context.collected {p : Program} (decoded : p.Decoded) {ctx : Context} (table : ctx.table = p.collect.1) :
    ctx.Collected where
  received := table ▸ p.collect_received
  regular := table ▸ p.collect_regular decoded
  apart := table ▸ p.collect_enums

theorem Context.Collected.variant (collected : ctx.Collected) {enum variant : String} {found : VariantRef}
    (declared : found.Declared ctx.table enum variant) : ctx.table.decls.enum? found.enum.name = some found.enum ∧
      found.enum.variant? variant = some found.variant :=
  ⟨enum?_of_mem collected.apart declared.enum,
    declared.named ▸ variant?_of_mem (collected.regular.variants _ declared.enum) declared.variant⟩

theorem Context.Collected.fields_nodup (collected : ctx.Collected) (name : String) (args : List Ty) :
    ((ctx.table.decls.fields name args).map Field.name).Nodup := by
  unfold Decls.fields
  split
  next d declared =>
    simpa [Function.comp_def] using collected.regular.fields d (List.mem_of_find?_eq_some declared)
  · exact List.nodup_nil

theorem Context.Collected.slots_nodup (collected : ctx.Collected) {enum variant : String} {found : VariantRef}
    (declared : found.Declared ctx.table enum variant) (named : found.variant.isNamed = true) (args : List Ty) :
    ((Context.slotFields found.variant (Decls.slots found.enum args found.variant)).map Field.name).Nodup := by
  rw [slotFields_names named]
  exact collected.regular.payloads _ declared.enum _ declared.variant

end Typing

end TreeCheck
