import TreeCheck.Proofs.Symbol.Members
import TreeCheck.Proofs.Syntax.TypeText

/-!
Types and their spellings. What a type is spelled as can be read and, against the declarations that it is made of,
gives the type again; so types that are spelled alike are the same.
-/

namespace TreeCheck

namespace Ty

mutual

/-- The syntax that a type is spelled in; what cannot be written stands as a name. -/
def written : Ty → TypeExpr
  | .unit => .tuple []
  | .struct name args | .enum name args => .named name (writtenAll args)
  | .tuple elements => .tuple (writtenAll elements)
  | .array element => .array element.written
  | .ref mutable target => .ref mutable target.written
  | .function params result => .function (writtenAll params) (some result.written)
  | .generic name => .named name []
  | .bool => .named "bool" []
  | .int t => .named t.text []
  | .float t => .named t.text []
  | .string => .named "String" []
  | .var id literal => .named (Ty.var id literal).text []
  | .invalid => .named Ty.invalid.text []

def writtenAll : List Ty → List TypeExpr
  | [] => []
  | t :: rest => t.written :: writtenAll rest

end

theorem writtenAll_eq (types : List Ty) : writtenAll types = types.map written := by
  induction types with
  | nil => rfl
  | cons t types ih => rw [writtenAll, ih, List.map_cons]

mutual

theorem text_written : ∀ t : Ty, t.written.text = t.text
  | .struct name [] | .enum name [] => by simp [written, writtenAll, TypeForm.text, TypeForm.spell, text, argsText]
  | .struct name (arg :: args) | .enum name (arg :: args) => by
    have inner := joined_written (arg :: args)
    rw [writtenAll] at inner
    rw [written, writtenAll, TypeForm.text, TypeForm.spell, inner, text, argsText]
    simp [String.append_assoc]
  | .tuple elements => by rw [written, TypeForm.text, TypeForm.spell, text, joined_written elements]; rfl
  | .array element => by
    rw [written, TypeForm.text, TypeForm.spell, text, ← text_written element, TypeForm.text]
    rfl
  | .ref true target | .ref false target => by
    rw [written, TypeForm.text, TypeForm.spell, text, ← text_written target, TypeForm.text]
    rfl
  | .function params result => by
    rw [written, TypeForm.text, TypeForm.spell, text, joined_written params, ← text_written result, TypeForm.text]
    rfl
  | .unit | .bool | .int _ | .float _ | .string | .generic _ | .var _ _ | .invalid => by
    simp [written, TypeForm.text, TypeForm.spell, TypeForm.spellAll, text]

theorem joined_written : ∀ types : List Ty, TypeForm.spellAll id id (writtenAll types) = joined types
  | [] => by rw [writtenAll, TypeForm.spellAll, joined]; rfl
  | [t] => by rw [writtenAll, writtenAll, TypeForm.spellAll, joined, ← text_written t, TypeForm.text]
  | t :: u :: rest => by
    have first := text_written t
    have inner := joined_written (u :: rest)
    rw [TypeForm.text] at first
    rw [writtenAll] at inner
    simp only [writtenAll, TypeForm.spellAll, inner, joined, first, id]

end

theorem completeAll_map (types : List Ty) (each : ∀ t ∈ types, t.written.complete = t.written) :
    TypeForm.completeAll (types.map written) = types.map written := by
  induction types with
  | nil => rfl
  | cons t types ih =>
    obtain ⟨first, others⟩ := List.forall_mem_cons.mp each
    rw [List.map_cons, TypeForm.completeAll, first, ih others]

/-- Every result is written out. -/
theorem complete_written (t : Ty) : t.written.complete = t.written := by
  induction t using child_induction with
  | step t ih =>
    cases t with
    | struct name args | enum name args =>
      simp only [written, writtenAll_eq, TypeForm.complete, completeAll_map args ih]
    | tuple elements => simp only [written, writtenAll_eq, TypeForm.complete, completeAll_map elements ih]
    | function params result =>
      have each : ∀ p ∈ params, p.written.complete = p.written := fun p member =>
        ih p (List.mem_append_left _ member)
      have last := ih result (List.mem_append_right _ List.mem_cons_self)
      simp only [written, writtenAll_eq, TypeForm.complete, completeAll_map params each, last]
    | array part | ref _ part => simp only [written, TypeForm.complete, ih part List.mem_cons_self]
    | unit | bool | int | float | string | generic | var | invalid => rfl

theorem sameAll_self (types : List Ty) (each : ∀ t ∈ types, t.same t = true) : sameAll types types = true := by
  induction types with
  | nil => rfl
  | cons t types ih =>
    obtain ⟨first, others⟩ := List.forall_mem_cons.mp each
    rw [sameAll, first, ih others]
    rfl

theorem same_self (t : Ty) : t.same t = true := by
  induction t using child_induction with
  | step t ih =>
    cases t with
    | struct name args | enum name args => simpa [same] using sameAll_self args ih
    | tuple elements => simpa [same] using sameAll_self elements ih
    | function params result =>
      have first := sameAll_self params fun p member => ih p (List.mem_append_left _ member)
      have last := ih result (List.mem_append_right _ List.mem_cons_self)
      simp [same, first, last]
    | array part | ref _ part => simpa [same] using ih part List.mem_cons_self
    | unit | bool | int | float | string | generic | var | invalid => simp [same]

/-- Whether a part of a type can be written with the declarations and type parameters at hand. A product without
elements is no tuple but the unit type. -/
def Known (decls : Decls) (params : List String) : Ty → Prop
  | .struct name args => TypeExpr.IsName name ∧ ∃ d, decls.struct? name = some d ∧ args.length = d.params.length
  | .enum name args => TypeExpr.IsName name ∧ ∃ d, decls.enum? name = some d ∧ args.length = d.params.length
  | .generic name => TypeExpr.IsName name ∧ name ∈ params
  | .tuple elements => elements ≠ []
  | .var .. | .invalid => False
  | .unit | .bool | .int _ | .float _ | .string | .array _ | .ref .. | .function .. => True

/-- A type that can be written with the declarations and type parameters at hand. -/
def Writable (decls : Decls) (params : List String) (t : Ty) : Prop := ∀ part ∈ t.parts, part.Known decls params

variable {decls : Decls} {params : List String} {t : Ty}

theorem writable_iff : t.Writable decls params ↔
    t.Known decls params ∧ ∀ child ∈ t.children, child.Writable decls params := by
  constructor
  · intro writable
    exact ⟨writable t (self_mem_parts t), fun child member part inside =>
      writable part (mem_parts_child member inside)⟩
  · rintro ⟨own, each⟩ part inside
    rcases mem_parts.mp inside with rfl | ⟨child, member, within⟩
    · exact own
    · exact each child member part within

theorem namedAll_map {types : List Ty} (each : ∀ t ∈ types, TypeExpr.Named t.written) :
    TypeExpr.NamedAll (types.map written) := by
  induction types with
  | nil => trivial
  | cons t types ih =>
    obtain ⟨first, others⟩ := List.forall_mem_cons.mp each
    exact ⟨first, ih others⟩

theorem isName_basic : ∀ name ∈ ["bool", "String", "i8", "i16", "i32", "i64", "u8", "u16", "u32", "u64", "f32", "f64"],
    TypeExpr.IsName name := by
  decide +kernel

theorem Writable.named (writable : t.Writable decls params) : TypeExpr.Named t.written := by
  induction t using child_induction with
  | step t ih =>
    obtain ⟨own, each⟩ := writable_iff.mp writable
    have inner : ∀ child ∈ t.children, TypeExpr.Named child.written := fun child member => ih child member (each child member)
    cases t with
    | struct name args | enum name args =>
      rw [written, writtenAll_eq]
      exact ⟨own.1, namedAll_map inner⟩
    | tuple elements =>
      rw [written, writtenAll_eq]
      exact namedAll_map inner
    | function params result =>
      rw [written, writtenAll_eq]
      exact ⟨namedAll_map fun p member => inner p (List.mem_append_left _ member),
        inner result (List.mem_append_right _ List.mem_cons_self)⟩
    | array part | ref _ part => exact inner part List.mem_cons_self
    | unit => trivial
    | generic name => exact ⟨own.1, trivial⟩
    | int k | float k => exact ⟨isName_basic _ (by cases k <;> decide), trivial⟩
    | bool | string => exact ⟨isName_basic _ (by decide), trivial⟩
    | var | invalid => exact own.elim

end Ty

namespace Decls

variable {decls : Decls} {params : List String} {span : Span} {t : Ty}

theorem names_of_struct {name : String} {d : StructDef} (found : decls.struct? name = some d) :
    name ∈ decls.names := by
  have same : d.name = name := by simpa using List.find?_some found
  exact List.mem_append_left _ (List.mem_map.mpr ⟨d, List.mem_of_find?_eq_some found, same⟩)

theorem names_of_enum {name : String} {d : EnumDef} (found : decls.enum? name = some d) :
    name ∈ decls.enums.map EnumDef.name := by
  have same : d.name = name := by simpa using List.find?_some found
  exact List.mem_map.mpr ⟨d, List.mem_of_find?_eq_some found, same⟩

theorem Distinct.struct?_none (distinct : decls.Distinct) {name : String} {d : EnumDef}
    (found : decls.enum? name = some d) : decls.struct? name = none := by
  cases other : decls.struct? name with
  | none => rfl
  | some s =>
    have same : s.name = name := by simpa using List.find?_some other
    have left := List.mem_map.mpr ⟨s, List.mem_of_find?_eq_some other, same⟩
    exact absurd rfl ((List.nodup_append.mp distinct.names).2.2 name left name (names_of_enum found))

theorem resolveAll_map (types : List Ty) (each : ∀ t ∈ types, decls.resolve params span t.written = (t, [])) :
    decls.resolveAll params span (types.map Ty.written) = (types, []) := by
  induction types with
  | nil => rfl
  | cons t types ih =>
    obtain ⟨first, others⟩ := List.forall_mem_cons.mp each
    rw [List.map_cons, resolveAll, first, ih others]
    rfl

/-- What a type is written as gives the type again, and no report. -/
theorem Distinct.resolve_written (distinct : decls.Distinct)
    (free : ∀ name ∈ params, Ty.ofName? name = none ∧ name ∉ decls.names) (writable : t.Writable decls params) :
    decls.resolve params span t.written = (t, []) := by
  have primitive {name : String} {t : Ty} (named : Ty.ofName? name = some t) :
      decls.resolve params span (.named name []) = (t, []) := by
    have other : name ∉ params := fun member => by cases named.symm.trans (free name member).1
    simp [resolve, resolveAll, resolveNamed, other, named]
  induction t using Ty.child_induction with
  | step t ih =>
    obtain ⟨own, each⟩ := Ty.writable_iff.mp writable
    have inner : ∀ child ∈ t.children, decls.resolve params span child.written = (child, []) := fun child member =>
      ih child member (each child member)
    have declared {name : String} (member : name ∈ decls.names) : name ∉ params ∧ Ty.ofName? name = none :=
      ⟨fun param => (free name param).2 member, distinct.primitive name member⟩
    cases t with
    | struct name args =>
      obtain ⟨-, d, found, sized⟩ := own
      obtain ⟨other, none⟩ := declared (names_of_struct found)
      rw [Ty.written, Ty.writtenAll_eq, resolve, resolveAll_map args inner]
      simp [resolveNamed, other, none, found, sized]
    | enum name args =>
      obtain ⟨-, d, found, sized⟩ := own
      obtain ⟨other, none⟩ := declared (List.mem_append_right _ (names_of_enum found))
      rw [Ty.written, Ty.writtenAll_eq, resolve, resolveAll_map args inner]
      simp [resolveNamed, other, none, distinct.struct?_none found, found, sized]
    | tuple elements =>
      rw [Ty.written, Ty.writtenAll_eq, resolve, resolveAll_map elements inner]
      cases elements with
      | nil => exact absurd rfl own
      | cons => rfl
    | function args result =>
      have first := resolveAll_map args fun p member => inner p (List.mem_append_left _ member)
      have last := inner result (List.mem_append_right _ List.mem_cons_self)
      rw [Ty.written, Ty.writtenAll_eq, resolve, first, last]
      rfl
    | array part | ref _ part =>
      rw [Ty.written, resolve, inner part List.mem_cons_self]
    | unit => rfl
    | generic name => simp [Ty.written, resolve, resolveAll, resolveNamed, own.2]
    | int k => exact primitive (by cases k <;> rfl)
    | float k => exact primitive (by cases k <;> rfl)
    | bool | string => exact primitive rfl
    | var | invalid => exact own.elim

theorem Distinct.reads_text (distinct : decls.Distinct) (span : Span)
    (free : ∀ name ∈ params, Ty.ofName? name = none ∧ name ∉ decls.names) (writable : t.Writable decls params) :
    ∃ e, TypeExpr.ofText t.text = .ok e ∧ decls.resolve params span e = (t, []) := by
  have read := TypeExpr.ofText_text writable.named
  rw [t.text_written, t.complete_written] at read
  exact ⟨t.written, read, distinct.resolve_written free writable⟩

end Decls

/-- A type is read back from its spelling, against the declarations that it is made of and with its parameters in
scope; so no two different types are spelled alike. The declarations of every program are told apart by their
names. -/
theorem spelling_faithful : (∀ p : Program, p.collect.1.decls.Distinct) ∧
    ∀ (decls : Decls) (params : List String) (span : Span), decls.Distinct →
      (∀ name ∈ params, Ty.ofName? name = none ∧ name ∉ decls.names) → ∀ t : Ty, t.Writable decls params →
        (∃ e, TypeExpr.ofText t.text = .ok e ∧ decls.resolve params span e = (t, [])) ∧
        ∀ t' : Ty, t'.Writable decls params → t.text = t'.text → t.same t' = true := by
  refine ⟨Program.collect_distinct, fun decls params span distinct free t writable =>
    ⟨distinct.reads_text span free writable, fun t' writable' alike => ?_⟩⟩
  obtain ⟨e, read, resolved⟩ := distinct.reads_text span free writable
  obtain ⟨e', read', resolved'⟩ := distinct.reads_text span free writable'
  obtain rfl : e = e' := Except.ok.inj (read.symm.trans ((congrArg _ alike).trans read'))
  obtain rfl : t = t' := congrArg Prod.fst (resolved.symm.trans resolved')
  exact t.same_self

/-- A function type over declared types, a type parameter, a tuple of one element and the unit type. -/
theorem spelling_faithful_couples :
    let t : Ty := .function [.ref true (.struct "Pair" [.generic "T", .tuple [.int .i32]]),
      .array (.enum "Either" [.bool, .unit])] (.ref false .string)
    t.text = "fn(&mut Pair<T, (i32)>, [Either<bool, ()>]) -> &String" ∧
      t.Writable couples.collect.1.decls ["T"] ∧
      ∃ e, TypeExpr.ofText t.text = .ok e ∧ couples.collect.1.decls.resolve ["T"] default e = (t, []) := by
  intro t
  have free : ∀ name ∈ ["T"], Ty.ofName? name = none ∧ name ∉ couples.collect.1.decls.names := by
    intro name member
    cases List.mem_singleton.mp member
    exact ⟨by decide +kernel, by decide +kernel⟩
  have writable : t.Writable couples.collect.1.decls ["T"] := by
    have pair : ∃ d, couples.collect.1.decls.struct? "Pair" = some d ∧ 2 = d.params.length := ⟨_, rfl, rfl⟩
    have either : ∃ d, couples.collect.1.decls.enum? "Either" = some d ∧ 2 = d.params.length := ⟨_, rfl, rfl⟩
    have names : TypeExpr.IsName "Pair" ∧ TypeExpr.IsName "Either" ∧ TypeExpr.IsName "T" := by decide +kernel
    simp [t, Ty.Writable, Ty.parts, Ty.partsAll, Ty.Known, pair, either, names]
  exact ⟨by cbv, writable,
    (spelling_faithful.2 _ ["T"] default (spelling_faithful.1 couples) free t writable).1⟩

end TreeCheck
