import TreeCheck.Proofs.Typing.Steps

/-!
What names stand for is proper, and what is not found is reported. What inference has made equal stays equal, so it
resolves to one type at the end, whatever is found out about it in between.
-/

namespace TreeCheck

/-! ### Types that are the same from some time on -/

namespace Engine

variable {e : Engine} {a b t : Ty}

@[simp] theorem resolve_array (e : Engine) (element : Ty) : e.resolve (.array element) = .array (e.resolve element) :=
  Ty.fill_array _ element

@[simp] theorem resolve_ref (e : Engine) (mutable : Bool) (target : Ty) :
    e.resolve (.ref mutable target) = .ref mutable (e.resolve target) := Ty.fill_ref _ mutable target

@[simp] theorem resolve_product (e : Engine) (types : List Ty) :
    e.resolve (.product types) = .product (types.map e.resolve) := Ty.fill_product _ types

@[simp] theorem resolve_struct (e : Engine) (name : String) (args : List Ty) :
    e.resolve (.struct name args) = .struct name (args.map e.resolve) := Ty.fill_struct _ name args

@[simp] theorem resolve_enum (e : Engine) (name : String) (args : List Ty) :
    e.resolve (.enum name args) = .enum name (args.map e.resolve) := Ty.fill_enum _ name args

/-- A declared type is resolved where its parameters are. -/
theorem resolve_instantiate (e : Engine) (proper : t.Proper []) (params : List String) (args : List Ty) :
    e.resolve (t.instantiate params args) = t.instantiate params (args.map e.resolve) :=
  e.bindings.apply_instantiate proper.noVars params args

/-- Unifying without a clash makes two types equal. -/
theorem Proper.unify_resolve (proper : e.Proper) (left : a.Proper e.classes) (right : b.Proper e.classes)
    (worked : (e.unify a b).2 = none) : (e.unify a b).1.resolve a = (e.unify a b).1.resolve b := by
  obtain ⟨s, clash, solves, after, none⟩ := proper.sound.unify_solves left.inScope right.inScope
  have clean {t : Ty} (known : t.Proper e.classes) : e.bindings.Clean t := fun fault =>
    absurd (proper.resolve known _ fault) (by simp [Ty.suits])
  rw [after]
  exact solves.sound (none.mp worked) proper.acyclic proper.sound.carries (by simpa using ⟨left.inScope, right.inScope⟩)
    (by simpa using ⟨clean left, clean right⟩) (a, b) List.mem_cons_self

/-- An integer literal whose type is known is of an integer type. -/
theorem Proper.resolve_integer (proper : e.Proper) {id : Nat} (known : (Ty.var id .integer).Proper e.classes)
    (closed : (e.resolve (.var id .integer)).Proper []) : (e.resolve (.var id .integer)).isInteger = true := by
  have allowed := proper.sound.allows_resolve id .integer (Ty.proper_var.mp known)
  cases same : e.resolve (.var id .integer) with
  | var other c =>
    obtain ⟨i, -, none⟩ := Ty.proper_var.mp (same ▸ closed)
    cases none
  | _ => simpa [same, LiteralClass.allows, LiteralClass.admits] using allowed

theorem Proper.resolve_float (proper : e.Proper) {id : Nat} (known : (Ty.var id .float).Proper e.classes)
    (closed : (e.resolve (.var id .float)).Proper []) : (e.resolve (.var id .float)).isFloat = true := by
  have allowed := proper.sound.allows_resolve id .float (Ty.proper_var.mp known)
  cases same : e.resolve (.var id .float) with
  | var other c =>
    obtain ⟨i, -, none⟩ := Ty.proper_var.mp (same ▸ closed)
    cases none
  | _ => simpa [same, LiteralClass.allows, LiteralClass.admits] using allowed

end Engine

namespace Decls

variable {decls : Decls} {e : Engine}

/-- The fields of a struct whose arguments are resolved. -/
theorem Proper.fields_resolve (proper : decls.Proper) (name : String) (args : List Ty) :
    decls.fields name (args.map e.resolve) =
      (decls.fields name args).map fun f => { f with type := e.resolve f.type } :=
  proper.shut.fields_apply e.bindings name args

theorem slots_resolve {v : Variant} (proper : ∀ t ∈ v.slots, t.Proper []) (d : EnumDef) (args : List Ty) :
    slots d (args.map e.resolve) v = (slots d args v).map e.resolve :=
  slots_apply (fun t member => (proper t member).noVars) e.bindings d args

end Decls

namespace Typing

variable {ctx : Context} {P : State → Prop}

/-- Two types stand for the same type in every later state. -/
def State.Agree (s : State) (a b : Ty) : Prop :=
  ∀ s', s.Before s' → s'.Proper → s'.engine.resolve a = s'.engine.resolve b

theorem State.Agree.later {s s' : State} {a b : Ty} (same : s.Agree a b) (before : s.Before s') : s'.Agree a b :=
  fun s'' after proper => same s'' (before.trans after) proper

instance (a b : Ty) : Lasting fun s => s.Agree a b := ⟨fun before same => same.later before⟩

namespace State

variable {s : State} {a b c t : Ty}

theorem Agree.symm (same : s.Agree a b) : s.Agree b a := fun s' later proper => (same s' later proper).symm

theorem Agree.trans (first : s.Agree a b) (second : s.Agree b c) : s.Agree a c :=
  fun s' later proper => (first s' later proper).trans (second s' later proper)

theorem Agree.of_resolve (same : s.engine.resolve a = s.engine.resolve b) : s.Agree a b := by
  intro s' later proper
  have grown (t : Ty) : s'.engine.resolve (s.engine.resolve t) = s'.engine.resolve t :=
    later.grows.apply_apply proper.engine.acyclic t
  rw [← grown a, same, grown b]

theorem agree_shallow (s : State) (t : Ty) : s.Agree t (s.engine.shallow t) :=
  fun _ later proper => (later.grows.apply_prune proper.engine.acyclic t).symm

end State

/-- Two types that are unified without a report are the same from then on. -/
theorem unify_agrees (span : Span) (a b : Ty) : Sound ctx (fun s => s.Knows a ∧ s.Knows b) (ctx.unify span a b)
    fun worked s => worked = true ∧ s.Agree a b := by
  intro s
  have ran := (unify_sound span a b : Sound ctx _ _ _) s
  have goesOn : ctx.unify span a b s =
      ctx.unified span (s.engine.unify a b).2 { s with engine := (s.engine.unify a b).1 } := rfl
  rw [goesOn] at ran ⊢
  rcases error : (s.engine.unify a b).2 with _ | ⟨expected, found⟩ | defect
  · rw [error] at ran
    refine ⟨ran.1, fun quiet proper known given => ?_⟩
    obtain ⟨after, before, worked⟩ := ran.2 quiet proper known given
    exact ⟨after, before, worked, .of_resolve (known.engine.unify_resolve given.1 given.2 error)⟩
  · rw [error] at ran
    refine ⟨ran.1, fun quiet => (Bag.add_ne_nil _ _ quiet).elim⟩
  · rw [error] at ran
    exact ran

theorem shallow_agrees (t : Ty) : Sound ctx (fun s => s.Knows t) (shallow t) fun known s =>
    s.Knows known ∧ s.Agree t known :=
  (shallow_sound t).follows fun s _ _ _ _ given done _ => by
    cases done
    exact ⟨given, fun _ known => ⟨known, s.agree_shallow t⟩⟩

/-- Without references around it a type is the one that stands behind its references, and otherwise it is a
reference. -/
theorem deref_agrees (t : Ty) : Sound ctx (fun s => s.Knows t) (deref t) fun r s =>
    s.Knows r.1 ∧ (r.2 = 0 → s.Agree t r.1) ∧ (0 < r.2 → ∃ mutable target, s.Agree t (.ref mutable target)) :=
  (deref_sound t).follows fun s _ _ _ _ given done _ => by
    cases done
    have outer := s.agree_shallow t
    refine ⟨given, fun _ known => ⟨known, ?_⟩⟩
    cases (s.engine.resolve t).depth with
    | zero => exact ⟨fun _ => outer, fun more => absurd more (Nat.lt_irrefl 0)⟩
    | succ fuel =>
      rw [derefWithin]
      split
      next mutable target seen =>
        exact ⟨fun direct => absurd direct (Nat.succ_ne_zero _), fun _ => ⟨mutable, target, seen ▸ outer⟩⟩
      · exact ⟨fun _ => outer, fun more => absurd more (Nat.lt_irrefl 0)⟩

theorem fresh_var (literal : LiteralClass) :
    Sound ctx P (fresh literal) fun t s => s.Knows t ∧ ∃ id, t = .var id literal := by
  refine (fresh_sound literal).follows fun s a s' _ _ given done _ => ⟨given, fun _ owned => ⟨owned, ?_⟩⟩
  cases done
  exact ⟨_, rfl⟩

end Typing

/-! ### Names -/

/-- The type of a part of a value by its name: a field of a struct, or an element of a tuple. -/
def Decls.part? (decls : Decls) (name : String) : Ty → Option Ty
  | .struct struct args => decls.fieldType? struct args name
  | .tuple elements => (tupleIndex? name).bind fun i => elements[i]?
  | _ => none

/-- A variant of an enum with a name, over proper types. -/
def VariantRef.Proper (r : VariantRef) : Prop := r.enum.name ≠ "" ∧ ∀ t ∈ r.variant.slots, t.Proper []

namespace Table.Proper

variable {table : Table}

theorem function (proper : table.Proper) {name : String} {signature : Signature}
    (found : table.function? name = some signature) : signature.Proper := by
  obtain ⟨entry, here, rfl⟩ := Option.map_eq_some_iff.mp found
  exact proper.functions entry (List.mem_of_find?_eq_some here)

theorem method (proper : table.Proper) {type name : String} {signature : Signature}
    (found : table.method? type name = some signature) : signature.Proper := by
  obtain ⟨entry, here, rfl⟩ := Option.map_eq_some_iff.mp found
  exact proper.methods entry (List.mem_of_find?_eq_some here)

theorem signature (proper : table.Proper) {position : Nat} {f : FuncDecl} {signature : Signature}
    (found : table.signature? position f = some signature) : signature.Proper := by
  unfold Table.signature? at found
  obtain ⟨found, -⟩ := Option.filter_eq_some_iff.mp found
  split at found
  · exact proper.method found
  · exact proper.function found

theorem variant (proper : table.Proper) {d : EnumDef} {v : Variant} (declared : d ∈ table.decls.enums)
    (member : v ∈ d.variants) : VariantRef.Proper ⟨d, v⟩ :=
  ⟨(proper.decls.enums d declared).1, (proper.decls.enums d declared).2 v member⟩

end Table.Proper

/-- A variant that an enum of the table declares under a name. Without the name of an enum any will do. -/
structure VariantRef.Declared (table : Table) (enum name : String) (r : VariantRef) : Prop where
  owner : enum = "" ∨ enum = r.enum.name
  enum : r.enum ∈ table.decls.enums
  variant : r.variant ∈ r.enum.variants
  named : r.variant.name = name

theorem VariantRef.Declared.proper {table : Table} {enum name : String} {r : VariantRef}
    (declared : r.Declared table enum name) (proper : table.Proper) : r.Proper :=
  proper.variant declared.enum declared.variant

theorem VariantRef.Declared.of_find {table : Table} {enum name variant : String} {d : EnumDef} {v : Variant}
    (owner : enum = "" ∨ enum = name) (found : table.decls.enum? name = some d)
    (member : d.variant? variant = some v) : VariantRef.Declared table enum variant ⟨d, v⟩ where
  owner := owner.imp_right fun same => by
    have own : d.name = name := by simpa using List.find?_some found
    exact same.trans own.symm
  enum := List.mem_of_find?_eq_some found
  variant := List.mem_of_find?_eq_some member
  named := by simpa using List.find?_some member

/-- What a name may mean is declared under it. -/
theorem Table.candidates_declared {table : Table} {enum variant : String} {r : VariantRef}
    (member : r ∈ table.candidates enum variant) : r.Declared table enum variant := by
  unfold Table.candidates at member
  split at member
  next unnamed =>
    obtain ⟨d, declared, inside⟩ := List.mem_flatMap.mp member
    obtain ⟨v, found, rfl⟩ := List.mem_map.mp inside
    obtain ⟨inside, named⟩ := List.mem_filter.mp found
    exact ⟨.inl (by simpa using unnamed), declared, inside, by simpa using named⟩
  · split at member
    next d found =>
      obtain ⟨v, inside, rfl⟩ := List.mem_map.mp member
      exact .of_find (.inr rfl) found (Option.mem_toList.mp inside)
    · cases member

namespace Typing

variable {ctx : Context} {P : State → Prop}

/-- A declared type with arguments that are known. -/
theorem State.Knows.instantiate {s : State} {t : Ty} (proper : t.Proper []) {params : List String} {args : List Ty}
    (known : ∀ a ∈ args, s.Knows a) : s.Knows (t.instantiate params args) := Ty.Proper.instantiate proper known

theorem fieldNamed?_mem {fields : List Field} {name : String} {t : Ty}
    (found : fieldNamed? fields name = some t) : ∃ f ∈ fields, f.name = name ∧ f.type = t := by
  obtain ⟨f, here, rfl⟩ := Option.map_eq_some_iff.mp found
  exact ⟨f, List.mem_reverse.mp (List.mem_of_find?_eq_some here), by simpa using List.find?_some here, rfl⟩

theorem slotFields_known {s : State} {v : Variant} {slots : List Ty} (known : ∀ t ∈ slots, s.Knows t) :
    ∀ f ∈ Context.slotFields v slots, s.Knows f.type := by
  intro f member
  obtain ⟨⟨g, t⟩, paired, rfl⟩ := List.mem_map.mp member
  exact known t (List.of_mem_zip paired).2

/-- A value is taken to be changed: without references around it, it is borrowed as one that may be, and otherwise
the outermost reference lets it be changed. -/
def State.Lent (s : State) (receiver : Expr) (outer : Ty) (derefs : Nat) : Prop :=
  (derefs = 0 ∧ (receiver.id, .autoRefMut) ∈ s.notes.coercions) ∨ ∃ target, s.Agree outer (.ref true target)

instance (receiver : Expr) (outer : Ty) (derefs : Nat) : Lasting fun s => s.Lent receiver outer derefs where
  lasts before lent := lent.imp (fun direct => ⟨direct.1, before.notes.coercions direct.2⟩) fun shared =>
    shared.imp fun _ same => same.later before

/-- A value is taken the way a method takes it: it is no reference if it is moved, and it is borrowed to be looked at if
it is no reference. -/
def State.Lends (s : State) (receiver : Expr) (outer : Ty) (derefs : Nat) : SelfMode → Prop
  | .value => derefs = 0
  | .shared => 0 < derefs ∨ (receiver.id, .autoRef) ∈ s.notes.coercions
  | .exclusive => s.Lent receiver outer derefs

instance (id : Nat) (coercion : Coercion) : Lasting fun s => (id, coercion) ∈ s.notes.coercions :=
  ⟨fun before => before.notes.coercions⟩

instance (receiver : Expr) (outer : Ty) (derefs : Nat) (mode : SelfMode) :
    Lasting fun s => s.Lends receiver outer derefs mode := by
  cases mode <;> unfold State.Lends <;> infer_instance

namespace Context

theorem nameType_sound [Lasting P] (info : NodeInfo) (name : String) :
    Sound ctx P (ctx.nameType info name) fun t s => s.Knows t := by
  refine .bind (lookup?_sound name) fun found => ?_
  cases found with
  | some t => exact .pure fun _ _ given => given.2 t rfl
  | none =>
    cases declared : ctx.table.function? name with
    | some signature =>
      refine .bind (freshAll_sound signature.typeParams) fun args => ?_
      refine .bind (instantiated_sound _ _) fun _ => ?_
      refine .bind (note_sound { calls := [(info.id, signature)] } rfl fun _ => rfl) fun _ => ?_
      exact .pure fun _ proper given =>
        .instantiate (proper.table.function declared).type given.1.1.2.2
    | none => exact report_then _ _ _ _

theorem namedFunction?_sound [Lasting P] (callee : Expr) : Sound ctx P (ctx.namedFunction? callee)
    fun r _ => ∀ signature ∈ r, signature.Proper ∧ ∃ info name, callee = .ident info name := by
  unfold namedFunction?
  split
  next info name =>
    refine .bind (lookup?_sound name) fun found => ?_
    cases found with
    | some t => exact .pure fun _ _ _ _ member => by cases member
    | none => exact .pure fun _ proper _ signature found =>
      ⟨proper.table.function found, info, name, rfl⟩
  · exact .pure fun _ _ _ _ member => by cases member

theorem enterCall_sound [Lasting P] (info : NodeInfo) (callee : Expr) {signature : Signature}
    (proper : ∀ s, ctx.Proper → P s → signature.Proper) : Sound ctx P (enterCall info callee signature)
    fun r s => (∀ t ∈ r.1, s.Knows t) ∧ s.Knows r.2 ∧ s.Records callee.id := by
  refine .bind (freshAll_sound signature.typeParams) fun args => ?_
  have types (s : State) (known : ctx.Proper) (given : P s ∧ args.length = signature.typeParams.length ∧
      ∀ t ∈ args, s.Knows t) : (∀ t ∈ signature.params.map fun p => p.type.instantiate signature.typeParams args,
        s.Knows t) ∧ s.Knows (signature.result.instantiate signature.typeParams args) := by
    have own := proper s known given.1
    refine ⟨fun t member => ?_, .instantiate own.result given.2.2⟩
    obtain ⟨p, inside, rfl⟩ := List.mem_map.mp member
    exact .instantiate (own.params p inside) given.2.2
  refine .step (record_sound callee.id _) (fun s known given => ?_) fun _ => ?_
  · exact Ty.proper_function.mpr (types s known given)
  refine .bind (note_sound { calls := [(info.id, signature)] } rfl fun _ => rfl) fun _ => ?_
  refine .bind (instantiated_sound _ _) fun _ => ?_
  exact .pure fun s known given =>
    ⟨(types s known given.1.1.1).1, (types s known given.1.1.1).2, .of_mem given.1.1.2⟩

/-- Another number of arguments is reported. -/
theorem arity_sound [Lasting P] (span : Span) (name : String) (count : Nat) (params : List Ty) :
    Sound ctx P (ctx.arity span name count params) fun r _ => r = some params := by
  unfold arity
  split
  · exact .pure fun _ _ _ => rfl
  · exact report_then _ _ _ _

theorem pass_sound (a : Expr) (want known found : Ty) :
    Sound ctx (fun s => s.Knows want ∧ s.Knows known ∧ s.Knows found) (ctx.pass a want known found)
      fun _ _ => True := by
  unfold pass
  split
  next mutable target =>
    refine .step (shallow_sound found) (fun _ _ given => given.2.2) fun outer => ?_
    split
    · refine .step (unify_sound a.span target found)
        (fun _ _ given => ⟨Ty.proper_ref.mp given.1.2.1, given.1.2.2⟩) fun worked => ?_
      split
      · exact coerce_sound _ _
      · exact .pure fun _ _ _ => trivial
    · exact (assign_sound a want found).imp (fun _ _ given => ⟨given.1.1, given.1.2.2⟩) fun _ _ _ _ => trivial
  · exact (assign_sound a want found).imp (fun _ _ given => ⟨given.1, given.2.2⟩) fun _ _ _ _ => trivial

/-- A method of a type that has a name; nothing is said about the empty name. -/
def namedMethod (ctx : Context) (type name : String) (missing : Check (Option Signature)) :
    Check (Option Signature) := do
  if type.isEmpty then return none
  match ctx.table.method? type name with
  | some signature => return some signature
  | none => missing

theorem namedMethod_sound {type name : String} {missing : Check (Option Signature)} [Lasting P]
    (absent : Sound ctx P missing fun _ _ => False) :
    Sound ctx (fun s => type ≠ "" ∧ P s) (ctx.namedMethod type name missing)
      fun r _ => ∃ signature, r = some signature ∧ signature.Proper ∧ ctx.table.method? type name = some signature := by
  unfold namedMethod
  split
  next unnamed => exact .pure fun _ _ given => absurd (by simpa using unnamed) given.1
  · split
    next signature found => exact .pure fun _ proper _ => ⟨signature, rfl, proper.table.method found, found⟩
    · exact absent.imp (fun _ _ given => given.2) fun _ _ _ never => never.elim

theorem namedMethod_received (received : ctx.table.Received) {type name : String}
    {missing : Check (Option Signature)} {s s' : State} {signature : Signature}
    (silent : ∀ s', missing s ≠ .ok (some signature, s'))
    (ran : ctx.namedMethod type name missing s = .ok (some signature, s')) : signature.self.isSome = true := by
  unfold namedMethod at ran
  by_cases unnamed : type.isEmpty = true
  · rw [if_pos unnamed] at ran
    cases ran
  · rw [if_neg unnamed] at ran
    cases found : ctx.table.method? type name with
    | none =>
      rw [found] at ran
      exact absurd ran (silent _)
    | some known =>
      rw [found] at ran
      cases ran
      obtain ⟨entry, here, rfl⟩ := Option.map_eq_some_iff.mp found
      exact received entry (List.mem_of_find?_eq_some here)

/-- A call of a method on a type that is known has the method, or it is reported. Only structs and enums have any. -/
theorem method?_sound (info : NodeInfo) (receiver : Expr) (name : String) (base : Ty) :
    Sound ctx (fun s => s.Knows base) (ctx.method? info receiver name base)
      fun r _ => ∃ signature, r = some signature ∧ signature.Proper ∧
        ∃ type args, (base = .struct type args ∨ base = .enum type args) ∧
          ctx.table.method? type name = some signature := by
  have named (type : String) : Sound ctx (fun s => type ≠ "" ∧ s.Knows base) (ctx.namedMethod type name _)
      fun r _ => ∃ signature, r = some signature ∧ signature.Proper ∧
        ctx.table.method? type name = some signature :=
    namedMethod_sound (report_then .undefinedName info.span s!"no method `{name}` on type `{base.text}`" none)
  unfold method?
  dsimp only
  split
  next type args =>
    exact (named type).imp (fun _ _ given => ⟨(Ty.proper_struct.mp given).1, given⟩) fun _ _ _ found =>
      found.imp fun _ own => ⟨own.1, own.2.1, type, args, .inl rfl, own.2.2⟩
  next type args =>
    exact (named type).imp (fun _ _ given => ⟨(Ty.proper_enum.mp given).1, given⟩) fun _ _ _ found =>
      found.imp fun _ own => ⟨own.1, own.2.1, type, args, .inr rfl, own.2.2⟩
  · exact .pure fun _ _ given => (Ty.not_proper_invalid given).elim
  · exact report_then _ _ _ _
  · exact report_then _ _ _ _

/-- The methods that are found say what they are called on. -/
theorem method?_received (received : ctx.table.Received) {info : NodeInfo} {receiver : Expr} {name : String}
    {base : Ty} {s s' : State} {signature : Signature}
    (ran : ctx.method? info receiver name base s = .ok (some signature, s')) : signature.self.isSome = true := by
  unfold method? at ran
  cases base
  case struct type args => exact namedMethod_received received (fun _ same => by cases same) ran
  case enum type args => exact namedMethod_received received (fun _ same => by cases same) ran
  all_goals cases ran

theorem takeReceiver_sound (receiver : Expr) (name : String) (outer base : Ty) (derefs : Nat) (mode : SelfMode) :
    Sound ctx (fun s => s.Knows outer) (ctx.takeReceiver receiver name outer base derefs mode)
      fun _ s => s.Lends receiver outer derefs mode := by
  have reported {P : State → Prop} {Q : Unit → State → Prop} [Lasting P] (message : String) :
      Sound ctx P (ctx.report .typeMismatch receiver.span message) Q :=
    (report_sound _ _ _).imp (fun _ _ given => given) fun _ _ _ never => never.elim
  cases mode <;> dsimp only [takeReceiver]
  case value =>
    split
    · exact reported _
    next direct => exact .pure fun _ _ _ => Nat.eq_zero_of_not_pos direct
  case shared =>
    split
    · exact (coerce_noted _ _).imp (fun _ _ given => given) fun _ _ _ noted => .inr noted
    next behind => exact .pure fun _ _ _ => .inl (Nat.pos_of_ne_zero (by simpa using behind))
  case exclusive =>
    split
    next direct =>
      exact (coerce_noted _ _).imp (fun _ _ given => given) fun _ _ _ noted => .inl ⟨by simpa using direct, noted⟩
    · refine .bind (shallow_agrees outer) fun known => ?_
      split
      · exact .pure fun _ _ given => .inr ⟨_, given.2.2⟩
      · exact reported _

theorem enterMethod_sound [Lasting P] {signature : Signature} (received : signature.self.isSome = true)
    (proper : ∀ s, ctx.Proper → P s → signature.Proper) (info : NodeInfo) (receiver : Expr) (name : String)
    (outer base : Ty) (derefs : Nat) :
    Sound ctx (fun s => P s ∧ s.Knows outer ∧ s.Knows base)
      (ctx.enterMethod info receiver name outer base derefs signature)
      fun r s => ((∀ t ∈ r.1, s.Knows t) ∧ s.Knows r.2) ∧ (info.id, signature) ∈ s.notes.methods ∧
        ∀ self ∈ signature.self, s.Lends receiver outer derefs self.mode := by
  obtain ⟨self, some⟩ := Option.isSome_iff_exists.mp received
  unfold enterMethod
  simp only [some]
  refine .bind (freshAll_sound signature.typeParams) fun args => ?_
  refine .step (unify_sound receiver.span _ base) (fun s known given => ⟨?_, given.1.2.2⟩) fun _ => ?_
  · exact .instantiate ((proper s known given.1.1).self self some) given.2.2
  refine .bind (note_sound { methods := [(info.id, signature)] } rfl fun _ => rfl) fun _ => ?_
  refine .bind (instantiated_sound _ _) fun _ => ?_
  refine .step (takeReceiver_sound receiver name outer base derefs self.mode)
    (fun _ _ given => given.1.1.1.1.2.1) fun _ => ?_
  refine .pure fun s known given => ?_
  have own := proper s known given.1.1.1.1.1.1
  have args := given.1.1.1.1.2.2
  obtain ⟨old, early⟩ := given.1.1.2
  refine ⟨⟨fun t member => ?_, .instantiate own.result args⟩, early.methods List.mem_cons_self,
    fun other known => ?_⟩
  · obtain ⟨p, inside, rfl⟩ := List.mem_map.mp member
    exact .instantiate (own.params p inside) args
  · cases known
    exact given.2

theorem fieldType_sound (info : NodeInfo) (object : Expr) (name : String) (base : Ty) :
    Sound ctx (fun s => s.Knows base) (ctx.fieldType info object name base)
      fun t s => s.Knows t ∧ ctx.table.decls.part? name base = some t := by
  unfold fieldType
  dsimp only
  split
  next struct args =>
    split
    next t found => exact .pure fun _ proper given =>
        ⟨proper.table.decls.fieldType (Ty.proper_struct.mp given).2 found, found⟩
    · exact report_then _ _ _ _
  next elements =>
    split
    next t found =>
      obtain ⟨i, -, here⟩ := Option.bind_eq_some_iff.mp found
      exact .pure fun _ _ given => ⟨Ty.Proper.child _ given t (List.mem_of_getElem? here), found⟩
    · exact report_then _ _ _ _
  · exact .pure fun _ _ given => (Ty.not_proper_invalid given).elim
  · exact report_then _ _ _ _
  · exact report_then _ _ _ _

theorem elementType_sound (info : NodeInfo) (object : Expr) (base : Ty) :
    Sound ctx (fun s => s.Knows base) (ctx.elementType info object base)
      fun t s => s.Knows t ∧ s.Agree (.array t) base := by
  unfold elementType
  split
  next element => exact .pure fun _ _ given => ⟨Ty.proper_array.mp given, fun _ _ _ => rfl⟩
  · refine .bind (fresh_sound _) fun element => ?_
    refine .step (unify_agrees object.span _ _)
      (fun _ _ given => ⟨Ty.proper_array.mpr given.2, given.1⟩) fun _ => ?_
    exact .pure fun _ _ given => ⟨given.1.2, given.2.2⟩
  · exact .pure fun _ _ given => (Ty.not_proper_invalid given).elim
  · exact report_then _ _ _ _

/-- What can be dereferenced is a reference. -/
theorem targetType_sound (info : NodeInfo) (t : Ty) :
    Sound ctx (fun s => s.Knows t) (ctx.targetType info t)
      fun target s => s.Knows target ∧ ∃ mutable, s.Agree t (.ref mutable target) := by
  refine .bind (shallow_agrees t) fun known => ?_
  split
  · exact .pure fun _ _ given => ⟨Ty.proper_ref.mp given.2.1, _, given.2.2⟩
  · exact .pure fun _ _ given => (Ty.not_proper_invalid given.2.1).elim
  · exact report_then _ _ _ _
  · exact report_then _ _ _ _

/-! ### Structs and variants -/

/-- A struct that a literal with a name may construct, with type arguments that are known. -/
structure KnownStruct (ctx : Context) (name : String) (s : State) (r : String × List Ty) : Prop where
  chosen : name = "" ∨ name = r.1
  declared : (ctx.table.decls.struct? r.1).isSome = true
  named : r.1 ≠ ""
  args : ∀ a ∈ r.2, s.Knows a

instance (name : String) (r : String × List Ty) : Lasting fun s => KnownStruct ctx name s r :=
  ⟨fun before known => ⟨known.chosen, known.declared, known.named, fun a member => before.knows (known.args a member)⟩⟩

theorem enterStruct_sound [Lasting P] (info : NodeInfo) {name : String} {d : StructDef}
    (chosen : name = "" ∨ name = d.name) (declared : d ∈ ctx.table.decls.structs) :
    Sound ctx P (enterStruct info d) fun r s => KnownStruct ctx name s r := by
  refine .bind (freshAll_sound d.params) fun args => ?_
  refine .bind (instantiated_sound _ _) fun _ => ?_
  refine .pure fun s proper given =>
    ⟨chosen, ?_, (proper.table.decls.structs d declared).1, given.1.2.2⟩
  exact List.find?_isSome.mpr ⟨d, declared, beq_self_eq_true d.name⟩

theorem hintedStruct?_sound (names : List String) (hint : Option Ty) :
    Sound ctx (fun s => ∀ t ∈ hint, s.Knows t) (ctx.hintedStruct? names hint)
      fun r s => ∀ found ∈ r, KnownStruct ctx "" s found := by
  refine .bind (shallow?_sound hint) fun known => ?_
  split
  next name args =>
    split
    next d declared =>
      refine .pure fun _ _ given => ?_
      split
      · intro found member
        cases member
        obtain ⟨named, args⟩ := Ty.proper_struct.mp (given.2 _ rfl)
        exact ⟨.inl rfl, Option.isSome_iff_exists.mpr ⟨d, declared⟩, named, args⟩
      · exact fun _ member => by cases member
    · exact .pure fun _ _ _ _ member => by cases member
  · exact .pure fun _ _ _ _ member => by cases member

theorem unnamedStruct?_sound (info : NodeInfo) (names : List String) (hint : Option Ty) :
    Sound ctx (fun s => ∀ t ∈ hint, s.Knows t) (ctx.unnamedStruct? info names hint)
      fun r s => ∃ found, r = some found ∧ KnownStruct ctx "" s found := by
  refine .bind (hintedStruct?_sound names hint) fun hinted => ?_
  cases hinted with
  | some found => exact .pure fun _ _ given => ⟨found, rfl, given.2 found rfl⟩
  | none =>
    dsimp only
    split
    next d only =>
      have declared : d ∈ ctx.table.decls.structs := by
        have member : d ∈ ctx.table.structsWithFields names := by simp [only]
        exact (List.mem_filter.mp ((List.mergeSort_perm _ _).mem_iff.mp member)).1
      rw [map_eq_pure_bind]
      refine .bind (enterStruct_sound info (.inl rfl) declared) fun found => ?_
      exact .pure fun _ _ given => ⟨found, rfl, given.2⟩
    · exact report_then _ _ _ _
    · exact add_then _ _

theorem literalStruct?_sound (info : NodeInfo) (name : String) (names : List String) (hint : Option Ty) :
    Sound ctx (fun s => ∀ t ∈ hint, s.Knows t) (ctx.literalStruct? info name names hint)
      fun r s => ∃ found, r = some found ∧ KnownStruct ctx name s found := by
  unfold literalStruct?
  split
  next unnamed =>
    obtain rfl : name = "" := by simpa using unnamed
    refine .bind (unnamedStruct?_sound info names hint) fun found => ?_
    cases found with
    | some found =>
      refine .bind (note_sound { literalTargets := [(info.id, found.1)] } rfl fun _ => rfl) fun _ => ?_
      exact .pure fun _ _ given => given.1.2
    | none => exact .pure fun _ _ given => given.2
  · split
    next d declared =>
      rw [map_eq_pure_bind]
      have same : d.name = name := by simpa using List.find?_some declared
      refine .bind (enterStruct_sound info (.inr same.symm) (List.mem_of_find?_eq_some declared)) fun found => ?_
      exact .pure fun _ _ given => ⟨found, rfl, given.2⟩
    · exact report_then _ _ _ _

theorem forM_sound {α : Type} [Lasting P] {items : List α} {check : α → Check Unit}
    (each : ∀ item ∈ items, Sound ctx P (check item) fun _ _ => True) :
    Sound ctx P (items.forM check) fun _ _ => True := by
  induction items with
  | nil => exact .pure fun _ _ _ => trivial
  | cons item items ih =>
    refine .bind (each item List.mem_cons_self) fun _ => ?_
    exact (ih fun other member => each other (List.mem_cons_of_mem _ member)).imp
      (fun _ _ given => given.1) fun _ _ _ done => done

theorem requireFields_sound [Lasting P] (span : Span) (owner : String) (fields : List Field)
    (given : List String) : Sound ctx P (ctx.requireFields span owner fields given) fun _ _ => True :=
  forM_sound fun _ _ => (report_sound _ _ _).imp (fun _ _ given => given) fun _ _ _ never => never.elim

theorem requireFieldPatterns_sound [Lasting P] (span : Span) (owner : String) (fields : List Field)
    (given : List String) : Sound ctx P (ctx.requireFieldPatterns span owner fields given) fun _ _ => True :=
  forM_sound fun _ _ => (add_sound _).imp (fun _ _ given => given) fun _ _ _ never => never.elim

theorem hintedVariant?_sound (enum variant : String) (hint : Option Ty) :
    Sound ctx (fun s => ∀ t ∈ hint, s.Knows t) (ctx.hintedVariant? enum variant hint)
      fun r _ => ∀ found ∈ r, found.Declared ctx.table enum variant := by
  unfold hintedVariant?
  split
  · exact .pure fun _ _ _ _ member => by cases member
  next unnamed =>
    refine .bind (shallow?_sound hint) fun known => ?_
    split
    next name args =>
      refine .pure fun _ _ _ found member => ?_
      obtain ⟨d, declared, member⟩ := Option.bind_eq_some_iff.mp member
      obtain ⟨v, inside, rfl⟩ := Option.map_eq_some_iff.mp member
      exact .of_find (.inl (by simpa using unnamed)) declared inside
    · exact .pure fun _ _ _ _ member => by cases member

/-- A name means a variant that is declared under it, or it is reported. -/
theorem variant?_declared (span : Span) (enum variant : String) (hint : Option Ty) :
    Sound ctx (fun s => ∀ t ∈ hint, s.Knows t) (ctx.variant? span enum variant hint)
      fun r _ => ∃ found, r = some found ∧ found.Proper ∧ found.Declared ctx.table enum variant := by
  refine .bind (hintedVariant?_sound enum variant hint) fun hinted => ?_
  cases hinted with
  | some found =>
    exact .pure fun _ proper given => ⟨found, rfl, (given.2 found rfl).proper proper.table, given.2 found rfl⟩
  | none =>
    dsimp only
    split
    next found only =>
      have declared : found.Declared ctx.table enum variant :=
        Table.candidates_declared (show found ∈ ctx.table.candidates enum variant by simp [only])
      exact .pure fun _ proper _ => ⟨found, rfl, declared.proper proper.table, declared⟩
    · exact report_then _ _ _ _
    · exact report_then _ _ _ _

theorem variant?_sound (span : Span) (enum variant : String) (hint : Option Ty) :
    Sound ctx (fun s => ∀ t ∈ hint, s.Knows t) (ctx.variant? span enum variant hint)
      fun r _ => ∃ found, r = some found ∧ found.Proper := by
  refine (variant?_declared span enum variant hint).imp (fun _ _ given => given) fun _ _ _ declared => ?_
  obtain ⟨found, same, proper, -⟩ := declared
  exact ⟨found, same, proper⟩

/-- Goes on after a unification, unless it met an infinite type. -/
def unlessInfinite {α : Type} (next : Check α) : Option UnifyError → Check α
  | some (.infinite defect) => throw (.defect defect) >>= fun _ : PUnit => next
  | _ => next

theorem enterVariant_sound (info : NodeInfo) (found : VariantRef) (hint : Option Ty) :
    Sound ctx (fun s => found.Proper ∧ ∀ t ∈ hint, s.Knows t) (enterVariant info found hint)
      fun args s => (∀ t ∈ args, s.Knows t) ∧ (info.id, found) ∈ s.notes.variants := by
  refine .bind (freshAll_sound found.enum.params) fun args => ?_
  refine .step (shallow?_sound hint) (fun _ _ given => given.1.2) fun known => ?_
  let finish : Check (List Ty) := do
    note fun a => { a with variants := a.variants.insert info.id found }
    instantiated info.id args
    return args
  have rest {P : State → Prop} [Lasting P] (use : ∀ s, P s → ∀ t ∈ args, s.Knows t) :
      Sound ctx P finish fun args s => (∀ t ∈ args, s.Knows t) ∧ (info.id, found) ∈ s.notes.variants := by
    refine .bind (variant_noted info.id found) fun _ => ?_
    refine .bind (instantiated_sound _ _) fun _ => ?_
    exact .pure fun _ _ given => ⟨use _ given.1.1, given.1.2⟩
  dsimp only
  split
  next name hinted =>
    split
    · refine engine_sound (fun e => e.unify (.enum name hinted) (.enum name args)) (unlessInfinite finish)
        (fun s known given => ?_) fun e => ?_
      · have hinted := given.2 _ rfl
        exact known.engine.unify hinted
          (Ty.proper_enum.mpr ⟨(Ty.proper_enum.mp hinted).1, given.1.2.2⟩)
      · rcases error : (e.unify (.enum name hinted) (.enum name args)).2 with _ | _ | defect
        · exact rest fun _ given => given.1.2.2
        · exact rest fun _ given => given.1.2.2
        · exact throw_then (Engine.unify_infinite error) _
    · exact rest fun _ given => given.1.2.2
  · exact rest fun _ given => given.1.2.2

/-- A tuple pattern gets as many types as it has elements, and they make up the type it is checked against; or it is
reported. -/
theorem elementTypes_agrees (info : NodeInfo) (elements : List Pattern) (t : Ty) :
    Sound ctx (fun s => s.Knows t) (ctx.elementTypes info elements t) fun types s =>
      (types.length = elements.length ∧ ∀ t ∈ types, s.Knows t) ∧ s.Agree t (.product types) := by
  unfold elementTypes
  refine .bind (P := fun s => s.Knows t) (Q := fun known s => s.Knows known ∧ s.Agree t known) ?_ fun known => ?_
  · exact fun s => ⟨id, fun _ _ proper given =>
      ⟨proper, .refl s, proper.engine.shallow given, s.agree_shallow t⟩⟩
  have unknown {P : State → Prop} [Lasting P] (use : ∀ s, ctx.Proper → P s → s.Knows t) : Sound ctx P (do
      let types ← freshAll elements
      let _ ← ctx.unify info.span t (.product types)
      return types) fun types s =>
        (types.length = elements.length ∧ ∀ t ∈ types, s.Knows t) ∧ s.Agree t (.product types) := by
    refine .bind (freshAll_sound elements) fun types => ?_
    refine .step (unify_agrees info.span t (.product types))
      (fun s proper given => ⟨use s proper given.1, ?_⟩) fun _ => ?_
    · exact Ty.proper_product.mpr given.2.2
    · exact .pure fun _ _ given => ⟨given.1.2, given.2.2⟩
  dsimp only
  split
  next types =>
    split
    next sized =>
      refine .pure fun _ _ given => ⟨⟨by simpa using sized, Ty.Proper.child _ given.2.1⟩, ?_⟩
      have some : types ≠ [] := by
        rintro rfl
        exact absurd (given.2.1 _ (Ty.self_mem_parts _)) (by simp [Ty.suits, Ty.placed])
      have same : Ty.product types = .tuple types := by
        cases types with
        | nil => exact absurd rfl some
        | cons t rest => rfl
      exact same ▸ given.2.2
    · exact report_then _ _ _ _
  · split
    next none =>
      have none : elements = [] := by simpa using none
      exact .pure fun _ _ given => ⟨⟨none ▸ rfl, fun _ member => by cases member⟩, given.2.2⟩
    · exact report_then _ _ _ _
  · exact unknown fun _ _ given => given.1
  · exact unknown fun _ _ given => given.1
  · exact report_then _ _ _ _

theorem elementTypes_sound (info : NodeInfo) (elements : List Pattern) (t : Ty) :
    Sound ctx (fun s => s.Knows t) (ctx.elementTypes info elements t)
      fun types s => types.length = elements.length ∧ ∀ t ∈ types, s.Knows t :=
  (elementTypes_agrees info elements t).imp (fun _ _ given => given) fun _ _ _ found => found.1

theorem compareBindings_sound (span : Span) (first : List String) (scope : List (String × Ty)) :
    Sound ctx (fun s => ∀ entry ∈ scope, s.Knows entry.2) (ctx.compareBindings span first scope)
      fun _ _ => True := by
  have reported {P : State → Prop} [Lasting P] (message : String) :
      Sound ctx P (ctx.report .typeMismatch span message) fun _ _ => True :=
    (report_sound _ _ _).imp (fun _ _ given => given) fun _ _ _ never => never.elim
  refine .bind (forM_sound fun name _ => ?_) fun _ => forM_sound fun _ _ => reported _
  split
  · exact reported _
  · split
    next bound here =>
      refine .bind (lookup?_sound name) fun known => ?_
      split
      next t =>
        refine .step (unify_sound span t bound) (fun _ _ given => ⟨given.2 t rfl, ?_⟩) fun _ => ?_
        · obtain ⟨front, back, split_, -⟩ := List.lookup_eq_some_iff.mp here
          exact given.1 (name, bound) (by simp [split_])
        · exact .pure fun _ _ _ => trivial
      · exact .pure fun _ _ _ => trivial
    · exact .pure fun _ _ _ => trivial

end Context

end Typing

end TreeCheck
