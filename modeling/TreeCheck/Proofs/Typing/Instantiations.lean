import TreeCheck.Proofs.Typing.Literals

/-!
The type arguments of generic declarations. In an accepted function the types that are noted about a call or a
construction are the declared ones with the type arguments that are noted with them, and no type argument is open
that is mentioned in a declared type.
-/

namespace TreeCheck

namespace Ty

theorem mem_children_replace {t child : Ty} (member : child ∈ t.children) (param : String → Ty)
    (var : Nat → LiteralClass → Ty) : child.replace param var ∈ (t.replace param var).children := by
  cases t with
  | struct name args | enum name args =>
    rw [replace, replaceAll_map]
    exact List.mem_map_of_mem member
  | tuple types =>
    rw [replace, children_product, replaceAll_map]
    exact List.mem_map_of_mem member
  | function params result =>
    rw [replace, replaceAll_map]
    rcases List.mem_append.mp member with front | back
    · exact List.mem_append_left _ (List.mem_map_of_mem front)
    · rw [List.mem_singleton.mp back]
      exact List.mem_append_right _ List.mem_cons_self
  | array element | ref mutable target =>
    rw [List.mem_singleton.mp member]
    exact List.mem_cons_self
  | unit | bool | int | float | string | generic | var | invalid => cases member

/-- What a parameter stands for occurs in a declared type that mentions it. -/
theorem mem_parts_instantiate {t : Ty} {name : String} {params : List String} {args : List Ty} {a part : Ty}
    (mentioned : .generic name ∈ t.parts) (found : argument? name params args = some a) (inside : part ∈ a.parts) :
    part ∈ (t.instantiate params args).parts := by
  unfold instantiate
  induction t using child_induction with
  | step t ih =>
    rcases mem_parts.mp mentioned with rfl | ⟨child, member, deeper⟩
    · simpa [replace, found] using inside
    · exact mem_parts_child (mem_children_replace member _ _) (ih child member deeper)

theorem Proper.strip {classes : List LiteralClass} {t : Ty} (proper : t.Proper classes) : t.strip.2.Proper classes := by
  induction t using Ty.strip.induct with
  | case1 mutable target count inner stripped ih =>
    rw [Ty.strip]
    exact ih (proper_ref.mp proper)
  | case2 t plain =>
    rwa [Ty.strip]
    exact plain

/-- A type is taken where another is wanted: as it is, as a number that is widened, or by reference. -/
def Accepts (want found : Ty) : Prop :=
  found = want ∨ found.canWiden want = true ∨ ∃ mutable, want = .ref mutable found

theorem Accepts.shut {want found : Ty} (accepts : want.Accepts found) (shut : found.Proper []) : want.Proper [] := by
  rcases accepts with rfl | widened | ⟨mutable, rfl⟩
  · exact shut
  · cases found <;> cases want <;> simp_all [canWiden]
  · exact proper_ref.mpr shut

end Ty

/-- Type arguments are closed whose parameters are mentioned in a declared type. Of equal parameters the last one is
meant. -/
def Signature.Closes (s : Signature) (args : List Ty) (declared : Ty) : Prop :=
  ∀ name, .generic name ∈ declared.parts → ∀ a, Ty.argument? name s.typeParams args = some a → a.Closed

theorem Signature.closes_of_shut {s : Signature} {args : List Ty} {declared : Ty}
    (shut : (declared.instantiate s.typeParams args).Proper []) : s.Closes args declared := by
  intro name mentioned a found
  have proper : a.Proper [] := fun part inside => shut part (Ty.mem_parts_instantiate mentioned found inside)
  exact proper.closed

namespace Typing

/-- Values are taken as arguments of as many types: each has a type that is accepted for its own. -/
def Annotations.Takes (notes : Annotations) (operands : List Expr) (wants : List Ty) : Prop :=
  List.Forall₂ (fun a want => ∃ t, notes.types.get? a.id = some t ∧ want.Accepts t) operands wants

theorem Annotations.Takes.shut {notes : Annotations} {operands : List Expr} {wants : List Ty}
    (takes : notes.Takes operands wants) (shut : ∀ id t, notes.types.get? id = some t → t.Proper []) :
    ∀ want ∈ wants, want.Proper [] := by
  induction takes with
  | nil => exact List.forall_mem_nil _
  | cons first _ ih =>
    obtain ⟨t, found, accepts⟩ := first
    exact List.forall_mem_cons.mpr ⟨accepts.shut (shut _ t found), ih⟩

/-- The type arguments of an expression, and what is noted about it: for the name of a function, for a call of a
function or a method, and for what constructs a struct or a variant of an enum. -/
inductive Instantiates (table : Table) (notes : Annotations) (args : List Ty) : Expr → Prop
  | name {info : NodeInfo} {name : String} {signature : Signature} (known : table.function? name = some signature)
      (sized : args.length = signature.typeParams.length)
      (typed : notes.types.get? info.id = some (signature.type.instantiate signature.typeParams args))
      (closed : signature.Closes args signature.type) : Instantiates table notes args (.ident info name)
  | call {info callee : NodeInfo} {name : String} {operands : List Expr} {signature : Signature}
      (known : table.function? name = some signature) (sized : args.length = signature.typeParams.length)
      (named : notes.types.get? callee.id = some (signature.type.instantiate signature.typeParams args))
      (takes : notes.Takes operands (signature.params.map fun p => p.type.instantiate signature.typeParams args))
      (typed : notes.types.get? info.id = some (signature.result.instantiate signature.typeParams args))
      (closed : signature.Closes args signature.type) :
      Instantiates table notes args (.call info (.ident callee name) operands)
  | method {info : NodeInfo} {receiver : Expr} {type name : String} {operands : List Expr} {signature : Signature}
      {self : Signature.Self} {t : Ty} (known : table.method? type name = some signature)
      (called : notes.methods.get? info.id = some signature) (own : signature.self = some self)
      (sized : args.length = signature.typeParams.length) (held : notes.types.get? receiver.id = some t)
      (behind : t.strip.2 = self.type.instantiate signature.typeParams args)
      (takes : notes.Takes operands (signature.params.map fun p => p.type.instantiate signature.typeParams args))
      (typed : notes.types.get? info.id = some (signature.result.instantiate signature.typeParams args))
      (closed : signature.Closes args signature.type) (bound : signature.Closes args self.type) :
      Instantiates table notes args (.methodCall info receiver name operands)
  | struct {info : NodeInfo} {name : String} {fields : List FieldInit} {d : StructDef} (known : d ∈ table.decls.structs)
      (sized : args.length = d.params.length) (typed : notes.types.get? info.id = some (.struct d.name args))
      (closed : ∀ a ∈ args, a.Closed) : Instantiates table notes args (.struct info name fields)
  | variant {info : NodeInfo} {enum variant : String} {operands : List Expr} {fields : List FieldInit}
      {found : VariantRef} (noted : notes.variants.get? info.id = some found)
      (sized : args.length = found.enum.params.length)
      (typed : notes.types.get? info.id = some (.enum found.enum.name args)) (closed : ∀ a ∈ args, a.Closed) :
      Instantiates table notes args (.variant info enum variant operands fields)

variable {ctx : Context}

/-! ### Arguments -/

theorem Given.accepts {notes : Annotations} {Γ : Env} {e : Expr} {want : Ty} (given : Given ctx notes Γ e want) :
    ∃ t, notes.types.get? e.id = some t ∧ want.Accepts t := by
  obtain ⟨typed, passes⟩ := given
  refine ⟨_, typed.noted, ?_⟩
  cases passes with
  | stored stores =>
    cases stores with
    | same => exact .inl rfl
    | widened wider => exact .inr (.inl wider)
  | borrowed => exact .inr (.inr ⟨_, rfl⟩)

theorem takes_of_given {notes : Annotations} {Γ : Env} {operands : List Expr} {wants : List Ty}
    (count : operands.length = wants.length)
    (passed : ∀ pair ∈ operands.zip wants, Given ctx notes Γ pair.1 pair.2) : notes.Takes operands wants :=
  List.forall₂_iff_zip.mpr ⟨count, fun paired => (passed _ paired).accepts⟩

namespace Accepted

variable {p : Program} {f : FuncDecl} {result : Result} {last : State}

/-- No node has type arguments twice. -/
theorem instantiations_nodup (done : Accepted p f result ctx last) : last.notes.instantiations.keys.Nodup := by
  obtain ⟨trace, -⟩ := Context.prepare_literals done.prepared done.quiet
  obtain ⟨new, same, few⟩ := trace.once
  rw [same, List.append_nil]
  exact List.nodup_iff_count_le_one.mpr fun id => (few id).trans (List.nodup_iff_count_le_one.mp done.unique id)

/-- The type of a node is a declared type with type arguments that are resolved. -/
theorem get?_instance (done : Accepted p f result ctx last) {id : Nat} {t : Ty} (proper : t.Proper [])
    {params : List String} {args : List Ty} (noted : (id, t.instantiate params args) ∈ last.notes.types) :
    result.notes.types.get? id = some (t.instantiate params (args.map last.engine.resolve)) := by
  rw [done.get?_type noted, last.engine.resolve_instantiate proper]

/-- A call of a function takes its arguments as the function declares it. -/
theorem call_takes (done : Accepted p f result ctx last) (collected : ctx.Collected) {info callee : NodeInfo}
    {name : String} {operands : List Expr} (inside : .expr (.call info (.ident callee name) operands) ∈ f.body.nodes)
    {signature : Signature} {args : List Ty}
    (named : result.notes.types.get? callee.id = some (signature.type.instantiate signature.typeParams args)) :
    result.notes.Takes operands (signature.params.map fun p => p.type.instantiate signature.typeParams args) := by
  obtain ⟨Γ, t, ⟨-, rule⟩⟩ := done.expr_typed collected inside nofun
  cases rule with
  | call called count passed =>
    have same := Option.some.inj (called.noted.symm.trans named)
    rw [Signature.type_instantiate] at same
    obtain ⟨rfl, -⟩ := Ty.function.inj same
    exact takes_of_given count passed

theorem invokes (done : Accepted p f result ctx last) (collected : ctx.Collected) {info : NodeInfo} {receiver : Expr}
    {name : String} {operands : List Expr}
    (inside : .expr (.methodCall info receiver name operands) ∈ f.body.nodes) {signature : Signature}
    (called : (info.id, signature) ∈ last.notes.methods) {args : List Ty}
    (sized : args.length = signature.typeParams.length) (noted : (info.id, args) ∈ last.notes.instantiations) :
    ∃ Γ t, Invokes ctx result.notes Γ (args.map last.engine.resolve) (.methodCall info receiver name operands) t := by
  obtain ⟨-, (other | ⟨hint, ran⟩)⟩ := done.covered _ inside
  · obtain ⟨_, _, other⟩ := other
    cases other
  have sound : Sound ctx (fun s => ∀ t ∈ hint, s.Knows t) (infer ctx (.methodCall info receiver name operands) hint)
      fun _ s => ∃ scopes t, s.Invokes ctx scopes (.methodCall info receiver name operands) t :=
    .entering fun scopes => (methodCall_invokes collected.received (infer_derived collected receiver)
      (checkArgs_derived collected operands) hint).consequence (fun _ _ given => given)
        fun t _ found => ⟨scopes, t, found.1.2⟩
  obtain ⟨-, s, before, scopes, t, types, chosen, shows⟩ := done.of_ran sound ran
  have invokes := shows last result.notes before done.settled
  obtain ⟨own, resolved, fits⟩ := invokes.chosen
  obtain rfl := Option.some.inj (resolved.symm.trans (done.get?_method.mpr called))
  have same : types = args := by
    rcases chosen with rfl | early
    · exact (List.eq_nil_of_length_eq_zero (sized.trans fits.symm)).symm
    · have first := (NodeTable.get?_eq_some_iff done.instantiations_nodup).mpr (before.notes.instantiations early)
      exact Option.some.inj (first.symm.trans ((NodeTable.get?_eq_some_iff done.instantiations_nodup).mpr noted))
  exact ⟨_, _, same ▸ invokes⟩

/-- What is noted about a node that has type arguments. -/
theorem instantiates (done : Accepted p f result ctx last) (collected : ctx.Collected) {id : Nat} {args : List Ty}
    (found : result.notes.instantiations.get? id = some args) :
    ∃ e, .expr e ∈ f.body.nodes ∧ e.id = id ∧ Instantiates ctx.table result.notes args e := by
  have member := NodeTable.get?_mem found
  rw [done.notes] at member
  obtain ⟨⟨_, raw⟩, noted, same⟩ := List.mem_map.mp member
  cases same
  obtain ⟨trace, -⟩ := Context.prepare_literals done.prepared done.quiet
  obtain ⟨e, inside, rfl, chosen⟩ := (trace.chosen noted).resolve_left (List.not_mem_nil)
  refine ⟨e, inside, rfl, ?_⟩
  have shut {node : Nat} {t : Ty} (found : result.notes.types.get? node = some t) : t.Proper [] := done.type_shut found
  cases chosen with
  | name known sized called typed =>
    have proper := done.context.table.function known
    have typed := done.get?_instance proper.type typed
    exact .name known (by simpa using sized) typed (Signature.closes_of_shut (shut typed))
  | call known sized called named typed =>
    have proper := done.context.table.function known
    have callee := done.get?_instance proper.type named
    exact .call known (by simpa using sized) callee (done.call_takes collected inside callee)
      (done.get?_instance proper.result typed) (Signature.closes_of_shut (shut callee))
  | @method _ _ _ _ _ signature known sized called typed =>
    obtain ⟨_, _, invokes⟩ := done.invokes collected inside called sized noted
    cases invokes with
    | intro taken _ known chosen own fits behind _ count passed =>
      obtain rfl := Option.some.inj (chosen.symm.trans (done.get?_method.mpr called))
      have takes := takes_of_given (by simpa using count) passed
      have typed := done.get?_instance (done.context.table.method known).result typed
      refine .method known chosen own fits taken.noted behind takes typed (Signature.closes_of_shut ?_)
        (Signature.closes_of_shut ?_)
      · rw [Signature.type_instantiate]
        exact Ty.proper_function.mpr ⟨takes.shut fun _ _ => shut, shut typed⟩
      · exact behind ▸ (shut taken.noted).strip
  | struct known sized typed =>
    have typed := done.get?_type typed
    rw [Engine.resolve_struct] at typed
    have each := (Ty.proper_struct.mp (shut typed)).2
    exact .struct known (by simpa using sized) typed fun a member => (each a member).closed
  | variant sized tagged typed =>
    have typed := done.get?_type typed
    rw [Engine.resolve_enum] at typed
    have each := (Ty.proper_enum.mp (shut typed)).2
    exact .variant (done.get?_variant.mpr tagged) (by simpa using sized) typed fun a member => (each a member).closed

end Accepted

/-- The type arguments in a function that is accepted belong to names of functions, calls and constructions. The types
that are noted about each of these are the declared ones with its type arguments, and a type argument whose parameter is
mentioned in a declared type is closed. -/
theorem check_instantiates {p : Program} (decoded : p.Decoded) (collected : p.collect.2 = []) (named : p.Named)
    {f : FuncDecl} {position : Nat} (member : (f, position) ∈ p.functions.zipIdx) {result : Result}
    (checked : check p.collect.1 position f = .ok result) (accepted : result.diagnostics = []) :
    ∀ id args, result.notes.instantiations.get? id = some args →
      ∃ e, .expr e ∈ f.body.nodes ∧ e.id = id ∧ Instantiates p.collect.1 result.notes args e := by
  intro id args found
  obtain ⟨ctx, last, done⟩ := check_accepted decoded collected named member checked accepted
  exact done.table ▸ done.instantiates (Context.collected decoded done.table) found

section

open Syntax

/-- A generic function that gives back what it is given, and a function that calls it with a truth value. -/
def handing : Input :=
  documentOf [mappingNode [("fn", textNode "f"), ("generics", listNode [textNode "T"]),
      ("params", listNode [mappingNode [("x", textNode "T")]]), ("returns", textNode "T"), ("value", textNode "x")],
    mappingNode [("fn", textNode "g"), ("returns", textNode "bool"),
      ("value", mappingNode [("call", textNode "f"), ("args", listNode [truthNode "true"])])]]

def handed : FuncDecl :=
  let generic : WrittenType := ⟨origin, .named "T" []⟩
  { (default : FuncDecl) with
    name := "f"
    typeParams := ["T"]
    params := [⟨"x", generic, false, origin⟩]
    result := some generic
    body := .mk unnumbered [] (some (.ident unnumbered "x"))
    span := origin }

def hands : FuncDecl :=
  { (default : FuncDecl) with
    name := "g"
    result := some boolean
    body := .mk unnumbered [] (some (.call unnumbered (.ident unnumbered "f") [.bool unnumbered true]))
    span := origin }

theorem readProgram_handing : readProgram handing = .ok ⟨"", "t.yaml", [.function handed, .function hands]⟩ := by
  with_unfolding_all rfl

theorem check_instantiates_call : ∃ p : Program, p.Decoded ∧ p.collect.2 = [] ∧ p.Named ∧
    ∃ f result, (f, 1) ∈ p.functions.zipIdx ∧ check p.collect.1 1 f = .ok result ∧ result.diagnostics = [] ∧
    (result.notes.instantiations.get? 4).map (List.map Ty.isBool) = some [true] ∧
    ∀ id args, result.notes.instantiations.get? id = some args →
      ∃ e, .expr e ∈ f.body.nodes ∧ e.id = id ∧ Instantiates p.collect.1 result.notes args e := by
  let p : Program := (Program.number ⟨"", "t.yaml", [.function handed, .function hands]⟩).1
  let f : FuncDecl := { hands with body := (hands.body.number 2).1 }
  have decoded : p.Decoded := ⟨_, _, readProgram_handing, rfl⟩
  have collected : p.collect.2 = [] := List.eq_nil_of_length_eq_zero (by decide +kernel)
  have named : p.Named := by
    have items : p.items = [.function { handed with body := (handed.body.number 0).1 }, .function f] := rfl
    simp [Program.Named, items, Item.typeName?]
  have passed : passes (check p.collect.1 1 f) = true := by cbv
  obtain ⟨result, checked, accepted⟩ := exists_of_passes passed
  have noted : ((check p.collect.1 1 f).toOption.bind fun result =>
      (result.notes.instantiations.get? 4).map (List.map Ty.isBool)) = some [true] := by cbv
  rw [checked] at noted
  have member : (f, 1) ∈ p.functions.zipIdx := List.mem_cons_of_mem _ List.mem_cons_self
  exact ⟨p, decoded, collected, named, f, result, member, checked, accepted, noted,
    check_instantiates decoded collected named member checked accepted⟩

/-- A generic function that does not mention its type parameter, and a function that calls it. -/
def leaving : Input :=
  documentOf [mappingNode [("fn", textNode "f"), ("generics", listNode [textNode "T"]), ("body", listNode [])],
    mappingNode [("fn", textNode "g"),
      ("body", listNode [mappingNode [("call", textNode "f"), ("args", listNode [])]])]]

def left : FuncDecl :=
  { (default : FuncDecl) with
    name := "f"
    typeParams := ["T"]
    body := .mk unnumbered [] none
    span := origin }

def leaves : FuncDecl :=
  { (default : FuncDecl) with
    name := "g"
    body := .mk unnumbered [.expr origin (.call unnumbered (.ident unnumbered "f") [])] none
    span := origin }

theorem readProgram_leaving : readProgram leaving = .ok ⟨"", "t.yaml", [.function left, .function leaves]⟩ := by
  with_unfolding_all rfl

/-- Open types are only looked for among the types of nodes, so that a type argument is accepted that no node has in its
type. -/
theorem check_accepts_open : ∃ p : Program, p.Decoded ∧ p.collect.2 = [] ∧ p.Named ∧
    ∃ f result, (f, 1) ∈ p.functions.zipIdx ∧ check p.collect.1 1 f = .ok result ∧ result.diagnostics = [] ∧
    ∃ id args, result.notes.instantiations.get? id = some args ∧ ¬ ∀ a ∈ args, a.hasVars = false := by
  let p : Program := (Program.number ⟨"", "t.yaml", [.function left, .function leaves]⟩).1
  let f : FuncDecl := { leaves with body := (leaves.body.number 1).1 }
  have collected : p.collect.2 = [] := List.eq_nil_of_length_eq_zero (by decide +kernel)
  have named : p.Named := by
    have items : p.items = [.function { left with body := (left.body.number 0).1 }, .function f] := rfl
    simp [Program.Named, items, Item.typeName?]
  have passed : passes (check p.collect.1 1 f) = true := by cbv
  obtain ⟨result, checked, accepted⟩ := exists_of_passes passed
  have noted : ((check p.collect.1 1 f).toOption.bind fun result =>
      (result.notes.instantiations.get? 3).map (List.map Ty.hasVars)) = some [true] := by cbv
  rw [checked] at noted
  obtain ⟨args, found, open_⟩ := Option.map_eq_some_iff.mp noted
  refine ⟨p, ⟨_, _, readProgram_leaving, rfl⟩, collected, named, f, result, List.mem_cons_of_mem _ List.mem_cons_self,
    checked, accepted, 3, args, found, fun closed => ?_⟩
  cases args with
  | nil => cases open_
  | cons a rest =>
    rw [List.map_cons, closed a List.mem_cons_self] at open_
    cases open_

end

end Typing

end TreeCheck
