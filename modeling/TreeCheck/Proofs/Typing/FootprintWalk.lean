import TreeCheck.Proofs.Typing.Footprints
import TreeCheck.Proofs.Typing.Lookups

/-!
The footprint of inference: it notes facts once about each node, and a pattern declares the names of its bindings.
-/

namespace TreeCheck.Typing

variable {α : Type} {ctx : Context} {f : Footprint} {check : Check α}

open Footprint

/-! ### Steps -/

theorem add_leaves (d : Diagnostic) : Leaves {} (ctx.add d) := .modify (fun _ => rfl) fun _ => rfl

theorem report_leaves (kind : Diagnostic.Kind) (span : Span) (message : String) :
    Leaves {} (ctx.report kind span message) := add_leaves _

theorem record_leaves (id : Nat) (t : Ty) : Leaves (typed [id]) (record id t) := by
  refine .note { types := [(id, t)] } (fun _ => rfl) ?_
  constructor <;> simp [typed]

theorem coerce_leaves (id : Nat) (coercion : Coercion) : Leaves (coerced id) (coerce id coercion) := by
  refine .note { coercions := [(id, coercion)] } (fun _ => rfl) ?_
  constructor <;> simp [coerced]

theorem instantiated_leaves (id : Nat) (args : List Ty) : Leaves {} (instantiated id args) := by
  refine .ite (.pure _) (.note { instantiations := [(id, args)] } (fun _ => rfl) ?_)
  constructor <;> simp

theorem called_leaves (id : Nat) (signature : Signature) :
    Leaves {} (note fun a => { a with calls := a.calls.insert id signature }) := by
  refine .note { calls := [(id, signature)] } (fun _ => rfl) ?_
  constructor <;> simp

theorem method_leaves (id : Nat) (signature : Signature) :
    Leaves (formed id) (note fun a => { a with methods := a.methods.insert id signature }) := by
  refine .note { methods := [(id, signature)] } (fun _ => rfl) ?_
  constructor <;> simp [formed]

theorem variant_leaves (id : Nat) (found : VariantRef) :
    Leaves (formed id) (note fun a => { a with variants := a.variants.insert id found }) := by
  refine .note { variants := [(id, found)] } (fun _ => rfl) ?_
  constructor <;> simp [formed]

theorem struct_leaves (id : Nat) (name : String) :
    Leaves {} (note fun a => { a with structs := a.structs.insert id name }) := by
  refine .note { structs := [(id, name)] } (fun _ => rfl) ?_
  constructor <;> simp

theorem pendLiteral_leaves (id : Nat) (span : Span) (value : Int) : Leaves {} (pendLiteral id span value) :=
  .modify (fun _ => rfl) fun _ => rfl

theorem negateLiteral_leaves (id : Nat) (span : Span) (value : Int) : Leaves {} (negateLiteral id span value) :=
  .modify (fun _ => rfl) fun _ => rfl

theorem lookup?_leaves (name : String) : Leaves {} (lookup? name) := .look fun _ => .pure _

theorem fresh_leaves (literal : LiteralClass) : Leaves {} (fresh literal) := by
  refine .silent fun s _ s' ran => ?_
  cases ran
  exact ⟨rfl, rfl⟩

theorem freshAll_leaves {β : Type} (params : List β) : Leaves {} (freshAll params) := by
  refine .silent fun s _ s' ran => ?_
  cases ran
  exact ⟨rfl, rfl⟩

theorem shallow_leaves (t : Ty) : Leaves {} (shallow t) := .look fun _ => .pure _

theorem shallow?_leaves (t : Option Ty) : Leaves {} (shallow? t) := by
  cases t with
  | none => exact .pure _
  | some t => exact (shallow_leaves t).map _

theorem deref_leaves (t : Ty) : Leaves {} (deref t) := .look fun _ => .pure _

theorem resolve_leaves (t : WrittenType) : Leaves {} (ctx.resolve t) := by
  refine .silent fun s _ s' ran => ?_
  cases ran
  exact ⟨rfl, rfl⟩

theorem unify_leaves (span : Span) (a b : Ty) : Leaves {} (ctx.unify span a b) := by
  refine .engine (fun e => e.unify a b) (ctx.unified span) fun answer => ?_
  rcases answer with _ | _ | _
  · exact .pure _
  · exact (report_leaves _ _ _).after fun _ => .pure _
  · exact .throw _

theorem assign_leaves (e : Expr) (expected found : Ty) : Leaves (coerced e.id) (ctx.assign e expected found) := by
  refine .engine (fun engine => engine.assign expected found) (ctx.assigned e) fun answer => ?_
  obtain ⟨coercion, error⟩ := answer
  rcases error with _ | _ | _
  · exact .ite (coerce_leaves _ _) (.spare (.pure _) rfl)
  · exact (report_leaves _ _ _).spare rfl
  · exact .throw _

theorem require_leaves (span : Span) (operator : String) (t : Ty) (r : Requirement) :
    Leaves {} (ctx.require span operator t r) :=
  (shallow_leaves t).after fun _ => .ite (report_leaves _ _ _) (.pure _)

/-- A step that is only taken sometimes. -/
theorem Leaves.optional {wanted : Prop} [Decidable wanted] {g : Footprint} {first : Check Unit} {next : Unit → Check α}
    (start : Leaves f first) (none : f.bindings = []) (rest : Leaves g (next ())) :
    Leaves (f ++ g) (if wanted then first >>= next else next ()) := by
  split
  · exact start.bind fun _ => rest
  · refine rest.mono ?_
    constructor <;> simp [none]

theorem report_then_leaves (kind : Diagnostic.Kind) (span : Span) (message : String) (a : α) :
    Leaves {} (do ctx.report kind span message; return a) := (report_leaves kind span message).after fun _ => .pure a

/-! ### Names -/

namespace Context

theorem nameType_leaves (info : NodeInfo) (name : String) : Leaves {} (ctx.nameType info name) := by
  refine (lookup?_leaves name).after fun found => ?_
  cases found with
  | some t => exact .pure _
  | none =>
    cases ctx.table.function? name with
    | some signature =>
      exact (freshAll_leaves _).after fun _ => (instantiated_leaves _ _).after fun _ =>
        (called_leaves _ _).after fun _ => .pure _
    | none => exact report_then_leaves _ _ _ _

theorem namedFunction?_leaves (callee : Expr) : Leaves {} (ctx.namedFunction? callee) := by
  unfold namedFunction?
  split
  · refine (lookup?_leaves _).after fun found => ?_
    cases found <;> exact .pure _
  · exact .pure _

theorem enterCall_leaves (info : NodeInfo) (callee : Expr) (signature : Signature) :
    Leaves (typed [callee.id]) (enterCall info callee signature) :=
  (freshAll_leaves _).after fun _ => (record_leaves _ _).before fun _ => (called_leaves _ _).after fun _ =>
    (instantiated_leaves _ _).after fun _ => .pure _

theorem arity_leaves (span : Span) (name : String) (count : Nat) (params : List Ty) :
    Leaves {} (ctx.arity span name count params) := .ite (.pure _) (report_then_leaves _ _ _ _)

theorem pass_leaves (a : Expr) (want known found : Ty) : Leaves (coerced a.id) (ctx.pass a want known found) := by
  unfold pass
  split
  · refine (shallow_leaves found).after fun _ => .ite ?_ (assign_leaves a want found)
    exact (unify_leaves _ _ _).after fun _ => .ite (coerce_leaves _ _) (.spare (.pure _) rfl)
  · exact assign_leaves a want found

theorem method?_leaves (info : NodeInfo) (receiver : Expr) (name : String) (base : Ty) :
    Leaves {} (ctx.method? info receiver name base) := by
  have missing : Leaves {} (do
      ctx.report .undefinedName info.span s!"no method `{name}` on type `{base.text}`"
      return (none : Option Signature)) := report_then_leaves _ _ _ _
  have named (type : String) : Leaves {} (ctx.namedMethod type name (do
      ctx.report .undefinedName info.span s!"no method `{name}` on type `{base.text}`"
      return none)) := by
    refine .ite (.pure _) ?_
    cases ctx.table.method? type name with
    | some signature => exact .pure _
    | none => exact missing
  unfold method?
  dsimp only
  split
  · exact named _
  · exact named _
  · exact .pure _
  · exact report_then_leaves _ _ _ _
  · exact missing

theorem takeReceiver_leaves (receiver : Expr) (name : String) (outer base : Ty) (derefs : Nat) (mode : SelfMode) :
    Leaves (coerced receiver.id) (ctx.takeReceiver receiver name outer base derefs mode) := by
  cases mode with
  | value => exact .spare (.ite (report_leaves _ _ _) (.pure _)) rfl
  | shared => exact .ite (coerce_leaves _ _) (.spare (.pure _) rfl)
  | exclusive =>
    refine .ite (coerce_leaves _ _) ((shallow_leaves outer).after fun known => ?_)
    split
    · exact .spare (.pure _) rfl
    · exact (report_leaves _ _ _).spare rfl

theorem enterMethod_leaves (info : NodeInfo) (receiver : Expr) (name : String) (outer base : Ty) (derefs : Nat)
    (signature : Signature) : Leaves (formed info.id ++ coerced receiver.id)
      (ctx.enterMethod info receiver name outer base derefs signature) := by
  unfold enterMethod
  cases signature.self with
  | none => exact .throw _
  | some self =>
    exact (freshAll_leaves _).after fun _ => (unify_leaves _ _ _).after fun _ => (method_leaves _ _).bind fun _ =>
      (instantiated_leaves _ _).after fun _ => (takeReceiver_leaves _ _ _ _ _ _).before fun _ => .pure _

theorem fieldType_leaves (info : NodeInfo) (object : Expr) (name : String) (base : Ty) :
    Leaves {} (ctx.fieldType info object name base) := by
  unfold fieldType
  dsimp only
  split
  · split
    · exact .pure _
    · exact report_then_leaves _ _ _ _
  · split
    · exact .pure _
    · exact report_then_leaves _ _ _ _
  · exact .pure _
  · exact report_then_leaves _ _ _ _
  · exact report_then_leaves _ _ _ _

theorem elementType_leaves (info : NodeInfo) (object : Expr) (base : Ty) :
    Leaves {} (ctx.elementType info object base) := by
  unfold elementType
  split
  · exact .pure _
  · exact (fresh_leaves _).after fun _ => (unify_leaves _ _ _).after fun _ => .pure _
  · exact .pure _
  · exact report_then_leaves _ _ _ _

theorem targetType_leaves (info : NodeInfo) (t : Ty) : Leaves {} (ctx.targetType info t) := by
  refine (shallow_leaves t).after fun known => ?_
  split
  · exact .pure _
  · exact .pure _
  · exact report_then_leaves _ _ _ _
  · exact report_then_leaves _ _ _ _

theorem enterStruct_leaves (info : NodeInfo) (d : StructDef) : Leaves {} (enterStruct info d) :=
  (freshAll_leaves _).after fun _ => (instantiated_leaves _ _).after fun _ => .pure _

theorem hintedStruct?_leaves (names : List String) (hint : Option Ty) : Leaves {} (ctx.hintedStruct? names hint) := by
  refine (shallow?_leaves hint).after fun known => ?_
  split
  · split
    · exact .pure _
    · exact .pure _
  · exact .pure _

theorem unnamedStruct?_leaves (info : NodeInfo) (names : List String) (hint : Option Ty) :
    Leaves {} (ctx.unnamedStruct? info names hint) := by
  refine (hintedStruct?_leaves names hint).after fun found => ?_
  cases found with
  | some found => exact .pure _
  | none =>
    dsimp only
    split
    · exact (enterStruct_leaves info _).map _
    · exact report_then_leaves _ _ _ _
    · exact (add_leaves _).after fun _ => .pure _

theorem literalStruct?_leaves (info : NodeInfo) (name : String) (names : List String) (hint : Option Ty) :
    Leaves {} (ctx.literalStruct? info name names hint) := by
  refine .ite ((unnamedStruct?_leaves info names hint).after fun found => ?_) ?_
  · cases found with
    | some found =>
      refine .after (.note { literalTargets := [(info.id, found.1)] } (fun _ => rfl) ?_) fun _ => .pure _
      constructor <;> simp
    | none => exact .pure _
  · cases ctx.table.decls.struct? name with
    | some d => exact (enterStruct_leaves info d).map _
    | none => exact report_then_leaves _ _ _ _

theorem requireFields_leaves (span : Span) (owner : String) (fields : List Field) (given : List String) :
    Leaves {} (ctx.requireFields span owner fields given) := .forM fun _ => report_leaves _ _ _

theorem requireFieldPatterns_leaves (span : Span) (owner : String) (fields : List Field) (given : List String) :
    Leaves {} (ctx.requireFieldPatterns span owner fields given) := .forM fun _ => add_leaves _

theorem hintedVariant?_leaves (enum variant : String) (hint : Option Ty) :
    Leaves {} (ctx.hintedVariant? enum variant hint) := by
  refine .ite (.pure _) ((shallow?_leaves hint).after fun known => ?_)
  split
  · exact .pure _
  · exact .pure _

theorem variant?_leaves (span : Span) (enum variant : String) (hint : Option Ty) :
    Leaves {} (ctx.variant? span enum variant hint) := by
  refine (hintedVariant?_leaves enum variant hint).after fun found => ?_
  cases found with
  | some found => exact .pure _
  | none =>
    dsimp only
    split
    · exact .pure _
    · exact report_then_leaves _ _ _ _
    · exact report_then_leaves _ _ _ _

theorem enterVariant_leaves (info : NodeInfo) (found : VariantRef) (hint : Option Ty) :
    Leaves (formed info.id) (enterVariant info found hint) := by
  refine (freshAll_leaves _).after fun args => (shallow?_leaves hint).after fun known => ?_
  have rest : Leaves (formed info.id) (do
      note fun a => { a with variants := a.variants.insert info.id found }
      instantiated info.id args
      return args) :=
    (variant_leaves _ _).before fun _ => (instantiated_leaves _ _).after fun _ => .pure _
  dsimp only
  split
  next name hinted =>
    refine .ite ?_ rest
    refine .engine (fun e => e.unify (.enum name hinted) (.enum name args)) (unlessInfinite _) fun answer => ?_
    rcases answer with _ | _ | _
    · exact rest
    · exact rest
    · exact fun _ _ _ ran => by cases ran
  · exact rest

theorem elementTypes_leaves (info : NodeInfo) (elements : List Pattern) (t : Ty) :
    Leaves {} (ctx.elementTypes info elements t) := by
  refine (shallow_leaves t).after fun known => ?_
  have unknown : Leaves {} (do
      let types ← freshAll elements
      let _ ← ctx.unify info.span t (.product types)
      return types) :=
    (freshAll_leaves _).after fun _ => (unify_leaves _ _ _).after fun _ => .pure _
  dsimp only
  split
  · exact .ite (.pure _) (report_then_leaves _ _ _ _)
  · exact .ite (.pure _) (report_then_leaves _ _ _ _)
  · exact unknown
  · exact unknown
  · exact report_then_leaves _ _ _ _

theorem compareBindings_leaves (span : Span) (first : List String) (scope : List (String × Ty)) :
    Leaves {} (ctx.compareBindings span first scope) := by
  refine .after (.forM fun name => .ite (report_leaves _ _ _) ?_) fun _ => .forM fun _ => report_leaves _ _ _
  split
  · refine (lookup?_leaves name).after fun known => ?_
    split
    · exact (unify_leaves _ _ _).after fun _ => .pure _
    · exact .pure _
  · exact .pure _

end Context

/-! ### One node -/

/-- An expression is the first of its nodes. -/
theorem ids_nodes (e : Expr) : TreeNode.ids e.nodes = e.id :: (TreeNode.ids e.nodes).tail := by
  cases e with
  | block body =>
    cases body
    rfl
  | _ => rfl

namespace Leaves

/-- What is left by two parts, in the other order. -/
theorem turn {g : Footprint} (leaves : Leaves (f ++ g) check) : Leaves (g ++ f) check := by
  refine leaves.mono ⟨fun id => ?_, fun id => ?_, fun id => ?_, fun b => ?_⟩
  · simp only [types_append, List.count_append, Nat.add_comm, Nat.le_refl]
  · simp only [forms_append, List.count_append, Nat.add_comm, Nat.le_refl]
  · simp only [coercions_append, List.count_append, Nat.add_comm, Nat.le_refl]
  · simp only [bindings_append, List.mem_append, or_comm]

/-- The first two of three parts, in the other order. -/
theorem swap {g h : Footprint} (leaves : Leaves (f ++ (g ++ h)) check) : Leaves (g ++ (f ++ h)) check := by
  refine leaves.mono ⟨fun id => ?_, fun id => ?_, fun id => ?_, fun b => ?_⟩
  · simp only [types_append, List.count_append, Nat.add_left_comm, Nat.le_refl]
  · simp only [forms_append, List.count_append, Nat.add_left_comm, Nat.le_refl]
  · simp only [coercions_append, List.count_append, Nat.add_left_comm, Nat.le_refl]
  · simp only [bindings_append, List.mem_append, or_left_comm]

/-- Room that stays empty, as no names are declared in it. -/
theorem beside {g : Footprint} (none : f.bindings = []) (leaves : Leaves g check) : Leaves (f ++ g) check :=
  leaves.mono (by constructor <;> simp [none])

theorem node {e : Expr} {below : List TreeNode} {check : Check Ty} (nodes : e.nodes = .expr e :: below)
    (inner : Leaves (formed e.id ++ whole below) check) : Leaves (ofExpr e) (recorded e.id check) := by
  refine (inner.bind fun t => (record_leaves e.id t).before fun _ => .pure t).mono ?_
  constructor <;> simp [ofExpr, whole, declaring, nodes, formed, typed, List.count_cons, Nat.add_comm]

/-- A node that has no form of its own. -/
theorem plain {e : Expr} {below : List TreeNode} {check : Check Ty} (nodes : e.nodes = .expr e :: below)
    (inner : Leaves (whole below) check) : Leaves (ofExpr e) (recorded e.id check) := by
  refine .node nodes (inner.mono ?_)
  constructor <;> simp [whole, declaring, formed, List.count_cons]

/-- A node with nothing below it. -/
theorem leaf {e : Expr} {check : Check Ty} (nodes : e.nodes = [.expr e]) (inner : Leaves {} check) :
    Leaves (ofExpr e) (recorded e.id check) := .plain nodes (inner.spare rfl)

/-- An expression whose value is used as it is. -/
theorem kept {e : Expr} (inner : Leaves (ofExpr e) check) : Leaves (whole e.nodes) check := by
  refine inner.mono ?_
  constructor <;> simp [ofExpr, whole, declaring]
  exact fun id => (List.tail_sublist _).count_le id

/-- An expression whose value is converted by what follows. -/
theorem converting {β : Type} {e : Expr} {next : α → Check β} (inner : Leaves (ofExpr e) check)
    (rest : ∀ a, Leaves (coerced e.id ++ f) (next a)) : Leaves (whole e.nodes ++ f) (check >>= next) := by
  have own : ∀ id, (TreeNode.ids e.nodes).count id = [e.id].count id + (TreeNode.ids e.nodes).tail.count id := by
    intro id
    conv_lhs => rw [ids_nodes e, List.count_cons]
    rw [List.count_singleton, Nat.add_comm]
  refine (inner.bind rest).mono ⟨?_, ?_, fun id => ?_, ?_⟩
  · simp [ofExpr, whole, declaring, coerced]
  · simp [ofExpr, whole, declaring, coerced]
  · simp only [ofExpr, coercions_append, whole, declaring, coerced, List.count_append, own]
    omega
  · simp [ofExpr, whole, declaring, coerced]

/-- An expression whose value is converted behind it. -/
theorem converted {β : Type} {e : Expr} {next : α → Check β} (inner : Leaves (ofExpr e) check)
    (rest : ∀ a, Leaves (coerced e.id) (next a)) : Leaves (whole e.nodes) (check >>= next) := by
  refine (inner.converting (f := {}) fun a => (rest a).mono ?_).mono ?_
  · constructor <;> simp
  · constructor <;> simp

theorem pattern {p : Pattern} {t : Ty} {below : List TreeNode} {check : Check Unit}
    (nodes : p.nodes = .pattern p :: below)
    (inner : Leaves (formed p.id ++ declaring below p.bindings) check) :
    Leaves (ofPattern p) (record p.id t >>= fun _ => check) := by
  refine ((record_leaves p.id t).bind fun _ => inner).mono ?_
  constructor <;> simp [ofPattern, declaring, nodes, formed, typed, List.count_cons, Nat.add_comm]

/-- A pattern that has no form of its own. -/
theorem simple {p : Pattern} {t : Ty} {below : List TreeNode} {check : Check Unit}
    (nodes : p.nodes = .pattern p :: below)
    (inner : Leaves (declaring below p.bindings) check) :
    Leaves (ofPattern p) (record p.id t >>= fun _ => check) := by
  refine .pattern nodes (inner.mono ?_)
  constructor <;> simp [declaring, formed, List.count_cons]

/-- A pattern that binds nothing and has nothing below it. -/
theorem bare {p : Pattern} {t : Ty} {check : Check Unit} (nodes : p.nodes = [.pattern p]) (none : p.bindings = [])
    (inner : Leaves {} check) : Leaves (ofPattern p) (record p.id t >>= fun _ => check) :=
  .simple nodes (inner.spare none)

end Leaves

theorem binding_leaves (b : Binding) (t : Ty) : Leaves (ofPattern (.binding b)) (do
    record b.info.id t
    declare b.name t) := by
  intro s _ s' ran
  cases ran
  refine ⟨{ types := [(b.info.id, t)] }, [(b.name, t)], rfl, rfl, ?_⟩
  have own : (Pattern.binding b).id = b.info.id := rfl
  constructor <;> simp [ofPattern, declaring, Pattern.nodes, Pattern.bindings, own]

theorem enterCall_whole (info : NodeInfo) (callee : Expr) (signature : Signature) :
    Leaves (whole callee.nodes) (Context.enterCall info callee signature) := by
  refine (Context.enterCall_leaves info callee signature).mono ?_
  constructor <;> simp [whole, declaring, typed]
  intro id
  rw [ids_nodes callee]
  simp [List.count_cons]

/-- A block notes its type. -/
theorem block_leaves {b : Block} {check : Check Ty} (inner : Leaves (inside b) check) :
    Leaves (ofBlock b) (recorded b.id check) :=
  inner.bind fun t => (record_leaves b.id t).before fun _ => .pure t

theorem ofBlock_ofExpr (b : Block) : (ofBlock b).Fits (ofExpr (.block b)) := by
  cases b with
  | mk info stmts tail =>
    have own : (Expr.block (.mk info stmts tail)).id = (Block.mk info stmts tail).id := rfl
    have less (id : Nat) : (TreeNode.ids (Expr.nodesOption tail)).tail.count id
        ≤ (TreeNode.ids (Expr.nodesOption tail)).count id := (List.tail_sublist _).count_le id
    constructor <;> simp [ofBlock, inside, ofExpr, whole, declaring, Expr.nodes, Block.nodes, typed, own,
      List.count_cons, Block.stmts, Block.tail]
    all_goals intro id
    · omega
    · have := less id
      omega

theorem ofBlock_whole (b : Block) : (ofBlock b).Fits (whole b.nodes) := by
  cases b with
  | mk info stmts tail =>
    have own : (Expr.block (.mk info stmts tail)).id = (Block.mk info stmts tail).id := rfl
    have less (id : Nat) : (TreeNode.ids (Expr.nodesOption tail)).tail.count id
        ≤ (TreeNode.ids (Expr.nodesOption tail)).count id := (List.tail_sublist _).count_le id
    constructor <;> simp [ofBlock, inside, whole, declaring, Block.nodes, typed, own, List.count_cons, Block.stmts,
      Block.tail]
    all_goals intro id
    · omega
    · have := less id
      omega

/-! ### Whole trees -/

theorem checkArms_cons (span : Span) (pattern : Pattern) (guard : Option Expr) (body : Expr) (rest : List MatchArm)
    (t result hint : Ty) : checkArms ctx (.mk span pattern guard body :: rest) t result hint = (do
      push
      let _ ← (do
        checkPattern ctx pattern t
        checkCondition ctx guard
        ctx.unify body.span result (← infer ctx body (some hint)))
      let _ ← pop
      checkArms ctx rest t result hint) := by
  rw [checkArms]
  simp only [bind_assoc]

mutual

theorem infer_leaves : ∀ (e : Expr) (hint : Option Ty), Leaves (ofExpr e) (infer ctx e hint)
  | .int info value suffix, hint => by
    rw [infer]
    refine .leaf (e := .int info value suffix) (by rw [Expr.nodes]) ((pendLiteral_leaves _ _ _).after fun _ => ?_)
    split
    · exact .pure _
    · exact fresh_leaves _
  | .float info value suffix, hint => by
    rw [infer]
    refine .leaf (e := .float info value suffix) (by rw [Expr.nodes]) ?_
    split
    · exact .pure _
    · exact fresh_leaves _
  | .string info value, hint => by
    rw [infer]
    exact .leaf (e := .string info value) (by rw [Expr.nodes]) (.pure _)
  | .template info parts, hint => by
    rw [infer]
    exact .plain (e := .template info parts) (by rw [Expr.nodes])
      ((inferParts_leaves parts).before fun _ => .pure _)
  | .bool info value, hint => by
    rw [infer]
    exact .leaf (e := .bool info value) (by rw [Expr.nodes]) (.pure _)
  | .ident info name, hint => by
    rw [infer]
    exact .leaf (e := .ident info name) (by rw [Expr.nodes]) (Context.nameType_leaves info name)
  | .binary info op left right, hint => by
    rw [infer]
    refine .plain (e := .binary info op left right) (by rw [Expr.nodes]) ?_
    rw [whole_append]
    dsimp only
    split
    · exact (infer_leaves left hint).kept.bind fun t => (infer_leaves right _).kept.before fun _ =>
        (unify_leaves _ _ _).after fun _ => .ite ((require_leaves _ _ _ _).after fun _ => .pure _) (.pure _)
    · exact (infer_leaves left hint).kept.bind fun t => (infer_leaves right _).kept.before fun _ =>
        (unify_leaves _ _ _).after fun _ => .ite ((require_leaves _ _ _ _).after fun _ => .pure _) (.pure _)
    · exact (infer_leaves left hint).kept.bind fun t => (fresh_leaves _).after fun _ =>
        (infer_leaves right _).kept.before fun _ => (unify_leaves _ _ _).after fun _ =>
          (require_leaves _ _ _ _).after fun _ => .pure _
    · exact (infer_leaves left _).kept.bind fun t => (infer_leaves right _).kept.before fun _ =>
        (unify_leaves _ _ _).after fun _ => .ite ((require_leaves _ _ _ _).after fun _ => .pure _) (.pure _)
    · exact (infer_leaves left _).kept.bind fun t => (infer_leaves right _).kept.before fun _ =>
        (unify_leaves _ _ _).after fun _ => .pure _
    · exact (infer_leaves left _).kept.bind fun _ => (unify_leaves _ _ _).after fun _ =>
        (infer_leaves right _).kept.before fun _ => (unify_leaves _ _ _).after fun _ => .pure _
  | .unary info op operand, hint => by
    rw [infer]
    refine .plain (e := .unary info op operand) (by rw [Expr.nodes])
      ((infer_leaves operand hint).kept.before fun t => ?_)
    dsimp only
    split
    · split
      · exact (negateLiteral_leaves _ _ _).after fun _ => (require_leaves _ _ _ _).after fun _ => .pure _
      · exact (require_leaves _ _ _ _).after fun _ => .pure _
    · exact (require_leaves _ _ _ _).after fun _ => .pure _
    · exact (require_leaves _ _ _ _).after fun _ => .pure _
  | .call info callee args, hint => by
    rw [infer]
    refine .plain (e := .call info callee args) (by rw [Expr.nodes]) ?_
    rw [whole_append]
    refine (Context.namedFunction?_leaves callee).after fun named => ?_
    cases named with
    | some signature =>
      exact (enterCall_whole info callee signature).bind fun _ => (Context.arity_leaves _ _ _ _).after fun _ =>
        (checkArgs_leaves args _).before fun _ => .pure _
    | none =>
      refine (infer_leaves callee none).kept.bind fun _ => (shallow_leaves _).after fun known => ?_
      split
      · exact (Context.arity_leaves _ _ _ _).after fun _ => (checkArgs_leaves args _).before fun _ => .pure _
      · refine .ite ((report_leaves _ _ _).after fun _ => ?_) ?_
        all_goals exact (checkArgs_leaves args _).before fun _ => .pure _
  | .methodCall info receiver name args, hint => by
    rw [infer]
    refine .node (e := .methodCall info receiver name args) (by rw [Expr.nodes]) ?_
    rw [whole_append]
    refine .swap ((infer_leaves receiver none).converting fun outer => (deref_leaves _).after fun stripped =>
      (Context.method?_leaves _ _ _ _).after fun found => .swap ?_)
    cases found with
    | some signature =>
      rw [← append_assoc]
      exact (Context.enterMethod_leaves _ _ _ _ _ _ _).bind fun _ => (Context.arity_leaves _ _ _ _).after
        fun _ => (checkArgs_leaves args _).before fun _ => .pure _
    | none => exact .beside rfl (.beside rfl ((checkArgs_leaves args none).before fun _ => .pure _))
  | .field info object name, hint => by
    rw [infer]
    refine .plain (e := .field info object name) (by rw [Expr.nodes])
      ((infer_leaves object none).converted fun outer => (deref_leaves _).after fun stripped => ?_)
    exact append_empty (f := coerced object.id) ▸
      .optional (coerce_leaves _ _) rfl (Context.fieldType_leaves _ _ _ _)
  | .index info object index, hint => by
    rw [infer]
    refine .plain (e := .index info object index) (by rw [Expr.nodes]) ?_
    rw [whole_append]
    exact (infer_leaves object none).converting fun outer => (deref_leaves _).after fun stripped =>
      .optional (coerce_leaves _ _) rfl ((infer_leaves index none).kept.before fun _ =>
        (fresh_leaves _).after fun _ => (unify_leaves _ _ _).after fun _ => Context.elementType_leaves _ _ _)
  | .ref info mutable operand, hint => by
    rw [infer]
    exact .plain (e := .ref info mutable operand) (by rw [Expr.nodes]) ((shallow?_leaves hint).after fun _ =>
      (infer_leaves operand _).kept.before fun _ => .pure _)
  | .deref info operand, hint => by
    rw [infer]
    exact .plain (e := .deref info operand) (by rw [Expr.nodes])
      ((infer_leaves operand none).kept.before fun _ => Context.targetType_leaves _ _)
  | .struct info name fields, hint => by
    rw [infer]
    refine .plain (e := .struct info name fields) (by rw [Expr.nodes])
      ((Context.literalStruct?_leaves _ _ _ _).after fun found => ?_)
    rcases found with _ | ⟨struct, args⟩
    · exact (inferFields_leaves fields).before fun _ => .pure _
    · exact (struct_leaves _ _).after fun _ => (checkInits_leaves struct _ [] fields).before fun _ =>
        (Context.requireFields_leaves _ _ _ _).after fun _ => .pure _
  | .variant info enum variant args fields, hint => by
    rw [infer]
    refine .node (e := .variant info enum variant args fields) (by rw [Expr.nodes]) ?_
    rw [whole_append]
    refine (Context.variant?_leaves _ _ _ _).after fun found => ?_
    rcases found with _ | found
    · exact .beside rfl
        ((checkArgs_leaves args none).bind fun _ => (inferFields_leaves fields).before fun _ => .pure _)
    · refine (Context.enterVariant_leaves info found hint).bind fun typeArgs => ?_
      have named : Leaves (whole (Expr.nodesAll args) ++ whole (FieldInit.nodesAll fields)) (do
          let slots := Decls.slots found.enum typeArgs found.variant
          let declared := Context.slotFields found.variant slots
          checkInits ctx found.text declared [] fields
          ctx.requireFields info.span found.text declared (fields.map FieldInit.name)
          return Ty.enum found.enum.name typeArgs) :=
        .beside rfl ((checkInits_leaves _ _ _ fields).before fun _ =>
          (Context.requireFields_leaves _ _ _ _).after fun _ => .pure _)
      have positional : Leaves (whole (Expr.nodesAll args) ++ whole (FieldInit.nodesAll fields)) (do
          let slots := Decls.slots found.enum typeArgs found.variant
          inferFields ctx fields
          checkArgs ctx args (← ctx.arity info.span found.text args.length slots)
          return Ty.enum found.enum.name typeArgs) :=
        .turn ((inferFields_leaves fields).bind fun _ => (Context.arity_leaves _ _ _ _).after fun _ =>
          (checkArgs_leaves args _).before fun _ => .pure _)
      exact .ite (.ite ((report_leaves _ _ _).after fun _ => named) named)
        (.ite ((report_leaves _ _ _).after fun _ => positional) positional)
  | .tuple info elements, hint => by
    rw [infer]
    exact .plain (e := .tuple info elements) (by rw [Expr.nodes])
      ((shallow?_leaves hint).after fun _ => (inferEach_leaves elements _).before fun _ => .pure _)
  | .array info elements, hint => by
    rw [infer]
    refine .plain (e := .array info elements) (by rw [Expr.nodes]) ((shallow?_leaves hint).after fun known => ?_)
    dsimp only
    split
    · exact (inferItems_leaves elements _).before fun _ => .pure _
    · exact (fresh_leaves _).after fun _ => (inferItems_leaves elements _).before fun _ => .pure _
  | .cast info operand written, hint => by
    rw [infer]
    exact .plain (e := .cast info operand written) (by rw [Expr.nodes]) ((resolve_leaves written).after fun _ =>
      (infer_leaves operand none).kept.before fun _ =>
        .after (.modify (fun _ => rfl) fun _ => rfl) fun _ => .pure _)
  | .assign info target value, hint => by
    rw [infer]
    refine .plain (e := .assign info target value) (by rw [Expr.nodes]) ?_
    rw [whole_append]
    have stored : Leaves (whole target.nodes ++ whole value.nodes) (do
        let t ← infer ctx target none
        ctx.assign value t (← infer ctx value (some t))
        return Ty.unit) :=
      (infer_leaves target none).kept.bind fun _ =>
        (infer_leaves value _).converted fun _ => (assign_leaves _ _ _).before fun _ => .pure _
    exact .ite ((report_leaves _ _ _).after fun _ => stored) stored
  | .select info scrutinee arms, hint => by
    rw [infer]
    refine .plain (e := .select info scrutinee arms) (by rw [Expr.nodes]) ?_
    rw [whole_append]
    exact (infer_leaves scrutinee none).kept.bind fun _ => .ite (.spare (.pure _) rfl)
      ((fresh_leaves _).after fun _ => (checkArms_leaves arms _ _ _).before fun _ => .pure _)
  | .branch info condition consequent none, hint => by
    rw [infer]
    refine .plain (e := .branch info condition consequent none) (by rw [Expr.nodes]) ?_
    rw [Expr.nodesOption, List.append_nil, whole_append]
    exact (infer_leaves condition _).kept.bind fun _ => (unify_leaves _ _ _).after fun _ =>
      (infer_leaves consequent _).kept.before fun _ => (unify_leaves _ _ _).after fun _ => .pure _
  | .branch info condition consequent (some alternative), hint => by
    rw [infer]
    refine .plain (e := .branch info condition consequent (some alternative)) (by rw [Expr.nodes]) ?_
    rw [Expr.nodesOption, whole_append, whole_append, append_assoc]
    exact (infer_leaves condition _).kept.bind fun _ => (unify_leaves _ _ _).after fun _ =>
      (infer_leaves consequent _).kept.bind fun _ => (infer_leaves alternative _).kept.before fun _ =>
        (unify_leaves _ _ _).after fun _ => .pure _
  | .block body, hint => by
    rw [infer]
    exact (block_leaves (inferBlock_leaves body hint)).mono (ofBlock_ofExpr body)

theorem checkArgs_leaves : ∀ (args : List Expr) (wants : Option (List Ty)),
    Leaves (whole (Expr.nodesAll args)) (checkArgs ctx args wants)
  | [], wants => by
    rw [checkArgs, Expr.nodesAll]
    exact .pure _
  | a :: rest, some (want :: wants) => by
    rw [checkArgs, Expr.nodesAll, whole_append]
    exact (shallow_leaves want).after fun _ => (infer_leaves a _).converting fun _ =>
      (Context.pass_leaves _ _ _ _).bind fun _ => checkArgs_leaves rest (some wants)
  | a :: rest, some [] => by
    rw [checkArgs, Expr.nodesAll, whole_append]
    exact (infer_leaves a none).kept.bind fun _ => checkArgs_leaves rest none
    · simp
  | a :: rest, none => by
    rw [checkArgs, Expr.nodesAll, whole_append]
    exact (infer_leaves a none).kept.bind fun _ => checkArgs_leaves rest none
    · simp

theorem inferEach_leaves : ∀ (elements : List Expr) (hints : List Ty),
    Leaves (whole (Expr.nodesAll elements)) (inferEach ctx elements hints)
  | [], hints => by
    rw [inferEach, Expr.nodesAll]
    exact .pure _
  | e :: rest, hints => by
    rw [inferEach, Expr.nodesAll, whole_append]
    exact (infer_leaves e _).kept.bind fun _ => (inferEach_leaves rest _).before fun _ => .pure _

theorem inferItems_leaves : ∀ (elements : List Expr) (element : Ty),
    Leaves (whole (Expr.nodesAll elements)) (inferItems ctx elements element)
  | [], element => by
    rw [inferItems, Expr.nodesAll]
    exact .pure _
  | e :: rest, element => by
    rw [inferItems, Expr.nodesAll, whole_append]
    exact (infer_leaves e _).kept.bind fun _ => (unify_leaves _ _ _).after fun _ => inferItems_leaves rest element

theorem inferParts_leaves : ∀ parts : List TemplatePart,
    Leaves (whole (TemplatePart.nodesAll parts)) (inferParts ctx parts)
  | [] => by
    rw [inferParts, TemplatePart.nodesAll]
    exact .pure _
  | .text _ :: rest => by
    rw [inferParts, TemplatePart.nodesAll]
    exact inferParts_leaves rest
  | .value e :: rest => by
    rw [inferParts, TemplatePart.nodesAll, whole_append]
    exact (infer_leaves e none).kept.bind fun _ => inferParts_leaves rest

theorem inferFields_leaves : ∀ fields : List FieldInit,
    Leaves (whole (FieldInit.nodesAll fields)) (inferFields ctx fields)
  | [] => by
    rw [inferFields, FieldInit.nodesAll]
    exact .pure _
  | .mk _ _ value :: rest => by
    rw [inferFields, FieldInit.nodesAll, whole_append]
    exact (infer_leaves value none).kept.bind fun _ => inferFields_leaves rest

theorem checkInits_leaves (owner : String) (declared : List Field) : ∀ (seen : List String) (fields : List FieldInit),
    Leaves (whole (FieldInit.nodesAll fields)) (checkInits ctx owner declared seen fields)
  | seen, [] => by
    rw [checkInits, FieldInit.nodesAll]
    exact .pure _
  | seen, .mk name _ value :: rest => by
    rw [checkInits, FieldInit.nodesAll, whole_append]
    have others := checkInits_leaves owner declared (name :: seen) rest
    cases fieldNamed? declared name with
    | none => exact (report_leaves _ _ _).after fun _ => (infer_leaves value none).kept.bind fun _ => others
    | some t =>
      have stored : Leaves (whole value.nodes ++ whole (FieldInit.nodesAll rest)) (do
          ctx.assign value t (← infer ctx value (some t))
          checkInits ctx owner declared (name :: seen) rest) :=
        (infer_leaves value _).converting fun _ => (assign_leaves _ _ _).bind fun _ => others
      exact .ite ((report_leaves _ _ _).after fun _ => stored) stored

theorem checkArms_leaves : ∀ (arms : List MatchArm) (t result hint : Ty),
    Leaves (whole (MatchArm.nodesAll arms)) (checkArms ctx arms t result hint)
  | [], t, result, hint => by
    rw [checkArms, MatchArm.nodesAll]
    exact .pure _
  | .mk span pattern guard body :: rest, t, result, hint => by
    rw [checkArms_cons, MatchArm.nodesAll, whole_append, whole_append, whole_append,
      append_assoc (whole pattern.nodes)]
    exact .enclosed ((checkPattern_leaves pattern t).bind fun _ => (checkCondition_leaves guard).bind fun _ =>
      (infer_leaves body _).kept.before fun _ => unify_leaves _ _ _) fun _ _ => checkArms_leaves rest t result hint

theorem checkCondition_leaves : ∀ condition : Option Expr,
    Leaves (whole (Expr.nodesOption condition)) (checkCondition ctx condition)
  | none => by
    rw [checkCondition, Expr.nodesOption]
    exact .pure _
  | some condition => by
    rw [checkCondition, Expr.nodesOption]
    exact (infer_leaves condition _).kept.before fun _ => (unify_leaves _ _ _).after fun _ => .pure _

theorem inferBlock_leaves : ∀ (body : Block) (hint : Option Ty), Leaves (inside body) (inferBlock ctx body hint)
  | .mk info stmts (some value), hint => by
    rw [inferBlock]
    refine .mono (.inScope ((checkStmts_leaves stmts).bind fun _ => infer_leaves value hint)) ?_
    constructor <;> simp [inside, ofStmts, ofExpr, whole, declaring, Block.stmts, Block.tail, Expr.nodesOption]
  | .mk info stmts none, hint => by
    rw [inferBlock]
    refine .mono (.inScope ((checkStmts_leaves stmts).before fun _ => .ite ((fresh_leaves _).after fun _ =>
      .after (.modify (fun _ => rfl) fun _ => rfl) fun _ => .pure _) (.pure _))) ?_
    constructor <;> simp [inside, ofStmts, whole, declaring, Block.stmts, Block.tail, Expr.nodesOption]

theorem checkStmts_leaves : ∀ stmts : List Stmt, Leaves (ofStmts stmts) (checkStmts ctx stmts)
  | [] => by
    rw [checkStmts]
    exact .pure _
  | s :: rest => by
    rw [checkStmts, ofStmts_cons]
    exact (checkStmt_leaves s).bind fun _ => checkStmts_leaves rest

theorem checkStmt_leaves : ∀ s : Stmt, Leaves (ofStmt s) (checkStmt ctx s)
  | .bind span pattern type init => by
    have bound (declared : Option Ty) : Leaves (ofPattern pattern ++ whole (Expr.nodesOption init)) (do
        let found ← inferInit ctx init declared
        let t ← match declared.or found with
          | some t => pure t
          | none => fresh .general
        checkPattern ctx pattern t) := by
      refine .turn ((inferInit_leaves init declared).bind fun found => ?_)
      cases declared.or found with
      | some t => exact checkPattern_leaves pattern t
      | none => exact (fresh_leaves _).after fun t => checkPattern_leaves pattern t
    have room : (ofPattern pattern ++ whole (Expr.nodesOption init)).Fits
        (ofStmt (.bind span pattern type init)) := by
      constructor <;> simp [ofPattern, ofStmt, whole, declaring, Stmt.nodes, boundBy]
    refine .mono ?_ room
    cases type with
    | some written =>
      rw [checkStmt]
      exact .after ((resolve_leaves written).map _) bound
    | none =>
      rw [checkStmt]
      exact bound none
  | .expr span value => by
    rw [checkStmt]
    exact (infer_leaves value none).kept.before fun _ => .pure _
  | .ret span none => by
    rw [checkStmt]
    exact (unify_leaves _ _ _).after fun _ => .pure _
  | .ret span (some value) => by
    rw [checkStmt]
    exact (infer_leaves value _).converted fun _ => assign_leaves _ _ _
  | .loop span condition body => by
    rw [checkStmt]
    show Leaves (whole (condition.nodes ++ body.nodes)) _
    rw [whole_append]
    exact (infer_leaves condition _).kept.bind fun _ => (unify_leaves _ _ _).after fun _ =>
      ((block_leaves (inferBlock_leaves body none)).mono (ofBlock_whole body)).before fun _ => .pure _
  | .counted span init condition update body => by
    rw [checkStmt]
    refine .mono (.inScope ((checkStmtOption_leaves init).bind fun _ =>
      (checkCondition_leaves condition).bind fun _ =>
      ((block_leaves (inferBlock_leaves body none)).mono (ofBlock_whole body)).bind fun _ =>
        inferOption_leaves update)) ?_
    constructor <;> simp [ofStmt, whole, declaring, Stmt.nodes, boundBy]

theorem checkStmtOption_leaves : ∀ s : Option Stmt,
    Leaves (declaring (Stmt.nodesOption s) (s.toList.flatMap boundBy)) (checkStmtOption ctx s)
  | none => by
    rw [checkStmtOption, Stmt.nodesOption]
    exact .pure _
  | some s => by
    rw [checkStmtOption, Stmt.nodesOption]
    simpa [ofStmt] using checkStmt_leaves s

theorem inferOption_leaves : ∀ e : Option Expr, Leaves (whole (Expr.nodesOption e)) (inferOption ctx e)
  | none => by
    rw [inferOption, Expr.nodesOption]
    exact .pure _
  | some e => by
    rw [inferOption, Expr.nodesOption]
    exact (infer_leaves e none).kept.before fun _ => .pure _

theorem inferInit_leaves : ∀ (init : Option Expr) (declared : Option Ty),
    Leaves (whole (Expr.nodesOption init)) (inferInit ctx init declared)
  | none, declared => by
    rw [inferInit, Expr.nodesOption]
    exact .pure _
  | some value, some t => by
    rw [inferInit, Expr.nodesOption]
    exact (infer_leaves value _).converted fun _ => (assign_leaves _ _ _).before fun _ => .pure _
  | some value, none => by
    rw [inferInit, Expr.nodesOption]
    exact (infer_leaves value none).kept.before fun _ => .pure _

theorem checkPattern_leaves : ∀ (p : Pattern) (t : Ty), Leaves (ofPattern p) (checkPattern ctx p t)
  | .wildcard info, t => by
    rw [checkPattern]
    refine (record_leaves info.id t).mono ?_
    have own : (Pattern.wildcard info).id = info.id := rfl
    constructor <;> simp [ofPattern, declaring, Pattern.nodes, Pattern.bindings, typed, own]
  | .binding b, t => by
    rw [checkPattern]
    exact binding_leaves b t
  | .literal info value, t => by
    cases value with
    | int n =>
      rw [checkPattern]
      exact .bare (p := .literal info (.int n)) (by rw [Pattern.nodes]) rfl ((fresh_leaves _).after fun _ =>
        (unify_leaves _ _ _).after fun _ => pendLiteral_leaves _ _ _)
    | float text =>
      rw [checkPattern]
      exact .bare (p := .literal info (.float text)) (by rw [Pattern.nodes]) rfl ((fresh_leaves _).after fun _ =>
        (unify_leaves _ _ _).after fun _ => .pure _)
    | string text =>
      rw [checkPattern]
      exact .bare (p := .literal info (.string text)) (by rw [Pattern.nodes]) rfl
        ((unify_leaves _ _ _).after fun _ => .pure _)
    | bool value =>
      rw [checkPattern]
      exact .bare (p := .literal info (.bool value)) (by rw [Pattern.nodes]) rfl
        ((unify_leaves _ _ _).after fun _ => .pure _)
  | .range info low high inclusive, t => by
    rw [checkPattern]
    exact .bare (p := .range info low high inclusive) (by rw [Pattern.nodes]) rfl ((fresh_leaves _).after fun _ =>
      (unify_leaves _ _ _).after fun _ => (pendLiteral_leaves _ _ _).after fun _ => pendLiteral_leaves _ _ _)
  | .tuple info elements, t => by
    rw [checkPattern]
    refine .simple (p := .tuple info elements) (by rw [Pattern.nodes])
      ((Context.elementTypes_leaves _ _ _).after fun _ => ?_)
    exact checkPatterns_leaves elements _
  | .list info front isOpen none, t => by
    rw [checkPattern]
    refine .simple (p := .list info front isOpen none) (by rw [Pattern.nodes]) ?_
    rw [Pattern.bindings, declaring_append]
    exact (fresh_leaves _).after fun _ => (unify_leaves _ _ _).after fun _ =>
      (checkEach_leaves front _).bind fun _ => .pure _
  | .list info front isOpen (some b), t => by
    rw [checkPattern]
    refine .simple (p := .list info front isOpen (some b)) (by rw [Pattern.nodes]) ?_
    rw [Pattern.bindings, declaring_append]
    exact (fresh_leaves _).after fun _ => (unify_leaves _ _ _).after fun _ =>
      (checkEach_leaves front _).bind fun _ => binding_leaves b _
  | .record info name fields rest, t => by
    rw [checkPattern]
    refine .simple (p := .record info name fields rest) (by rw [Pattern.nodes]) ?_
    cases ctx.table.decls.struct? name with
    | none => exact (report_leaves _ _ _).after fun _ => checkFieldPatterns_leaves none [] fields
    | some d =>
      exact (freshAll_leaves _).after fun _ => (unify_leaves _ _ _).after fun _ =>
        (struct_leaves _ _).after fun _ =>
        (checkFieldPatterns_leaves _ [] fields).before fun _ =>
          .ite (Context.requireFieldPatterns_leaves _ _ _ _) (.pure _)
  | .variant info enum variant args fields rest, t => by
    rw [checkPattern]
    refine .pattern (p := .variant info enum variant args fields rest) (by rw [Pattern.nodes]) ?_
    rw [Pattern.bindings, declaring_append]
    refine (Context.variant?_leaves _ _ _ _).after fun found => ?_
    rcases found with _ | found
    · exact .beside rfl ((checkEach_leaves args _).bind fun _ => checkFieldPatterns_leaves none [] fields)
    · refine (freshAll_leaves _).after fun typeArgs => (unify_leaves _ _ _).after fun _ =>
        (variant_leaves _ _).bind fun _ => ?_
      have named : Leaves (ofPatterns args ++ ofFields fields) (do
          checkEach ctx args .invalid
          let slots := Decls.slots found.enum typeArgs found.variant
          let declared := Context.slotFields found.variant slots
          checkFieldPatterns ctx (some (found.text, declared)) [] fields
          if !rest then
            ctx.requireFieldPatterns info.span found.text declared (fields.map FieldPattern.name)) :=
        (checkEach_leaves args _).bind fun _ => (checkFieldPatterns_leaves _ [] fields).before fun _ =>
          .ite (Context.requireFieldPatterns_leaves _ _ _ _) (.pure _)
      have positional : Leaves (ofPatterns args ++ ofFields fields) (do
          let slots := Decls.slots found.enum typeArgs found.variant
          checkFieldPatterns ctx none [] fields
          if args.length != slots.length then
            ctx.report .arityMismatch info.span
              s!"variant `{found.text}` has {slots.length} field(s) but the pattern has {args.length}"
          checkPatterns ctx args (if args.length == slots.length then slots else [])) :=
        .turn ((checkFieldPatterns_leaves none [] fields).bind fun _ =>
          .ite ((report_leaves _ _ _).after fun _ => checkPatterns_leaves args _) (checkPatterns_leaves args _))
      exact .ite (.ite ((report_leaves _ _ _).after fun _ => named) named)
        (.ite ((report_leaves _ _ _).after fun _ => positional) positional)
  | .alternatives info choices, t => by
    rw [checkPattern]
    exact .simple (p := .alternatives info choices) (by rw [Pattern.nodes]) (checkChoices_leaves choices t)
  | .guarded info inner condition, t => by
    rw [checkPattern]
    refine .simple (p := .guarded info inner condition) (by rw [Pattern.nodes]) ?_
    rw [Pattern.bindings, ← List.append_nil inner.bindings, declaring_append]
    exact (checkPattern_leaves inner t).bind fun _ =>
      (infer_leaves condition _).kept.before fun _ => (unify_leaves _ _ _).after fun _ => .pure _

theorem checkPatterns_leaves : ∀ (ps : List Pattern) (types : List Ty),
    Leaves (ofPatterns ps) (checkPatterns ctx ps types)
  | [], types => by
    rw [checkPatterns]
    exact .pure _
  | p :: rest, types => by
    rw [checkPatterns, ofPatterns_cons]
    exact (checkPattern_leaves p _).bind fun _ => checkPatterns_leaves rest _

theorem checkEach_leaves : ∀ (ps : List Pattern) (t : Ty), Leaves (ofPatterns ps) (checkEach ctx ps t)
  | [], t => by
    rw [checkEach]
    exact .pure _
  | p :: rest, t => by
    rw [checkEach, ofPatterns_cons]
    exact (checkPattern_leaves p t).bind fun _ => checkEach_leaves rest t

theorem checkFieldPatterns_leaves (owner : Option (String × List Field)) :
    ∀ (seen : List String) (fields : List FieldPattern),
      Leaves (ofFields fields) (checkFieldPatterns ctx owner seen fields)
  | seen, [] => by
    rw [checkFieldPatterns]
    exact .pure _
  | seen, .mk name p :: rest => by
    rw [ofFields_cons]
    have others := checkFieldPatterns_leaves owner (name :: seen) rest
    rcases owner with _ | ⟨ownerName, declared⟩
    · rw [checkFieldPatterns]
      exact (checkPattern_leaves p _).bind fun _ => others
    · rw [checkFieldPatterns]
      dsimp only
      cases fieldNamed? declared name with
      | none => exact (report_leaves _ _ _).after fun _ => (checkPattern_leaves p _).bind fun _ => others
      | some t =>
        have bound := (checkPattern_leaves p t).bind fun _ => others
        exact .ite ((report_leaves _ _ _).after fun _ => bound) bound

theorem checkChoices_leaves : ∀ (choices : List Pattern) (t : Ty),
    Leaves (declaring (Pattern.nodesAll choices) (Pattern.bindingsFirst choices))
      (checkChoices ctx choices t)
  | [], t => by
    rw [checkChoices]
    exact .pure _
  | first :: rest, t => by
    rw [checkChoices, Pattern.nodesAll, Pattern.bindingsFirst, ← List.append_nil first.bindings, declaring_append]
    exact (checkPattern_leaves first t).bind fun _ => checkOthers_leaves _ rest t

theorem checkOthers_leaves (names : List String) : ∀ (choices : List Pattern) (t : Ty),
    Leaves (whole (Pattern.nodesAll choices)) (checkOthers ctx names choices t)
  | [], t => by
    rw [checkOthers, Pattern.nodesAll]
    exact .pure _
  | p :: rest, t => by
    rw [checkOthers, Pattern.nodesAll, whole_append]
    exact .enclosed (checkPattern_leaves p t) fun _ _ => (Context.compareBindings_leaves _ _ _).after fun _ =>
      checkOthers_leaves names rest t

end

end TreeCheck.Typing
