import TreeCheck.Proofs.Typing.FootprintWalk
import TreeCheck.Proofs.Typing.Traces

/-!
The trace of inference goes through the nodes of a tree, each of them once.
-/

namespace TreeCheck.Typing

/-- The nodes that a check goes through, whatever it starts from and whatever is noted later, if it does not report
anything. -/
def Traces {α : Type} (ctx : Context) (nodes : List TreeNode) (check : Check α) : Prop :=
  ∀ s a s' last, check s = .ok (a, s') → s'.Quiet → s'.notes.Extends last → s.Quiet ∧ Trace ctx last nodes s s'

/-- The nodes that a part of the check of an expression goes through, where the type that is noted about the expression
in the end is the one that its answer tells. -/
def TracesAs {α : Type} (ctx : Context) (e : Expr) (type : α → Ty) (nodes : List TreeNode) (check : Check α) : Prop :=
  ∀ s a s' last, check s = .ok (a, s') → s'.Quiet → s'.notes.Extends last → (e.id, type a) ∈ last.types →
    s.Quiet ∧ Trace ctx last nodes s s'

/-- What a check answers, whatever it starts from. -/
def Gives {α : Type} (check : Check α) (R : α → Prop) : Prop := ∀ s a s', check s = .ok (a, s') → R a

namespace Gives

variable {α β : Type} {check : Check α} {R : β → Prop}

theorem pure {b : β} (holds : R b) : Gives (pure b) R := fun _ _ _ ran => by
  cases ran
  exact holds

theorem bind {next : α → Check β} (rest : ∀ a, Gives (next a) R) : Gives (check >>= next) R := fun _ _ _ ran => by
  obtain ⟨a, middle, -, ran⟩ := ran_bind ran
  exact rest a _ _ _ ran

theorem ite {wanted : Prop} [Decidable wanted] {first other : Check β} (yes : Gives first R) (no : Gives other R) :
    Gives (if wanted then first else other) R := by
  split
  · exact yes
  · exact no

end Gives

namespace Traces

variable {α β : Type} {ctx : Context} {nodes more : List TreeNode} {check : Check α}

theorem perm (traces : Traces ctx nodes check) (same : nodes.Perm more) : Traces ctx more check :=
  fun s a s' last ran quiet later => (traces s a s' last ran quiet later).imp_right fun trace => trace.perm same

/-- A check that only adds notes, and none on type arguments. -/
theorem silent (same : ∀ s a s', check s = .ok (a, s') → s'.bag = s.bag ∧ s'.literals = s.literals ∧
    s'.notes.instantiations = s.notes.instantiations ∧ s.notes.Extends s'.notes) : Traces ctx [] check := by
  intro s a s' last ran quiet _
  obtain ⟨bag, literals, instantiations, notes⟩ := same s a s' ran
  rw [State.Quiet, bag] at quiet
  exact ⟨quiet, .still literals instantiations notes⟩

theorem modify {change : State → State} (bag : ∀ s, (change s).bag = s.bag)
    (literals : ∀ s, (change s).literals = s.literals) (notes : ∀ s, (change s).notes = s.notes) :
    Traces ctx [] (modify change) := by
  refine silent fun s _ s' ran => ?_
  cases ran
  exact ⟨bag s, literals s, congrArg Annotations.instantiations (notes s), notes s ▸ .refl _⟩

theorem pure (a : α) : Traces ctx [] (pure a) := by
  refine silent fun s _ s' ran => ?_
  cases ran
  exact ⟨rfl, rfl, rfl, .refl _⟩

theorem throw (failure : Failure) : Traces ctx nodes (throw failure : Check α) :=
  fun _ _ _ _ ran => by cases ran

theorem note {change : Annotations → Annotations} (new : Annotations) (added : ∀ a, change a = new.atop a)
    (none : new.instantiations = []) : Traces ctx [] (note change) := by
  refine silent fun s _ s' ran => ?_
  cases ran
  refine ⟨rfl, rfl, ?_, new, added s.notes⟩
  show (change s.notes).instantiations = _
  rw [added, Annotations.atop, none, List.nil_append]

theorem bindRan {first : Check α} {next : α → Check β} (start : Traces ctx nodes first)
    (rest : ∀ a, (∃ s s', first s = .ok (a, s')) → Traces ctx more (next a)) :
    Traces ctx (nodes ++ more) (first >>= next) := by
  intro s b s' last ran quiet after
  obtain ⟨a, middle, begun, ran⟩ := ran_bind ran
  obtain ⟨silent, later⟩ := rest a ⟨s, middle, begun⟩ middle b s' last ran quiet after
  obtain ⟨early, trace⟩ := start s a middle last begun silent (later.notes.trans after)
  exact ⟨early, trace.append later⟩

theorem bind {first : Check α} {next : α → Check β} (start : Traces ctx nodes first)
    (rest : ∀ a, Traces ctx more (next a)) : Traces ctx (nodes ++ more) (first >>= next) :=
  start.bindRan fun a _ => rest a

/-- A step that goes through no node, and what follows it. -/
theorem after {first : Check α} {next : α → Check β} (start : Traces ctx [] first)
    (rest : ∀ a, Traces ctx nodes (next a)) : Traces ctx nodes (first >>= next) := start.bind rest

/-- A check, and what goes through no node behind it. -/
theorem before {first : Check α} {next : α → Check β} (start : Traces ctx nodes first)
    (rest : ∀ a, Traces ctx [] (next a)) : Traces ctx nodes (first >>= next) :=
  List.append_nil nodes ▸ start.bind rest

theorem map {γ : Type} (traces : Traces ctx nodes check) (change : α → γ) : Traces ctx nodes (change <$> check) := by
  rw [map_eq_pure_bind]
  exact traces.before fun _ => .pure _

theorem ite {wanted : Prop} [Decidable wanted] {first other : Check α} (yes : Traces ctx nodes first)
    (no : Traces ctx nodes other) : Traces ctx nodes (if wanted then first else other) := by
  split
  · exact yes
  · exact no

theorem engine {ε : Type} (operation : Engine → Engine × ε) (next : ε → Check α)
    (rest : ∀ answer, Traces ctx nodes (next answer)) : Traces ctx nodes (do
      let s ← get
      set { s with engine := (operation s.engine).1 }
      next (operation s.engine).2) := by
  intro s a s' last ran quiet later
  obtain ⟨early, trace⟩ :=
    rest (operation s.engine).2 { s with engine := (operation s.engine).1 } a s' last ran quiet later
  exact ⟨early, trace.since rfl rfl (.refl _)⟩

theorem look {next : State → Check α} (rest : ∀ s, Traces ctx nodes (next s)) :
    Traces ctx nodes (do next (← get)) :=
  fun s => rest s s

theorem forM {items : List β} {each : β → Check PUnit} (traces : ∀ item, Traces ctx [] (each item)) :
    Traces ctx [] (items.forM each) := by
  induction items with
  | nil => exact .pure _
  | cons item items ih => exact (traces item).after fun _ => ih

theorem push : Traces ctx [] push := .modify (fun _ => rfl) (fun _ => rfl) fun _ => rfl

theorem pop : Traces ctx [] pop := .silent fun _ _ _ ran => by cases ran; exact ⟨rfl, rfl, rfl, .refl _⟩

theorem inScope (traces : Traces ctx nodes check) : Traces ctx nodes (inScope check) :=
  push.after fun _ => traces.before fun _ => pop.after fun _ => .pure _

/-- A node that leaves the literals alone, before what is below it. -/
theorem node {node : TreeNode} (quiet : node.pends = false) (below : Traces ctx nodes check) :
    Traces ctx (node :: nodes) check := by
  intro s a s' last ran silent later
  have own : Trace ctx last [node] s s := .queues (.plain quiet _) rfl (.refl _)
  exact (below s a s' last ran silent later).imp_right own.append

/-- What does not choose type arguments. -/
theorem as (traces : Traces ctx nodes check) {e : Expr} {type : α → Ty} : TracesAs ctx e type nodes check :=
  fun s a s' last ran quiet later _ => traces s a s' last ran quiet later

end Traces

namespace TracesAs

variable {α β : Type} {ctx : Context} {nodes more : List TreeNode} {e : Expr} {type : β → Ty}

theorem perm {check : Check β} (traces : TracesAs ctx e type nodes check) (same : nodes.Perm more) :
    TracesAs ctx e type more check := fun s a s' last ran quiet later typed =>
  (traces s a s' last ran quiet later typed).imp_right fun trace => trace.perm same

theorem bindRan {first : Check α} {next : α → Check β} (start : Traces ctx nodes first)
    (rest : ∀ a, (∃ s s', first s = .ok (a, s')) → TracesAs ctx e type more (next a)) :
    TracesAs ctx e type (nodes ++ more) (first >>= next) := by
  intro s b s' last ran quiet after typed
  obtain ⟨a, middle, begun, ran⟩ := ran_bind ran
  obtain ⟨silent, later⟩ := rest a ⟨s, middle, begun⟩ middle b s' last ran quiet after typed
  obtain ⟨early, trace⟩ := start s a middle last begun silent (later.notes.trans after)
  exact ⟨early, trace.append later⟩

theorem bind {first : Check α} {next : α → Check β} (start : Traces ctx nodes first)
    (rest : ∀ a, TracesAs ctx e type more (next a)) : TracesAs ctx e type (nodes ++ more) (first >>= next) :=
  bindRan start fun a _ => rest a

theorem after {first : Check α} {next : α → Check β} (start : Traces ctx [] first)
    (rest : ∀ a, TracesAs ctx e type nodes (next a)) : TracesAs ctx e type nodes (first >>= next) :=
  bind start rest

theorem ite {wanted : Prop} [Decidable wanted] {first other : Check β} (yes : TracesAs ctx e type nodes first)
    (no : TracesAs ctx e type nodes other) : TracesAs ctx e type nodes (if wanted then first else other) := by
  split
  · exact yes
  · exact no

theorem engine {ε : Type} (operation : Engine → Engine × ε) (next : ε → Check β)
    (rest : ∀ answer, TracesAs ctx e type nodes (next answer)) : TracesAs ctx e type nodes (do
      let s ← get
      set { s with engine := (operation s.engine).1 }
      next (operation s.engine).2) := by
  intro s a s' last ran quiet later typed
  obtain ⟨early, trace⟩ :=
    rest (operation s.engine).2 { s with engine := (operation s.engine).1 } a s' last ran quiet later typed
  exact ⟨early, trace.since rfl rfl (.refl _)⟩

/-- Type arguments are chosen, and behind them the type that goes with them is answered. -/
theorem answered {choose : Check α} {rest : α → Check β} {other : α → Ty}
    (first : TracesAs ctx e other nodes choose) (after : ∀ a, Traces ctx more (rest a))
    (gives : ∀ a, Gives (rest a) fun b => type b = other a) :
    TracesAs ctx e type (nodes ++ more) (choose >>= rest) := by
  intro s b s' last ran quiet later typed
  obtain ⟨a, middle, begun, ran⟩ := ran_bind ran
  obtain ⟨silent, trace⟩ := after a middle b s' last ran quiet later
  rw [gives a middle b s' ran] at typed
  exact (first s a middle last begun silent (trace.notes.trans later) typed).imp_right fun early => early.append trace

theorem fresh {params : List String} {next : List Ty → Check β}
    (rest : ∀ args, args.length = params.length → TracesAs ctx e type nodes (next args)) :
    TracesAs ctx e type nodes (freshAll params >>= next) := by
  intro s b s' last ran quiet later typed
  obtain ⟨args, middle, made, ran⟩ := ran_bind ran
  cases made
  obtain ⟨silent, trace⟩ :=
    rest _ (freshAll_proper s.engine params.length).1 _ b s' last ran quiet later typed
  exact ⟨silent, trace.since rfl rfl (.refl _)⟩

/-- The check of a node notes the type that it answers. -/
theorem recorded {e : Expr} {check : Check Ty} (inner : TracesAs ctx e id nodes check) :
    Traces ctx nodes (recorded e.id check) := by
  intro s t s' last ran quiet later
  obtain ⟨found, middle, done, ran⟩ := ran_bind ran
  cases ran
  have typed : middle.notes.Extends { middle.notes with types := middle.notes.types.insert e.id t } :=
    ⟨{ types := [(e.id, t)] }, rfl⟩
  obtain ⟨early, trace⟩ :=
    inner s t middle last done quiet (typed.trans later) (later.types List.mem_cons_self)
  exact ⟨early, List.append_nil nodes ▸ trace.append (.still rfl rfl typed)⟩

end TracesAs

variable {α : Type} {ctx : Context} {nodes : List TreeNode} {check : Check α}

/-! ### Steps -/

/-- With a report it does not matter what else is left out. -/
theorem add_traces (d : Diagnostic) : Traces ctx nodes (ctx.add d) := by
  intro s _ s' _ ran quiet
  cases ran
  exact absurd quiet (Bag.add_ne_nil _ _)

theorem report_traces (kind : Diagnostic.Kind) (span : Span) (message : String) :
    Traces ctx nodes (ctx.report kind span message) := add_traces _

theorem report_then_traces (kind : Diagnostic.Kind) (span : Span) (message : String) (a : α) :
    Traces ctx nodes (do ctx.report kind span message; return a) :=
  (report_traces kind span message).before fun _ => .pure a

theorem record_traces (id : Nat) (t : Ty) : Traces ctx [] (record id t) :=
  .note { types := [(id, t)] } (fun _ => rfl) rfl

theorem recorded_traces {id : Nat} {check : Check Ty} (traces : Traces ctx nodes check) :
    Traces ctx nodes (recorded id check) :=
  traces.before fun t => (record_traces id t).after fun _ => .pure t

theorem coerce_traces (id : Nat) (coercion : Coercion) : Traces ctx [] (coerce id coercion) :=
  .note { coercions := [(id, coercion)] } (fun _ => rfl) rfl

theorem called_traces (id : Nat) (signature : Signature) :
    Traces ctx [] (note fun a => { a with calls := a.calls.insert id signature }) :=
  .note { calls := [(id, signature)] } (fun _ => rfl) rfl

theorem variant_traces (id : Nat) (found : VariantRef) :
    Traces ctx [] (note fun a => { a with variants := a.variants.insert id found }) :=
  .note { variants := [(id, found)] } (fun _ => rfl) rfl

theorem struct_traces (id : Nat) (name : String) :
    Traces ctx [] (note fun a => { a with structs := a.structs.insert id name }) :=
  .note { structs := [(id, name)] } (fun _ => rfl) rfl

theorem declare_traces (name : String) (t : Ty) : Traces ctx [] (declare name t) :=
  .modify (fun _ => rfl) (fun _ => rfl) fun _ => rfl

theorem lookup?_traces (name : String) : Traces ctx [] (lookup? name) := .look fun _ => .pure _

theorem fresh_traces (literal : LiteralClass) : Traces ctx [] (fresh literal) :=
  .silent fun _ _ _ ran => by cases ran; exact ⟨rfl, rfl, rfl, .refl _⟩

theorem freshAll_traces {β : Type} (params : List β) : Traces ctx [] (freshAll params) :=
  .silent fun _ _ _ ran => by cases ran; exact ⟨rfl, rfl, rfl, .refl _⟩

theorem shallow_traces (t : Ty) : Traces ctx [] (shallow t) := .look fun _ => .pure _

theorem shallow?_traces (t : Option Ty) : Traces ctx [] (shallow? t) := by
  cases t with
  | none => exact .pure _
  | some t => exact (shallow_traces t).map _

theorem deref_traces (t : Ty) : Traces ctx [] (deref t) := .look fun _ => .pure _

theorem resolve_traces (t : WrittenType) : Traces ctx [] (ctx.resolve t) := by
  intro s _ s' _ ran quiet _
  cases ran
  exact ⟨(Bag.addAll_eq_nil.mp quiet).1, .still rfl rfl (.refl _)⟩

theorem unify_traces (span : Span) (a b : Ty) : Traces ctx [] (ctx.unify span a b) := by
  refine .engine (fun e => e.unify a b) (ctx.unified span) fun answer => ?_
  rcases answer with _ | _ | _
  · exact .pure _
  · exact report_then_traces _ _ _ _
  · exact .throw _

theorem assign_traces (e : Expr) (expected found : Ty) : Traces ctx [] (ctx.assign e expected found) := by
  refine .engine (fun engine => engine.assign expected found) (ctx.assigned e) fun answer => ?_
  obtain ⟨coercion, error⟩ := answer
  rcases error with _ | _ | _
  · exact .ite (coerce_traces _ _) (.pure _)
  · exact report_traces _ _ _
  · exact .throw _

theorem require_traces (span : Span) (operator : String) (t : Ty) (r : Requirement) :
    Traces ctx [] (ctx.require span operator t r) :=
  (shallow_traces t).after fun _ => .ite (report_traces _ _ _) (.pure _)

/-- A step that is only taken sometimes. -/
theorem Traces.optional {wanted : Prop} [Decidable wanted] {first : Check Unit} {next : Unit → Check α}
    (start : Traces ctx [] first) (rest : Traces ctx nodes (next ())) :
    Traces ctx nodes (if wanted then first >>= next else next ()) := .ite (start.after fun _ => rest) rest

/-- An integer literal waits for its type. -/
theorem pendLiteral_traces {node : TreeNode} {info : NodeInfo} {value : Int}
    (queues : ∀ queue, Queues [node] queue (queue ++ [⟨info.id, info.span, value⟩])) :
    Traces ctx [node] (pendLiteral info.id info.span value) := by
  intro s _ s' _ ran quiet _
  cases ran
  exact ⟨quiet, .queues (queues _) rfl (.refl _)⟩

/-- Both bounds of a range wait for its type. -/
theorem range_traces (info : NodeInfo) (low high : Int) (inclusive : Bool) :
    Traces ctx [.pattern (.range info low high inclusive)] (do
      pendLiteral info.id info.span low
      pendLiteral info.id info.span high) := by
  intro s _ s' _ ran quiet _
  cases ran
  exact ⟨quiet, .queues (.range info low high inclusive _) rfl (.refl _)⟩

/-- Type arguments are chosen by a node, unless there are none. No other node is gone through behind that, and the type
that goes with them is answered. -/
theorem choose_traces {β : Type} {e : Expr} (plain : (TreeNode.expr e).pends = false) {args : List Ty}
    {rest : Unit → Check β} (type : β → Ty) {t : Ty} {s s' : State} {b : β} {last : Annotations}
    (ran : (instantiated e.id args >>= rest) s = .ok (b, s')) (quiet : s'.Quiet) (later : s'.notes.Extends last)
    (typed : (e.id, type b) ∈ last.types) (after : ∀ u, Traces ctx [] (rest u))
    (gives : ∀ u, Gives (rest u) fun b => type b = t)
    (chosen : s.notes.Extends last → (e.id, t) ∈ last.types → Chosen ctx last args e) :
    s.Quiet ∧ Trace ctx last [.expr e] s s' := by
  obtain ⟨u, middle, chose, ran⟩ := ran_bind ran
  obtain ⟨silent, trace⟩ := after u middle b s' last ran quiet later
  rw [gives u middle b s' ran] at typed
  have behind := trace.notes.trans later
  unfold instantiated at chose
  split at chose
  · cases chose
    exact ⟨silent, (Trace.queues (.plain plain _) rfl (.refl _)).append trace⟩
  · cases chose
    have own : s.notes.Extends { s.notes with instantiations := s.notes.instantiations.insert e.id args } :=
      ⟨{ instantiations := [(e.id, args)] }, rfl⟩
    have first : Trace ctx last [.expr e] s
        { s with notes.instantiations := s.notes.instantiations.insert e.id args } :=
      .chooses (chosen (own.trans behind) typed) rfl rfl own
    exact ⟨silent, first.append trace⟩

/-! ### Names -/

namespace Context

theorem namedFunction?_known {callee : Expr} {signature : Signature} {s s' : State}
    (ran : ctx.namedFunction? callee s = .ok (some signature, s')) :
    ∃ info name, callee = .ident info name ∧ ctx.table.function? name = some signature := by
  cases callee with
  | ident info name =>
    refine ⟨info, name, rfl, ?_⟩
    obtain ⟨found, middle, -, ran⟩ := ran_bind ran
    cases found with
    | some t => cases ran
    | none => exact congrArg (fun out => match out with
        | .ok (found, _) => found
        | .error _ => none) ran
  | _ => cases ran

theorem namedFunction?_traces (callee : Expr) : Traces ctx [] (ctx.namedFunction? callee) := by
  unfold namedFunction?
  split
  · refine (lookup?_traces _).after fun found => ?_
    cases found <;> exact .pure _
  · exact .pure _

theorem enterCall_traces (info callee : NodeInfo) {name : String} (operands : List Expr) {signature : Signature}
    (known : ctx.table.function? name = some signature) :
    TracesAs ctx (.call info (.ident callee name) operands) Prod.snd [.expr (.call info (.ident callee name) operands)]
      (enterCall info (.ident callee name) signature) := by
  refine .fresh fun args sized => ?_
  intro s r s' last ran quiet later typed
  obtain ⟨_, middle, noted, ran⟩ := ran_bind ran
  cases noted
  obtain ⟨_, middle, noted, ran⟩ := ran_bind ran
  cases noted
  obtain ⟨silent, trace⟩ := choose_traces (e := .call info (.ident callee name) operands) rfl Prod.snd ran quiet
    later typed (fun _ => .pure _) (fun _ => .pure rfl) fun behind typed =>
      .call known sized (behind.calls List.mem_cons_self)
        (Signature.type_instantiate signature _ _ ▸ behind.types List.mem_cons_self) typed
  exact ⟨silent, trace.since rfl rfl ⟨{ types := [(callee.id, _)], calls := [(info.id, signature)] }, rfl⟩⟩

theorem arity_traces (span : Span) (name : String) (count : Nat) (params : List Ty) :
    Traces ctx [] (ctx.arity span name count params) := .ite (.pure _) (report_then_traces _ _ _ _)

theorem pass_traces (a : Expr) (want known found : Ty) : Traces ctx [] (ctx.pass a want known found) := by
  unfold pass
  split
  · refine (shallow_traces found).after fun _ => .ite ?_ (assign_traces a want found)
    exact (unify_traces _ _ _).after fun _ => .ite (coerce_traces _ _) (.pure _)
  · exact assign_traces a want found

theorem namedMethod_known {type name : String} {missing : Check (Option Signature)} {s s' : State}
    {signature : Signature} (silent : ∀ s', missing s ≠ .ok (some signature, s'))
    (ran : ctx.namedMethod type name missing s = .ok (some signature, s')) :
    ctx.table.method? type name = some signature := by
  unfold namedMethod at ran
  split at ran
  · cases ran
  · cases found : ctx.table.method? type name with
    | none =>
      rw [found] at ran
      exact absurd ran (silent _)
    | some known =>
      rw [found] at ran
      cases ran
      rfl

theorem method?_known {info : NodeInfo} {receiver : Expr} {name : String} {base : Ty} {s s' : State}
    {signature : Signature} (ran : ctx.method? info receiver name base s = .ok (some signature, s')) :
    ∃ type, ctx.table.method? type name = some signature := by
  unfold method? at ran
  cases base
  case struct type args => exact ⟨type, namedMethod_known (fun _ same => by cases same) ran⟩
  case enum type args => exact ⟨type, namedMethod_known (fun _ same => by cases same) ran⟩
  all_goals cases ran

theorem method?_traces (info : NodeInfo) (receiver : Expr) (name : String) (base : Ty) :
    Traces ctx [] (ctx.method? info receiver name base) := by
  have missing : Traces ctx [] (do
      ctx.report .undefinedName info.span s!"no method `{name}` on type `{base.text}`"
      return (none : Option Signature)) := report_then_traces _ _ _ _
  have named (type : String) : Traces ctx [] (ctx.namedMethod type name (do
      ctx.report .undefinedName info.span s!"no method `{name}` on type `{base.text}`"
      return none)) := by
    refine .ite (.pure _) ?_
    cases ctx.table.method? type name with
    | some signature => exact .pure _
    | none => exact missing
  unfold method?
  dsimp only
  split
  · exact named _
  · exact named _
  · exact .pure _
  · exact report_then_traces _ _ _ _
  · exact missing

theorem takeReceiver_traces (receiver : Expr) (name : String) (outer base : Ty) (derefs : Nat) (mode : SelfMode) :
    Traces ctx [] (ctx.takeReceiver receiver name outer base derefs mode) := by
  cases mode with
  | value => exact .ite (report_traces _ _ _) (.pure _)
  | shared => exact .ite (coerce_traces _ _) (.pure _)
  | exclusive =>
    refine .ite (coerce_traces _ _) ((shallow_traces outer).after fun known => ?_)
    split
    · exact .pure _
    · exact report_traces _ _ _

theorem enterMethod_traces (info : NodeInfo) (receiver : Expr) {type name : String} (operands : List Expr)
    (outer base : Ty) (derefs : Nat) {signature : Signature} (known : ctx.table.method? type name = some signature) :
    TracesAs ctx (.methodCall info receiver name operands) Prod.snd [.expr (.methodCall info receiver name operands)]
      (ctx.enterMethod info receiver name outer base derefs signature) := by
  unfold enterMethod
  cases signature.self with
  | none => exact fun _ _ _ _ ran => by cases ran
  | some self =>
    refine .fresh fun args sized => .after (unify_traces _ _ _) fun _ => ?_
    intro s r s' last ran quiet later typed
    obtain ⟨_, middle, noted, ran⟩ := ran_bind ran
    cases noted
    obtain ⟨silent, trace⟩ := choose_traces (e := .methodCall info receiver name operands) rfl Prod.snd ran quiet
      later typed (fun _ => (takeReceiver_traces _ _ _ _ _ _).after fun _ => .pure _)
      (fun _ => .bind fun _ => .pure rfl) fun behind typed =>
        .method known sized (behind.methods List.mem_cons_self) typed
    exact ⟨silent, trace.since rfl rfl ⟨{ methods := [(info.id, signature)] }, rfl⟩⟩

theorem fieldType_traces (info : NodeInfo) (object : Expr) (name : String) (base : Ty) :
    Traces ctx [] (ctx.fieldType info object name base) := by
  unfold fieldType
  dsimp only
  split
  · split
    · exact .pure _
    · exact report_then_traces _ _ _ _
  · split
    · exact .pure _
    · exact report_then_traces _ _ _ _
  · exact .pure _
  · exact report_then_traces _ _ _ _
  · exact report_then_traces _ _ _ _

theorem elementType_traces (info : NodeInfo) (object : Expr) (base : Ty) :
    Traces ctx [] (ctx.elementType info object base) := by
  unfold elementType
  split
  · exact .pure _
  · exact (fresh_traces _).after fun _ => (unify_traces _ _ _).after fun _ => .pure _
  · exact .pure _
  · exact report_then_traces _ _ _ _

theorem targetType_traces (info : NodeInfo) (t : Ty) : Traces ctx [] (ctx.targetType info t) := by
  refine (shallow_traces t).after fun known => ?_
  split
  · exact .pure _
  · exact .pure _
  · exact report_then_traces _ _ _ _
  · exact report_then_traces _ _ _ _

def literalType : Option (String × List Ty) → Ty
  | some (name, args) => .struct name args
  | none => .invalid

section

variable (info : NodeInfo) (name : String) (fields : List FieldInit)

theorem enterStruct_traces {d : StructDef} (known : d ∈ ctx.table.decls.structs) :
    TracesAs ctx (.struct info name fields) (fun found => .struct found.1 found.2) [.expr (.struct info name fields)]
      (enterStruct info d) := by
  refine .fresh fun args sized s r s' last ran quiet later typed => ?_
  exact choose_traces (e := .struct info name fields) rfl (fun found : String × List Ty => .struct found.1 found.2)
    ran quiet later typed (fun _ => .pure _) (fun _ => .pure rfl) fun _ typed => .struct known sized typed

theorem unnamedStruct?_traces (names : List String) (hint : Option Ty) :
    TracesAs ctx (.struct info name fields) literalType [.expr (.struct info name fields)]
      (ctx.unnamedStruct? info names hint) := by
  have hinted : Traces ctx [] (ctx.hintedStruct? names hint) := by
    refine (shallow?_traces hint).after fun known => ?_
    split
    · split
      · exact .pure _
      · exact .pure _
    · exact .pure _
  refine .after hinted fun found => ?_
  cases found with
  | some found => exact (Traces.node rfl (.pure _)).as
  | none =>
    dsimp only
    split
    next d only =>
      have known : d ∈ ctx.table.decls.structs := by
        have member : d ∈ ctx.table.structsWithFields names := by simp [only]
        exact (List.mem_filter.mp ((List.mergeSort_perm _ _).mem_iff.mp member)).1
      exact .answered (enterStruct_traces info name fields known) (fun _ => .pure _) fun _ => .pure rfl
    · exact (Traces.node rfl (report_then_traces _ _ _ _)).as
    · exact (Traces.node rfl ((add_traces _).after fun _ => .pure _)).as

theorem literalStruct?_traces (names : List String) (hint : Option Ty) :
    TracesAs ctx (.struct info name fields) literalType [.expr (.struct info name fields)]
      (ctx.literalStruct? info name names hint) := by
  refine .ite (.answered (unnamedStruct?_traces info name fields names hint) (fun found => ?_) fun found => ?_) ?_
  · cases found with
    | some found =>
      exact .after (.note { literalTargets := [(info.id, found.1)] } (fun _ => rfl) rfl) fun _ => .pure _
    | none => exact .pure _
  · cases found with
    | some found => exact .bind fun _ => .pure rfl
    | none => exact .pure rfl
  · cases known : ctx.table.decls.struct? name with
    | some d =>
      have known : d ∈ ctx.table.decls.structs := List.mem_of_find?_eq_some known
      exact .answered (enterStruct_traces info name fields known) (fun _ => .pure _) fun _ => .pure rfl
    | none => exact (Traces.node rfl (report_then_traces _ _ _ _)).as

end

theorem enterVariant_traces (info : NodeInfo) (enum variant : String) (operands : List Expr) (fields : List FieldInit)
    (found : VariantRef) (hint : Option Ty) :
    TracesAs ctx (.variant info enum variant operands fields) (Ty.enum found.enum.name)
      [.expr (.variant info enum variant operands fields)] (enterVariant info found hint) := by
  refine .fresh fun args sized => .after (shallow?_traces hint) fun known => ?_
  have rest : TracesAs ctx (.variant info enum variant operands fields) (Ty.enum found.enum.name)
      [.expr (.variant info enum variant operands fields)] (do
        note fun a => { a with variants := a.variants.insert info.id found }
        instantiated info.id args
        return args) := by
    intro s r s' last ran quiet later typed
    obtain ⟨_, middle, noted, ran⟩ := ran_bind ran
    cases noted
    obtain ⟨silent, trace⟩ := choose_traces (e := .variant info enum variant operands fields) rfl
      (Ty.enum found.enum.name) ran quiet later typed (fun _ => .pure _) (fun _ => .pure rfl) fun behind typed =>
        .variant sized (behind.variants List.mem_cons_self) typed
    exact ⟨silent, trace.since rfl rfl ⟨{ variants := [(info.id, found)] }, rfl⟩⟩
  dsimp only
  split
  next name hinted =>
    refine .ite ?_ rest
    refine .engine (fun e => e.unify (.enum name hinted) (.enum name args)) (unlessInfinite _) fun answer => ?_
    rcases answer with _ | _ | _
    · exact rest
    · exact rest
    · exact fun _ _ _ _ ran => by cases ran
  · exact rest

theorem requireFields_traces (span : Span) (owner : String) (fields : List Field) (given : List String) :
    Traces ctx [] (ctx.requireFields span owner fields given) := .forM fun _ => report_traces _ _ _

theorem requireFieldPatterns_traces (span : Span) (owner : String) (fields : List Field) (given : List String) :
    Traces ctx [] (ctx.requireFieldPatterns span owner fields given) := .forM fun _ => add_traces _

theorem variant?_traces (span : Span) (enum variant : String) (hint : Option Ty) :
    Traces ctx [] (ctx.variant? span enum variant hint) := by
  have hinted : Traces ctx [] (ctx.hintedVariant? enum variant hint) := by
    refine .ite (.pure _) ((shallow?_traces hint).after fun known => ?_)
    split
    · exact .pure _
    · exact .pure _
  refine hinted.after fun found => ?_
  cases found with
  | some found => exact .pure _
  | none =>
    dsimp only
    split
    · exact .pure _
    · exact report_then_traces _ _ _ _
    · exact report_then_traces _ _ _ _

theorem elementTypes_traces (info : NodeInfo) (elements : List Pattern) (t : Ty) :
    Traces ctx [] (ctx.elementTypes info elements t) := by
  refine (shallow_traces t).after fun known => ?_
  have unknown : Traces ctx [] (do
      let types ← freshAll elements
      let _ ← ctx.unify info.span t (.product types)
      return types) :=
    (freshAll_traces _).after fun _ => (unify_traces _ _ _).after fun _ => .pure _
  dsimp only
  split
  · exact .ite (.pure _) (report_then_traces _ _ _ _)
  · exact .ite (.pure _) (report_then_traces _ _ _ _)
  · exact unknown
  · exact unknown
  · exact report_then_traces _ _ _ _

theorem compareBindings_traces (span : Span) (first : List String) (scope : List (String × Ty)) :
    Traces ctx [] (ctx.compareBindings span first scope) := by
  refine .after (.forM fun name => .ite (report_traces _ _ _) ?_) fun _ => .forM fun _ => report_traces _ _ _
  split
  · refine (lookup?_traces name).after fun known => ?_
    split
    · exact (unify_traces _ _ _).after fun _ => .pure _
    · exact .pure _
  · exact .pure _

end Context

/-! ### One node -/

/-- A node that leaves the literals alone, its type, and what is below it. -/
theorem node_traces {e : Expr} {below : List TreeNode} {check : Check Ty} (same : e.nodes = .expr e :: below)
    (quiet : (TreeNode.expr e).pends = false) (inner : Traces ctx below check) :
    Traces ctx e.nodes (recorded e.id check) :=
  same ▸ recorded_traces (.node quiet inner)

theorem chooser_traces {e : Expr} {below : List TreeNode} {check : Check Ty} (same : e.nodes = .expr e :: below)
    (inner : TracesAs ctx e id (.expr e :: below) check) : Traces ctx e.nodes (recorded e.id check) :=
  same ▸ inner.recorded

theorem pattern_traces {p : Pattern} {t : Ty} {below : List TreeNode} {check : Check Unit}
    (same : p.nodes = .pattern p :: below) (quiet : (TreeNode.pattern p).pends = false)
    (inner : Traces ctx below check) : Traces ctx p.nodes (record p.id t >>= fun _ => check) :=
  same ▸ .node quiet ((record_traces _ _).after fun _ => inner)

theorem binding_traces (b : Binding) (t : Ty) : Traces ctx [.pattern (.binding b)] (do
    record b.info.id t
    declare b.name t) :=
  .node rfl ((record_traces _ _).after fun _ => declare_traces _ _)

theorem named_traces (info : NodeInfo) {name : String} {signature : Signature}
    (known : ctx.table.function? name = some signature) {args : List Ty}
    (sized : args.length = signature.typeParams.length) :
    TracesAs ctx (.ident info name) id [.expr (.ident info name)] (do
      instantiated info.id args
      note fun a => { a with calls := a.calls.insert info.id signature }
      return signature.type.instantiate signature.typeParams args) := by
  unfold instantiated
  split
  · exact (Traces.node rfl ((called_traces _ _).after fun _ => .pure _)).as
  · intro s t s' last ran quiet later typed
    cases ran
    have own : s.notes.Extends { s.notes with
        instantiations := s.notes.instantiations.insert info.id args
        calls := s.notes.calls.insert info.id signature } :=
      ⟨{ calls := [(info.id, signature)], instantiations := [(info.id, args)] }, rfl⟩
    exact ⟨quiet, .chooses (.name known sized (later.calls List.mem_cons_self) typed) rfl rfl own⟩

theorem ident_traces (info : NodeInfo) (name : String) :
    Traces ctx [.expr (.ident info name)] (recorded info.id (ctx.nameType info name)) := by
  refine TracesAs.recorded (e := .ident info name) (.after (lookup?_traces name) fun found => ?_)
  cases found with
  | some t => exact (Traces.node rfl (.pure t)).as
  | none =>
    cases known : ctx.table.function? name with
    | none => exact (Traces.node rfl (report_then_traces _ _ _ _)).as
    | some signature => exact .fresh fun args sized => named_traces info known sized

/-- A literal waits behind those before it. -/
theorem int_queue {info : NodeInfo} {value : Int} {suffix : String} {hint : Option Ty} {s s' : State} {t : Ty}
    (ran : infer ctx (.int info value suffix) hint s = .ok (t, s')) :
    s'.bag = s.bag ∧ s'.literals = s.literals ++ [⟨info.id, info.span, value⟩] ∧
      s'.notes.instantiations = s.notes.instantiations ∧ s.notes.Extends s'.notes := by
  rw [infer] at ran
  cases known : Ty.ofName? suffix <;> rw [known] at ran <;> cases ran <;>
    exact ⟨rfl, rfl, rfl, { types := [(info.id, _)] }, rfl⟩

theorem int_traces (info : NodeInfo) (value : Int) (suffix : String) (hint : Option Ty) :
    Traces ctx [.expr (.int info value suffix)] (infer ctx (.int info value suffix) hint) := by
  intro s t s' last ran quiet _
  obtain ⟨bag, queue, instantiations, notes⟩ := int_queue ran
  rw [State.Quiet, bag] at quiet
  exact ⟨quiet, .queues (queue ▸ .int info value suffix s.literals) instantiations notes⟩

/-- A literal below a minus sign waits with it. -/
theorem negated_traces (sign info : NodeInfo) (value : Int) (suffix : String) (hint : Option Ty) :
    Traces ctx [.expr (.unary sign .neg (.int info value suffix)), .expr (.int info value suffix)]
      (infer ctx (.unary sign .neg (.int info value suffix)) hint) := by
  rw [infer]
  refine recorded_traces fun s t s' last ran quiet later => ?_
  obtain ⟨found, middle, done, ran⟩ := ran_bind ran
  obtain ⟨bag, queue, instantiations, notes⟩ := int_queue done
  have rest : Traces ctx [] (do
      ctx.require sign.span s!"unary operator `{UnaryOp.neg.text}`" found .signed
      return found) := (require_traces _ _ _ _).after fun _ => .pure _
  obtain ⟨early, trace⟩ :=
    rest { middle with literals := signed info.id sign.span value middle.literals } t s' last ran quiet later
  have own : Trace ctx last [.expr (.unary sign .neg (.int info value suffix)), .expr (.int info value suffix)] s
      { middle with literals := signed info.id sign.span value middle.literals } :=
    .queues (queue ▸ .negated sign info value suffix s.literals) instantiations notes
  have silent : s.bag.contents = [] := bag ▸ early
  exact ⟨silent, own.append trace⟩

/-! ### Whole trees -/

def Block.inside (b : Block) : List TreeNode := Stmt.nodesAll b.stmts ++ Expr.nodesOption b.tail

/-- A block has a type of its own. -/
theorem block_traces {b : Block} {check : Check Ty} (inner : Traces ctx (Block.inside b) check) :
    Traces ctx b.nodes (recorded b.id check) := by
  cases b with
  | mk info stmts tail => exact recorded_traces (.node rfl inner)

/-- A minus sign goes with the literal behind it; any other operator stands for itself. -/
theorem unary_traces (info : NodeInfo) (op : UnaryOp) (operand : Expr) (hint : Option Ty)
    (inner : Traces ctx operand.nodes (infer ctx operand hint)) :
    Traces ctx (Expr.unary info op operand).nodes (infer ctx (.unary info op operand) hint) := by
  have required (r : Requirement) (t : Ty) : Traces ctx [] (do
      ctx.require info.span s!"unary operator `{op.text}`" t r
      return t) := (require_traces _ _ _ _).after fun _ => .pure _
  have same : (Expr.unary info op operand).nodes = .expr (.unary info op operand) :: operand.nodes := by
    rw [Expr.nodes]
  cases op with
  | neg =>
    cases operand with
    | int literal value suffix => exact negated_traces info literal value suffix hint
    | _ =>
      rw [infer]
      exact node_traces same rfl (inner.before fun t => required .signed t)
  | not =>
    rw [infer]
    exact node_traces same rfl (inner.before fun t => required .integerOrBool t)
  | bitNot =>
    rw [infer]
    exact node_traces same rfl (inner.before fun t => required .integer t)

mutual

theorem infer_traces : ∀ (e : Expr) (hint : Option Ty), Traces ctx e.nodes (infer ctx e hint)
  | .int info value suffix, hint => int_traces info value suffix hint
  | .float info value suffix, hint => by
    rw [infer]
    refine node_traces (e := .float info value suffix) (by rw [Expr.nodes]) rfl ?_
    split
    · exact .pure _
    · exact fresh_traces _
  | .string info value, hint => by
    rw [infer]
    exact node_traces (e := .string info value) (by rw [Expr.nodes]) rfl (.pure _)
  | .template info parts, hint => by
    rw [infer]
    exact node_traces (e := .template info parts) (by rw [Expr.nodes]) rfl
      ((inferParts_traces parts).before fun _ => .pure _)
  | .bool info value, hint => by
    rw [infer]
    exact node_traces (e := .bool info value) (by rw [Expr.nodes]) rfl (.pure _)
  | .ident info name, hint => by
    rw [infer]
    exact ident_traces info name
  | .binary info op left right, hint => by
    rw [infer]
    refine node_traces (e := .binary info op left right) (by rw [Expr.nodes]) rfl ?_
    dsimp only
    split
    · exact (infer_traces left hint).bind fun t => (infer_traces right _).before fun _ =>
        (unify_traces _ _ _).after fun _ => .ite ((require_traces _ _ _ _).after fun _ => .pure _) (.pure _)
    · exact (infer_traces left hint).bind fun t => (infer_traces right _).before fun _ =>
        (unify_traces _ _ _).after fun _ => .ite ((require_traces _ _ _ _).after fun _ => .pure _) (.pure _)
    · exact (infer_traces left hint).bind fun t => (fresh_traces _).after fun _ =>
        (infer_traces right _).before fun _ => (unify_traces _ _ _).after fun _ =>
          (require_traces _ _ _ _).after fun _ => .pure _
    · exact (infer_traces left _).bind fun t => (infer_traces right _).before fun _ =>
        (unify_traces _ _ _).after fun _ => .ite ((require_traces _ _ _ _).after fun _ => .pure _) (.pure _)
    · exact (infer_traces left _).bind fun t => (infer_traces right _).before fun _ =>
        (unify_traces _ _ _).after fun _ => .pure _
    · exact (infer_traces left _).bind fun _ => (unify_traces _ _ _).after fun _ =>
        (infer_traces right _).before fun _ => (unify_traces _ _ _).after fun _ => .pure _
  | .unary info op operand, hint => unary_traces info op operand hint (infer_traces operand hint)
  | .call info callee args, hint => by
    rw [infer]
    refine chooser_traces (e := .call info callee args) (by rw [Expr.nodes]) ?_
    refine .bindRan (Context.namedFunction?_traces callee) fun named ⟨s, s', ran⟩ => ?_
    cases named with
    | some signature =>
      obtain ⟨info', name, rfl, known⟩ := Context.namedFunction?_known ran
      refine .answered (Context.enterCall_traces info info' args known) (fun _ => ?_) fun _ => ?_
      · exact .node rfl <| (Context.arity_traces _ _ _ _).after fun _ =>
          (checkArgs_traces args _).before fun _ => .pure _
      · exact .bind fun _ => .bind fun _ => .pure rfl
    | none =>
      refine Traces.as (.node rfl ?_)
      refine (infer_traces callee none).bind fun _ => (shallow_traces _).after fun known => ?_
      split
      · exact (Context.arity_traces _ _ _ _).after fun _ => (checkArgs_traces args _).before fun _ => .pure _
      · refine .ite ((report_traces _ _ _).after fun _ => ?_) ?_
        all_goals exact (checkArgs_traces args _).before fun _ => .pure _
  | .methodCall info receiver name args, hint => by
    rw [infer]
    refine chooser_traces (e := .methodCall info receiver name args) (by rw [Expr.nodes]) ?_
    have swapped : (receiver.nodes ++ (.expr (.methodCall info receiver name args) :: Expr.nodesAll args)).Perm
        (.expr (.methodCall info receiver name args) :: (receiver.nodes ++ Expr.nodesAll args)) :=
      List.perm_middle
    refine .perm (.bind (infer_traces receiver none) fun outer => .after (deref_traces _) fun stripped =>
      .bindRan (Context.method?_traces _ _ _ _) fun found ⟨s, s', ran⟩ => ?_) swapped
    cases found with
    | some signature =>
      obtain ⟨type, known⟩ := Context.method?_known ran
      refine .answered (Context.enterMethod_traces info receiver args outer stripped.1 stripped.2 known)
        (fun _ => ?_) fun _ => ?_
      · exact (Context.arity_traces _ _ _ _).after fun _ => (checkArgs_traces args _).before fun _ => .pure _
      · exact .bind fun _ => .bind fun _ => .pure rfl
    | none => exact Traces.as (.node rfl ((checkArgs_traces args none).before fun _ => .pure _))
  | .field info object name, hint => by
    rw [infer]
    refine node_traces (e := .field info object name) (by rw [Expr.nodes]) rfl
      ((infer_traces object none).before fun outer => (deref_traces _).after fun stripped => ?_)
    exact .optional (coerce_traces _ _) (Context.fieldType_traces _ _ _ _)
  | .index info object index, hint => by
    rw [infer]
    refine node_traces (e := .index info object index) (by rw [Expr.nodes]) rfl ?_
    exact (infer_traces object none).bind fun outer => (deref_traces _).after fun stripped =>
      .optional (coerce_traces _ _) ((infer_traces index none).before fun _ =>
        (fresh_traces _).after fun _ => (unify_traces _ _ _).after fun _ => Context.elementType_traces _ _ _)
  | .ref info mutable operand, hint => by
    rw [infer]
    exact node_traces (e := .ref info mutable operand) (by rw [Expr.nodes]) rfl ((shallow?_traces hint).after
      fun _ => (infer_traces operand _).before fun _ => .pure _)
  | .deref info operand, hint => by
    rw [infer]
    exact node_traces (e := .deref info operand) (by rw [Expr.nodes]) rfl
      ((infer_traces operand none).before fun _ => Context.targetType_traces _ _)
  | .struct info name fields, hint => by
    rw [infer]
    refine chooser_traces (e := .struct info name fields) (by rw [Expr.nodes]) ?_
    refine .answered (Context.literalStruct?_traces info name fields (fields.map FieldInit.name) hint)
      (fun found => ?_) fun found => ?_
    · rcases found with _ | ⟨struct, args⟩
      · exact (inferFields_traces fields).before fun _ => .pure _
      · exact (struct_traces _ _).after fun _ => (checkInits_traces struct _ [] fields).before fun _ =>
          (Context.requireFields_traces _ _ _ _).after fun _ => .pure _
    · rcases found with _ | ⟨struct, args⟩
      · exact .bind fun _ => .pure rfl
      · exact .bind fun _ => .bind fun _ => .bind fun _ => .pure rfl
  | .variant info enum variant args fields, hint => by
    rw [infer]
    refine chooser_traces (e := .variant info enum variant args fields) (by rw [Expr.nodes]) ?_
    refine .after (Context.variant?_traces _ _ _ _) fun found => ?_
    rcases found with _ | found
    · exact Traces.as (.node rfl
        ((checkArgs_traces args none).bind fun _ => (inferFields_traces fields).before fun _ => .pure _))
    · refine .answered (Context.enterVariant_traces info enum variant args fields found hint) (fun typeArgs => ?_)
        fun typeArgs => ?_
      · have named : Traces ctx (FieldInit.nodesAll fields) (do
            let slots := Decls.slots found.enum typeArgs found.variant
            let declared := Context.slotFields found.variant slots
            checkInits ctx found.text declared [] fields
            ctx.requireFields info.span found.text declared (fields.map FieldInit.name)
            return Ty.enum found.enum.name typeArgs) :=
          (checkInits_traces _ _ _ fields).before fun _ =>
            (Context.requireFields_traces _ _ _ _).after fun _ => .pure _
        have positional : Traces ctx (Expr.nodesAll args ++ FieldInit.nodesAll fields) (do
            let slots := Decls.slots found.enum typeArgs found.variant
            inferFields ctx fields
            checkArgs ctx args (← ctx.arity info.span found.text args.length slots)
            return Ty.enum found.enum.name typeArgs) :=
          .perm ((inferFields_traces fields).bind fun _ => (Context.arity_traces _ _ _ _).after fun _ =>
            (checkArgs_traces args _).before fun _ => .pure _) List.perm_append_comm
        refine .ite ?_ (.ite ((report_traces _ _ _).after fun _ => positional) positional)
        -- arguments of a variant with named fields are reported, and left alone
        cases args with
        | nil => exact named
        | cons a rest => exact (report_traces _ _ _).bind fun _ => named
      · refine .ite (.ite (.bind fun _ => ?_) ?_) (.ite (.bind fun _ => ?_) ?_)
        · exact .bind fun _ => .bind fun _ => .pure rfl
        · exact .bind fun _ => .bind fun _ => .pure rfl
        · exact .bind fun _ => .bind fun _ => .bind fun _ => .pure rfl
        · exact .bind fun _ => .bind fun _ => .bind fun _ => .pure rfl
  | .tuple info elements, hint => by
    rw [infer]
    exact node_traces (e := .tuple info elements) (by rw [Expr.nodes]) rfl
      ((shallow?_traces hint).after fun _ => (inferEach_traces elements _).before fun _ => .pure _)
  | .array info elements, hint => by
    rw [infer]
    refine node_traces (e := .array info elements) (by rw [Expr.nodes]) rfl
      ((shallow?_traces hint).after fun known => ?_)
    dsimp only
    split
    · exact (inferItems_traces elements _).before fun _ => .pure _
    · exact (fresh_traces _).after fun _ => (inferItems_traces elements _).before fun _ => .pure _
  | .cast info operand written, hint => by
    rw [infer]
    exact node_traces (e := .cast info operand written) (by rw [Expr.nodes]) rfl ((resolve_traces written).after
      fun _ => (infer_traces operand none).before fun _ =>
        .after (.modify (fun _ => rfl) (fun _ => rfl) fun _ => rfl) fun _ => .pure _)
  | .assign info target value, hint => by
    rw [infer]
    refine node_traces (e := .assign info target value) (by rw [Expr.nodes]) rfl ?_
    have stored : Traces ctx (target.nodes ++ value.nodes) (do
        let t ← infer ctx target none
        ctx.assign value t (← infer ctx value (some t))
        return Ty.unit) :=
      (infer_traces target none).bind fun _ =>
        (infer_traces value _).before fun _ => (assign_traces _ _ _).after fun _ => .pure _
    exact .ite ((report_traces _ _ _).after fun _ => stored) stored
  | .select info scrutinee arms, hint => by
    rw [infer]
    refine node_traces (e := .select info scrutinee arms) (by rw [Expr.nodes]) rfl ?_
    refine (infer_traces scrutinee none).bind fun t => ?_
    cases arms with
    | nil => exact .pure _
    | cons arm rest =>
      exact (fresh_traces _).after fun _ => (checkArms_traces (arm :: rest) t _ _).before fun _ => .pure _
  | .branch info condition consequent none, hint => by
    rw [infer]
    refine node_traces (e := .branch info condition consequent none) (by rw [Expr.nodes]) rfl ?_
    rw [Expr.nodesOption, List.append_nil]
    exact (infer_traces condition _).bind fun _ => (unify_traces _ _ _).after fun _ =>
      (infer_traces consequent _).before fun _ => (unify_traces _ _ _).after fun _ => .pure _
  | .branch info condition consequent (some alternative), hint => by
    rw [infer]
    refine node_traces (e := .branch info condition consequent (some alternative)) (by rw [Expr.nodes]) rfl ?_
    rw [Expr.nodesOption, List.append_assoc]
    exact (infer_traces condition _).bind fun _ => (unify_traces _ _ _).after fun _ =>
      (infer_traces consequent _).bind fun _ => (infer_traces alternative _).before fun _ =>
        (unify_traces _ _ _).after fun _ => .pure _
  | .block body, hint => by
    rw [infer, Expr.nodes]
    exact block_traces (inferBlock_traces body hint)

theorem checkArgs_traces : ∀ (args : List Expr) (wants : Option (List Ty)),
    Traces ctx (Expr.nodesAll args) (checkArgs ctx args wants)
  | [], wants => by
    rw [checkArgs, Expr.nodesAll]
    exact .pure _
  | a :: rest, some (want :: wants) => by
    rw [checkArgs, Expr.nodesAll]
    exact (shallow_traces want).after fun _ => (infer_traces a _).bind fun _ =>
      (Context.pass_traces _ _ _ _).after fun _ => checkArgs_traces rest (some wants)
  | a :: rest, some [] => by
    rw [checkArgs, Expr.nodesAll]
    exact (infer_traces a none).bind fun _ => checkArgs_traces rest none
    · simp
  | a :: rest, none => by
    rw [checkArgs, Expr.nodesAll]
    exact (infer_traces a none).bind fun _ => checkArgs_traces rest none
    · simp

theorem inferEach_traces : ∀ (elements : List Expr) (hints : List Ty),
    Traces ctx (Expr.nodesAll elements) (inferEach ctx elements hints)
  | [], hints => by
    rw [inferEach, Expr.nodesAll]
    exact .pure _
  | e :: rest, hints => by
    rw [inferEach, Expr.nodesAll]
    exact (infer_traces e _).bind fun _ => (inferEach_traces rest _).before fun _ => .pure _

theorem inferItems_traces : ∀ (elements : List Expr) (element : Ty),
    Traces ctx (Expr.nodesAll elements) (inferItems ctx elements element)
  | [], element => by
    rw [inferItems, Expr.nodesAll]
    exact .pure _
  | e :: rest, element => by
    rw [inferItems, Expr.nodesAll]
    exact (infer_traces e _).bind fun _ => (unify_traces _ _ _).after fun _ => inferItems_traces rest element

theorem inferParts_traces : ∀ parts : List TemplatePart,
    Traces ctx (TemplatePart.nodesAll parts) (inferParts ctx parts)
  | [] => by
    rw [inferParts, TemplatePart.nodesAll]
    exact .pure _
  | .text _ :: rest => by
    rw [inferParts, TemplatePart.nodesAll]
    exact inferParts_traces rest
  | .value e :: rest => by
    rw [inferParts, TemplatePart.nodesAll]
    exact (infer_traces e none).bind fun _ => inferParts_traces rest

theorem inferFields_traces : ∀ fields : List FieldInit,
    Traces ctx (FieldInit.nodesAll fields) (inferFields ctx fields)
  | [] => by
    rw [inferFields, FieldInit.nodesAll]
    exact .pure _
  | .mk _ _ value :: rest => by
    rw [inferFields, FieldInit.nodesAll]
    exact (infer_traces value none).bind fun _ => inferFields_traces rest

theorem checkInits_traces (owner : String) (declared : List Field) : ∀ (seen : List String) (fields : List FieldInit),
    Traces ctx (FieldInit.nodesAll fields) (checkInits ctx owner declared seen fields)
  | seen, [] => by
    rw [checkInits, FieldInit.nodesAll]
    exact .pure _
  | seen, .mk name _ value :: rest => by
    rw [checkInits, FieldInit.nodesAll]
    have others := checkInits_traces owner declared (name :: seen) rest
    cases fieldNamed? declared name with
    | none => exact (report_traces _ _ _).after fun _ => (infer_traces value none).bind fun _ => others
    | some t =>
      have stored : Traces ctx (value.nodes ++ FieldInit.nodesAll rest) (do
          ctx.assign value t (← infer ctx value (some t))
          checkInits ctx owner declared (name :: seen) rest) :=
        (infer_traces value _).bind fun _ => (assign_traces _ _ _).after fun _ => others
      exact .ite ((report_traces _ _ _).after fun _ => stored) stored

theorem checkArms_traces : ∀ (arms : List MatchArm) (t result hint : Ty),
    Traces ctx (MatchArm.nodesAll arms) (checkArms ctx arms t result hint)
  | [], t, result, hint => by
    rw [checkArms, MatchArm.nodesAll]
    exact .pure _
  | .mk span pattern guard body :: rest, t, result, hint => by
    rw [checkArms, MatchArm.nodesAll, List.append_assoc, List.append_assoc]
    exact .after .push fun _ => (checkPattern_traces pattern t).bind fun _ =>
      (checkCondition_traces guard).bind fun _ => (infer_traces body _).bind fun _ =>
        (unify_traces _ _ _).after fun _ => .after .pop fun _ => checkArms_traces rest t result hint

theorem checkCondition_traces : ∀ condition : Option Expr,
    Traces ctx (Expr.nodesOption condition) (checkCondition ctx condition)
  | none => by
    rw [checkCondition, Expr.nodesOption]
    exact .pure _
  | some condition => by
    rw [checkCondition, Expr.nodesOption]
    exact (infer_traces condition _).before fun _ => (unify_traces _ _ _).after fun _ => .pure _

theorem inferBlock_traces : ∀ (body : Block) (hint : Option Ty),
    Traces ctx (Block.inside body) (inferBlock ctx body hint)
  | .mk info stmts (some value), hint => by
    rw [inferBlock]
    exact .inScope ((checkStmts_traces stmts).bind fun _ => infer_traces value hint)
  | .mk info stmts none, hint => by
    rw [inferBlock]
    refine .inScope ((checkStmts_traces stmts).bind fun _ => .ite ((fresh_traces _).after fun _ => ?_) (.pure _))
    exact .after (.modify (fun _ => rfl) (fun _ => rfl) fun _ => rfl) fun _ => .pure _

theorem checkStmts_traces : ∀ stmts : List Stmt, Traces ctx (Stmt.nodesAll stmts) (checkStmts ctx stmts)
  | [] => by
    rw [checkStmts, Stmt.nodesAll]
    exact .pure _
  | s :: rest => by
    rw [checkStmts, Stmt.nodesAll]
    exact (checkStmt_traces s).bind fun _ => checkStmts_traces rest

theorem checkStmt_traces : ∀ s : Stmt, Traces ctx s.nodes (checkStmt ctx s)
  | .bind span pattern type init => by
    have bound (declared : Option Ty) : Traces ctx (pattern.nodes ++ Expr.nodesOption init) (do
        let found ← inferInit ctx init declared
        let t ← match declared.or found with
          | some t => pure t
          | none => fresh .general
        checkPattern ctx pattern t) := by
      refine .perm ((inferInit_traces init declared).bind fun found => ?_) List.perm_append_comm
      cases declared.or found with
      | some t => exact checkPattern_traces pattern t
      | none => exact (fresh_traces _).after fun t => checkPattern_traces pattern t
    cases type with
    | some written =>
      rw [checkStmt]
      exact .node rfl (.after ((resolve_traces written).map _) bound)
    | none =>
      rw [checkStmt]
      exact .node rfl (bound none)
  | .expr span value => by
    rw [checkStmt]
    exact .node rfl ((infer_traces value none).before fun _ => .pure _)
  | .ret span none => by
    rw [checkStmt]
    exact .node rfl ((unify_traces _ _ _).after fun _ => .pure _)
  | .ret span (some value) => by
    rw [checkStmt]
    exact .node rfl ((infer_traces value _).before fun _ => assign_traces _ _ _)
  | .loop span condition body => by
    rw [checkStmt]
    exact .node rfl <| (infer_traces condition _).bind fun _ => (unify_traces _ _ _).after fun _ =>
      (block_traces (inferBlock_traces body none)).before fun _ => .pure _
  | .counted span init condition update body => by
    rw [checkStmt]
    refine .node rfl ?_
    rw [List.append_assoc, List.append_assoc]
    exact .inScope ((checkStmtOption_traces init).bind fun _ => (checkCondition_traces condition).bind fun _ =>
      (block_traces (inferBlock_traces body none)).bind fun _ => inferOption_traces update)

theorem checkStmtOption_traces : ∀ s : Option Stmt, Traces ctx (Stmt.nodesOption s) (checkStmtOption ctx s)
  | none => by
    rw [checkStmtOption, Stmt.nodesOption]
    exact .pure _
  | some s => by
    rw [checkStmtOption, Stmt.nodesOption]
    exact checkStmt_traces s

theorem inferOption_traces : ∀ e : Option Expr, Traces ctx (Expr.nodesOption e) (inferOption ctx e)
  | none => by
    rw [inferOption, Expr.nodesOption]
    exact .pure _
  | some e => by
    rw [inferOption, Expr.nodesOption]
    exact (infer_traces e none).before fun _ => .pure _

theorem inferInit_traces : ∀ (init : Option Expr) (declared : Option Ty),
    Traces ctx (Expr.nodesOption init) (inferInit ctx init declared)
  | none, declared => by
    rw [inferInit, Expr.nodesOption]
    exact .pure _
  | some value, some t => by
    rw [inferInit, Expr.nodesOption]
    exact (infer_traces value _).before fun _ => (assign_traces _ _ _).after fun _ => .pure _
  | some value, none => by
    rw [inferInit, Expr.nodesOption]
    exact (infer_traces value none).before fun _ => .pure _

theorem checkPattern_traces : ∀ (p : Pattern) (t : Ty), Traces ctx p.nodes (checkPattern ctx p t)
  | .wildcard info, t => by
    rw [checkPattern]
    exact .node rfl (record_traces info.id t)
  | .binding b, t => by
    rw [checkPattern]
    exact binding_traces b t
  | .literal info value, t => by
    cases value with
    | int n =>
      rw [checkPattern]
      exact (record_traces _ _).after fun _ => (fresh_traces _).after fun _ => (unify_traces _ _ _).after fun _ =>
        pendLiteral_traces fun queue => .literal info n queue
    | float text =>
      rw [checkPattern]
      exact pattern_traces (p := .literal info (.float text)) (by rw [Pattern.nodes]) rfl
        ((fresh_traces _).after fun _ => (unify_traces _ _ _).after fun _ => .pure _)
    | string text =>
      rw [checkPattern]
      exact pattern_traces (p := .literal info (.string text)) (by rw [Pattern.nodes]) rfl
        ((unify_traces _ _ _).after fun _ => .pure _)
    | bool value =>
      rw [checkPattern]
      exact pattern_traces (p := .literal info (.bool value)) (by rw [Pattern.nodes]) rfl
        ((unify_traces _ _ _).after fun _ => .pure _)
  | .range info low high inclusive, t => by
    rw [checkPattern]
    exact (record_traces _ _).after fun _ => (fresh_traces _).after fun _ => (unify_traces _ _ _).after fun _ =>
      range_traces info low high inclusive
  | .tuple info elements, t => by
    rw [checkPattern]
    exact pattern_traces (p := .tuple info elements) (by rw [Pattern.nodes]) rfl
      ((Context.elementTypes_traces _ _ _).after fun _ => checkPatterns_traces elements _)
  | .list info front isOpen none, t => by
    rw [checkPattern]
    refine pattern_traces (p := .list info front isOpen none) (by rw [Pattern.nodes]) rfl ?_
    exact (fresh_traces _).after fun _ => (unify_traces _ _ _).after fun _ =>
      (checkEach_traces front _).bind fun _ => .pure _
  | .list info front isOpen (some b), t => by
    rw [checkPattern]
    refine pattern_traces (p := .list info front isOpen (some b)) (by rw [Pattern.nodes]) rfl ?_
    exact (fresh_traces _).after fun _ => (unify_traces _ _ _).after fun _ =>
      (checkEach_traces front _).bind fun _ => binding_traces b _
  | .record info name fields rest, t => by
    rw [checkPattern]
    refine pattern_traces (p := .record info name fields rest) (by rw [Pattern.nodes]) rfl ?_
    cases ctx.table.decls.struct? name with
    | none => exact (report_traces _ _ _).after fun _ => checkFieldPatterns_traces none [] fields
    | some d =>
      exact (freshAll_traces _).after fun _ => (unify_traces _ _ _).after fun _ =>
        (struct_traces _ _).after fun _ =>
        (checkFieldPatterns_traces _ [] fields).before fun _ =>
          .ite (Context.requireFieldPatterns_traces _ _ _ _) (.pure _)
  | .variant info enum variant args fields rest, t => by
    rw [checkPattern]
    refine pattern_traces (p := .variant info enum variant args fields rest) (by rw [Pattern.nodes]) rfl ?_
    refine (Context.variant?_traces _ _ _ _).after fun found => ?_
    rcases found with _ | found
    · exact (checkEach_traces args _).bind fun _ => checkFieldPatterns_traces none [] fields
    · refine (freshAll_traces _).after fun typeArgs => (unify_traces _ _ _).after fun _ =>
        (variant_traces _ _).after fun _ => ?_
      have named : Traces ctx (Pattern.nodesAll args ++ FieldPattern.nodesAll fields) (do
          checkEach ctx args .invalid
          let slots := Decls.slots found.enum typeArgs found.variant
          let declared := Context.slotFields found.variant slots
          checkFieldPatterns ctx (some (found.text, declared)) [] fields
          if !rest then
            ctx.requireFieldPatterns info.span found.text declared (fields.map FieldPattern.name)) :=
        (checkEach_traces args _).bind fun _ => (checkFieldPatterns_traces _ [] fields).before fun _ =>
          .ite (Context.requireFieldPatterns_traces _ _ _ _) (.pure _)
      have positional : Traces ctx (Pattern.nodesAll args ++ FieldPattern.nodesAll fields) (do
          let slots := Decls.slots found.enum typeArgs found.variant
          checkFieldPatterns ctx none [] fields
          if args.length != slots.length then
            ctx.report .arityMismatch info.span
              s!"variant `{found.text}` has {slots.length} field(s) but the pattern has {args.length}"
          checkPatterns ctx args (if args.length == slots.length then slots else [])) :=
        .perm ((checkFieldPatterns_traces none [] fields).bind fun _ =>
          .ite ((report_traces _ _ _).after fun _ => checkPatterns_traces args _) (checkPatterns_traces args _))
          List.perm_append_comm
      exact .ite (.ite ((report_traces _ _ _).after fun _ => named) named)
        (.ite ((report_traces _ _ _).after fun _ => positional) positional)
  | .alternatives info choices, t => by
    rw [checkPattern]
    exact pattern_traces (p := .alternatives info choices) (by rw [Pattern.nodes]) rfl (checkChoices_traces choices t)
  | .guarded info inner condition, t => by
    rw [checkPattern]
    refine pattern_traces (p := .guarded info inner condition) (by rw [Pattern.nodes]) rfl ?_
    exact (checkPattern_traces inner t).bind fun _ =>
      (infer_traces condition _).before fun _ => (unify_traces _ _ _).after fun _ => .pure _

theorem checkPatterns_traces : ∀ (ps : List Pattern) (types : List Ty),
    Traces ctx (Pattern.nodesAll ps) (checkPatterns ctx ps types)
  | [], types => by
    rw [checkPatterns, Pattern.nodesAll]
    exact .pure _
  | p :: rest, types => by
    rw [checkPatterns, Pattern.nodesAll]
    exact (checkPattern_traces p _).bind fun _ => checkPatterns_traces rest _

theorem checkEach_traces : ∀ (ps : List Pattern) (t : Ty), Traces ctx (Pattern.nodesAll ps) (checkEach ctx ps t)
  | [], t => by
    rw [checkEach, Pattern.nodesAll]
    exact .pure _
  | p :: rest, t => by
    rw [checkEach, Pattern.nodesAll]
    exact (checkPattern_traces p t).bind fun _ => checkEach_traces rest t

theorem checkFieldPatterns_traces (owner : Option (String × List Field)) :
    ∀ (seen : List String) (fields : List FieldPattern),
      Traces ctx (FieldPattern.nodesAll fields) (checkFieldPatterns ctx owner seen fields)
  | seen, [] => by
    rw [checkFieldPatterns, FieldPattern.nodesAll]
    exact .pure _
  | seen, .mk name p :: rest => by
    rw [FieldPattern.nodesAll]
    have others := checkFieldPatterns_traces owner (name :: seen) rest
    rcases owner with _ | ⟨ownerName, declared⟩
    · rw [checkFieldPatterns]
      exact (checkPattern_traces p _).bind fun _ => others
    · rw [checkFieldPatterns]
      dsimp only
      cases fieldNamed? declared name with
      | none => exact (report_traces _ _ _).after fun _ => (checkPattern_traces p _).bind fun _ => others
      | some t =>
        have bound := (checkPattern_traces p t).bind fun _ => others
        exact .ite ((report_traces _ _ _).after fun _ => bound) bound

theorem checkChoices_traces : ∀ (choices : List Pattern) (t : Ty),
    Traces ctx (Pattern.nodesAll choices) (checkChoices ctx choices t)
  | [], t => by
    rw [checkChoices, Pattern.nodesAll]
    exact .pure _
  | first :: rest, t => by
    rw [checkChoices, Pattern.nodesAll]
    exact (checkPattern_traces first t).bind fun _ => checkOthers_traces _ rest t

theorem checkOthers_traces (names : List String) : ∀ (choices : List Pattern) (t : Ty),
    Traces ctx (Pattern.nodesAll choices) (checkOthers ctx names choices t)
  | [], t => by
    rw [checkOthers, Pattern.nodesAll]
    exact .pure _
  | p :: rest, t => by
    rw [checkOthers, Pattern.nodesAll]
    exact .after .push fun _ => (checkPattern_traces p t).bind fun _ => .after .pop fun _ =>
      (Context.compareBindings_traces _ _ _).after fun _ => checkOthers_traces names rest t

end

end TreeCheck.Typing
