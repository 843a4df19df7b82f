import TreeCheck.Proofs.Typing.Lookups
import TreeCheck.Typing.Infer

/-!
Inference over a tree: every expression and every pattern in it gets a type, and as long as nothing is
reported all of these types are proper.
-/

namespace TreeCheck.Typing

section
-- The equations of these definitions are made here once, so that no proof below waits while another makes them.
attribute [local simp] Block.nodes Expr.nodes Pattern.nodes Stmt.nodes Expr.nodesAll infer checkPattern checkStmt inferBlock
end

variable {ctx : Context} {P : State → Prop} [Lasting P] {nodes more : List TreeNode}

/-! ### Checks in a row -/

theorem against_sound {α : Type} {check : Check Ty} {span : Span} {want : Ty} {next : Bool → Check α}
    {Q : α → State → Prop} (first : Sound ctx P check fun t s => s.Knows t ∧ s.Covers ctx nodes)
    (known : ∀ s, ctx.Proper → P s → s.Knows want)
    (rest : ∀ worked, Sound ctx (fun s => P s ∧ s.Covers ctx nodes) (next worked) Q) :
    Sound ctx P (do next (← ctx.unify span want (← check))) Q := by
  refine .bind first fun found => ?_
  refine .step (unify_sound span want found)
    (fun s proper given => ⟨known s proper given.1, given.2.1⟩) fun worked => ?_
  exact (rest worked).imp (fun _ _ given => ⟨given.1.1, given.1.2.2⟩) fun _ _ _ found => found

/-- Two trees with one type. -/
theorem operands_sound {α : Type} {left : Check Ty} {right : Ty → Check Ty} {span : Span}
    {next : Ty → Bool → Check α} {Q : α → State → Prop}
    (first : Sound ctx P left fun t s => s.Knows t ∧ s.Covers ctx nodes)
    (second : ∀ t, Sound ctx (fun s => P s ∧ s.Knows t) (right t) fun t s => s.Knows t ∧ s.Covers ctx more)
    (rest : ∀ t worked, Sound ctx (fun s => s.Knows t ∧ s.Covers ctx (nodes ++ more) ∧ worked = true)
      (next t worked) Q) :
    Sound ctx P (do
      let t ← left
      next t (← ctx.unify span t (← right t))) Q := by
  refine .bind first fun t => ?_
  refine .step (second t) (fun _ _ given => ⟨given.1, given.2.1⟩) fun found => ?_
  refine .step (unify_sound span t found) (fun _ _ given => ⟨given.1.2.1, given.2.1⟩) fun worked => ?_
  refine (rest t worked).imp (fun _ _ given => ?_) fun _ _ _ found => found
  exact ⟨given.1.1.2.1, State.covers_append.mpr ⟨given.1.1.2.2, given.1.2.2⟩, given.2⟩

/-- A report that is only made where something is wrong, and what is done in either case. -/
theorem guard_sound {α : Type} {wrong : Prop} [Decidable wrong] {report : Check Unit} {next : Unit → Check α}
    {Q : α → State → Prop} (reported : Sound ctx P report fun _ _ => False)
    (rest : Sound ctx (fun s => P s ∧ ¬ wrong) (next ()) Q) :
    Sound ctx P (if wrong then report >>= next else next ()) Q := by
  split
  · exact .bind reported fun _ => rest.unreachable fun _ _ given => given.2
  next fine => exact rest.imp (fun _ _ given => ⟨given, fine⟩) fun _ _ _ found => found

/-- A step that is only taken sometimes. -/
theorem optional_sound {α : Type} {wanted : Prop} [Decidable wanted] {first : Check Unit} {next : Unit → Check α}
    {Q : α → State → Prop} (start : Sound ctx P first fun _ _ => True) (rest : Sound ctx P (next ()) Q) :
    Sound ctx P (if wanted then first >>= next else next ()) Q := by
  split
  · exact .bind start fun _ =>
      rest.imp (fun _ _ given => given.1) fun _ _ _ found => found
  · exact rest

/-- A last step that is only taken sometimes. -/
theorem closing_sound {wanted : Prop} [Decidable wanted] {check : Check Unit} {Q : State → Prop}
    (last : Sound ctx P check fun _ _ => True) (holds : ∀ s, P s → Q s) :
    Sound ctx P (if wanted then check else pure ()) fun _ s => Q s := by
  split
  · exact last.imp (fun _ _ given => given) fun _ s given _ => holds s given
  · exact .pure fun s _ given => holds s given

theorem Sound.hinted {α : Type} {t : Ty} {check : Option Ty → Check α} {Q : α → State → Prop}
    (sound : Sound ctx (fun s => ∀ u ∈ some t, s.Knows u) (check (some t)) Q)
    (known : ∀ s, ctx.Proper → P s → s.Knows t) : Sound ctx P (check (some t)) Q :=
  sound.imp (fun s proper given _ member => Option.some.inj member ▸ known s proper given) fun _ _ _ found => found

theorem Sound.unhinted {α : Type} {check : Option Ty → Check α} {Q : α → State → Prop}
    (sound : Sound ctx (fun s => ∀ u ∈ (none : Option Ty), s.Knows u) (check none) Q) :
    Sound ctx P (check none) Q :=
  sound.imp (fun _ _ _ _ member => by cases member) fun _ _ _ found => found

/-- A condition is of truth values. -/
theorem condition_sound {α : Type} {check : Option Ty → Check Ty} {span : Span} {next : Bool → Check α}
    {Q : α → State → Prop} (first : Sound ctx (fun s => ∀ u ∈ some Ty.bool, s.Knows u) (check (some .bool))
      fun t s => s.Knows t ∧ s.Covers ctx nodes)
    (rest : ∀ worked, Sound ctx (fun s => P s ∧ s.Covers ctx nodes) (next worked) Q) :
    Sound ctx P (do next (← ctx.unify span .bool (← check (some .bool)))) Q :=
  against_sound (first.hinted fun _ _ _ => Ty.proper_bool) (fun _ _ _ => Ty.proper_bool) rest

/-- Arguments against as many parameter types. -/
theorem arguments_sound {α : Type} {check : Option (List Ty) → Check Unit} {span : Span} {name : String}
    {count : Nat} {params : List Ty} {next : Unit → Check α} {Q : α → State → Prop}
    (checked : ∀ wants : Option (List Ty), Sound ctx (fun s => ∀ types ∈ wants, ∀ t ∈ types, s.Knows t)
      (check wants) fun _ s => s.Covers ctx nodes)
    (known : ∀ s, P s → ∀ t ∈ params, s.Knows t)
    (rest : Sound ctx (fun s => P s ∧ s.Covers ctx nodes) (next ()) Q) :
    Sound ctx P (ctx.arity span name count params >>= fun wants => check wants >>= next) Q := by
  refine .bind (ctx.arity_sound _ _ _ params) fun wants => ?_
  refine .step (checked wants) (fun s _ given types member => ?_) fun _ => ?_
  · cases given.2.symm.trans (Option.mem_def.mp member)
    exact known s given.1
  · exact rest.imp (fun _ _ given => ⟨given.1.1, given.2⟩) fun _ _ _ found => found

/-- What a block ends in does not return. -/
theorem diverge_sound (t : Ty) : Sound ctx (fun s => s.Knows t)
    (modify fun s => { s with diverging := s.diverging ++ [t] }) fun _ _ => True := fun _ =>
  ⟨id, fun _ _ known given => ⟨known.of_same rfl rfl known.scopes
    (List.forall_mem_append.mpr ⟨known.diverging, List.forall_mem_singleton.mpr given⟩),
    .of_same rfl (.refl _) fun _ => id, trivial⟩⟩

/-! ### One expression -/

/-- An expression of which the types of all nodes are found. -/
def Inferred (ctx : Context) (e : Expr) : Prop :=
  ∀ hint : Option Ty, Sound ctx (fun s => ∀ t ∈ hint, s.Knows t) (infer ctx e hint)
    fun t s => s.Knows t ∧ s.Covers ctx e.nodes

theorem Inferred.of {e : Expr} {below : List TreeNode} (nodes : e.nodes = .expr e :: below)
    (sound : ∀ hint : Option Ty, Sound ctx (fun s => ∀ t ∈ hint, s.Knows t) (infer ctx e hint)
      fun t s => s.Knows t ∧ s.Records e.id ∧ s.Covers ctx below) : Inferred ctx e := by
  intro hint
  rw [nodes]
  refine (sound hint).ran.imp (fun _ _ given => given) fun t s _ found => ?_
  obtain ⟨⟨known, recorded, covered⟩, ran⟩ := found
  exact ⟨known, State.covers_cons.mpr ⟨⟨recorded, .inr ⟨hint, ran⟩⟩, covered⟩⟩

theorem Sound.statement {stmt : Stmt} {below : List TreeNode} (nodes : stmt.nodes = .stmt stmt :: below)
    (sound : Sound ctx (fun _ => True) (checkStmt ctx stmt) fun _ s => s.Covers ctx below) :
    Sound ctx (fun _ => True) (checkStmt ctx stmt) fun _ s => s.Covers ctx stmt.nodes := by
  rw [nodes]
  exact sound.ran.imp (fun _ _ given => given) fun _ _ _ found => State.covers_cons.mpr ⟨found.2, found.1⟩

/-- Arguments of which the types of all nodes are found. -/
def Passed (ctx : Context) (args : List Expr) : Prop :=
  ∀ wants : Option (List Ty), Sound ctx (fun s => ∀ types ∈ wants, ∀ t ∈ types, s.Knows t)
    (checkArgs ctx args wants) fun _ s => s.Covers ctx (Expr.nodesAll args)

def FieldsInferred (ctx : Context) (fields : List FieldInit) : Prop :=
  Sound ctx (fun _ => True) (inferFields ctx fields) fun _ s => s.Covers ctx (FieldInit.nodesAll fields)

/-- Initializers of which the types of all nodes are found, against any declared fields. -/
def Initialized (ctx : Context) (fields : List FieldInit) : Prop :=
  ∀ (owner : String) (declared : List Field) (seen : List String),
    Sound ctx (fun s => ∀ f ∈ declared, s.Knows f.type) (checkInits ctx owner declared seen fields)
      fun _ s => s.Covers ctx (FieldInit.nodesAll fields)

/-- A method is looked up behind the references around a value, and called. -/
theorem callMethod_sound {args : List Expr} (received : ctx.table.Received) (passed : Passed ctx args)
    (info : NodeInfo) (receiver : Expr) (name : String) (outer : Ty) :
    Sound ctx (fun s => s.Knows outer) (do
      let (base, derefs) ← deref outer
      match ← ctx.method? info receiver name base with
      | some signature =>
        let (params, result) ← ctx.enterMethod info receiver name outer base derefs signature
        checkArgs ctx args (← ctx.arity info.span signature.name args.length params)
        return result
      | none =>
        checkArgs ctx args none
        return .invalid)
      fun t s => s.Knows t ∧ s.Covers ctx (Expr.nodesAll args) := by
  refine .bind (deref_sound outer) fun inner => ?_
  obtain ⟨base, derefs⟩ := inner
  refine .bindRan ((ctx.method?_sound info receiver name base).imp (fun _ _ given => given.2)
    fun _ _ _ found => found) fun found ran => ?_
  cases found with
  | some signature =>
    obtain ⟨s, s', ran⟩ := ran
    have own := Context.method?_received received ran
    refine .step (ctx.enterMethod_sound own ?_ info receiver name outer base derefs)
      (fun _ _ given => ⟨given, given.1⟩) fun entered => ?_
    · rintro _ - ⟨-, known, same, proper, -⟩
      cases same
      exact proper
    obtain ⟨params, result⟩ := entered
    refine arguments_sound passed (fun _ given => given.2.1.1) ?_
    exact .pure fun _ _ given => ⟨given.1.2.1.2, given.2⟩
  | none =>
    refine .step (passed none) (fun _ _ _ _ member => by cases member) fun _ => ?_
    exact .pure fun _ _ given => absurd given.1.2 (by simp)

section Expressions

variable {info : NodeInfo}

-- One block, though no case uses another: each rewrites with the equations of `infer`, which are made
-- once for the block and not waited for by every case on its own.
mutual

theorem Inferred.binary {op : BinaryOp} {left right : Expr}
    (leftInferred : Inferred ctx left) (rightInferred : Inferred ctx right) :
    Inferred ctx (.binary info op left right) := by
  refine .of (by rw [Expr.nodes]) fun hint => ?_
  rw [infer]
  refine recorded_sound (.binary info op left right) ?_
  have second (t : Ty) : Sound ctx (fun s => (∀ t ∈ hint, s.Knows t) ∧ s.Knows t) (infer ctx right (some t))
      fun t s => s.Knows t ∧ s.Covers ctx right.nodes :=
    (rightInferred (some t)).hinted fun _ _ given => given.2
  have uniform (operator : String) (r : Requirement) : Sound ctx (fun s => ∀ t ∈ hint, s.Knows t) (do
      let t ← infer ctx left hint
      if ← ctx.unify right.span t (← infer ctx right (some t)) then
        ctx.require info.span operator t r
        return t
      else return .invalid) fun t s => s.Knows t ∧ s.Covers ctx (left.nodes ++ right.nodes) := by
    refine operands_sound (leftInferred hint) second fun t worked => ?_
    split
    · refine .step (require_sound _ _ t _) (fun _ _ given => given.1) fun _ => ?_
      exact .pure fun _ _ given => ⟨given.1.1, given.1.2.1⟩
    next failed => exact .pure fun _ _ given => (failed given.2.2).elim
  dsimp only
  split
  · exact uniform _ _
  · exact uniform _ _
  · refine .bind (leftInferred hint) fun t => ?_
    refine .bind (fresh_sound .integer) fun amount => ?_
    refine .bind (rightInferred none).unhinted fun found => ?_
    refine .step (unify_sound _ amount found) (fun _ _ given => ⟨given.1.2, given.2.1⟩) fun _ => ?_
    refine .step (require_sound _ _ t _) (fun _ _ given => given.1.1.1.2.1) fun _ => ?_
    exact .pure fun _ _ given => ⟨given.1.1.1.1.2.1, State.covers_append.mpr ⟨given.1.1.1.1.2.2, given.1.1.2.2⟩⟩
  · refine operands_sound (leftInferred none).unhinted second fun t worked => ?_
    split
    · refine .step (require_sound _ _ t _) (fun _ _ given => given.1) fun _ => ?_
      exact .pure fun _ _ given => ⟨Ty.proper_bool, given.1.2.1⟩
    · exact .pure fun _ _ given => ⟨Ty.proper_bool, given.2.1⟩
  · exact operands_sound (leftInferred none).unhinted second fun t worked =>
      .pure fun _ _ given => ⟨Ty.proper_bool, given.2.1⟩
  · refine condition_sound (leftInferred (some .bool)) fun _ => ?_
    refine condition_sound (rightInferred (some .bool)) fun _ => ?_
    exact .pure fun _ _ given => ⟨Ty.proper_bool, State.covers_append.mpr ⟨given.1.2, given.2⟩⟩

theorem Inferred.unary {op : UnaryOp} {operand : Expr} (operandInferred : Inferred ctx operand) :
    Inferred ctx (.unary info op operand) := by
  refine .of (by rw [Expr.nodes]) fun hint => ?_
  rw [infer]
  refine recorded_sound (.unary info op operand) ?_
  refine .bind (operandInferred hint) fun t => ?_
  have required (operator : String) (r : Requirement) : Sound ctx
      (fun s => (∀ t ∈ hint, s.Knows t) ∧ s.Knows t ∧ s.Covers ctx operand.nodes)
      (do ctx.require info.span operator t r; return t) fun t s => s.Knows t ∧ s.Covers ctx operand.nodes :=
    .step (require_sound _ _ t r) (fun _ _ given => given.2.1) fun _ => .pure fun _ _ given => given.1.2
  cases op with
  | neg =>
    dsimp only
    split
    · refine .bind (negateLiteral_sound _ _ _) fun _ => ?_
      exact (required _ _).imp (fun _ _ given => given.1) fun _ _ _ found => found
    · exact required _ _
  | not => exact required _ _
  | bitNot => exact required _ _

theorem Inferred.call {callee : Expr} {args : List Expr}
    (calleeInferred : Inferred ctx callee) (passed : Passed ctx args) :
    Inferred ctx (.call info callee args) := by
  refine .of (by rw [Expr.nodes]) fun hint => ?_
  rw [infer]
  refine recorded_sound (.call info callee args) ?_
  refine .bind (ctx.namedFunction?_sound callee) fun named => ?_
  cases named with
  | some signature =>
    refine .bind (Context.enterCall_sound info callee fun _ _ given => (given.2 signature rfl).1) fun entered => ?_
    obtain ⟨params, result⟩ := entered
    refine arguments_sound passed (fun _ given => given.2.1) ?_
    refine .pure fun _ _ given => ⟨given.1.2.2.1, State.covers_append.mpr ⟨?_, given.2⟩⟩
    obtain ⟨-, info, name, rfl⟩ := given.1.1.2 signature rfl
    rw [Expr.nodes]
    exact State.covers_cons.mpr ⟨⟨given.1.2.2.2, .inl ⟨info, name, rfl⟩⟩, State.covers_nil⟩
  | none =>
    refine .bind (calleeInferred none).unhinted fun found => ?_
    refine .step (shallow_sound found) (fun _ _ given => given.2.1) fun known => ?_
    split
    next params result =>
      refine arguments_sound passed
        (fun _ given => (Ty.proper_function.mp given.2).1) ?_
      exact .pure fun _ _ given =>
        ⟨(Ty.proper_function.mp given.1.2).2, State.covers_append.mpr ⟨given.1.1.2.2, given.2⟩⟩
    · refine guard_sound (report_sound _ _ _) ?_
      refine .step (passed none) (fun _ _ _ _ member => by cases member) fun _ => ?_
      refine .pure fun _ _ given => (given.1.2 ?_).elim
      cases known <;> first | rfl | exact (Ty.not_proper_invalid given.1.1.2).elim

theorem Inferred.methodCall {receiver : Expr} {name : String} {args : List Expr}
    (received : ctx.table.Received) (receiverInferred : Inferred ctx receiver) (passed : Passed ctx args) :
    Inferred ctx (.methodCall info receiver name args) := by
  refine .of (by rw [Expr.nodes]) fun hint => ?_
  rw [infer]
  refine recorded_sound (.methodCall info receiver name args) ?_
  refine .bind (receiverInferred none).unhinted fun outer => ?_
  exact (callMethod_sound received passed info receiver name outer).imp (fun _ _ given => given.2.1)
    fun _ _ given found => ⟨found.1, State.covers_append.mpr ⟨given.2.2, found.2⟩⟩

theorem Inferred.index {object index : Expr}
    (objectInferred : Inferred ctx object) (indexInferred : Inferred ctx index) :
    Inferred ctx (.index info object index) := by
  refine .of (by rw [Expr.nodes]) fun hint => ?_
  rw [infer]
  refine recorded_sound (.index info object index) ?_
  refine .bind (objectInferred none).unhinted fun outer => ?_
  refine .step (deref_sound outer) (fun _ _ given => given.2.1) fun inner => ?_
  obtain ⟨base, derefs⟩ := inner
  refine optional_sound (coerce_sound object.id .autoDeref) ?_
  refine .bind (indexInferred none).unhinted fun found => ?_
  refine .bind (fresh_sound .integer) fun number => ?_
  refine .step (unify_sound _ number found) (fun _ _ given => ⟨given.2, given.1.2.1⟩) fun _ => ?_
  exact (ctx.elementType_sound info object base).imp (fun _ _ given => given.1.1.1.2)
    fun _ _ given found => ⟨found.1, State.covers_append.mpr ⟨given.1.1.1.1.2.2, given.1.1.2.2⟩⟩

theorem Inferred.ref {mutable : Bool} {operand : Expr} (operandInferred : Inferred ctx operand) :
    Inferred ctx (.ref info mutable operand) := by
  refine .of (by rw [Expr.nodes]) fun hint => ?_
  rw [infer]
  refine recorded_sound (.ref info mutable operand) ?_
  refine .bind (shallow?_sound hint) fun known => ?_
  refine .step (operandInferred _) (fun _ _ given t member => ?_) fun t => ?_
  · split at member
    · cases member
      exact Ty.proper_ref.mp (given.2 _ rfl)
    · cases member
  · exact .pure fun _ _ given => ⟨Ty.proper_ref.mpr given.2.1, given.2.2⟩

theorem Inferred.struct {name : String} {fields : List FieldInit}
    (initialized : Initialized ctx fields) (inferred : FieldsInferred ctx fields) :
    Inferred ctx (.struct info name fields) := by
  refine .of (by rw [Expr.nodes]) fun hint => ?_
  rw [infer]
  refine recorded_sound (.struct info name fields) ?_
  refine .bind (ctx.literalStruct?_sound info name _ hint) fun found => ?_
  cases found with
  | some found =>
    obtain ⟨struct, args⟩ := found
    have applied {s : State}
        (known : ∃ found, some (struct, args) = some found ∧ Context.KnownStruct ctx name s found) :
        struct ≠ "" ∧ ∀ a ∈ args, s.Knows a := by
      obtain ⟨_, same, known⟩ := known
      cases same
      exact ⟨known.named, known.args⟩
    refine .bind (note_sound { structs := [(info.id, struct)] } rfl fun _ => rfl) fun _ => ?_
    refine .step (initialized struct _ [])
      (fun _ proper given => proper.table.decls.fields (applied given.1.2).2 struct) fun _ => ?_
    refine .bind (ctx.requireFields_sound _ _ _ _) fun _ => ?_
    exact .pure fun _ _ given => ⟨Ty.proper_struct.mpr (applied given.1.1.1.2), given.1.2⟩
  | none =>
    refine .step inferred (fun _ _ _ => trivial) fun _ => ?_
    exact .pure fun _ _ given => absurd given.1.2 (by simp)

theorem Inferred.variant {enum variant : String} {args : List Expr} {fields : List FieldInit}
    (passed : Passed ctx args) (initialized : Initialized ctx fields) (inferred : FieldsInferred ctx fields) :
    Inferred ctx (.variant info enum variant args fields) := by
  refine .of (by rw [Expr.nodes]) fun hint => ?_
  rw [infer]
  refine recorded_sound (.variant info enum variant args fields) ?_
  refine .bind (ctx.variant?_sound _ enum variant hint) fun found => ?_
  cases found with
  | some found =>
    have own (known : ∃ r, some found = some r ∧ r.Proper) : found.Proper := by simpa using known
    refine .step (Context.enterVariant_sound info found hint)
      (fun s _ given => ⟨own given.2, given.1⟩) fun typeArgs => ?_
    have slots {s : State} (known : (∃ r, some found = some r ∧ r.Proper) ∧ ∀ a ∈ typeArgs, s.Knows a) :
        ∀ t ∈ Decls.slots found.enum typeArgs found.variant, s.Knows t :=
      Decls.Proper.slots (own known.1).2 known.2
    dsimp only
    split
    · refine guard_sound (report_sound _ _ _) ?_
      refine .step (initialized _ _ [])
        (fun _ _ given => slotFields_known (slots ⟨given.1.1.2, given.1.2.1⟩)) fun _ => ?_
      refine .bind (ctx.requireFields_sound _ _ _ _) fun _ => ?_
      refine .pure fun s _ given => ?_
      obtain ⟨⟨⟨⟨⟨-, known⟩, typed⟩, empty⟩, covered⟩, -⟩ := given
      refine ⟨Ty.proper_enum.mpr ⟨(own known).1, typed.1⟩, State.covers_append.mpr ⟨?_, covered⟩⟩
      have empty : args = [] := by simpa using empty
      rw [empty, Expr.nodesAll]
      exact State.covers_nil
    · refine guard_sound (report_sound _ _ _) ?_
      refine .step inferred (fun _ _ _ => trivial) fun _ => ?_
      refine arguments_sound passed
        (fun _ given => slots ⟨given.1.1.1.2, given.1.1.2.1⟩) ?_
      refine .pure fun s _ given => ?_
      obtain ⟨⟨⟨⟨⟨-, known⟩, typed⟩, -⟩, covered⟩, more⟩ := given
      exact ⟨Ty.proper_enum.mpr ⟨(own known).1, typed.1⟩, State.covers_append.mpr ⟨more, covered⟩⟩
  | none =>
    refine .step (passed none) (fun _ _ _ _ member => by cases member) fun _ => ?_
    refine .step inferred (fun _ _ _ => trivial) fun _ => ?_
    exact .pure fun _ _ given => absurd given.1.1.2 (by simp)

theorem Inferred.tuple {elements : List Expr} (each : ∀ hints : List Ty,
      Sound ctx (fun s => ∀ t ∈ hints, s.Knows t) (inferEach ctx elements hints)
        fun types s => (∀ t ∈ types, s.Knows t) ∧ s.Covers ctx (Expr.nodesAll elements)) :
    Inferred ctx (.tuple info elements) := by
  refine .of (by rw [Expr.nodes]) fun hint => ?_
  rw [infer]
  refine recorded_sound (.tuple info elements) ?_
  refine .bind (shallow?_sound hint) fun known => ?_
  refine .step (each _) (fun _ _ given t member => ?_) fun types => ?_
  · split at member
    next types =>
      split at member
      · exact Ty.Proper.child _ (given.2 _ rfl) t member
      · cases member
    · cases member
  · exact .pure fun _ _ given => ⟨Ty.proper_product.mpr given.2.1, given.2.2⟩

theorem Inferred.array {elements : List Expr} (items : ∀ element : Ty,
      Sound ctx (fun s => s.Knows element) (inferItems ctx elements element)
        fun _ s => s.Covers ctx (Expr.nodesAll elements)) :
    Inferred ctx (.array info elements) := by
  refine .of (by rw [Expr.nodes]) fun hint => ?_
  rw [infer]
  refine recorded_sound (.array info elements) ?_
  refine .bind (shallow?_sound hint) fun known => ?_
  have rest (element : Ty) : Sound ctx (fun s => s.Knows element) (do
      inferItems ctx elements element
      return .array element) fun t s => s.Knows t ∧ s.Covers ctx (Expr.nodesAll elements) := by
    refine .bind (items element) fun _ => ?_
    exact .pure fun _ _ given => ⟨Ty.proper_array.mpr given.1, given.2⟩
  dsimp only
  split
  next element =>
    rw [pure_bind]
    exact (rest element).imp (fun _ _ given => Ty.proper_array.mp (given.2 _ rfl)) fun _ _ _ found => found
  · refine .bind (fresh_sound .general) fun element => ?_
    exact (rest element).imp (fun _ _ given => given.2) fun _ _ _ found => found

theorem Inferred.block {stmts : List Stmt} {tail : Option Expr} (inner : ∀ hint : Option Ty,
      Sound ctx (fun s => ∀ t ∈ hint, s.Knows t) (recorded info.id (inferBlock ctx (.mk info stmts tail) hint))
        fun t s => s.Knows t ∧ s.Records info.id ∧ s.Covers ctx (Stmt.nodesAll stmts ++ Expr.nodesOption tail))
    (hint : Option Ty) : Sound ctx (fun s => ∀ t ∈ hint, s.Knows t)
      (recorded info.id (inferBlock ctx (.mk info stmts tail) hint))
      fun t s => s.Knows t ∧ s.Covers ctx (Block.nodes (.mk info stmts tail)) := by
  have whole : Inferred ctx (.block (.mk info stmts tail)) := by
    refine .of (by rw [Expr.nodes, Block.nodes]) fun hint => ?_
    rw [infer]
    exact inner hint
  have found := whole hint
  rw [infer, Expr.nodes] at found
  exact found

theorem Inferred.select {scrutinee : Expr} {arms : List MatchArm} (scrutineeInferred : Inferred ctx scrutinee)
    (armsChecked : ∀ t result hint : Ty, Sound ctx (fun s => s.Knows t ∧ s.Knows result ∧ s.Knows hint)
      (checkArms ctx arms t result hint) fun _ s => s.Covers ctx (MatchArm.nodesAll arms)) :
    Inferred ctx (.select info scrutinee arms) := by
  refine .of (by rw [Expr.nodes]) fun hint => ?_
  rw [infer]
  refine recorded_sound (.select info scrutinee arms) ?_
  refine .bind (scrutineeInferred none).unhinted fun t => ?_
  split
  next empty =>
    refine .pure fun _ _ given => ⟨Ty.proper_unit, State.covers_append.mpr ⟨given.2.2, ?_⟩⟩
    rw [List.isEmpty_iff.mp empty, MatchArm.nodesAll]
    exact State.covers_nil
  · refine .bind (fresh_sound .general) fun result => ?_
    refine .step (armsChecked t result _)
      (fun _ _ given => ⟨given.1.2.1, given.2, ?_⟩) fun _ => ?_
    · cases hint with
      | none => exact given.2
      | some t => exact given.1.1 t rfl
    · exact .pure fun _ _ given => ⟨given.1.2, State.covers_append.mpr ⟨given.1.1.2.2, given.2⟩⟩

end

end Expressions

/-! ### One pattern -/

/-- A pattern of which the types of all nodes are found, whatever type it matches. -/
def Matched (ctx : Context) (p : Pattern) : Prop :=
  ∀ t : Ty, Sound ctx (fun s => s.Knows t) (checkPattern ctx p t) fun _ s => s.Covers ctx p.nodes

theorem Matched.of {p : Pattern} {below : List TreeNode} (nodes : p.nodes = .pattern p :: below)
    (sound : ∀ t : Ty, Sound ctx (fun s => s.Knows t) (checkPattern ctx p t)
      fun _ s => (p.id, t) ∈ s.notes.types ∧ s.Covers ctx below) : Matched ctx p := by
  intro t
  rw [nodes]
  refine (sound t).ran.imp (fun _ _ given => given) fun _ s _ found => ?_
  obtain ⟨⟨recorded, covered⟩, ran⟩ := found
  exact State.covers_cons.mpr ⟨⟨t, recorded, ran⟩, covered⟩

def EachMatched (ctx : Context) (ps : List Pattern) : Prop :=
  ∀ t : Ty, Sound ctx (fun s => ps = [] ∨ s.Knows t) (checkEach ctx ps t)
    fun _ s => s.Covers ctx (Pattern.nodesAll ps)

def FieldsMatched (ctx : Context) (fields : List FieldPattern) : Prop :=
  ∀ (owner : Option (String × List Field)) (seen : List String),
    Sound ctx (fun s => fields = [] ∨ ∃ known, owner = some known ∧ ∀ f ∈ known.2, s.Knows f.type)
      (checkFieldPatterns ctx owner seen fields) fun _ s => s.Covers ctx (FieldPattern.nodesAll fields)

section Patterns

variable {info : NodeInfo}

theorem Matched.binding {b : Binding} : Matched ctx (.binding b) := by
  refine .of (by rw [Pattern.nodes]) fun t => ?_
  rw [checkPattern]
  refine .bind (record_sound b.info.id t) fun _ => ?_
  exact (declare_sound b.name t).imp (fun _ _ given => given.1) fun _ _ given _ => ⟨given.2, State.covers_nil⟩

theorem Matched.literal {value : Literal} :
    Matched ctx (.literal info value) := by
  refine .of (by rw [Pattern.nodes]) fun t => ?_
  have typed {u : Ty} {P : State → Prop} [Lasting P]
      (known : ∀ s, P s → s.Knows t ∧ (info.id, t) ∈ s.notes.types ∧ s.Knows u) :
      Sound ctx P (ctx.unify info.span t u) fun _ s => (info.id, t) ∈ s.notes.types :=
    (unify_sound info.span t u).imp (fun s _ given => ⟨(known s given).1, (known s given).2.2⟩)
      fun _ s given _ => (known s given).2.1
  have closed {u : Ty} (known : u.Proper []) : Sound ctx (fun s => s.Knows t) (do
      record info.id t
      let _ ← ctx.unify info.span t u) fun _ s => (info.id, t) ∈ s.notes.types ∧ s.Covers ctx [] := by
    refine .bind (record_sound info.id t) fun _ => ?_
    refine .bind (typed fun s given => ⟨given.1, given.2, known.mono List.nil_prefix⟩) fun _ => ?_
    exact .pure fun _ _ given => ⟨given.2, State.covers_nil⟩
  cases value with
  | int n =>
    rw [checkPattern]
    refine .bind (record_sound info.id t) fun _ => ?_
    refine .bind (fresh_sound .integer) fun number => ?_
    refine .bind (typed fun s given => ⟨given.1.1, given.1.2, given.2⟩) fun _ => ?_
    exact (pendLiteral_sound _ _ _).imp (fun _ _ given => given) fun _ _ given _ =>
      ⟨given.2, State.covers_nil⟩
  | float text =>
    rw [checkPattern]
    refine .bind (record_sound info.id t) fun _ => ?_
    refine .bind (fresh_sound .float) fun number => ?_
    refine .bind (typed fun s given => ⟨given.1.1, given.1.2, given.2⟩) fun _ => ?_
    exact .pure fun _ _ given => ⟨given.2, State.covers_nil⟩
  | string text =>
    rw [checkPattern]
    exact closed Ty.proper_string
  | bool value =>
    rw [checkPattern]
    exact closed Ty.proper_bool

theorem Matched.list {front : List Pattern} {isOpen : Bool} {rest : Option Binding}
    (each : EachMatched ctx front) :
    Matched ctx (.list info front isOpen rest) := by
  refine .of (by rw [Pattern.nodes]) fun t => ?_
  rw [checkPattern]
  refine .bind (record_sound info.id t) fun _ => ?_
  refine .bind (fresh_sound .general) fun element => ?_
  refine .step (unify_sound _ t (.array element)) (fun _ _ given => ⟨given.1.1, Ty.proper_array.mpr given.2⟩)
    fun fits => ?_
  have known {s : State} (given : s.Knows element ∧ fits = true) :
      s.Knows (if fits then element else .invalid) := by
    rw [if_pos given.2]
    exact given.1
  refine .step (each _)
    (fun _ _ given => .inr (known ⟨given.1.2, given.2⟩)) fun _ => ?_
  cases rest with
  | none =>
    refine .pure fun _ _ given => ⟨given.1.1.1.2, ?_⟩
    simpa using given.2
  | some b =>
    have array {s : State} (given : s.Knows element ∧ fits = true) :
        s.Knows (.array (if fits then element else .invalid)) := Ty.proper_array.mpr (known given)
    -- The binding of the rest is checked as one on its own is.
    have bound := (Matched.binding : Matched ctx (.binding b)) (.array (if fits then element else .invalid))
    rw [checkPattern, Pattern.nodes] at bound
    exact bound.imp (fun _ _ given => array ⟨given.1.1.2, given.1.2⟩) fun _ _ given covered =>
      ⟨given.1.1.1.2, State.covers_append.mpr ⟨given.2, covered⟩⟩

theorem Matched.record {name : String} {fields : List FieldPattern} {rest : Bool}
    (fieldsMatched : FieldsMatched ctx fields) :
    Matched ctx (.record info name fields rest) := by
  refine .of (by rw [Pattern.nodes]) fun t => ?_
  rw [checkPattern]
  refine .bind (record_sound info.id t) fun _ => ?_
  cases declared : ctx.table.decls.struct? name with
  | none =>
    refine .bind (report_sound _ _ _) fun _ => ?_
    exact (fieldsMatched none []).unreachable fun _ _ given => given.2
  | some d =>
    have named (proper : ctx.Proper) : name ≠ "" := (proper.table.decls.struct declared).2.1
    refine .bind (freshAll_sound d.params) fun args => ?_
    refine .step (unify_sound _ t (.struct name args))
      (fun _ proper given => ⟨given.1.1, Ty.proper_struct.mpr ⟨named proper, given.2.2⟩⟩) fun _ => ?_
    refine .bind (note_sound { structs := [(info.id, name)] } rfl fun _ => rfl) fun _ => ?_
    refine .step (fieldsMatched _ []) (fun _ proper given => .inr ⟨_, rfl,
      proper.table.decls.fields given.1.1.2.2 name⟩) fun _ => ?_
    exact closing_sound (ctx.requireFieldPatterns_sound _ _ _ _) fun _ given => ⟨given.1.1.1.1.2, given.2⟩

theorem Matched.variant {enum variant : String} {args : List Pattern} {fields : List FieldPattern} {rest : Bool}
    (each : EachMatched ctx args) (inOrder : ∀ types : List Ty,
      Sound ctx (fun s => args.length ≤ types.length ∧ ∀ t ∈ types, s.Knows t) (checkPatterns ctx args types)
        fun _ s => s.Covers ctx (Pattern.nodesAll args)) (fieldsMatched : FieldsMatched ctx fields) :
    Matched ctx (.variant info enum variant args fields rest) := by
  refine .of (by rw [Pattern.nodes]) fun t => ?_
  rw [checkPattern]
  refine .bind (record_sound info.id t) fun _ => ?_
  refine .step (ctx.variant?_sound _ enum variant (some t))
    (fun _ _ given _ member => Option.some.inj member ▸ given.1) fun found => ?_
  cases found with
  | none =>
    have never {r : VariantRef → Prop} (given : ∃ found, none = some found ∧ r found) : False := by
      simp at given
    refine .bind (Q := fun _ _ => False)
      ((each .invalid).unreachable fun _ _ given => never given.2) fun _ => ?_
    exact (fieldsMatched none []).unreachable fun _ _ given => given.2
  | some found =>
    have own (known : ∃ r, some found = some r ∧ r.Proper) : found.Proper := by simpa using known
    refine .bind (freshAll_sound found.enum.params) fun typeArgs => ?_
    refine .step (unify_sound _ t (.enum found.enum.name typeArgs)) (fun s _ given =>
      ⟨given.1.1.1, Ty.proper_enum.mpr ⟨(own given.1.2).1, given.2.2⟩⟩) fun _ => ?_
    refine .bind (note_sound { variants := [(info.id, found)] } rfl fun _ => rfl) fun _ => ?_
    have slots {s : State} (known : ∃ r, some found = some r ∧ r.Proper)
        (typed : ∀ a ∈ typeArgs, s.Knows a) :
        ∀ t ∈ Decls.slots found.enum typeArgs found.variant, s.Knows t :=
      Decls.Proper.slots (own known).2 typed
    dsimp only
    split
    · refine guard_sound (report_sound _ _ _) ?_
      refine .step (each .invalid)
        (fun _ _ given => .inl (by simpa using given.2)) fun _ => ?_
      refine .step (fieldsMatched _ []) (fun _ _ given => .inr ⟨_, rfl,
        slotFields_known (slots given.1.1.1.1.1.2 given.1.1.1.1.2.2)⟩) fun _ => ?_
      refine closing_sound (ctx.requireFieldPatterns_sound _ _ _ _) fun _ given => ?_
      obtain ⟨⟨⟨⟨⟨⟨⟨⟨-, recorded⟩, -⟩, -⟩, -⟩, -⟩, -⟩, covered⟩, more⟩ := given
      exact ⟨recorded, State.covers_append.mpr ⟨covered, more⟩⟩
    · refine guard_sound (report_sound _ _ _) ?_
      refine .step (fieldsMatched none [])
        (fun _ _ given => .inl (by simpa using given.2)) fun _ => ?_
      refine guard_sound (report_sound _ _ _) ?_
      have sized
          (differ : ¬ (args.length != (Decls.slots found.enum typeArgs found.variant).length) = true) :
          args.length = (Decls.slots found.enum typeArgs found.variant).length := by simpa using differ
      refine (inOrder _).imp (fun _ _ given => ?_) fun _ _ given covered => ?_
      · rw [if_pos (beq_iff_eq.mpr (sized given.2))]
        exact ⟨(sized given.2).le, slots given.1.1.1.1.1.1.2 given.1.1.1.1.1.2.2⟩
      · obtain ⟨⟨⟨⟨⟨⟨⟨⟨-, recorded⟩, -⟩, -⟩, -⟩, -⟩, -⟩, more⟩, -⟩ := given
        exact ⟨recorded, State.covers_append.mpr ⟨covered, more⟩⟩

end Patterns

/-! ### Whole trees -/

mutual

theorem infer_sound (received : ctx.table.Received) : ∀ e : Expr, Inferred ctx e
  | .int info value suffix => by
    refine .of (by rw [Expr.nodes]) fun hint => ?_
    rw [infer]
    refine recorded_sound (.int info value suffix) ?_
    refine .bind (pendLiteral_sound _ _ _) fun _ => ?_
    split
    next t named => exact .pure fun _ _ _ => ⟨(Decls.Proper.ofName? named).mono List.nil_prefix, by simp⟩
    · exact (fresh_sound _).imp (fun _ _ given => given) fun _ _ _ known => ⟨known, by simp⟩
  | .float info value suffix => by
    refine .of (by rw [Expr.nodes]) fun hint => ?_
    rw [infer]
    refine recorded_sound (.float info value suffix) ?_
    split
    next t named => exact .pure fun _ _ _ => ⟨(Decls.Proper.ofName? named).mono List.nil_prefix, by simp⟩
    · exact (fresh_sound _).imp (fun _ _ given => given) fun _ _ _ known => ⟨known, by simp⟩
  | .string info value => by
    refine .of (by rw [Expr.nodes]) fun hint => ?_
    rw [infer]
    exact recorded_sound (.string info value) (.pure fun _ _ _ => ⟨Ty.proper_string, by simp⟩)
  | .template info parts => by
    refine .of (by rw [Expr.nodes]) fun hint => ?_
    rw [infer]
    refine recorded_sound (.template info parts) ?_
    refine .step (inferParts_sound received parts) (fun _ _ _ => trivial) fun _ => ?_
    exact .pure fun _ _ given => ⟨Ty.proper_string, given.2⟩
  | .bool info value => by
    refine .of (by rw [Expr.nodes]) fun hint => ?_
    rw [infer]
    exact recorded_sound (.bool info value) (.pure fun _ _ _ => ⟨Ty.proper_bool, by simp⟩)
  | .ident info name => by
    refine .of (by rw [Expr.nodes]) fun hint => ?_
    rw [infer]
    exact recorded_sound (.ident info name)
      ((ctx.nameType_sound info name).imp (fun _ _ given => given) fun _ _ _ known => ⟨known, by simp⟩)
  | .binary _ _ left right => .binary (infer_sound received left) (infer_sound received right)
  | .unary _ _ operand => .unary (infer_sound received operand)
  | .call _ callee args =>
    .call (infer_sound received callee) (checkArgs_sound received args)
  | .methodCall _ receiver _ args =>
    .methodCall received (infer_sound received receiver) (checkArgs_sound received args)
  | .field info object name => by
    refine .of (by rw [Expr.nodes]) fun hint => ?_
    rw [infer]
    refine recorded_sound (.field info object name) ?_
    refine .bind (infer_sound received object none).unhinted fun outer => ?_
    refine .step (deref_sound outer) (fun _ _ given => given.2.1) fun inner => ?_
    obtain ⟨base, derefs⟩ := inner
    refine optional_sound (coerce_sound object.id .autoDeref) ?_
    exact (ctx.fieldType_sound info object name base).imp (fun _ _ given => given.2)
      fun _ _ given found => ⟨found.1, given.1.2.2⟩
  | .index _ object index => .index (infer_sound received object) (infer_sound received index)
  | .ref _ _ operand => .ref (infer_sound received operand)
  | .deref info operand => by
    refine .of (by rw [Expr.nodes]) fun hint => ?_
    rw [infer]
    refine recorded_sound (.deref info operand) ?_
    refine .bind (infer_sound received operand none).unhinted fun t => ?_
    exact (ctx.targetType_sound info t).imp (fun _ _ given => given.2.1)
      fun _ _ given found => ⟨found.1, given.2.2⟩
  | .struct _ _ fields =>
    .struct (checkInits_sound received · · · fields) (inferFields_sound received fields)
  | .variant _ _ _ args fields =>
    .variant (checkArgs_sound received args) (checkInits_sound received · · · fields)
      (inferFields_sound received fields)
  | .tuple _ elements => .tuple (inferEach_sound received elements)
  | .array _ elements => .array (inferItems_sound received elements)
  | .cast info operand written => by
    refine .of (by rw [Expr.nodes]) fun hint => ?_
    rw [infer]
    refine recorded_sound (.cast info operand written) ?_
    refine .bind (resolve_sound written) fun target => ?_
    refine .bind (infer_sound received operand none).unhinted fun _ => ?_
    refine .bind (pendCast_sound _) fun _ => ?_
    exact .pure fun _ _ given => ⟨given.1.1.2.1.mono List.nil_prefix, given.1.2.2⟩
  | .assign info target value => by
    refine .of (by rw [Expr.nodes]) fun hint => ?_
    rw [infer]
    refine recorded_sound (.assign info target value) ?_
    refine guard_sound (report_sound _ _ _) ?_
    refine .bind (infer_sound received target none).unhinted fun t => ?_
    refine .bind ((infer_sound received value (some t)).hinted fun _ _ given => given.2.1) fun found => ?_
    refine .step (assign_sound value t found) (fun _ _ given => ⟨given.1.2.1, given.2.1⟩) fun _ => ?_
    exact .pure fun _ _ given => ⟨Ty.proper_unit, State.covers_append.mpr ⟨given.1.1.2.2, given.1.2.2⟩⟩
  | .select _ scrutinee arms =>
    .select (infer_sound received scrutinee) (checkArms_sound received arms)
  | .branch info condition consequent none => by
    refine .of (by rw [Expr.nodes]) fun hint => ?_
    rw [infer]
    refine recorded_sound (.branch info condition consequent none) ?_
    refine condition_sound (infer_sound received condition (some .bool)) fun _ => ?_
    refine .step (infer_sound received consequent hint) (fun _ _ given => given.1) fun t => ?_
    refine .step (unify_sound _ .unit t) (fun _ _ given => ⟨Ty.proper_unit, given.2.1⟩) fun _ => ?_
    refine .pure fun _ _ given => ⟨Ty.proper_unit, ?_⟩
    simp [Expr.nodesOption, given.1.1.2, given.1.2.2]
  | .branch info condition consequent (some alternative) => by
    refine .of (by rw [Expr.nodes]) fun hint => ?_
    rw [infer]
    refine recorded_sound (.branch info condition consequent (some alternative)) ?_
    refine condition_sound (infer_sound received condition (some .bool)) fun _ => ?_
    refine .step (infer_sound received consequent hint) (fun _ _ given => given.1) fun t => ?_
    refine .step (infer_sound received alternative hint) (fun _ _ given => given.1.1) fun found => ?_
    refine .step (unify_sound _ t found) (fun _ _ given => ⟨given.1.2.1, given.2.1⟩) fun _ => ?_
    refine .pure fun _ _ given => ⟨given.1.1.2.1, ?_⟩
    simp [Expr.nodesOption, given.1.1.1.2, given.1.1.2.2, given.1.2.2]
  | .block body => by
    intro hint
    rw [infer, Expr.nodes]
    exact block_sound received body hint

theorem checkArgs_sound (received : ctx.table.Received) : ∀ (args : List Expr) (wants : Option (List Ty)),
    Sound ctx (fun s => ∀ types ∈ wants, ∀ t ∈ types, s.Knows t) (checkArgs ctx args wants)
      fun _ s => s.Covers ctx (Expr.nodesAll args)
  | [], _ => by
    rw [checkArgs, Expr.nodesAll]
    exact .pure fun _ _ _ => State.covers_nil
  | a :: rest, some (want :: wants) => by
    rw [checkArgs, Expr.nodesAll]
    refine .step (shallow_sound want) (fun _ _ given => given _ rfl want List.mem_cons_self) fun known => ?_
    refine .step (infer_sound received a _) (fun _ _ given t member => ?_) fun found => ?_
    · split at member
      · cases member
      · cases member
        exact given.1 _ rfl want List.mem_cons_self
    refine .step (ctx.pass_sound a want known found)
      (fun _ _ given => ⟨given.1.1 _ rfl want List.mem_cons_self, given.1.2, given.2.1⟩) fun _ => ?_
    refine (checkArgs_sound received rest (some wants)).imp (fun _ _ given types member t inside => ?_)
      fun _ _ given covered => State.covers_append.mpr ⟨given.1.2.2, covered⟩
    cases member
    exact given.1.1.1 _ rfl t (List.mem_cons_of_mem _ inside)
  | a :: rest, some [] => by
    rw [checkArgs, Expr.nodesAll]
    · refine .bind (infer_sound received a none).unhinted fun _ => ?_
      exact (checkArgs_sound received rest none).imp (fun _ _ _ _ member => by cases member)
        fun _ _ given covered => State.covers_append.mpr ⟨given.2.2, covered⟩
    · simp
  | a :: rest, none => by
    rw [checkArgs, Expr.nodesAll]
    · refine .bind (infer_sound received a none).unhinted fun _ => ?_
      exact (checkArgs_sound received rest none).imp (fun _ _ _ _ member => by cases member)
        fun _ _ given covered => State.covers_append.mpr ⟨given.2.2, covered⟩
    · simp

theorem inferEach_sound (received : ctx.table.Received) : ∀ (elements : List Expr) (hints : List Ty),
    Sound ctx (fun s => ∀ t ∈ hints, s.Knows t) (inferEach ctx elements hints)
      fun types s => (∀ t ∈ types, s.Knows t) ∧ s.Covers ctx (Expr.nodesAll elements)
  | [], _ => by
    rw [inferEach, Expr.nodesAll]
    exact .pure fun _ _ _ => ⟨List.forall_mem_nil _, State.covers_nil⟩
  | e :: rest, hints => by
    rw [inferEach, Expr.nodesAll]
    refine .step (infer_sound received e _)
      (fun _ _ given t member => given t (List.mem_of_mem_head? member)) fun t => ?_
    refine .step (inferEach_sound received rest hints.tail)
      (fun _ _ given t member => given.1 t (List.mem_of_mem_tail member)) fun types => ?_
    exact .pure fun _ _ given => ⟨List.forall_mem_cons.mpr ⟨given.1.2.1, given.2.1⟩,
      State.covers_append.mpr ⟨given.1.2.2, given.2.2⟩⟩

theorem inferItems_sound (received : ctx.table.Received) : ∀ (elements : List Expr) (element : Ty),
    Sound ctx (fun s => s.Knows element) (inferItems ctx elements element)
      fun _ s => s.Covers ctx (Expr.nodesAll elements)
  | [], _ => by
    rw [inferItems, Expr.nodesAll]
    exact .pure fun _ _ _ => State.covers_nil
  | e :: rest, element => by
    rw [inferItems, Expr.nodesAll]
    refine against_sound ((infer_sound received e (some element)).hinted fun _ _ given => given)
      (fun _ _ given => given) fun _ => ?_
    exact (inferItems_sound received rest element).imp (fun _ _ given => given.1)
      fun _ _ given covered => State.covers_append.mpr ⟨given.2, covered⟩

theorem inferFields_sound (received : ctx.table.Received) : ∀ fields : List FieldInit,
    Sound ctx (fun _ => True) (inferFields ctx fields) fun _ s => s.Covers ctx (FieldInit.nodesAll fields)
  | [] => by
    rw [inferFields, FieldInit.nodesAll]
    exact .pure fun _ _ _ => State.covers_nil
  | .mk _ _ value :: rest => by
    rw [inferFields, FieldInit.nodesAll]
    refine .bind (infer_sound received value none).unhinted fun _ => ?_
    exact (inferFields_sound received rest).imp (fun _ _ _ => trivial) fun _ _ given covered =>
      State.covers_append.mpr ⟨given.2.2, covered⟩

theorem checkInits_sound (received : ctx.table.Received) (owner : String) (declared : List Field) :
    ∀ (seen : List String) (fields : List FieldInit),
    Sound ctx (fun s => ∀ f ∈ declared, s.Knows f.type) (checkInits ctx owner declared seen fields)
      fun _ s => s.Covers ctx (FieldInit.nodesAll fields)
  | _, [] => by
    rw [checkInits, FieldInit.nodesAll]
    exact .pure fun _ _ _ => State.covers_nil
  | seen, .mk name _ value :: rest => by
    rw [checkInits, FieldInit.nodesAll]
    have others := checkInits_sound received owner declared (name :: seen) rest
    cases found : fieldNamed? declared name with
    | none =>
      refine .bind (report_sound _ _ _) fun _ => ?_
      refine .bind (infer_sound received value none).unhinted fun _ => ?_
      exact others.imp (fun _ _ given => given.1.1) fun _ _ given _ => given.1.2.elim
    | some t =>
      obtain ⟨f, member, -, rfl⟩ := fieldNamed?_mem found
      refine guard_sound (report_sound _ _ _) ?_
      refine .bind ((infer_sound received value _).hinted fun _ _ given => given.1 f member) fun found => ?_
      refine .step (assign_sound value _ found) (fun _ _ given => ⟨given.1.1 f member, given.2.1⟩) fun _ => ?_
      exact others.imp (fun _ _ given => given.1.1.1) fun _ _ given covered =>
        State.covers_append.mpr ⟨given.1.2.2, covered⟩

theorem checkArms_sound (received : ctx.table.Received) : ∀ (arms : List MatchArm) (t result hint : Ty),
    Sound ctx (fun s => s.Knows t ∧ s.Knows result ∧ s.Knows hint) (checkArms ctx arms t result hint)
      fun _ s => s.Covers ctx (MatchArm.nodesAll arms)
  | [], _, _, _ => by
    rw [checkArms, MatchArm.nodesAll]
    exact .pure fun _ _ _ => State.covers_nil
  | .mk _ pattern guard body :: rest, t, result, hint => by
    rw [checkArms, MatchArm.nodesAll]
    refine .bind push_sound fun _ => ?_
    refine .step (checkPattern_sound received pattern t) (fun _ _ given => given.1.1) fun _ => ?_
    refine .step (checkCondition_sound received guard) (fun _ _ _ => trivial) fun _ => ?_
    refine .bind ((infer_sound received body _).hinted fun _ _ given => given.1.1.1.2.2) fun found => ?_
    refine .step (unify_sound _ result found) (fun _ _ given => ⟨given.1.1.1.1.2.1, given.2.1⟩) fun _ => ?_
    refine .bind pop_sound fun _ => ?_
    refine (checkArms_sound received rest t result hint).imp (fun _ _ given => given.1.1.1.1.1.1)
      fun _ _ given covered => ?_
    obtain ⟨⟨⟨⟨⟨-, pattern⟩, guard⟩, -, body⟩, -⟩, -⟩ := given
    simp only [State.covers_append]
    exact ⟨⟨⟨pattern, guard⟩, body⟩, covered⟩

theorem inferParts_sound (received : ctx.table.Received) : ∀ parts : List TemplatePart,
    Sound ctx (fun _ => True) (inferParts ctx parts) fun _ s => s.Covers ctx (TemplatePart.nodesAll parts)
  | [] => by
    rw [inferParts, TemplatePart.nodesAll]
    exact .pure fun _ _ _ => State.covers_nil
  | .text _ :: rest => by
    rw [inferParts, TemplatePart.nodesAll]
    exact inferParts_sound received rest
  | .value e :: rest => by
    rw [inferParts, TemplatePart.nodesAll]
    refine .bind (infer_sound received e none).unhinted fun _ => ?_
    exact (inferParts_sound received rest).imp (fun _ _ _ => trivial) fun _ _ given covered =>
      State.covers_append.mpr ⟨given.2.2, covered⟩

theorem checkCondition_sound (received : ctx.table.Received) : ∀ condition : Option Expr,
    Sound ctx (fun _ => True) (checkCondition ctx condition) fun _ s => s.Covers ctx (Expr.nodesOption condition)
  | none => by
    rw [checkCondition, Expr.nodesOption]
    exact .pure fun _ _ _ => State.covers_nil
  | some condition => by
    rw [checkCondition, Expr.nodesOption]
    refine condition_sound (infer_sound received condition (some .bool)) fun _ => ?_
    exact .pure fun _ _ given => given.2

theorem block_sound (received : ctx.table.Received) : ∀ (body : Block) (hint : Option Ty),
    Sound ctx (fun s => ∀ t ∈ hint, s.Knows t) (recorded body.id (inferBlock ctx body hint))
      fun t s => s.Knows t ∧ s.Covers ctx body.nodes
  | .mk info stmts (some value), hint => by
    refine Inferred.block (fun hint => ?_) hint
    rw [inferBlock, Expr.nodesOption]
    refine recorded_sound (.block (.mk info stmts (some value))) (inScope_sound ?_)
    refine .step (checkStmts_sound received stmts) (fun _ _ _ => trivial) fun _ => ?_
    exact (infer_sound received value hint).imp (fun _ _ given => given.1) fun _ _ given found =>
      ⟨found.1, State.covers_append.mpr ⟨given.2, found.2⟩⟩
  | .mk info stmts none, hint => by
    refine Inferred.block (fun hint => ?_) hint
    rw [inferBlock, Expr.nodesOption, List.append_nil]
    refine recorded_sound (.block (.mk info stmts none)) (inScope_sound ?_)
    refine .step (checkStmts_sound received stmts) (fun _ _ _ => trivial) fun _ => ?_
    split
    · refine .bind (fresh_sound .general) fun t => ?_
      refine .step (diverge_sound t) (fun _ _ given => given.2) fun _ => ?_
      exact .pure fun _ _ given => ⟨given.1.2, given.1.1.2⟩
    · exact .pure fun _ _ given => ⟨Ty.proper_unit, given.2⟩

theorem checkStmts_sound (received : ctx.table.Received) : ∀ stmts : List Stmt,
    Sound ctx (fun _ => True) (checkStmts ctx stmts) fun _ s => s.Covers ctx (Stmt.nodesAll stmts)
  | [] => by
    rw [checkStmts, Stmt.nodesAll]
    exact .pure fun _ _ _ => State.covers_nil
  | stmt :: rest => by
    rw [checkStmts, Stmt.nodesAll]
    refine .bind (checkStmt_sound received stmt) fun _ => ?_
    exact (checkStmts_sound received rest).imp (fun _ _ _ => trivial) fun _ _ given covered =>
      State.covers_append.mpr ⟨given.2, covered⟩

theorem checkStmt_sound (received : ctx.table.Received) : ∀ stmt : Stmt,
    Sound ctx (fun _ => True) (checkStmt ctx stmt) fun _ s => s.Covers ctx stmt.nodes
  | .bind span pattern written init => by
    have stored (declared : Option Ty) : Sound ctx (fun s => ∀ t ∈ declared, s.Knows t) (do
        let found ← inferInit ctx init declared
        let t ← match declared.or found with
          | some t => pure t
          | none => fresh .general
        checkPattern ctx pattern t) fun _ s => s.Covers ctx (pattern.nodes ++ Expr.nodesOption init) := by
      refine .bind (inferInit_sound received init declared) fun found => ?_
      have matched {P : State → Prop} [Lasting P] (t : Ty) (known : ∀ s, P s → s.Knows t)
          (given : ∀ s, P s → s.Covers ctx (Expr.nodesOption init)) : Sound ctx P (checkPattern ctx pattern t)
          fun _ s => s.Covers ctx (pattern.nodes ++ Expr.nodesOption init) :=
        (checkPattern_sound received pattern t).imp (fun s _ => known s) fun _ s before covered =>
          State.covers_append.mpr ⟨covered, given s before⟩
      split
      next t either =>
        rw [pure_bind]
        refine matched t (fun s given => ?_) fun _ given => given.2.2
        cases declared with
        | some known => exact given.1 t either
        | none => exact given.2.1 t either
      · refine .bind (fresh_sound .general) fun t => ?_
        exact matched t (fun _ given => given.2) fun _ given => given.1.2.2
    refine .statement (by rw [Stmt.nodes]) ?_
    cases written with
    | some written =>
      rw [checkStmt, map_eq_pure_bind, bind_assoc]
      refine .bind (resolve_sound written) fun t => ?_
      rw [pure_bind]
      exact (stored (some t)).imp
        (fun _ _ given _ member => Option.some.inj member ▸ given.2.1.mono List.nil_prefix)
        fun _ _ _ covered => covered
    | none =>
      rw [checkStmt, pure_bind]
      exact (stored none).imp (fun _ _ _ _ member => by cases member) fun _ _ _ covered => covered
  | .expr span value => by
    refine .statement (by rw [Stmt.nodes]) ?_
    rw [checkStmt]
    refine .bind (infer_sound received value none).unhinted fun _ => ?_
    exact .pure fun _ _ given => given.2.2
  | .ret span none => by
    refine .statement (by rw [Stmt.nodes, Expr.nodesOption]) ?_
    rw [checkStmt]
    refine .step (unify_sound span ctx.signature.result .unit)
      (fun _ proper _ => ⟨?_, Ty.proper_unit⟩) fun _ => ?_
    · exact proper.signature.result.mono List.nil_prefix
    · exact .pure fun _ _ _ => State.covers_nil
  | .ret span (some value) => by
    refine .statement (by rw [Stmt.nodes, Expr.nodesOption]) ?_
    rw [checkStmt]
    have result {s : State} (proper : ctx.Proper) : s.Knows ctx.signature.result :=
      proper.signature.result.mono List.nil_prefix
    refine .bind ((infer_sound received value _).hinted fun _ proper _ => result proper) fun found => ?_
    exact (assign_sound value _ found).imp (fun _ proper given => ⟨result proper, given.2.1⟩) fun _ _ given _ =>
      given.2.2
  | .loop span condition body => by
    refine .statement (by rw [Stmt.nodes]) ?_
    rw [checkStmt]
    refine condition_sound (infer_sound received condition (some .bool)) fun _ => ?_
    refine .step (block_sound received body none) (fun _ _ _ _ member => by cases member) fun _ => ?_
    exact .pure fun _ _ given => State.covers_append.mpr ⟨given.1.2, given.2.2⟩
  | .counted span init condition update body => by
    refine .statement (by rw [Stmt.nodes]) ?_
    rw [checkStmt]
    refine inScope_sound ?_
    refine .bind (checkStmtOption_sound received init) fun _ => ?_
    refine .step (checkCondition_sound received condition) (fun _ _ _ => trivial) fun _ => ?_
    refine .step (block_sound received body none) (fun _ _ _ _ member => by cases member) fun _ => ?_
    refine (inferOption_sound received update).imp (fun _ _ _ => trivial) fun _ _ given covered => ?_
    obtain ⟨⟨⟨-, init⟩, condition⟩, -, body⟩ := given
    simp only [State.covers_append]
    exact ⟨⟨⟨init, condition⟩, body⟩, covered⟩

theorem checkStmtOption_sound (received : ctx.table.Received) : ∀ stmt : Option Stmt,
    Sound ctx (fun _ => True) (checkStmtOption ctx stmt) fun _ s => s.Covers ctx (Stmt.nodesOption stmt)
  | none => by
    rw [checkStmtOption, Stmt.nodesOption]
    exact .pure fun _ _ _ => State.covers_nil
  | some stmt => by
    rw [checkStmtOption, Stmt.nodesOption]
    exact checkStmt_sound received stmt

theorem inferOption_sound (received : ctx.table.Received) : ∀ e : Option Expr,
    Sound ctx (fun _ => True) (inferOption ctx e) fun _ s => s.Covers ctx (Expr.nodesOption e)
  | none => by
    rw [inferOption, Expr.nodesOption]
    exact .pure fun _ _ _ => State.covers_nil
  | some e => by
    rw [inferOption, Expr.nodesOption]
    refine .bind (infer_sound received e none).unhinted fun _ => ?_
    exact .pure fun _ _ given => given.2.2

theorem inferInit_sound (received : ctx.table.Received) : ∀ (init : Option Expr) (declared : Option Ty),
    Sound ctx (fun s => ∀ t ∈ declared, s.Knows t) (inferInit ctx init declared)
      fun r s => (∀ t ∈ r, s.Knows t) ∧ s.Covers ctx (Expr.nodesOption init)
  | none, _ => by
    rw [inferInit, Expr.nodesOption]
    exact .pure fun _ _ _ => ⟨fun _ member => by (cases member), State.covers_nil⟩
  | some value, declared => by
    rw [inferInit, Expr.nodesOption]
    refine .bind (infer_sound received value declared) fun found => ?_
    have answered {P : State → Prop} [Lasting P] (known : ∀ s, P s → s.Knows found ∧ s.Covers ctx value.nodes) :
        Sound ctx P (return some found) fun r s => (∀ t ∈ r, s.Knows t) ∧ s.Covers ctx value.nodes :=
      .pure fun s _ given => ⟨fun _ member => Option.some.inj member ▸ (known s given).1, (known s given).2⟩
    cases declared with
    | some t =>
      refine .step (assign_sound value t found) (fun _ _ given => ⟨given.1 t rfl, given.2.1⟩) fun _ => ?_
      exact answered fun _ given => given.1.2
    | none => exact answered fun _ given => given.2

theorem checkPattern_sound (received : ctx.table.Received) : ∀ p : Pattern, Matched ctx p
  | .wildcard info => by
    refine .of (by rw [Pattern.nodes]) fun t => ?_
    rw [checkPattern]
    exact (record_sound info.id t).imp (fun _ _ given => given) fun _ _ _ recorded =>
      ⟨recorded, State.covers_nil⟩
  | .binding _ => .binding
  | .literal .. => .literal
  | .range info low high inclusive => by
    refine .of (by rw [Pattern.nodes]) fun t => ?_
    rw [checkPattern]
    refine .bind (record_sound info.id t) fun _ => ?_
    refine .bind (fresh_sound .integer) fun number => ?_
    refine .step (unify_sound _ t number) (fun _ _ given => ⟨given.1.1, given.2⟩) fun _ => ?_
    refine .bind (pendLiteral_sound _ _ _) fun _ => ?_
    exact (pendLiteral_sound _ _ _).imp (fun _ _ given => given) fun _ _ given _ =>
      ⟨given.1.1.1.2, State.covers_nil⟩
  | .tuple info elements => by
    refine .of (by rw [Pattern.nodes]) fun t => ?_
    rw [checkPattern]
    refine .bind (record_sound info.id t) fun _ => ?_
    refine .step (ctx.elementTypes_sound info elements t) (fun _ _ given => given.1) fun types => ?_
    exact (checkPatterns_sound received elements types).imp (fun _ _ given => ⟨given.2.1.ge, given.2.2⟩)
      fun _ _ given covered => ⟨given.1.2, covered⟩
  | .list _ front _ _ =>
    .list (checkEach_sound received front)
  | .record _ _ fields _ =>
    .record (checkFieldPatterns_sound received · · fields)
  | .variant _ _ _ args fields _ =>
    .variant (checkEach_sound received args) (checkPatterns_sound received args)
      (checkFieldPatterns_sound received · · fields)
  | .alternatives info choices => by
    refine .of (by rw [Pattern.nodes]) fun t => ?_
    rw [checkPattern]
    refine .bind (record_sound info.id t) fun _ => ?_
    exact (checkChoices_sound received choices t).imp (fun _ _ given => given.1) fun _ _ given covered =>
      ⟨given.2, covered⟩
  | .guarded info inner condition => by
    refine .of (by rw [Pattern.nodes]) fun t => ?_
    rw [checkPattern]
    refine .bind (record_sound info.id t) fun _ => ?_
    refine .step (checkPattern_sound received inner t) (fun _ _ given => given.1) fun _ => ?_
    refine condition_sound (infer_sound received condition (some .bool)) fun _ => ?_
    exact .pure fun _ _ given => ⟨given.1.1.2, State.covers_append.mpr ⟨given.1.2, given.2⟩⟩

theorem checkPatterns_sound (received : ctx.table.Received) : ∀ (ps : List Pattern) (types : List Ty),
    Sound ctx (fun s => ps.length ≤ types.length ∧ ∀ t ∈ types, s.Knows t) (checkPatterns ctx ps types)
      fun _ s => s.Covers ctx (Pattern.nodesAll ps)
  | [], _ => by
    rw [checkPatterns, Pattern.nodesAll]
    exact .pure fun _ _ _ => State.covers_nil
  | p :: rest, types => by
    rw [checkPatterns, Pattern.nodesAll]
    refine .step (checkPattern_sound received p _) (fun _ _ given => ?_) fun _ => ?_
    · cases types with
      | nil => exact absurd given.1 (by simp)
      | cons t types => exact given.2 t List.mem_cons_self
    refine (checkPatterns_sound received rest types.tail).imp
      (fun _ _ given => ⟨?_, fun t member => given.1.2 t (List.mem_of_mem_tail member)⟩)
      fun _ _ given covered => State.covers_append.mpr ⟨given.2, covered⟩
    have enough := given.1.1
    simp only [List.length_cons, List.length_tail] at enough ⊢
    omega

theorem checkEach_sound (received : ctx.table.Received) : ∀ (ps : List Pattern) (t : Ty),
    Sound ctx (fun s => ps = [] ∨ s.Knows t) (checkEach ctx ps t) fun _ s => s.Covers ctx (Pattern.nodesAll ps)
  | [], _ => by
    rw [checkEach, Pattern.nodesAll]
    exact .pure fun _ _ _ => State.covers_nil
  | p :: rest, t => by
    rw [checkEach, Pattern.nodesAll]
    have known {s : State} (given : p :: rest = [] ∨ s.Knows t) : s.Knows t := given.resolve_left (by simp)
    refine .step (checkPattern_sound received p t) (fun _ _ given => known given) fun _ => ?_
    exact (checkEach_sound received rest t).imp (fun _ _ given => .inr (known given.1))
      fun _ _ given covered => State.covers_append.mpr ⟨given.2, covered⟩

theorem checkFieldPatterns_sound (received : ctx.table.Received) (owner : Option (String × List Field)) :
    ∀ (seen : List String) (fields : List FieldPattern),
    Sound ctx (fun s => fields = [] ∨ ∃ known, owner = some known ∧ ∀ f ∈ known.2, s.Knows f.type)
      (checkFieldPatterns ctx owner seen fields) fun _ s => s.Covers ctx (FieldPattern.nodesAll fields)
  | _, [] => by
    rw [checkFieldPatterns, FieldPattern.nodesAll]
    exact .pure fun _ _ _ => State.covers_nil
  | seen, .mk name p :: rest => by
    rw [FieldPattern.nodesAll]
    cases owner with
    | none =>
      rw [checkFieldPatterns]
      have never {s : State} (given : FieldPattern.mk name p :: rest = [] ∨ ∃ known : String × List Field,
          none = some known ∧ ∀ f ∈ known.2, s.Knows f.type) : False := by simp at given
      refine .bind (Q := fun _ _ => False)
        ((checkPattern_sound received p .invalid).unreachable fun _ _ given => never given) fun _ => ?_
      exact (checkFieldPatterns_sound received none (name :: seen) rest).unreachable fun _ _ given => given.2
    | some owner =>
      obtain ⟨owner, declared⟩ := owner
      rw [checkFieldPatterns]
      have known {s : State} (given : FieldPattern.mk name p :: rest = [] ∨
          ∃ known, some (owner, declared) = some known ∧ ∀ f ∈ known.2, s.Knows f.type) :
          ∀ f ∈ declared, s.Knows f.type := by
        obtain given | ⟨_, same, given⟩ := given
        · cases given
        · cases same
          exact given
      have others := checkFieldPatterns_sound received (some (owner, declared)) (name :: seen) rest
      cases found : fieldNamed? declared name with
      | none =>
        refine .bind (report_sound _ _ _) fun _ => ?_
        refine .bind (Q := fun _ _ => False)
          ((checkPattern_sound received p .invalid).unreachable fun _ _ given => given.2) fun _ => ?_
        exact others.unreachable fun _ _ given => given.2
      | some t =>
        obtain ⟨f, member, -, rfl⟩ := fieldNamed?_mem found
        refine guard_sound (report_sound _ _ _) ?_
        refine .step (checkPattern_sound received p _) (fun _ _ given => known given.1 f member) fun _ => ?_
        exact others.imp (fun _ _ given => .inr ⟨_, rfl, known given.1.1⟩) fun _ _ given covered =>
          State.covers_append.mpr ⟨given.2, covered⟩

theorem checkChoices_sound (received : ctx.table.Received) : ∀ (ps : List Pattern) (t : Ty),
    Sound ctx (fun s => s.Knows t) (checkChoices ctx ps t) fun _ s => s.Covers ctx (Pattern.nodesAll ps)
  | [], _ => by
    rw [checkChoices, Pattern.nodesAll]
    exact .pure fun _ _ _ => State.covers_nil
  | first :: rest, t => by
    rw [checkChoices, Pattern.nodesAll]
    refine .bind (checkPattern_sound received first t) fun _ => ?_
    exact (checkOthers_sound received _ rest t).imp (fun _ _ given => given.1) fun _ _ given covered =>
      State.covers_append.mpr ⟨given.2, covered⟩

theorem checkOthers_sound (received : ctx.table.Received) (first : List String) : ∀ (ps : List Pattern) (t : Ty),
    Sound ctx (fun s => s.Knows t) (checkOthers ctx first ps t) fun _ s => s.Covers ctx (Pattern.nodesAll ps)
  | [], _ => by
    rw [checkOthers, Pattern.nodesAll]
    exact .pure fun _ _ _ => State.covers_nil
  | p :: rest, t => by
    rw [checkOthers, Pattern.nodesAll]
    refine .bind push_sound fun _ => ?_
    refine .step (checkPattern_sound received p t) (fun _ _ given => given.1) fun _ => ?_
    refine .bind pop_sound fun scope => ?_
    refine .step (ctx.compareBindings_sound _ first scope) (fun _ _ given => given.2) fun _ => ?_
    exact (checkOthers_sound received first rest t).imp (fun _ _ given => given.1.1.1.1)
      fun _ _ given covered => State.covers_append.mpr ⟨given.1.1.2, covered⟩

end

end TreeCheck.Typing
