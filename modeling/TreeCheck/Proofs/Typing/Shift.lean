import TreeCheck.Proofs.Failing
import TreeCheck.Proofs.Syntax.Shift
import TreeCheck.Proofs.Typing.Notes
import TreeCheck.Typing.Lookup

/-!
The steps of inference on a tree whose numbers are higher by a constant: what they note is about the higher
numbers, and all else is as before.
-/

namespace TreeCheck

variable {k : Nat}

@[simp] theorem Block.endsInReturn_shift (b : Block) : (b.shift k).endsInReturn = b.endsInReturn := by
  have last (stmts : List Stmt) : (Stmt.shiftAll k stmts).getLast? = stmts.getLast?.map (Stmt.shift k) := by
    have mapped : Stmt.shiftAll k stmts = stmts.map (Stmt.shift k) := by
      induction stmts with
      | nil => rfl
      | cons s rest ih => rw [Stmt.shiftAll, ih, List.map_cons]
    rw [mapped, List.getLast?_map]
  obtain ⟨info, stmts, tail⟩ := b
  simp only [Block.endsInReturn, Block.shift, Block.tail, Block.stmts, last]
  rcases stmts.getLast? with _ | ⟨_ | _ | _ | _ | _⟩ <;> cases tail <;> rfl

namespace Typing

variable {α : Type} {ctx : Context} {span : Span}

/-! ### The state -/

def Annotations.shift (k : Nat) (a : Annotations) : Annotations where
  types := a.types.shift k
  coercions := a.coercions.shift k
  literalTargets := a.literalTargets.shift k
  instantiations := a.instantiations.shift k
  calls := a.calls.shift k
  methods := a.methods.shift k
  variants := a.variants.shift k
  structs := a.structs.shift k

@[simp] theorem Annotations.typeOf_shift (a : Annotations) (id : Nat) :
    (a.shift k).typeOf (id + k) = a.typeOf id :=
  congrArg (fun found : Option Ty => found.getD .invalid) (NodeTable.get?_shift id)

def PendingLiteral.shift (k : Nat) (literal : PendingLiteral) : PendingLiteral :=
  { literal with id := literal.id + k }

def PendingCast.shift (k : Nat) (cast : PendingCast) : PendingCast := { cast with operand := cast.operand + k }

/-- A state of inference that is about higher numbers. -/
def State.shift (k : Nat) (s : State) : State :=
  { s with
    notes := s.notes.shift k
    literals := s.literals.map (PendingLiteral.shift k)
    casts := s.casts.map (PendingCast.shift k) }

/-- Two checks that do the same, the second one at higher numbers. -/
abbrev InStep (k : Nat) (first second : Check α) : Prop := Parallel (State.shift k) first second

/-- A check that has nothing to do with numbers. -/
theorem modify_inStep {change : State → State} (same : ∀ s, change (s.shift k) = (change s).shift k) :
    InStep k (modify change) (modify change) :=
  .modify same

theorem note_inStep {change other : Annotations → Annotations}
    (same : ∀ a, other (a.shift k) = (change a).shift k) : InStep k (note change) (note other) :=
  .modify fun s => congrArg (fun notes => { s.shift k with notes }) (same s.notes)

theorem record_inStep (id : Nat) (t : Ty) : InStep k (record id t) (record (id + k) t) := note_inStep fun _ => rfl

theorem recorded_inStep {id : Nat} {first second : Check Ty} (body : InStep k first second) :
    InStep k (recorded id first) (recorded (id + k) second) :=
  .bind body fun t => .bind (record_inStep id t) fun _ => .pure _

theorem coerce_inStep (id : Nat) (coercion : Coercion) : InStep k (coerce id coercion) (coerce (id + k) coercion) :=
  note_inStep fun _ => rfl

theorem instantiated_inStep (id : Nat) (args : List Ty) :
    InStep k (instantiated id args) (instantiated (id + k) args) := by
  unfold instantiated
  split
  · exact .pure _
  · exact note_inStep fun _ => rfl

theorem pendLiteral_inStep (id : Nat) (value : Int) :
    InStep k (pendLiteral id span value) (pendLiteral (id + k) span value) := by
  refine .modify fun s => ?_
  simp only [State.shift, List.map_append, List.map_cons, List.map_nil]
  rfl

theorem negateLiteral_inStep (id : Nat) (value : Int) :
    InStep k (negateLiteral id span value) (negateLiteral (id + k) span value) := by
  refine .modify fun s => ?_
  have same (literal : PendingLiteral) : (if (literal.shift k).id == id + k then ⟨id + k, span, -value⟩
      else literal.shift k) = PendingLiteral.shift k (if literal.id == id then ⟨id, span, -value⟩ else literal) := by
    have found : ((literal.shift k).id == id + k) = (literal.id == id) :=
      decide_eq_decide.mpr Nat.add_right_cancel_iff
    rw [found]
    split <;> rfl
  simp only [State.shift, List.map_map]
  congr 1
  exact List.map_congr_left fun literal _ => same literal

theorem pendCast_inStep (operand : Nat) (target : Ty) :
    InStep k (modify fun s => { s with casts := s.casts ++ [⟨operand, span, target⟩] })
      (modify fun s => { s with casts := s.casts ++ [⟨operand + k, span, target⟩] }) := by
  refine .modify fun s => ?_
  simp only [State.shift, List.map_append, List.map_cons, List.map_nil]
  rfl

/-! ### Reports, scopes and types -/

theorem add_inStep {d : Diagnostic} : InStep k (ctx.add d) (ctx.add d) := modify_inStep fun _ => rfl

theorem report_inStep {kind : Diagnostic.Kind} {message : String} :
    InStep k (ctx.report kind span message) (ctx.report kind span message) :=
  add_inStep

theorem push_inStep : InStep k push push := modify_inStep fun _ => rfl

theorem pop_inStep : InStep k pop pop := .modifyGet fun _ => rfl

theorem inScope_inStep {first second : Check α} (body : InStep k first second) :
    InStep k (inScope first) (inScope second) :=
  .bind push_inStep fun _ => .bind body fun _ => .bind pop_inStep fun _ => .pure _

theorem declare_inStep (name : String) (t : Ty) : InStep k (declare name t) (declare name t) :=
  modify_inStep fun _ => rfl

theorem lookup?_inStep (name : String) : InStep k (lookup? name) (lookup? name) := .get fun _ => .pure _

theorem fresh_inStep (literal : LiteralClass) : InStep k (fresh literal) (fresh literal) := .modifyGet fun _ => rfl

theorem freshAll_inStep {β γ : Type} {params : List β} {others : List γ} (count : others.length = params.length) :
    InStep k (freshAll params) (freshAll others) := by
  rw [freshAll, freshAll, count]
  exact .modifyGet fun _ => rfl

theorem shallow_inStep (t : Ty) : InStep k (shallow t) (shallow t) := .get fun _ => .pure _

theorem shallow?_inStep (t : Option Ty) : InStep k (shallow? t) (shallow? t) := by
  cases t with
  | none => exact .pure _
  | some t => exact .map (shallow_inStep t) _

theorem deref_inStep (t : Ty) : InStep k (deref t) (deref t) := .get fun _ => .pure _

theorem unify_inStep (expected found : Ty) :
    InStep k (ctx.unify span expected found) (ctx.unify span expected found) := by
  refine .get fun s => ?_
  have same : (s.shift k).engine = s.engine := rfl
  rw [same]
  rcases s.engine.unify expected found with ⟨engine, none | ⟨⟨one, other⟩ | defect⟩⟩
  · exact .bind (.set { s with engine }) fun _ => .pure _
  · exact .bind (.set { s with engine }) fun _ => .bind report_inStep fun _ => .pure _
  · exact .bind (.set { s with engine }) fun _ => .throw _

theorem assign_inStep (e : Expr) (expected found : Ty) :
    InStep k (ctx.assign e expected found) (ctx.assign (e.shift k) expected found) := by
  rw [Context.assign, Context.assign, e.id_shift, e.span_shift]
  refine .get fun s => ?_
  have same : (s.shift k).engine = s.engine := rfl
  rw [same]
  rcases s.engine.assign expected found with ⟨engine, coercion, none | ⟨⟨one, other⟩ | defect⟩⟩
  · refine .bind (.set { s with engine }) fun _ => ?_
    exact .ite _ (coerce_inStep e.id coercion) (.pure _)
  · exact .bind (.set { s with engine }) fun _ => report_inStep
  · exact .bind (.set { s with engine }) fun _ => .throw _

theorem resolve_inStep (t : WrittenType) : InStep k (ctx.resolve t) (ctx.resolve t) := by
  unfold Context.resolve
  exact .bind (modify_inStep fun _ => rfl) fun _ => .pure _

theorem require_inStep {operator : String} {t : Ty} {r : Requirement} :
    InStep k (ctx.require span operator t r) (ctx.require span operator t r) :=
  .bind (shallow_inStep t) fun _ => .ite _ report_inStep (.pure _)

/-! ### What names stand for -/

theorem nameType_inStep (info : NodeInfo) (name : String) :
    InStep k (ctx.nameType info name) (ctx.nameType (info.shift k) name) := by
  refine .bind (lookup?_inStep name) fun found => ?_
  cases found with
  | some t => exact .pure _
  | none =>
    cases ctx.table.function? name with
    | none => exact .bind report_inStep fun _ => .pure _
    | some signature =>
      refine .bind (freshAll_inStep rfl) fun args => ?_
      refine .bind (instantiated_inStep info.id args) fun _ => ?_
      exact .bind (note_inStep fun _ => rfl) fun _ => .pure _

theorem namedFunction?_inStep (callee : Expr) :
    InStep k (ctx.namedFunction? callee) (ctx.namedFunction? (callee.shift k)) := by
  cases callee with
  | ident _ name =>
    refine .bind (lookup?_inStep name) fun found => ?_
    cases found <;> exact .pure _
  | _ => exact .pure _

theorem enterCall_inStep (info : NodeInfo) (callee : Expr) (signature : Signature) :
    InStep k (Context.enterCall info callee signature)
      (Context.enterCall (info.shift k) (callee.shift k) signature) := by
  refine .bind (freshAll_inStep rfl) fun args => ?_
  rw [callee.id_shift]
  refine .bind (record_inStep callee.id _) fun _ => ?_
  refine .bind (note_inStep fun _ => rfl) fun _ => ?_
  exact .bind (instantiated_inStep info.id args) fun _ => .pure _

theorem arity_inStep {name : String} {count : Nat} {params : List Ty} :
    InStep k (ctx.arity span name count params) (ctx.arity span name count params) :=
  .ite _ (.pure _) (.bind report_inStep fun _ => .pure _)

theorem pass_inStep (a : Expr) (want known found : Ty) :
    InStep k (ctx.pass a want known found) (ctx.pass (a.shift k) want known found) := by
  cases known with
  | ref «mutable» target =>
    rw [Context.pass, Context.pass, a.id_shift, a.span_shift, a.isPlace_shift]
    refine .bind (shallow_inStep found) fun known => .ite _ ?_ (assign_inStep a want found)
    exact .bind (unify_inStep target found) fun _ => .ite _ (coerce_inStep a.id _) (.pure _)
  | _ => exact assign_inStep a want found

theorem method?_inStep (info : NodeInfo) (receiver : Expr) (name : String) (base : Ty) :
    InStep k (ctx.method? info receiver name base)
      (ctx.method? (info.shift k) (receiver.shift k) name base) := by
  unfold Context.method?
  rw [receiver.span_shift]
  cases base with
  | struct type | enum type =>
    refine .ite _ (.pure _) ?_
    cases ctx.table.method? type name with
    | some signature => exact .pure _
    | none => exact .bind report_inStep fun _ => .pure _
  | invalid => exact .pure _
  | _ => exact .bind report_inStep fun _ => .pure _

theorem takeReceiver_inStep (receiver : Expr) (name : String) (outer base : Ty) (derefs : Nat) (mode : SelfMode) :
    InStep k (ctx.takeReceiver receiver name outer base derefs mode)
      (ctx.takeReceiver (receiver.shift k) name outer base derefs mode) := by
  cases mode with
  | value =>
    rw [Context.takeReceiver, Context.takeReceiver, receiver.span_shift]
    exact .ite _ report_inStep (.pure _)
  | shared =>
    rw [Context.takeReceiver, Context.takeReceiver, receiver.id_shift]
    exact .ite _ (coerce_inStep receiver.id _) (.pure _)
  | exclusive =>
    rw [Context.takeReceiver, Context.takeReceiver, receiver.id_shift, receiver.span_shift, receiver.text_shift]
    refine .ite _ (coerce_inStep receiver.id _) (.bind (shallow_inStep outer) fun known => ?_)
    split
    · exact .pure _
    · exact report_inStep

theorem enterMethod_inStep (info : NodeInfo) (receiver : Expr) (name : String) (outer base : Ty) (derefs : Nat)
    (signature : Signature) :
    InStep k (ctx.enterMethod info receiver name outer base derefs signature)
      (ctx.enterMethod (info.shift k) (receiver.shift k) name outer base derefs signature) := by
  rw [Context.enterMethod, Context.enterMethod, receiver.span_shift]
  cases signature.self with
  | none => exact .throw _
  | some self =>
    refine .bind (freshAll_inStep rfl) fun args => ?_
    refine .bind (unify_inStep _ base) fun _ => ?_
    refine .bind (note_inStep fun _ => rfl) fun _ => ?_
    refine .bind (instantiated_inStep info.id args) fun _ => ?_
    exact .bind (takeReceiver_inStep receiver name outer base derefs self.mode) fun _ => .pure _

theorem fieldType_inStep (info : NodeInfo) (object : Expr) (name : String) (base : Ty) :
    InStep k (ctx.fieldType info object name base)
      (ctx.fieldType (info.shift k) (object.shift k) name base) := by
  unfold Context.fieldType
  rw [object.span_shift]
  cases base with
  | struct struct args =>
    dsimp only
    cases ctx.table.decls.fieldType? struct args name with
    | some t => exact .pure _
    | none => exact .bind report_inStep fun _ => .pure _
  | tuple elements =>
    dsimp only
    cases (tupleIndex? name).bind fun i => elements[i]? with
    | some t => exact .pure _
    | none => exact .bind report_inStep fun _ => .pure _
  | invalid => exact .pure _
  | _ => exact .bind report_inStep fun _ => .pure _

theorem elementType_inStep (info : NodeInfo) (object : Expr) (base : Ty) :
    InStep k (ctx.elementType info object base) (ctx.elementType (info.shift k) (object.shift k) base) := by
  unfold Context.elementType
  rw [object.span_shift]
  cases base with
  | array element => exact .pure _
  | var =>
    refine .bind (fresh_inStep .general) fun element => ?_
    exact .bind (unify_inStep _ _) fun _ => .pure _
  | invalid => exact .pure _
  | _ => exact .bind report_inStep fun _ => .pure _

theorem targetType_inStep (info : NodeInfo) (t : Ty) :
    InStep k (ctx.targetType info t) (ctx.targetType (info.shift k) t) := by
  refine .bind (shallow_inStep t) fun known => ?_
  cases known with
  | ref _ target => exact .pure _
  | invalid => exact .pure _
  | _ => exact .bind report_inStep fun _ => .pure _

theorem enterStruct_inStep (info : NodeInfo) (d : StructDef) :
    InStep k (Context.enterStruct info d) (Context.enterStruct (info.shift k) d) := by
  refine .bind (freshAll_inStep rfl) fun args => ?_
  exact .bind (instantiated_inStep info.id args) fun _ => .pure _

theorem hintedStruct?_inStep (names : List String) (hint : Option Ty) :
    InStep k (ctx.hintedStruct? names hint) (ctx.hintedStruct? names hint) := by
  refine .bind (shallow?_inStep hint) fun known => ?_
  split
  · split <;> exact .pure _
  · exact .pure _

theorem unnamedStruct?_inStep (info : NodeInfo) (names : List String) (hint : Option Ty) :
    InStep k (ctx.unnamedStruct? info names hint) (ctx.unnamedStruct? (info.shift k) names hint) := by
  refine .bind (hintedStruct?_inStep names hint) fun found => ?_
  cases found with
  | some found => exact .pure _
  | none =>
    rcases ctx.table.structsWithFields names with _ | ⟨d, _ | ⟨_, _⟩⟩
    · exact .bind report_inStep fun _ => .pure _
    · exact .map (enterStruct_inStep info d) _
    · exact .bind add_inStep fun _ => .pure _

theorem literalStruct?_inStep (info : NodeInfo) (name : String) (names : List String) (hint : Option Ty) :
    InStep k (ctx.literalStruct? info name names hint) (ctx.literalStruct? (info.shift k) name names hint) := by
  refine .ite _ (.bind (unnamedStruct?_inStep info names hint) fun found => ?_) ?_
  · cases found with
    | none => exact .pure _
    | some found => exact .bind (note_inStep fun _ => rfl) fun _ => .pure _
  · cases ctx.table.decls.struct? name with
    | some d => exact .map (enterStruct_inStep info d) _
    | none => exact .bind report_inStep fun _ => .pure _

theorem requireFields_inStep {owner : String} {fields : List Field} {given : List String} :
    InStep k (ctx.requireFields span owner fields given) (ctx.requireFields span owner fields given) :=
  .forM fun _ _ => report_inStep

theorem requireFieldPatterns_inStep {owner : String} {fields : List Field} {given : List String} :
    InStep k (ctx.requireFieldPatterns span owner fields given)
      (ctx.requireFieldPatterns span owner fields given) :=
  .forM fun _ _ => add_inStep

theorem hintedVariant?_inStep (enum variant : String) (hint : Option Ty) :
    InStep k (ctx.hintedVariant? enum variant hint) (ctx.hintedVariant? enum variant hint) := by
  refine .ite _ (.pure _) (.bind (shallow?_inStep hint) fun known => ?_)
  split <;> exact .pure _

theorem variant?_inStep (enum variant : String) (hint : Option Ty) :
    InStep k (ctx.variant? span enum variant hint) (ctx.variant? span enum variant hint) := by
  refine .bind (hintedVariant?_inStep enum variant hint) fun found => ?_
  cases found with
  | some found => exact .pure _
  | none =>
    rcases ctx.table.candidates enum variant with _ | ⟨found, _ | ⟨_, _⟩⟩
    · exact .bind report_inStep fun _ => .pure _
    · exact .pure _
    · exact .bind report_inStep fun _ => .pure _

theorem enterVariant_inStep (info : NodeInfo) (found : VariantRef) (hint : Option Ty) :
    InStep k (Context.enterVariant info found hint) (Context.enterVariant (info.shift k) found hint) := by
  refine .bind (freshAll_inStep rfl) fun args => .bind (shallow?_inStep hint) fun known => ?_
  have noted : InStep k (do
      note fun a => { a with variants := a.variants.insert info.id found }
      instantiated info.id args
      return args) (do
      note fun a => { a with variants := a.variants.insert (info.shift k).id found }
      instantiated (info.shift k).id args
      return args) :=
    .bind (note_inStep fun _ => rfl) fun _ => .bind (instantiated_inStep info.id args) fun _ => .pure _
  dsimp only
  split
  next name hinted =>
    refine .ite _ (.get fun s => ?_) noted
    have same : (s.shift k).engine = s.engine := rfl
    rw [same]
    rcases s.engine.unify (.enum name hinted) (.enum name args) with ⟨engine, none | ⟨⟨_, _⟩ | defect⟩⟩
    · exact .bind (.set { s with engine }) fun _ => noted
    · exact .bind (.set { s with engine }) fun _ => noted
    · exact .bind (.set { s with engine }) fun _ => .bind (.throw _) fun _ => noted
  · exact noted

theorem elementTypes_inStep (info : NodeInfo) (elements : List Pattern) (t : Ty) :
    InStep k (ctx.elementTypes info elements t)
      (ctx.elementTypes (info.shift k) (Pattern.shiftAll k elements) t) := by
  have unknown (t : Ty) : InStep k (do
      let types ← freshAll elements
      let _ ← ctx.unify info.span t (.product types)
      return types) (do
      let types ← freshAll (Pattern.shiftAll k elements)
      let _ ← ctx.unify info.span t (.product types)
      return types) := by
    refine .bind (freshAll_inStep (Pattern.length_shiftAll elements)) fun types => ?_
    exact .bind (unify_inStep _ _) fun _ => .pure _
  rw [Context.elementTypes, Context.elementTypes, Pattern.length_shiftAll, Pattern.isEmpty_shiftAll]
  refine .bind (shallow_inStep t) fun known => ?_
  cases known with
  | tuple types => exact .ite _ (.pure _) (.bind report_inStep fun _ => .pure _)
  | unit => exact .ite _ (.pure _) (.bind report_inStep fun _ => .pure _)
  | var | invalid => exact unknown t
  | _ => exact .bind report_inStep fun _ => .pure _

theorem compareBindings_inStep {first : List String} {scope : List (String × Ty)} :
    InStep k (ctx.compareBindings span first scope) (ctx.compareBindings span first scope) := by
  refine .bind (.forM fun name _ => .ite _ report_inStep ?_) fun _ => .forM fun _ _ => report_inStep
  cases scope.lookup name with
  | none => exact .pure _
  | some bound =>
    refine .bind (lookup?_inStep name) fun known => ?_
    cases known with
    | none => exact .pure _
    | some t => exact .bind (unify_inStep t bound) fun _ => .pure _

end Typing

end TreeCheck
