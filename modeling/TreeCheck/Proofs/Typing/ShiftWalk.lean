import TreeCheck.Proofs.Typing.Shift
import TreeCheck.Typing.Result

/-!
Inference over a tree whose numbers are higher by a constant finds out the same about the higher numbers.
-/

namespace TreeCheck.Typing

variable {k : Nat} {ctx : Context}

theorem against_inStep {α : Type} {first second : Check Ty} {next after : Bool → Check α} {span : Span} {want : Ty}
    (start : InStep k first second) (rest : ∀ worked, InStep k (next worked) (after worked)) :
    InStep k (do next (← ctx.unify span want (← first))) (do after (← ctx.unify span want (← second))) :=
  .bind start fun found => .bind (unify_inStep want found) rest

mutual

theorem infer_inStep : ∀ (e : Expr) (hint : Option Ty), InStep k (infer ctx e hint) (infer ctx (e.shift k) hint)
  | .int info value suffix, _ => by
    rw [Expr.shift, infer, infer]
    refine recorded_inStep (.bind (pendLiteral_inStep info.id value) fun _ => ?_)
    cases Ty.ofName? suffix with
    | some t => exact .pure _
    | none => exact fresh_inStep _
  | .float info _ suffix, _ => by
    rw [Expr.shift, infer, infer]
    refine recorded_inStep ?_
    cases Ty.ofName? suffix with
    | some t => exact .pure _
    | none => exact fresh_inStep _
  | .string .., _ | .bool .., _ => by
    rw [Expr.shift, infer, infer]
    exact recorded_inStep (.pure _)
  | .template info parts, _ => by
    rw [Expr.shift, infer, infer]
    exact recorded_inStep (.bind (inferParts_inStep parts) fun _ => .pure _)
  | .ident info name, _ => by
    rw [Expr.shift, infer, infer]
    exact recorded_inStep (nameType_inStep info name)
  | .binary info op left right, hint => by
    rw [Expr.shift, infer, infer]
    refine recorded_inStep ?_
    simp only [Expr.span_shift]
    have operands (hint : Option Ty) {next after : Ty → Bool → Check Ty}
        (rest : ∀ t worked, InStep k (next t worked) (after t worked)) :
        InStep k (do let t ← infer ctx left hint; next t (← ctx.unify right.span t (← infer ctx right (some t))))
          (do
            let t ← infer ctx (left.shift k) hint
            after t (← ctx.unify right.span t (← infer ctx (right.shift k) (some t)))) :=
      .bind (infer_inStep left hint) fun t => against_inStep (infer_inStep right _) (rest t)
    cases op.group with
    | arithmetic | bitwise =>
      exact operands hint fun t _ => .ite _ (.bind require_inStep fun _ => .pure _) (.pure _)
    | shift =>
      refine .bind (infer_inStep left hint) fun t => .bind (fresh_inStep .integer) fun amount => ?_
      refine against_inStep (infer_inStep right none) fun _ => ?_
      exact .bind require_inStep fun _ => .pure _
    | ordering => exact operands none fun t _ => .ite _ (.bind require_inStep fun _ => .pure _) (.pure _)
    | equality => exact operands none fun t _ => .pure _
    | logical =>
      refine against_inStep (infer_inStep left _) fun _ => ?_
      exact against_inStep (infer_inStep right _) fun _ => .pure _
  | .unary info op operand, hint => by
    rw [Expr.shift, infer, infer]
    refine recorded_inStep (.bind (infer_inStep operand hint) fun t => ?_)
    cases op with
    | neg =>
      cases operand with
      | int literal value suffix =>
        refine .bind (negateLiteral_inStep literal.id value) fun _ => ?_
        exact .bind require_inStep fun _ => .pure _
      | _ => exact .bind require_inStep fun _ => .pure _
    | not | bitNot => exact .bind require_inStep fun _ => .pure _
  | .call info callee args, _ => by
    rw [Expr.shift, infer, infer]
    refine recorded_inStep (.bind (namedFunction?_inStep callee) fun named => ?_)
    simp only [Expr.span_shift, Expr.text_shift, Expr.length_shiftAll]
    cases named with
    | some signature =>
      refine .bind (enterCall_inStep info callee signature) fun entered => ?_
      refine .bind arity_inStep fun wants => ?_
      exact .bind (checkArgs_inStep args wants) fun _ => .pure _
    | none =>
      refine .bind (infer_inStep callee none) fun t => .bind (shallow_inStep t) fun known => ?_
      split
      · refine .bind arity_inStep fun wants => ?_
        exact .bind (checkArgs_inStep args wants) fun _ => .pure _
      · exact .optional _ report_inStep (.bind (checkArgs_inStep args none) fun _ => .pure _)
  | .methodCall info receiver name args, _ => by
    rw [Expr.shift, infer, infer]
    refine recorded_inStep (.bind (infer_inStep receiver none) fun outer => ?_)
    refine .bind (deref_inStep outer) fun (base, derefs) => ?_
    refine .bind (method?_inStep info receiver name base) fun found => ?_
    rw [Expr.length_shiftAll]
    cases found with
    | some signature =>
      refine .bind (enterMethod_inStep info receiver name outer base derefs signature) fun entered => ?_
      refine .bind arity_inStep fun wants => ?_
      exact .bind (checkArgs_inStep args wants) fun _ => .pure _
    | none => exact .bind (checkArgs_inStep args none) fun _ => .pure _
  | .field info object name, _ => by
    rw [Expr.shift, infer, infer]
    refine recorded_inStep (.bind (infer_inStep object none) fun t => ?_)
    refine .bind (deref_inStep t) fun (base, derefs) => ?_
    rw [object.id_shift]
    exact .optional _ (coerce_inStep object.id _) (fieldType_inStep info object name base)
  | .index info object index, _ => by
    rw [Expr.shift, infer, infer]
    refine recorded_inStep (.bind (infer_inStep object none) fun t => ?_)
    refine .bind (deref_inStep t) fun (base, derefs) => ?_
    rw [object.id_shift, index.span_shift]
    refine .optional _ (coerce_inStep object.id _) (.bind (infer_inStep index none) fun found => ?_)
    refine .bind (fresh_inStep .integer) fun t => .bind (unify_inStep t found) fun _ => ?_
    exact elementType_inStep info object base
  | .ref info mutable operand, hint => by
    rw [Expr.shift, infer, infer]
    refine recorded_inStep (.bind (shallow?_inStep hint) fun known => ?_)
    exact .bind (infer_inStep operand _) fun _ => .pure _
  | .deref info operand, _ => by
    rw [Expr.shift, infer, infer]
    exact recorded_inStep (.bind (infer_inStep operand none) fun t => targetType_inStep info t)
  | .struct info name fields, hint => by
    rw [Expr.shift, infer, infer, FieldInit.names_shiftAll]
    refine recorded_inStep (.bind (literalStruct?_inStep info name _ hint) fun found => ?_)
    cases found with
    | some found =>
      refine .bind (note_inStep fun _ => rfl) fun _ => ?_
      refine .bind (checkInits_inStep fields) fun _ => ?_
      exact .bind requireFields_inStep fun _ => .pure _
    | none => exact .bind (inferFields_inStep fields) fun _ => .pure _
  | .variant info enum variant args fields, hint => by
    rw [Expr.shift, infer, infer]
    refine recorded_inStep (.bind (variant?_inStep enum variant hint) fun found => ?_)
    simp only [FieldInit.names_shiftAll, Expr.isEmpty_shiftAll, FieldInit.isEmpty_shiftAll, Expr.length_shiftAll]
    cases found with
    | none =>
      exact .bind (checkArgs_inStep args none) fun _ => .bind (inferFields_inStep fields) fun _ => .pure _
    | some found =>
      refine .bind (enterVariant_inStep info found hint) fun typeArgs => .ite _ ?_ ?_
      · refine .optional _ report_inStep (.bind (checkInits_inStep fields) fun _ => ?_)
        exact .bind requireFields_inStep fun _ => .pure _
      · refine .optional _ report_inStep (.bind (inferFields_inStep fields) fun _ => ?_)
        exact .bind arity_inStep fun wants => .bind (checkArgs_inStep args wants) fun _ => .pure _
  | .tuple info elements, hint => by
    rw [Expr.shift, infer, infer, Expr.length_shiftAll]
    refine recorded_inStep (.bind (shallow?_inStep hint) fun known => ?_)
    exact .bind (inferEach_inStep elements _) fun _ => .pure _
  | .array info elements, hint => by
    rw [Expr.shift, infer, infer]
    refine recorded_inStep (.bind (shallow?_inStep hint) fun known => ?_)
    have items (element : Ty) : InStep k (do inferItems ctx elements element; return Ty.array element)
        (do inferItems ctx (Expr.shiftAll k elements) element; return Ty.array element) :=
      .bind (inferItems_inStep elements element) fun _ => .pure _
    dsimp only
    split
    · exact items _
    · exact .bind (fresh_inStep .general) items
  | .cast info operand written, _ => by
    rw [Expr.shift, infer, infer, operand.id_shift]
    refine recorded_inStep (.bind (resolve_inStep written) fun target => ?_)
    refine .bind (infer_inStep operand none) fun _ => ?_
    exact .bind (pendCast_inStep operand.id target) fun _ => .pure _
  | .assign info target value, _ => by
    rw [Expr.shift, infer, infer, target.isPlace_shift, target.span_shift]
    refine recorded_inStep (.optional _ report_inStep (.bind (infer_inStep target none) fun t => ?_))
    exact .bind (infer_inStep value _) fun found => .bind (assign_inStep value t found) fun _ => .pure _
  | .select info scrutinee arms, hint => by
    rw [Expr.shift, infer, infer, MatchArm.isEmpty_shiftAll]
    refine recorded_inStep (.bind (infer_inStep scrutinee none) fun t => .ite _ (.pure _) ?_)
    refine .bind (fresh_inStep .general) fun result => ?_
    exact .bind (checkArms_inStep arms t result _) fun _ => .pure _
  | .branch info condition consequent none, hint => by
    rw [Expr.shift, Expr.shiftOption, infer, infer, condition.span_shift, consequent.span_shift]
    refine recorded_inStep (against_inStep (infer_inStep condition _) fun _ => ?_)
    exact against_inStep (infer_inStep consequent hint) fun _ => .pure _
  | .branch info condition consequent (some alternative), hint => by
    rw [Expr.shift, Expr.shiftOption, infer, infer, condition.span_shift, alternative.span_shift]
    refine recorded_inStep (against_inStep (infer_inStep condition _) fun _ => ?_)
    refine .bind (infer_inStep consequent hint) fun t => ?_
    exact against_inStep (infer_inStep alternative hint) fun _ => .pure _
  | .block body, hint => by
    rw [Expr.shift, infer, infer, body.id_shift]
    exact recorded_inStep (inferBlock_inStep body hint)

theorem checkArgs_inStep : ∀ (args : List Expr) (wants : Option (List Ty)),
    InStep k (checkArgs ctx args wants) (checkArgs ctx (Expr.shiftAll k args) wants)
  | [], _ => .pure _
  | a :: rest, some (want :: wants) => by
    rw [Expr.shiftAll, checkArgs, checkArgs, a.isPlace_shift]
    refine .bind (shallow_inStep want) fun known => .bind (infer_inStep a _) fun found => ?_
    exact .bind (pass_inStep a want known found) fun _ => checkArgs_inStep rest (some wants)
  | a :: rest, some [] | a :: rest, none => .bind (infer_inStep a none) fun _ => checkArgs_inStep rest none

theorem inferEach_inStep : ∀ (elements : List Expr) (hints : List Ty),
    InStep k (inferEach ctx elements hints) (inferEach ctx (Expr.shiftAll k elements) hints)
  | [], _ => .pure _
  | e :: rest, hints =>
    .bind (infer_inStep e _) fun _ => .bind (inferEach_inStep rest hints.tail) fun _ => .pure _

theorem inferItems_inStep : ∀ (elements : List Expr) (element : Ty),
    InStep k (inferItems ctx elements element) (inferItems ctx (Expr.shiftAll k elements) element)
  | [], _ => .pure _
  | e :: rest, element => by
    rw [Expr.shiftAll, inferItems, inferItems, e.span_shift]
    exact against_inStep (infer_inStep e _) fun _ => inferItems_inStep rest element

theorem inferParts_inStep : ∀ parts : List TemplatePart,
    InStep k (inferParts ctx parts) (inferParts ctx (TemplatePart.shiftAll k parts))
  | [] => .pure _
  | .text _ :: rest => inferParts_inStep rest
  | .value e :: rest => .bind (infer_inStep e none) fun _ => inferParts_inStep rest

theorem inferFields_inStep : ∀ fields : List FieldInit,
    InStep k (inferFields ctx fields) (inferFields ctx (FieldInit.shiftAll k fields))
  | [] => .pure _
  | .mk _ _ value :: rest => .bind (infer_inStep value none) fun _ => inferFields_inStep rest

theorem checkInits_inStep : ∀ (fields : List FieldInit) {owner : String} {declared : List Field}
    {seen : List String}, InStep k (checkInits ctx owner declared seen fields)
      (checkInits ctx owner declared seen (FieldInit.shiftAll k fields))
  | [], _, _, _ => .pure _
  | .mk name _ value :: rest, owner, declared, seen => by
    rw [FieldInit.shiftAll, checkInits, checkInits, value.span_shift]
    cases fieldNamed? declared name with
    | none =>
      exact .bind report_inStep fun _ => .bind (infer_inStep value none) fun _ => checkInits_inStep rest
    | some t =>
      refine .optional _ report_inStep (.bind (infer_inStep value _) fun found => ?_)
      exact .bind (assign_inStep value t found) fun _ => checkInits_inStep rest

theorem checkArms_inStep : ∀ (arms : List MatchArm) (t result hint : Ty),
    InStep k (checkArms ctx arms t result hint) (checkArms ctx (MatchArm.shiftAll k arms) t result hint)
  | [], _, _, _ => .pure _
  | .mk _ pattern guard body :: rest, t, result, hint => by
    rw [MatchArm.shiftAll, checkArms, checkArms, body.span_shift]
    refine .bind push_inStep fun _ => .bind (checkPattern_inStep pattern t) fun _ => ?_
    refine .bind (checkCondition_inStep guard) fun _ => against_inStep (infer_inStep body _) fun _ => ?_
    exact .bind pop_inStep fun _ => checkArms_inStep rest t result hint

theorem checkCondition_inStep : ∀ condition : Option Expr,
    InStep k (checkCondition ctx condition) (checkCondition ctx (Expr.shiftOption k condition))
  | none => .pure _
  | some condition => by
    rw [Expr.shiftOption, checkCondition, checkCondition, condition.span_shift]
    exact against_inStep (infer_inStep condition _) fun _ => .pure _

theorem inferBlock_inStep : ∀ (b : Block) (hint : Option Ty),
    InStep k (inferBlock ctx b hint) (inferBlock ctx (b.shift k) hint)
  | .mk info stmts (some value), hint =>
    inScope_inStep (.bind (checkStmts_inStep stmts) fun _ => infer_inStep value hint)
  | .mk info stmts none, hint => by
    have ends := Block.endsInReturn_shift (k := k) (.mk info stmts none)
    rw [Block.shift, Expr.shiftOption] at ends
    rw [Block.shift, Expr.shiftOption, inferBlock, inferBlock]
    refine inScope_inStep (.bind (checkStmts_inStep stmts) fun _ => ?_)
    rw [ends]
    refine .ite _ (.bind (fresh_inStep .general) fun t => ?_) (.pure _)
    exact .bind (modify_inStep fun _ => rfl) fun _ => .pure _

theorem checkStmts_inStep : ∀ stmts : List Stmt,
    InStep k (checkStmts ctx stmts) (checkStmts ctx (Stmt.shiftAll k stmts))
  | [] => .pure _
  | s :: rest => .bind (checkStmt_inStep s) fun _ => checkStmts_inStep rest

theorem checkStmt_inStep : ∀ s : Stmt, InStep k (checkStmt ctx s) (checkStmt ctx (s.shift k))
  | .bind _ pattern type init => by
    have bound (declared : Option Ty) : InStep k (do
        let found ← inferInit ctx init declared
        let t ← match declared.or found with
          | some t => pure t
          | none => fresh .general
        checkPattern ctx pattern t) (do
        let found ← inferInit ctx (Expr.shiftOption k init) declared
        let t ← match declared.or found with
          | some t => pure t
          | none => fresh .general
        checkPattern ctx (pattern.shift k) t) := by
      refine .bind (inferInit_inStep init declared) fun found => ?_
      cases declared.or found with
      | some t => exact checkPattern_inStep pattern t
      | none => exact .bind (fresh_inStep .general) fun t => checkPattern_inStep pattern t
    cases type with
    | some written =>
      rw [Stmt.shift, checkStmt, checkStmt]
      exact .bind (.map (resolve_inStep written) some) bound
    | none =>
      rw [Stmt.shift, checkStmt, checkStmt]
      exact bound none
  | .expr _ value => .bind (infer_inStep value none) fun _ => .pure _
  | .ret span none => .bind (unify_inStep _ _) fun _ => .pure _
  | .ret _ (some value) => .bind (infer_inStep value _) fun found => assign_inStep value _ found
  | .loop _ condition body => by
    rw [Stmt.shift, checkStmt, checkStmt, condition.span_shift, body.id_shift]
    refine against_inStep (infer_inStep condition _) fun _ => ?_
    exact .bind (recorded_inStep (inferBlock_inStep body none)) fun _ => .pure _
  | .counted _ init condition update body => by
    rw [Stmt.shift, checkStmt, checkStmt, body.id_shift]
    refine inScope_inStep (.bind (checkStmtOption_inStep init) fun _ => ?_)
    refine .bind (checkCondition_inStep condition) fun _ => ?_
    exact .bind (recorded_inStep (inferBlock_inStep body none)) fun _ => inferOption_inStep update

theorem checkStmtOption_inStep : ∀ s : Option Stmt,
    InStep k (checkStmtOption ctx s) (checkStmtOption ctx (Stmt.shiftOption k s))
  | none => .pure _
  | some s => checkStmt_inStep s

theorem inferOption_inStep : ∀ e : Option Expr,
    InStep k (inferOption ctx e) (inferOption ctx (Expr.shiftOption k e))
  | none => .pure _
  | some e => .bind (infer_inStep e none) fun _ => .pure _

theorem inferInit_inStep : ∀ (init : Option Expr) (declared : Option Ty),
    InStep k (inferInit ctx init declared) (inferInit ctx (Expr.shiftOption k init) declared)
  | none, _ => .pure _
  | some value, none => .bind (infer_inStep value none) fun _ => .pure _
  | some value, some t =>
    .bind (infer_inStep value (some t)) fun found => .bind (assign_inStep value t found) fun _ => .pure _

theorem checkPattern_inStep : ∀ (p : Pattern) (t : Ty),
    InStep k (checkPattern ctx p t) (checkPattern ctx (p.shift k) t)
  | .wildcard info, t => record_inStep info.id t
  | .binding b, t => .bind (record_inStep b.info.id t) fun _ => declare_inStep b.name t
  | .literal info (.int n), t => by
    rw [Pattern.shift, checkPattern, checkPattern]
    refine .bind (record_inStep info.id t) fun _ => .bind (fresh_inStep .integer) fun found => ?_
    exact .bind (unify_inStep t found) fun _ => pendLiteral_inStep info.id n
  | .literal info (.float _), t => by
    rw [Pattern.shift, checkPattern, checkPattern]
    refine .bind (record_inStep info.id t) fun _ => .bind (fresh_inStep .float) fun found => ?_
    exact .bind (unify_inStep t found) fun _ => .pure _
  | .literal info (.string _), t | .literal info (.bool _), t => by
    rw [Pattern.shift, checkPattern, checkPattern]
    exact .bind (record_inStep info.id t) fun _ => .bind (unify_inStep t _) fun _ => .pure _
  | .range info low high _, t => by
    rw [Pattern.shift, checkPattern, checkPattern]
    refine .bind (record_inStep info.id t) fun _ => .bind (fresh_inStep .integer) fun found => ?_
    refine .bind (unify_inStep t found) fun _ => ?_
    exact .bind (pendLiteral_inStep info.id low) fun _ => pendLiteral_inStep info.id high
  | .tuple info elements, t => by
    rw [Pattern.shift, checkPattern, checkPattern]
    refine .bind (record_inStep info.id t) fun _ => .bind (elementTypes_inStep info elements t) fun types => ?_
    exact checkPatterns_inStep elements types
  | .list info front _ none, t => by
    rw [Pattern.shift, Option.map_none, checkPattern, checkPattern]
    refine .bind (record_inStep info.id t) fun _ => .bind (fresh_inStep .general) fun element => ?_
    exact .bind (unify_inStep t _) fun fits => .bind (checkEach_inStep front _) fun _ => .pure _
  | .list info front _ (some b), t => by
    rw [Pattern.shift, Option.map_some, checkPattern, checkPattern]
    refine .bind (record_inStep info.id t) fun _ => .bind (fresh_inStep .general) fun element => ?_
    refine .bind (unify_inStep t _) fun fits => .bind (checkEach_inStep front _) fun _ => ?_
    exact .bind (record_inStep b.info.id _) fun _ => declare_inStep b.name _
  | .record info name fields rest, t => by
    rw [Pattern.shift, checkPattern, checkPattern, FieldPattern.names_shiftAll]
    refine .bind (record_inStep info.id t) fun _ => ?_
    cases ctx.table.decls.struct? name with
    | none => exact .bind report_inStep fun _ => checkFieldPatterns_inStep fields
    | some d =>
      refine .bind (freshAll_inStep rfl) fun args => .bind (unify_inStep t _) fun _ => ?_
      refine .bind (note_inStep fun _ => rfl) fun _ => .bind (checkFieldPatterns_inStep fields) fun _ => ?_
      exact .ite _ requireFieldPatterns_inStep (.pure _)
  | .variant info enum variant args fields rest, t => by
    rw [Pattern.shift, checkPattern, checkPattern]
    simp only [FieldPattern.names_shiftAll, FieldPattern.isEmpty_shiftAll, Pattern.isEmpty_shiftAll,
      Pattern.length_shiftAll]
    refine .bind (record_inStep info.id t) fun _ => .bind (variant?_inStep enum variant _) fun found => ?_
    cases found with
    | none => exact .bind (checkEach_inStep args .invalid) fun _ => checkFieldPatterns_inStep fields
    | some found =>
      refine .bind (freshAll_inStep rfl) fun typeArgs => .bind (unify_inStep t _) fun _ => ?_
      refine .bind (note_inStep fun _ => rfl) fun _ => .ite _ ?_ ?_
      · refine .optional _ report_inStep (.bind (checkEach_inStep args .invalid) fun _ => ?_)
        refine .bind (checkFieldPatterns_inStep fields) fun _ => ?_
        exact .ite _ requireFieldPatterns_inStep (.pure _)
      · refine .optional _ report_inStep (.bind (checkFieldPatterns_inStep fields) fun _ => ?_)
        exact .optional _ report_inStep (checkPatterns_inStep args _)
  | .alternatives info choices, t => .bind (record_inStep info.id t) fun _ => checkChoices_inStep choices t
  | .guarded info inner condition, t => by
    rw [Pattern.shift, checkPattern, checkPattern, condition.span_shift]
    refine .bind (record_inStep info.id t) fun _ => .bind (checkPattern_inStep inner t) fun _ => ?_
    exact against_inStep (infer_inStep condition _) fun _ => .pure _

theorem checkPatterns_inStep : ∀ (patterns : List Pattern) (types : List Ty),
    InStep k (checkPatterns ctx patterns types) (checkPatterns ctx (Pattern.shiftAll k patterns) types)
  | [], _ => .pure _
  | p :: rest, types => .bind (checkPattern_inStep p _) fun _ => checkPatterns_inStep rest types.tail

theorem checkEach_inStep : ∀ (patterns : List Pattern) (t : Ty),
    InStep k (checkEach ctx patterns t) (checkEach ctx (Pattern.shiftAll k patterns) t)
  | [], _ => .pure _
  | p :: rest, t => .bind (checkPattern_inStep p t) fun _ => checkEach_inStep rest t

theorem checkFieldPatterns_inStep : ∀ (fields : List FieldPattern) {owner : Option (String × List Field)}
    {seen : List String}, InStep k (checkFieldPatterns ctx owner seen fields)
      (checkFieldPatterns ctx owner seen (FieldPattern.shiftAll k fields))
  | [], _, _ => .pure _
  | .mk name p :: rest, none, seen =>
    .bind (checkPattern_inStep p .invalid) fun _ => checkFieldPatterns_inStep rest
  | .mk name p :: rest, some (owner, declared), seen => by
    rw [FieldPattern.shiftAll, checkFieldPatterns, checkFieldPatterns, p.span_shift]
    dsimp only
    cases fieldNamed? declared name with
    | none =>
      refine .bind report_inStep fun _ => .bind (checkPattern_inStep p .invalid) fun _ => ?_
      exact checkFieldPatterns_inStep rest
    | some t =>
      refine .optional _ report_inStep (.bind (checkPattern_inStep p t) fun _ => ?_)
      exact checkFieldPatterns_inStep rest

theorem checkChoices_inStep : ∀ (choices : List Pattern) (t : Ty),
    InStep k (checkChoices ctx choices t) (checkChoices ctx (Pattern.shiftAll k choices) t)
  | [], _ => .pure _
  | first :: rest, t => by
    have names : (first.shift k).bindings.map Binding.name = first.bindings.map Binding.name := by
      rw [first.bindings_shift, List.map_map]
      rfl
    rw [Pattern.shiftAll, checkChoices, checkChoices, names]
    exact .bind (checkPattern_inStep first t) fun _ => checkOthers_inStep rest _ t

theorem checkOthers_inStep : ∀ (choices : List Pattern) (first : List String) (t : Ty),
    InStep k (checkOthers ctx first choices t) (checkOthers ctx first (Pattern.shiftAll k choices) t)
  | [], _, _ => .pure _
  | p :: rest, first, t => by
    rw [Pattern.shiftAll, checkOthers, checkOthers, p.span_shift]
    refine .bind push_inStep fun _ => .bind (checkPattern_inStep p t) fun _ => ?_
    refine .bind pop_inStep fun scope => .bind compareBindings_inStep fun _ => ?_
    exact checkOthers_inStep rest first t

end

/-! ### Final types -/

def Result.shift (k : Nat) (r : Result) : Result := { r with notes := r.notes.shift k }

end TreeCheck.Typing
