import TreeCheck.Proofs.Ownership.Shift

/-!
The ownership check of a body whose numbers are higher by a constant notes the same moves and borrows, at the
higher numbers.
-/

namespace TreeCheck.Ownership

open Context

variable {k : Nat} {ctx : Context}

mutual

theorem eval_inStep (typed : ctx.Typed) : ∀ (e : Expr) (use : Use),
    InStep k (eval ctx e use) (eval (ctx.shift k) (e.shift k) use)
  | .int .., _ | .float .., _ | .string .., _ | .bool .., _ => by
    rw [Expr.shift, eval, eval]
    exact .pure _
  | .template _ parts, _ => by
    rw [Expr.shift, eval, eval]
    exact .bind (evalParts_inStep typed parts) fun _ => .pure _
  | .ident info name, use => by
    rw [Expr.shift, eval, eval]
    exact carried_inStep typed info.id (useName_inStep info name use)
  | .binary _ _ left right, _ => by
    rw [Expr.shift, eval, eval]
    exact .bind (eval_inStep typed left .read) fun _ => .bind (eval_inStep typed right .read) fun _ => .pure _
  | .unary _ _ operand, _ | .cast _ operand _, _ => by
    rw [Expr.shift, eval, eval]
    exact .bind (eval_inStep typed operand .read) fun _ => .pure _
  | .field info object name, use => by
    rw [Expr.shift, eval, eval]
    refine carried_inStep typed info.id (.bind (place_inStep typed (.field info object name)) fun p => ?_)
    refine .ite _ (eval_inStep typed object .move) (.bind (indices_inStep typed object) fun _ => ?_)
    exact usePlace_inStep typed p (.field info object name) use
  | .index info object index, use => by
    rw [Expr.shift, eval, eval]
    refine carried_inStep typed info.id (.bind (place_inStep typed (.index info object index)) fun p => ?_)
    refine .ite _ (.bind (eval_inStep typed object .move) fun _ => ?_) ?_
    · exact .bind (eval_inStep typed index .read) fun _ => .pure _
    · refine .bind (eval_inStep typed index .read) fun _ => .bind (indices_inStep typed object) fun _ => ?_
      exact usePlace_inStep typed p (.index info object index) use
  | .deref info operand, use => by
    rw [Expr.shift, eval, eval, operand.isPlace_shift]
    have value := eval_inStep typed operand .read
    refine carried_inStep typed info.id (.ite _ ?_ value)
    refine .bind (place_inStep typed (.deref info operand)) fun p => .ite _ value ?_
    exact .bind (indices_inStep typed operand) fun _ => usePlace_inStep typed p (.deref info operand) use
  | .ref info isMutable operand, _ => by
    rw [Expr.shift, eval, eval]
    exact carried_inStep typed info.id
      (borrow_inStep typed operand isMutable info (eval_inStep typed operand .move) (indices_inStep typed operand))
  | .call info callee args, _ => by
    have same : (ctx.shift k).notes.calls.get? (info.shift k).id = ctx.notes.calls.get? info.id :=
      NodeTable.get?_shift info.id
    rw [Expr.shift, eval, eval, same, isWhole_shift]
    refine carried_inStep typed info.id ?_
    cases ctx.notes.calls.get? info.id with
    | none =>
      refine .bind (eval_inStep typed callee .read) fun _ => ?_
      exact .bind (evalArgs_inStep typed args) fun _ => .pure _
    | some signature =>
      have result := Parallel.bind (evalArgs_inStep typed args) fun args =>
        .pure (ctx.returned signature [] args)
      exact .ite _ (.bind (eval_inStep typed callee .read) fun _ => result) result
  | .methodCall info receiver _ args, _ => by
    have same : (ctx.shift k).notes.methods.get? (info.shift k).id = ctx.notes.methods.get? info.id :=
      NodeTable.get?_shift info.id
    rw [Expr.shift, eval, eval, same]
    refine carried_inStep typed info.id ?_
    cases ctx.notes.methods.get? info.id with
    | none =>
      refine .bind (eval_inStep typed receiver .read) fun _ => ?_
      exact .bind (evalArgs_inStep typed args) fun _ => .pure _
    | some signature =>
      have moved := eval_inStep typed receiver .move
      have passed := argument_inStep typed receiver (eval_inStep typed receiver .read) moved
        (indices_inStep typed receiver)
      refine .ite _ (.bind moved fun _ => ?_) (.bind passed fun _ => ?_)
      all_goals exact .bind (evalArgs_inStep typed args) fun _ => .pure _
  | .struct info _ fields, _ => by
    rw [Expr.shift, eval, eval]
    exact carried_inStep typed info.id (evalFields_inStep typed fields [])
  | .variant info _ _ args fields, _ => by
    rw [Expr.shift, eval, eval]
    exact carried_inStep typed info.id (.bind (evalAll_inStep typed args []) fun origins =>
      evalFields_inStep typed fields origins)
  | .tuple info elements, _ | .array info elements, _ => by
    rw [Expr.shift, eval, eval]
    exact carried_inStep typed info.id (evalAll_inStep typed elements [])
  | .assign _ target value, _ => by
    rw [Expr.shift, eval, eval]
    refine .bind (eval_inStep typed value .move) fun origins => .bind (place_inStep typed target) fun p => ?_
    have inside := indices_inStep typed target
    cases p.root with
    | temporary => exact .pure _
    | unbound => exact .bind inside fun _ => .pure _
    | var id => exact .bind inside fun _ => .bind (write_inStep typed id p target origins) fun _ => .pure _
  | .branch info condition consequent alternative, use => by
    rw [Expr.shift, eval, eval]
    refine carried_inStep typed info.id (.bind (eval_inStep typed condition .read) fun _ => ?_)
    refine .bind save_inStep fun before => .bind (eval_inStep typed consequent use) fun origins => ?_
    refine .bind save_inStep fun after => .bind (restore_inStep before) fun _ => ?_
    refine .bind (evalOption_inStep typed alternative use) fun more => ?_
    exact .bind save_inStep fun last => .bind (merge_inStep _) fun _ => .pure _
  | .select info scrutinee arms, use => by
    rw [Expr.shift, eval, eval]
    refine carried_inStep typed info.id (.bind (armsUse_inStep typed arms) fun consumed => ?_)
    refine .bind (eval_inStep typed scrutinee consumed) fun origins => .bind save_inStep fun before => ?_
    refine .bind (evalArms_inStep typed arms use origins before []) fun (result, ends) => ?_
    exact .optional _ (merge_inStep ends) (.pure _)
  | .block body, use => by
    rw [Expr.shift, eval, eval, body.id_shift]
    exact carried_inStep typed body.id (evalBlock_inStep typed body use)

theorem indices_inStep (typed : ctx.Typed) : ∀ e : Expr,
    InStep k (indices ctx e) (indices (ctx.shift k) (e.shift k))
  | .field _ object _ | .deref _ object => by
    rw [Expr.shift, indices, indices]
    exact indices_inStep typed object
  | .index _ object index => by
    rw [Expr.shift, indices, indices]
    exact .bind (eval_inStep typed index .read) fun _ => indices_inStep typed object
  | .ident .. | .int .. | .float .. | .string .. | .template .. | .bool .. | .binary .. | .unary .. | .call ..
  | .methodCall .. | .ref .. | .struct .. | .variant .. | .tuple .. | .array .. | .cast .. | .assign .. | .select ..
  | .branch .. | .block .. => .pure _

theorem evalParts_inStep (typed : ctx.Typed) : ∀ parts : List TemplatePart,
    InStep k (evalParts ctx parts) (evalParts (ctx.shift k) (TemplatePart.shiftAll k parts))
  | [] => .pure _
  | .text _ :: rest => evalParts_inStep typed rest
  | .value e :: rest => .bind (eval_inStep typed e .read) fun _ => evalParts_inStep typed rest

theorem evalArgs_inStep (typed : ctx.Typed) : ∀ args : List Expr,
    InStep k (evalArgs ctx args) (evalArgs (ctx.shift k) (Expr.shiftAll k args))
  | [] => .pure _
  | a :: rest =>
    .bind (argument_inStep typed a (eval_inStep typed a .read) (eval_inStep typed a .move)
      (indices_inStep typed a)) fun _ => .bind (evalArgs_inStep typed rest) fun _ => .pure _

theorem evalAll_inStep (typed : ctx.Typed) : ∀ (list : List Expr) (origins : List Origin),
    InStep k (evalAll ctx list origins) (evalAll (ctx.shift k) (Expr.shiftAll k list) origins)
  | [], _ => .pure _
  | e :: rest, _ => .bind (eval_inStep typed e .move) fun _ => evalAll_inStep typed rest _

theorem evalFields_inStep (typed : ctx.Typed) : ∀ (fields : List FieldInit) (origins : List Origin),
    InStep k (evalFields ctx fields origins) (evalFields (ctx.shift k) (FieldInit.shiftAll k fields) origins)
  | [], _ => .pure _
  | .mk _ _ value :: rest, _ => .bind (eval_inStep typed value .move) fun _ => evalFields_inStep typed rest _

theorem evalOption_inStep (typed : ctx.Typed) : ∀ (e : Option Expr) (use : Use),
    InStep k (evalOption ctx e use) (evalOption (ctx.shift k) (Expr.shiftOption k e) use)
  | none, _ => .pure _
  | some e, use => eval_inStep typed e use

theorem armsUse_inStep (typed : ctx.Typed) : ∀ arms : List MatchArm,
    InStep k (armsUse ctx arms) (armsUse (ctx.shift k) (MatchArm.shiftAll k arms))
  | [] => .pure _
  | .mk _ pattern _ _ :: rest =>
    .bind (patternUse_inStep typed pattern) fun _ => .bind (armsUse_inStep typed rest) fun _ => .pure _

theorem evalArms_inStep (typed : ctx.Typed) : ∀ (arms : List MatchArm) (use : Use) (scrutinee : List Origin)
    (before : Flow) (origins : List Origin), InStep k (evalArms ctx arms use scrutinee before origins)
      (evalArms (ctx.shift k) (MatchArm.shiftAll k arms) use scrutinee before origins)
  | [], _, _, _, _ => .pure _
  | .mk span pattern guard body :: rest, use, scrutinee, before, origins => by
    rw [MatchArm.shiftAll, evalArms, evalArms, pattern.bindings_shift]
    refine .bind (restore_inStep before) fun _ => .bind (push_inStep false) fun _ => ?_
    refine .bind (bindAll_inStep typed _ pattern.bindings) fun _ => ?_
    refine .bind (guardsPattern_inStep typed pattern) fun _ => ?_
    refine .bind (evalOption_inStep typed guard .read) fun _ => .bind (eval_inStep typed body use) fun more => ?_
    refine .bind (keep_inStep _) fun _ => .bind pop_inStep fun _ => .bind save_inStep fun after => ?_
    exact .bind (evalArms_inStep typed rest use scrutinee before _) fun _ => .pure _

theorem evalBlock_inStep (typed : ctx.Typed) : ∀ (b : Block) (use : Use),
    InStep k (evalBlock ctx b use) (evalBlock (ctx.shift k) (b.shift k) use)
  | .mk info stmts none, use => by
    rw [Block.shift, Expr.shiftOption, evalBlock, evalBlock]
    refine .bind (push_inStep false) fun _ => .bind (walkStmts_inStep typed stmts) fun _ => ?_
    exact .bind (.pure _) fun _ => .bind pop_inStep fun _ => .pure _
  | .mk info stmts (some value), use => by
    rw [Block.shift, Expr.shiftOption, evalBlock, evalBlock]
    refine .bind (push_inStep false) fun _ => .bind (walkStmts_inStep typed stmts) fun _ => ?_
    dsimp only
    rw [value.span_shift]
    refine .bind (push_inStep true) fun _ => .bind (eval_inStep typed value use) fun origins => ?_
    refine .bind (keep_inStep origins) fun _ => .bind pop_inStep fun _ => .bind (.pure _) fun _ => ?_
    exact .bind pop_inStep fun _ => .pure _

theorem walkStmts_inStep (typed : ctx.Typed) : ∀ stmts : List Stmt,
    InStep k (walkStmts ctx stmts) (walkStmts (ctx.shift k) (Stmt.shiftAll k stmts))
  | [] => .pure _
  | s :: rest => .bind (walkStmt_inStep typed s) fun _ => walkStmts_inStep typed rest

theorem walkStmt_inStep (typed : ctx.Typed) : ∀ s : Stmt,
    InStep k (walkStmt ctx s) (walkStmt (ctx.shift k) (s.shift k))
  | .bind span pattern _ none => by
    rw [Stmt.shift, Expr.shiftOption, walkStmt, walkStmt, pattern.bindings_shift]
    refine .bind (push_inStep true) fun _ => .bind (bindAll_inStep typed _ pattern.bindings) fun _ => ?_
    exact pop_inStep
  | .bind span pattern _ (some value) => by
    rw [Stmt.shift, Expr.shiftOption, walkStmt, walkStmt, pattern.bindings_shift]
    refine .bind (push_inStep true) fun _ => .bind (patternUse_inStep typed pattern) fun use => ?_
    refine .bind (eval_inStep typed value use) fun origins => ?_
    exact .bind (bindAll_inStep typed _ pattern.bindings) fun _ => pop_inStep
  | .expr span value => by
    rw [Stmt.shift, walkStmt, walkStmt]
    exact .bind (push_inStep true) fun _ => .bind (eval_inStep typed value .read) fun _ => pop_inStep
  | .ret span none => by
    rw [Stmt.shift, Expr.shiftOption, walkStmt, walkStmt]
    exact .bind (push_inStep true) fun _ => .bind setDiverged_inStep fun _ => pop_inStep
  | .ret span (some value) => by
    rw [Stmt.shift, Expr.shiftOption, walkStmt, walkStmt, value.span_shift]
    refine .bind (push_inStep true) fun _ => .bind (eval_inStep typed value .move) fun origins => ?_
    exact .bind (checkEscape_inStep origins) fun _ => .bind setDiverged_inStep fun _ => pop_inStep
  | .loop span condition body => by
    rw [Stmt.shift, walkStmt, walkStmt]
    have test := eval_inStep typed condition .read
    have round := evalBlock_inStep typed body .read
    refine .bind (push_inStep true) fun _ => .bind save_inStep fun before => .bind test fun _ => ?_
    refine .bind save_inStep fun start => .bind round fun _ => .bind save_inStep fun once => ?_
    refine .optional _ (restore_inStep start) (.bind test fun _ => .bind round fun _ => ?_)
    refine .bind save_inStep fun twice => .bind (merge_inStep _) fun _ => ?_
    exact .optional _ setDiverged_inStep pop_inStep
  | .counted span init condition update body => by
    rw [Stmt.shift, walkStmt, walkStmt]
    have test := evalOption_inStep typed condition .read
    have round := evalBlock_inStep typed body .read
    have next := evalOption_inStep typed update .read
    refine .bind (push_inStep true) fun _ => .bind (push_inStep false) fun _ => ?_
    refine .bind (walkInit_inStep typed init) fun _ => .bind save_inStep fun before => .bind test fun _ => ?_
    refine .bind save_inStep fun start => .bind round fun _ => .bind next fun _ => .bind save_inStep fun once => ?_
    refine .optional _ (restore_inStep start) (.bind test fun _ => .bind round fun _ => .bind next fun _ => ?_)
    refine .bind save_inStep fun twice => .bind (merge_inStep _) fun _ => ?_
    exact .optional _ setDiverged_inStep (.bind pop_inStep fun _ => pop_inStep)

theorem walkInit_inStep (typed : ctx.Typed) : ∀ s : Option Stmt,
    InStep k (walkInit ctx s) (walkInit (ctx.shift k) (Stmt.shiftOption k s))
  | none => .pure _
  | some s => walkStmt_inStep typed s

theorem guardsPattern_inStep (typed : ctx.Typed) : ∀ p : Pattern,
    InStep k (guardsPattern ctx p) (guardsPattern (ctx.shift k) (p.shift k))
  | .wildcard _ | .binding _ | .literal .. | .range .. => by
    rw [Pattern.shift, guardsPattern, guardsPattern]
    exact .pure _
  | .tuple _ elements | .list _ elements _ _ | .alternatives _ elements => by
    rw [Pattern.shift, guardsPattern, guardsPattern]
    exact guardsPatterns_inStep typed elements
  | .record _ _ fields _ => by
    rw [Pattern.shift, guardsPattern, guardsPattern]
    exact guardsFieldPatterns_inStep typed fields
  | .variant _ _ _ args fields _ => by
    rw [Pattern.shift, guardsPattern, guardsPattern]
    exact .bind (guardsPatterns_inStep typed args) fun _ => guardsFieldPatterns_inStep typed fields
  | .guarded _ inner condition => by
    rw [Pattern.shift, guardsPattern, guardsPattern]
    refine .bind (eval_inStep typed condition .read) fun _ => .bind (guardsPattern_inStep typed inner) fun _ => ?_
    exact guards_inStep typed condition

theorem guardsPatterns_inStep (typed : ctx.Typed) : ∀ patterns : List Pattern,
    InStep k (guardsPatterns ctx patterns) (guardsPatterns (ctx.shift k) (Pattern.shiftAll k patterns))
  | [] => .pure _
  | p :: rest => .bind (guardsPattern_inStep typed p) fun _ => guardsPatterns_inStep typed rest

theorem guardsFieldPatterns_inStep (typed : ctx.Typed) : ∀ fields : List FieldPattern,
    InStep k (guardsFieldPatterns ctx fields) (guardsFieldPatterns (ctx.shift k) (FieldPattern.shiftAll k fields))
  | [] => .pure _
  | .mk _ p :: rest => .bind (guardsPattern_inStep typed p) fun _ => guardsFieldPatterns_inStep typed rest

theorem guards_inStep (typed : ctx.Typed) : ∀ e : Expr, InStep k (guards ctx e) (guards (ctx.shift k) (e.shift k))
  | .int .. | .float .. | .string .. | .bool .. | .ident .. => by
    rw [Expr.shift, guards, guards]
    exact .pure _
  | .template _ parts => by
    rw [Expr.shift, guards, guards]
    exact guardsParts_inStep typed parts
  | .binary _ _ left right | .index _ left right | .assign _ left right => by
    rw [Expr.shift, guards, guards]
    exact .bind (guards_inStep typed left) fun _ => guards_inStep typed right
  | .unary _ _ operand | .field _ operand _ | .ref _ _ operand | .deref _ operand | .cast _ operand _ => by
    rw [Expr.shift, guards, guards]
    exact guards_inStep typed operand
  | .call _ callee args | .methodCall _ callee _ args => by
    rw [Expr.shift, guards, guards]
    exact .bind (guards_inStep typed callee) fun _ => guardsAll_inStep typed args
  | .struct _ _ fields => by
    rw [Expr.shift, guards, guards]
    exact guardsFields_inStep typed fields
  | .variant _ _ _ args fields => by
    rw [Expr.shift, guards, guards]
    exact .bind (guardsAll_inStep typed args) fun _ => guardsFields_inStep typed fields
  | .tuple _ elements | .array _ elements => by
    rw [Expr.shift, guards, guards]
    exact guardsAll_inStep typed elements
  | .select _ scrutinee arms => by
    rw [Expr.shift, guards, guards]
    exact .bind (guards_inStep typed scrutinee) fun _ => guardsArms_inStep typed arms
  | .branch _ condition consequent alternative => by
    rw [Expr.shift, guards, guards]
    refine .bind (guards_inStep typed condition) fun _ => .bind (guards_inStep typed consequent) fun _ => ?_
    exact guardsOption_inStep typed alternative
  | .block body => by
    rw [Expr.shift, guards, guards]
    exact guardsBlock_inStep typed body

theorem guardsAll_inStep (typed : ctx.Typed) : ∀ list : List Expr,
    InStep k (guardsAll ctx list) (guardsAll (ctx.shift k) (Expr.shiftAll k list))
  | [] => .pure _
  | e :: rest => .bind (guards_inStep typed e) fun _ => guardsAll_inStep typed rest

theorem guardsOption_inStep (typed : ctx.Typed) : ∀ e : Option Expr,
    InStep k (guardsOption ctx e) (guardsOption (ctx.shift k) (Expr.shiftOption k e))
  | none => .pure _
  | some e => guards_inStep typed e

theorem guardsParts_inStep (typed : ctx.Typed) : ∀ parts : List TemplatePart,
    InStep k (guardsParts ctx parts) (guardsParts (ctx.shift k) (TemplatePart.shiftAll k parts))
  | [] => .pure _
  | .text _ :: rest => guardsParts_inStep typed rest
  | .value e :: rest => .bind (guards_inStep typed e) fun _ => guardsParts_inStep typed rest

theorem guardsFields_inStep (typed : ctx.Typed) : ∀ fields : List FieldInit,
    InStep k (guardsFields ctx fields) (guardsFields (ctx.shift k) (FieldInit.shiftAll k fields))
  | [] => .pure _
  | .mk _ _ value :: rest => .bind (guards_inStep typed value) fun _ => guardsFields_inStep typed rest

theorem guardsArms_inStep (typed : ctx.Typed) : ∀ arms : List MatchArm,
    InStep k (guardsArms ctx arms) (guardsArms (ctx.shift k) (MatchArm.shiftAll k arms))
  | [] => .pure _
  | .mk _ pattern guard body :: rest =>
    .bind (guardsPattern_inStep typed pattern) fun _ => .bind (guardsOption_inStep typed guard) fun _ =>
      .bind (guards_inStep typed body) fun _ => guardsArms_inStep typed rest

theorem guardsBlock_inStep (typed : ctx.Typed) : ∀ b : Block,
    InStep k (guardsBlock ctx b) (guardsBlock (ctx.shift k) (b.shift k))
  | .mk _ stmts tail => .bind (guardsStmts_inStep typed stmts) fun _ => guardsOption_inStep typed tail

theorem guardsStmts_inStep (typed : ctx.Typed) : ∀ stmts : List Stmt,
    InStep k (guardsStmts ctx stmts) (guardsStmts (ctx.shift k) (Stmt.shiftAll k stmts))
  | [] => .pure _
  | s :: rest => .bind (guardsStmt_inStep typed s) fun _ => guardsStmts_inStep typed rest

theorem guardsStmt_inStep (typed : ctx.Typed) : ∀ s : Stmt,
    InStep k (guardsStmt ctx s) (guardsStmt (ctx.shift k) (s.shift k))
  | .bind _ pattern _ init =>
    .bind (guardsPattern_inStep typed pattern) fun _ => guardsOption_inStep typed init
  | .expr _ value => guards_inStep typed value
  | .ret _ value => guardsOption_inStep typed value
  | .loop _ condition body =>
    .bind (guards_inStep typed condition) fun _ => guardsBlock_inStep typed body
  | .counted _ init condition update body =>
    .bind (guardsInit_inStep typed init) fun _ => .bind (guardsOption_inStep typed condition) fun _ =>
      .bind (guardsBlock_inStep typed body) fun _ => guardsOption_inStep typed update

theorem guardsInit_inStep (typed : ctx.Typed) : ∀ s : Option Stmt,
    InStep k (guardsInit ctx s) (guardsInit (ctx.shift k) (Stmt.shiftOption k s))
  | none => .pure _
  | some s => guardsStmt_inStep typed s

end

/-! ### Functions -/

def Result.shift (k : Nat) (r : Result) : Result :=
  { r with moves := r.moves.shift k, borrows := r.borrows.shift k }

end TreeCheck.Ownership
