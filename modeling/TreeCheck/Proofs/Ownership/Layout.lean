import TreeCheck.Proofs.Ownership.Runs

/-!
The code of a function is its check: running it with joins does what the check does, step for step.
-/

namespace TreeCheck.Ownership

namespace Code

variable {declares : Bool}

@[simp] theorem tidy_skip : Tidy declares .skip := .skip

@[simp] theorem tidy_leave : Tidy declares .leave := .leave

@[simp] theorem tidy_step {s : Step} :
    Tidy declares (.step s) ↔ (s.declares = true → declares = true) :=
  ⟨fun tidy => by cases tidy; assumption, .step⟩

@[simp] theorem tidy_seq {first next : Code} :
    Tidy declares (.seq first next) ↔ Tidy declares first ∧ Tidy declares next :=
  ⟨fun tidy => by cases tidy; constructor <;> assumption, fun parts => .seq parts.1 parts.2⟩

@[simp] theorem tidy_discard {body : Code} : Tidy declares (.discard body) ↔ Tidy declares body :=
  ⟨fun tidy => by cases tidy; assumption, .discard⟩

@[simp] theorem tidy_temporary {span : Span} {body : Code} :
    Tidy declares (.scope true span body) ↔ Tidy declares body :=
  ⟨fun tidy => by cases tidy; assumption, .temporary⟩

@[simp] theorem tidy_named {span : Span} {body : Code} :
    Tidy declares (.scope false span body) ↔ Tidy true body :=
  ⟨fun tidy => by cases tidy; assumption, .named⟩

@[simp] theorem tidy_choice {arms : List Code} :
    Tidy declares (.choice arms) ↔ ∀ arm ∈ arms, Tidy false arm :=
  ⟨fun tidy => by cases tidy; assumption, .choice⟩

@[simp] theorem tidy_loop {test round : Code} :
    Tidy declares (.loop test round) ↔ Tidy false test ∧ Tidy false round :=
  ⟨fun tidy => by cases tidy; constructor <;> assumption, fun parts => .loop parts.1 parts.2⟩

end Code

variable {ctx : Context}

open Code

theorem tidy_useCode (bindings : List Binding) : (ctx.useCode bindings).Tidy false := by
  induction bindings with
  | nil => exact .skip
  | cons b rest ih =>
    rw [Context.useCode, tidy_seq]
    refine ⟨by simp [Step.declares], ?_⟩
    split
    · exact ih
    · exact .skip

theorem tidy_armsUseCode (arms : List MatchArm) : (ctx.armsUseCode arms).Tidy false := by
  induction arms with
  | nil => exact .skip
  | cons arm rest ih =>
    obtain ⟨span, pattern, guard, body⟩ := arm
    exact .seq (tidy_useCode _) ih

theorem tidy_borrowCode {operand : Expr} {mutable : Bool} {site : NodeInfo} {evaluate indices : Code}
    (first : evaluate.Tidy false) (others : indices.Tidy false) :
    (Context.borrowCode operand mutable site evaluate indices).Tidy false := by
  unfold Context.borrowCode
  split <;> simp [Code.all, Step.declares, first, others]

theorem tidy_argumentCode {a : Expr} {read move indices : Code} (reads : read.Tidy false)
    (moves : move.Tidy false) (others : indices.Tidy false) :
    (ctx.argumentCode a read move indices).Tidy false := by
  unfold Context.argumentCode
  split
  · exact tidy_borrowCode moves others
  · exact tidy_borrowCode moves others
  · rw [tidy_seq]
    refine ⟨by simp [Step.declares], ?_⟩
    split
    · exact reads
    · exact moves

theorem tidy_placeCode {e : Expr} {use : Use} {indices temporary : Code}
    (others : indices.Tidy false) (value : temporary.Tidy false) :
    (Context.placeCode e use indices temporary).Tidy false := by
  unfold Context.placeCode
  split <;> simp [Step.declares, others, value]

mutual

theorem tidy_code : ∀ (e : Expr) (use : Use), (code ctx e use).Tidy false
  | .int .., _ | .float .., _ | .string .., _ | .bool .., _ => by simp [code, Step.declares]
  | .template _ parts, _ => by simp [code, Step.declares, tidy_codeParts parts]
  | .ident .., _ => by simp [code, Step.declares]
  | .binary _ _ left right, _ => by
    simp [code, Code.all, Step.declares, tidy_code left, tidy_code right]
  | .unary _ _ operand, _ | .cast _ operand _, _ => by
    simp [code, Step.declares, tidy_code operand]
  | .field _ object _, use => by
    simp [code, Step.declares, tidy_placeCode (tidy_codeIndices object) (tidy_code object .move)]
  | .index _ object index, use => by
    rw [code, tidy_seq]
    refine ⟨tidy_placeCode ?_ ?_, by simp [Step.declares]⟩
    · simp [tidy_code index, tidy_codeIndices object]
    · simp [tidy_code index, tidy_code object]
  | .deref _ operand, use => by
    rw [code, tidy_seq]
    refine ⟨?_, by simp [Step.declares]⟩
    split
    · exact tidy_placeCode (tidy_codeIndices operand) (tidy_code operand .read)
    · exact tidy_code operand .read
  | .ref _ _ operand, _ => by
    simp [code, Step.declares, tidy_borrowCode (tidy_code operand .move) (tidy_codeIndices operand)]
  | .call _ callee args, _ => by
    rw [code, tidy_seq]
    refine ⟨?_, by simp [Step.declares]⟩
    split
    · simp [Code.all, Step.declares, tidy_code callee, tidy_codeArgs args]
    · split <;> simp [Code.all, Step.declares, tidy_code callee, tidy_codeArgs args]
  | .methodCall _ receiver _ args, _ => by
    rw [code, tidy_seq]
    refine ⟨?_, by simp [Step.declares]⟩
    split
    · simp [Code.all, Step.declares, tidy_code receiver, tidy_codeArgs args]
    · split
      · simp [Code.all, Step.declares, tidy_code receiver, tidy_codeArgs args]
      · simp [Code.all, Step.declares, tidy_codeArgs args, tidy_argumentCode
          (tidy_code receiver .read) (tidy_code receiver .move) (tidy_codeIndices receiver)]
  | .struct _ _ fields, _ => by simp [code, Step.declares, tidy_codeFields fields]
  | .variant _ _ _ args fields, _ => by
    simp [code, Code.all, Step.declares, tidy_codeAll args, tidy_codeFields fields]
  | .tuple _ elements, _ | .array _ elements, _ => by
    simp [code, Step.declares, tidy_codeAll elements]
  | .assign _ target value, _ => by
    rw [code]
    split <;> simp [Code.all, Step.declares, tidy_code value, tidy_codeIndices target]
  | .branch _ condition consequent alternative, use => by
    simp [code, Step.declares, tidy_code condition, tidy_code consequent,
      tidy_codeOption alternative]
  | .select _ scrutinee arms, use => by
    simp [code, Code.all, Step.declares, tidy_armsUseCode, tidy_code scrutinee]
    exact tidy_codeArms arms use
  | .block body, use => by simp [code, Step.declares, tidy_codeBlock body]

theorem tidy_codeIndices : ∀ e : Expr, (codeIndices ctx e).Tidy false
  | .field _ object _ => by simp [codeIndices, tidy_codeIndices object]
  | .index _ object index => by simp [codeIndices, tidy_codeIndices object, tidy_code index]
  | .deref _ operand => by simp [codeIndices, tidy_codeIndices operand]
  | .int .. | .float .. | .string .. | .bool .. | .ident .. | .template .. | .binary .. | .unary ..
  | .call .. | .methodCall .. | .ref .. | .struct .. | .variant .. | .tuple .. | .array .. | .cast ..
  | .assign .. | .select .. | .branch .. | .block .. => by simp [codeIndices]

theorem tidy_codeParts : ∀ parts : List TemplatePart, (codeParts ctx parts).Tidy false
  | [] => by simp [codeParts]
  | .text _ :: rest => by simp [codeParts, tidy_codeParts rest]
  | .value e :: rest => by simp [codeParts, tidy_codeParts rest, tidy_code e]

theorem tidy_codeArgs : ∀ args : List Expr, (codeArgs ctx args).Tidy false
  | [] => by simp [codeArgs]
  | a :: rest => by
    rw [codeArgs, tidy_seq]
    exact ⟨tidy_argumentCode (tidy_code a .read) (tidy_code a .move) (tidy_codeIndices a),
      tidy_codeArgs rest⟩

theorem tidy_codeAll : ∀ es : List Expr, (codeAll ctx es).Tidy false
  | [] => by simp [codeAll]
  | e :: rest => by simp [codeAll, Code.all, Step.declares, tidy_code e, tidy_codeAll rest]

theorem tidy_codeFields : ∀ fields : List FieldInit, (codeFields ctx fields).Tidy false
  | [] => by simp [codeFields]
  | .mk _ _ value :: rest => by
    simp [codeFields, Code.all, Step.declares, tidy_code value, tidy_codeFields rest]

theorem tidy_codeOption : ∀ (e : Option Expr) (use : Use), (codeOption ctx e use).Tidy false
  | none, _ => by simp [codeOption, Step.declares]
  | some e, _ => by simp [codeOption, tidy_code e]

theorem tidy_codeArms : ∀ (arms : List MatchArm) (use : Use),
    ∀ arm ∈ codeArms ctx arms use, arm.Tidy false
  | [], _ => by simp [codeArms]
  | .mk _ pattern guard body :: rest, use => by
    simp only [codeArms, List.forall_mem_cons]
    refine ⟨?_, tidy_codeArms rest use⟩
    simp [Code.all, Step.declares, (tidy_codeGuards pattern).mayDeclare,
      (tidy_codeOption guard .read).mayDeclare, (tidy_code body use).mayDeclare]

theorem tidy_codeBlock : ∀ (b : Block) (use : Use), (codeBlock ctx b use).Tidy false
  | .mk _ stmts none, use => by simp [codeBlock, Step.declares, tidy_codeStmts stmts]
  | .mk _ stmts (some value), use => by
    simp [codeBlock, Step.declares, tidy_codeStmts stmts, (tidy_code value use).mayDeclare]

theorem tidy_codeStmts : ∀ stmts : List Stmt, (codeStmts ctx stmts).Tidy true
  | [] => by simp [codeStmts]
  | s :: rest => by simp [codeStmts, tidy_codeStmt s, tidy_codeStmts rest]

theorem tidy_codeStmt : ∀ s : Stmt, (codeStmt ctx s).Tidy true
  | .bind _ _ _ none => by simp [codeStmt]
  | .bind _ pattern _ (some value) => by
    simp [codeStmt, Code.all, (tidy_useCode pattern.bindings).mayDeclare,
      (tidy_code value (ctx.useOf pattern.bindings)).mayDeclare]
  | .expr _ value => by simp [codeStmt, (tidy_code value .read).mayDeclare]
  | .ret _ none => by simp [codeStmt]
  | .ret _ (some value) => by simp [codeStmt, (tidy_code value .move).mayDeclare]
  | .loop _ condition body => by simp [codeStmt, tidy_code condition, tidy_codeBlock body]
  | .counted _ init condition update body => by
    simp [codeStmt, tidy_codeInit init, tidy_codeOption condition, tidy_codeOption update,
      tidy_codeBlock body]

theorem tidy_codeInit : ∀ init : Option Stmt, (codeInit ctx init).Tidy true
  | none => by simp [codeInit]
  | some s => by simp [codeInit, tidy_codeStmt s]

theorem tidy_codeGuards : ∀ p : Pattern, (codeGuards ctx p).Tidy false
  | .tuple _ elements => by simp [codeGuards, tidy_codeGuardsAll elements]
  | .list _ front _ _ => by simp [codeGuards, tidy_codeGuardsAll front]
  | .record _ _ fields _ => by simp [codeGuards, tidy_codeGuardsFields fields]
  | .variant _ _ _ args fields _ => by
    simp [codeGuards, tidy_codeGuardsAll args, tidy_codeGuardsFields fields]
  | .alternatives _ choices => by simp [codeGuards, tidy_codeGuardsAll choices]
  | .guarded _ inner condition => by
    simp [codeGuards, Code.all, tidy_code condition, tidy_codeGuards inner,
      tidy_codeInner condition]
  | .wildcard _ | .binding _ | .literal .. | .range .. => by simp [codeGuards]

theorem tidy_codeGuardsAll : ∀ ps : List Pattern, (codeGuardsAll ctx ps).Tidy false
  | [] => by simp [codeGuardsAll]
  | p :: rest => by simp [codeGuardsAll, tidy_codeGuards p, tidy_codeGuardsAll rest]

theorem tidy_codeGuardsFields : ∀ ps : List FieldPattern, (codeGuardsFields ctx ps).Tidy false
  | [] => by simp [codeGuardsFields]
  | .mk _ p :: rest => by simp [codeGuardsFields, tidy_codeGuards p, tidy_codeGuardsFields rest]

theorem tidy_codeInner : ∀ e : Expr, (codeInner ctx e).Tidy false
  | .int .. | .float .. | .string .. | .bool .. | .ident .. => by simp [codeInner]
  | .template _ parts => by simp [codeInner, tidy_codeInnerParts parts]
  | .binary _ _ left right => by simp [codeInner, tidy_codeInner left, tidy_codeInner right]
  | .unary _ _ operand => by simp [codeInner, tidy_codeInner operand]
  | .call _ callee args => by simp [codeInner, tidy_codeInner callee, tidy_codeInnerAll args]
  | .methodCall _ receiver _ args => by
    simp [codeInner, tidy_codeInner receiver, tidy_codeInnerAll args]
  | .field _ object _ => by simp [codeInner, tidy_codeInner object]
  | .index _ object index => by simp [codeInner, tidy_codeInner object, tidy_codeInner index]
  | .ref _ _ operand => by simp [codeInner, tidy_codeInner operand]
  | .deref _ operand => by simp [codeInner, tidy_codeInner operand]
  | .struct _ _ fields => by simp [codeInner, tidy_codeInnerFields fields]
  | .variant _ _ _ args fields => by
    simp [codeInner, tidy_codeInnerAll args, tidy_codeInnerFields fields]
  | .tuple _ elements | .array _ elements => by simp [codeInner, tidy_codeInnerAll elements]
  | .cast _ operand _ => by simp [codeInner, tidy_codeInner operand]
  | .assign _ target value => by simp [codeInner, tidy_codeInner target, tidy_codeInner value]
  | .select _ scrutinee arms => by
    simp [codeInner, tidy_codeInner scrutinee, tidy_codeInnerArms arms]
  | .branch _ condition consequent alternative => by
    simp [codeInner, Code.all, tidy_codeInner condition, tidy_codeInner consequent,
      tidy_codeInnerOption alternative]
  | .block body => by simp [codeInner, tidy_codeInnerBlock body]

theorem tidy_codeInnerAll : ∀ es : List Expr, (codeInnerAll ctx es).Tidy false
  | [] => by simp [codeInnerAll]
  | e :: rest => by simp [codeInnerAll, tidy_codeInner e, tidy_codeInnerAll rest]

theorem tidy_codeInnerOption : ∀ e : Option Expr, (codeInnerOption ctx e).Tidy false
  | none => by simp [codeInnerOption]
  | some e => by simp [codeInnerOption, tidy_codeInner e]

theorem tidy_codeInnerParts : ∀ parts : List TemplatePart, (codeInnerParts ctx parts).Tidy false
  | [] => by simp [codeInnerParts]
  | .text _ :: rest => by simp [codeInnerParts, tidy_codeInnerParts rest]
  | .value e :: rest => by simp [codeInnerParts, tidy_codeInner e, tidy_codeInnerParts rest]

theorem tidy_codeInnerFields : ∀ fields : List FieldInit, (codeInnerFields ctx fields).Tidy false
  | [] => by simp [codeInnerFields]
  | .mk _ _ value :: rest => by
    simp [codeInnerFields, tidy_codeInner value, tidy_codeInnerFields rest]

theorem tidy_codeInnerArms : ∀ arms : List MatchArm, (codeInnerArms ctx arms).Tidy false
  | [] => by simp [codeInnerArms]
  | .mk _ pattern guard body :: rest => by
    simp [codeInnerArms, Code.all, tidy_codeGuards pattern, tidy_codeInnerOption guard,
      tidy_codeInner body, tidy_codeInnerArms rest]

theorem tidy_codeInnerBlock : ∀ b : Block, (codeInnerBlock ctx b).Tidy false
  | .mk _ stmts tail => by
    simp [codeInnerBlock, tidy_codeInnerStmts stmts, tidy_codeInnerOption tail]

theorem tidy_codeInnerStmts : ∀ stmts : List Stmt, (codeInnerStmts ctx stmts).Tidy false
  | [] => by simp [codeInnerStmts]
  | s :: rest => by simp [codeInnerStmts, tidy_codeInnerStmt s, tidy_codeInnerStmts rest]

theorem tidy_codeInnerStmt : ∀ s : Stmt, (codeInnerStmt ctx s).Tidy false
  | .bind _ pattern _ init => by
    simp [codeInnerStmt, tidy_codeGuards pattern, tidy_codeInnerOption init]
  | .expr _ value => by simp [codeInnerStmt, tidy_codeInner value]
  | .ret _ value => by simp [codeInnerStmt, tidy_codeInnerOption value]
  | .loop _ condition body => by
    simp [codeInnerStmt, tidy_codeInner condition, tidy_codeInnerBlock body]
  | .counted _ init condition update body => by
    simp [codeInnerStmt, Code.all, tidy_codeInnerInit init, tidy_codeInnerOption condition,
      tidy_codeInnerBlock body, tidy_codeInnerOption update]

theorem tidy_codeInnerInit : ∀ init : Option Stmt, (codeInnerInit ctx init).Tidy false
  | none => by simp [codeInnerInit]
  | some s => by simp [codeInnerInit, tidy_codeInnerStmt s]

end

theorem tidy_all {declares : Bool} {codes : List Code} (each : ∀ c ∈ codes, c.Tidy declares) :
    (Code.all codes).Tidy declares := by
  induction codes with
  | nil => exact .skip
  | cons c rest ih =>
    obtain ⟨first, others⟩ := List.forall_mem_cons.mp each
    cases rest with
    | nil => exact first
    | cons next rest => exact .seq first (ih others)

theorem tidy_paramsCode (ctx : Context) (f : FuncDecl) : (ctx.paramsCode f).Tidy true := by
  refine .seq ?_ (tidy_all fun c member => ?_)
  · split <;> simp
  · obtain ⟨x, -, rfl⟩ := List.mem_map.mp member
    simp

/-- What a function does with its parameters in scope. -/
def Context.bodyCode (ctx : Context) (f : FuncDecl) : Code := .discard (.seq (codeBlock ctx f.body .move)
  (match f.body.tail with
  | some value => .step (.escape value.span)
  | none => .skip))

theorem functionCode_eq (ctx : Context) (f : FuncDecl) :
    ctx.functionCode f = .scope false f.span (.seq (ctx.paramsCode f) (ctx.bodyCode f)) := rfl

theorem tidy_bodyCode (ctx : Context) (f : FuncDecl) : (ctx.bodyCode f).Tidy false := by
  refine .discard (.seq (tidy_codeBlock f.body .move) ?_)
  split <;> simp [Step.declares]

end TreeCheck.Ownership
