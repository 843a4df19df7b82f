import TreeCheck.Proofs.Ownership.Functions

/-!
The steps that check the identifiers of a function. Every identifier that is not hidden is the one that some step
of the code of the function starts at, and what the code declares before that step are the names in scope at the
identifier.
-/

namespace TreeCheck.Ownership

/-! ### Occurrences -/

/-- An identifier in a function. -/
structure Occurrence where
  info : NodeInfo
  name : String
  /-- The names in scope, the latest first. -/
  scope : List String
  /-- Whether it stands where the check does not look: in a guard of a `let`, or in a place that starts at a
  temporary value and is borrowed or assigned to. -/
  hidden : Bool := false
deriving DecidableEq, Repr

def Occurrence.hide (o : Occurrence) : Occurrence := { o with hidden := true }

/-- The names that a pattern binds, the latest first. -/
def patternNames (p : Pattern) : List String := (p.bindings.map Binding.name).reverse

/-- The names that a statement declares for those after it. -/
def stmtNames : Stmt → List String
  | .bind _ pattern _ _ => patternNames pattern
  | .expr .. | .ret .. | .loop .. | .counted .. => []

def stmtsNames : List Stmt → List String
  | [] => []
  | s :: rest => stmtsNames rest ++ stmtNames s

def initNames : Option Stmt → List String
  | none => []
  | some s => stmtNames s

/-- The identifiers of an operand that is borrowed. -/
def lent (operand : Expr) (os : List Occurrence) : List Occurrence :=
  if operand.isPlace && operand.root?.isNone then os.map Occurrence.hide else os

/-- The identifiers of an argument, which may be borrowed implicitly. -/
def Context.passed (ctx : Context) (a : Expr) (os : List Occurrence) : List Occurrence :=
  match ctx.notes.coercions.get? a.id with
  | some .autoRef | some .autoRefMut => lent a os
  | _ => os

/-- The identifiers of an assigned place. -/
def assigned (target : Expr) (os : List Occurrence) : List Occurrence :=
  if target.root?.isSome then os else os.map Occurrence.hide

/-- The identifiers of what is called; the name of a function is none. -/
def Context.called (ctx : Context) (id : Nat) (callee : Expr) (os : List Occurrence) : List Occurrence :=
  if (ctx.notes.calls.get? id).isSome && Context.isWhole callee then [] else os

mutual

/-- The identifiers in an expression, given the names in scope. -/
def occurrences (ctx : Context) (scope : List String) : Expr → List Occurrence
  | .int .. | .float .. | .string .. | .bool .. => []
  | .template _ parts => occurrencesParts ctx scope parts
  | .ident info name => [{ info, name, scope }]
  | .binary _ _ left right => occurrences ctx scope left ++ occurrences ctx scope right
  | .unary _ _ operand => occurrences ctx scope operand
  | .cast _ operand _ => occurrences ctx scope operand
  | .field _ object _ => occurrences ctx scope object
  | .index _ object index => occurrences ctx scope object ++ occurrences ctx scope index
  | .deref _ operand => occurrences ctx scope operand
  | .ref _ _ operand => lent operand (occurrences ctx scope operand)
  | .call info callee args =>
    ctx.called info.id callee (occurrences ctx scope callee) ++ occurrencesArgs ctx scope args
  | .methodCall _ receiver _ args =>
    ctx.passed receiver (occurrences ctx scope receiver) ++ occurrencesArgs ctx scope args
  | .struct _ _ fields => occurrencesFields ctx scope fields
  | .variant _ _ _ args fields => occurrencesAll ctx scope args ++ occurrencesFields ctx scope fields
  | .tuple _ elements => occurrencesAll ctx scope elements
  | .array _ elements => occurrencesAll ctx scope elements
  | .assign _ target value =>
    occurrences ctx scope value ++ assigned target (occurrences ctx scope target)
  | .branch _ condition consequent alternative =>
    occurrences ctx scope condition ++ (occurrences ctx scope consequent ++
      occurrencesOption ctx scope alternative)
  | .select _ scrutinee arms => occurrences ctx scope scrutinee ++ occurrencesArms ctx scope arms
  | .block body => occurrencesBlock ctx scope body

def occurrencesParts (ctx : Context) (scope : List String) : List TemplatePart → List Occurrence
  | [] => []
  | .text _ :: rest => occurrencesParts ctx scope rest
  | .value e :: rest => occurrences ctx scope e ++ occurrencesParts ctx scope rest

def occurrencesArgs (ctx : Context) (scope : List String) : List Expr → List Occurrence
  | [] => []
  | a :: rest => ctx.passed a (occurrences ctx scope a) ++ occurrencesArgs ctx scope rest

def occurrencesAll (ctx : Context) (scope : List String) : List Expr → List Occurrence
  | [] => []
  | e :: rest => occurrences ctx scope e ++ occurrencesAll ctx scope rest

def occurrencesFields (ctx : Context) (scope : List String) : List FieldInit → List Occurrence
  | [] => []
  | .mk _ _ value :: rest => occurrences ctx scope value ++ occurrencesFields ctx scope rest

def occurrencesOption (ctx : Context) (scope : List String) : Option Expr → List Occurrence
  | none => []
  | some e => occurrences ctx scope e

/-- The names of a pattern are in scope in its guards, in the guard of the arm and in its body. -/
def occurrencesArms (ctx : Context) (scope : List String) : List MatchArm → List Occurrence
  | [] => []
  | .mk _ pattern guard body :: rest =>
    (occurrencesPattern ctx (patternNames pattern ++ scope) pattern ++
      (occurrencesOption ctx (patternNames pattern ++ scope) guard ++
        occurrences ctx (patternNames pattern ++ scope) body)) ++
    occurrencesArms ctx scope rest

def occurrencesBlock (ctx : Context) (scope : List String) : Block → List Occurrence
  | .mk _ stmts tail =>
    occurrencesStmts ctx scope stmts ++ occurrencesOption ctx (stmtsNames stmts ++ scope) tail

def occurrencesStmts (ctx : Context) (scope : List String) : List Stmt → List Occurrence
  | [] => []
  | s :: rest => occurrencesStmt ctx scope s ++ occurrencesStmts ctx (stmtNames s ++ scope) rest

def occurrencesStmt (ctx : Context) (scope : List String) : Stmt → List Occurrence
  | .bind _ pattern _ init => occurrencesOption ctx scope init ++
    (occurrencesPattern ctx (patternNames pattern ++ scope) pattern).map Occurrence.hide
  | .expr _ value => occurrences ctx scope value
  | .ret _ value => occurrencesOption ctx scope value
  | .loop _ condition body => occurrences ctx scope condition ++ occurrencesBlock ctx scope body
  | .counted _ init condition update body =>
    occurrencesInit ctx scope init ++ (occurrencesOption ctx (initNames init ++ scope) condition ++
      (occurrencesBlock ctx (initNames init ++ scope) body ++
        occurrencesOption ctx (initNames init ++ scope) update))

def occurrencesInit (ctx : Context) (scope : List String) : Option Stmt → List Occurrence
  | none => []
  | some s => occurrencesStmt ctx scope s

def occurrencesPattern (ctx : Context) (scope : List String) : Pattern → List Occurrence
  | .tuple _ elements => occurrencesPatterns ctx scope elements
  | .list _ front _ _ => occurrencesPatterns ctx scope front
  | .record _ _ fields _ => occurrencesFieldPatterns ctx scope fields
  | .variant _ _ _ args fields _ =>
    occurrencesPatterns ctx scope args ++ occurrencesFieldPatterns ctx scope fields
  | .alternatives _ choices => occurrencesPatterns ctx scope choices
  | .guarded _ inner condition =>
    occurrences ctx scope condition ++ occurrencesPattern ctx scope inner
  | .wildcard _ | .binding _ | .literal .. | .range .. => []

def occurrencesPatterns (ctx : Context) (scope : List String) : List Pattern → List Occurrence
  | [] => []
  | p :: rest => occurrencesPattern ctx scope p ++ occurrencesPatterns ctx scope rest

def occurrencesFieldPatterns (ctx : Context) (scope : List String) : List FieldPattern → List Occurrence
  | [] => []
  | .mk _ p :: rest => occurrencesPattern ctx scope p ++ occurrencesFieldPatterns ctx scope rest

end

namespace Context

/-- The names of the parameters of a function, the receiver last. -/
def paramNames (ctx : Context) : List String :=
  (ctx.signature.params.map Signature.Param.name).reverse ++
    (if ctx.signature.receiverType?.isSome then ["self"] else [])

/-- The identifiers in the body of a function. -/
def occurrencesIn (ctx : Context) (f : FuncDecl) : List Occurrence :=
  occurrencesBlock ctx ctx.paramNames f.body

end Context

/-! ### Inspection -/

variable {ctx : Context}

/-- Whether a step reads, moves, borrows or assigns to the variable that an identifier stands for. -/
def Step.Checks (o : Occurrence) : Step → Prop
  | .useName info name _ => info = o.info ∧ name = o.name
  | .usePlace e _ | .borrowPlace e _ _ | .write e _ => e.root? = some (o.info, o.name)
  | _ => False

namespace Code

/-- Code with a step that checks an identifier, reached with the names in scope at the identifier. -/
inductive Checks (ctx : Context) (o : Occurrence) : List String → Code → Prop
  | step {s : Step} (checks : s.Checks o) : Checks ctx o o.scope (.step s)
  | first {names : List String} {first next : Code} (inner : Checks ctx o names first) :
      Checks ctx o names (.seq first next)
  | next {names : List String} {first next : Code}
      (inner : Checks ctx o ((first.declared ctx).map Prod.fst ++ names) next) :
      Checks ctx o names (.seq first next)
  | discard {names : List String} {body : Code} (inner : Checks ctx o names body) :
      Checks ctx o names (.discard body)
  | scope {names : List String} {isTemporary : Bool} {span : Span} {body : Code}
      (inner : Checks ctx o names body) : Checks ctx o names (.scope isTemporary span body)
  | arm {names : List String} {arms : List Code} {arm : Code} (chosen : arm ∈ arms)
      (inner : Checks ctx o names arm) : Checks ctx o names (.choice arms)
  | test {names : List String} {test round : Code} (inner : Checks ctx o names test) :
      Checks ctx o names (.loop test round)
  | round {names : List String} {test round : Code} (inner : Checks ctx o names round) :
      Checks ctx o names (.loop test round)

def ChecksAll (ctx : Context) (names : List String) (os : List Occurrence) (c : Code) : Prop :=
  ∀ o ∈ os, o.hidden = false → c.Checks ctx o names

namespace ChecksAll

variable {names : List String} {os more : List Occurrence} {c first next body condition : Code}

theorem nil : c.ChecksAll ctx names [] := nofun

theorem append (left : c.ChecksAll ctx names os) (right : c.ChecksAll ctx names more) :
    c.ChecksAll ctx names (os ++ more) := by
  intro o member seen
  rcases List.mem_append.mp member with inLeft | inRight
  · exact left o inLeft seen
  · exact right o inRight seen

/-- Nothing is said about what is hidden. -/
theorem hide : c.ChecksAll ctx names (os.map Occurrence.hide) := by
  intro o member seen
  obtain ⟨_, -, rfl⟩ := List.mem_map.mp member
  cases seen

theorem before (inner : first.ChecksAll ctx names os) : (Code.seq first next).ChecksAll ctx names os :=
  fun o member seen => .first (inner o member seen)

theorem behind (inner : next.ChecksAll ctx ((first.declared ctx).map Prod.fst ++ names) os) :
    (Code.seq first next).ChecksAll ctx names os :=
  fun o member seen => .next (inner o member seen)

theorem after (tidy : first.Tidy false) (inner : next.ChecksAll ctx names os) :
    (Code.seq first next).ChecksAll ctx names os :=
  behind (by simpa [tidy.declared_eq_nil] using inner)

theorem seq (tidy : first.Tidy false) (left : first.ChecksAll ctx names os)
    (right : next.ChecksAll ctx names more) : (Code.seq first next).ChecksAll ctx names (os ++ more) :=
  left.before.append (right.after tidy)

theorem discard (inner : body.ChecksAll ctx names os) : (Code.discard body).ChecksAll ctx names os :=
  fun o member seen => .discard (inner o member seen)

theorem scope {isTemporary : Bool} {span : Span} (inner : body.ChecksAll ctx names os) :
    (Code.scope isTemporary span body).ChecksAll ctx names os :=
  fun o member seen => .scope (inner o member seen)

theorem arm {arms : List Code} {arm : Code} (chosen : arm ∈ arms) (inner : arm.ChecksAll ctx names os) :
    (Code.choice arms).ChecksAll ctx names os :=
  fun o member seen => .arm chosen (inner o member seen)

theorem loop (left : condition.ChecksAll ctx names os) (right : body.ChecksAll ctx names more) :
    (Code.loop condition body).ChecksAll ctx names (os ++ more) :=
  append (fun o member seen => .test (left o member seen)) fun o member seen => .round (right o member seen)

end ChecksAll

end Code

/-! ### What the code declares -/

theorem names_bound (bindings : List Binding) :
    (ctx.bound bindings).map Prod.fst = (bindings.map Binding.name).reverse := by
  simp [Context.bound, Function.comp_def]

theorem names_codeStmt (s : Stmt) : ((codeStmt ctx s).declared ctx).map Prod.fst = stmtNames s := by
  cases s with
  | bind span pattern type init =>
    cases init with
    | none => simp [codeStmt, Code.declared, Step.declared, names_bound, stmtNames, patternNames]
    | some value =>
      simp [codeStmt, Code.all, Code.declared, Step.declared, names_bound, stmtNames, patternNames,
        (tidy_useCode pattern.bindings).declared_eq_nil,
        (tidy_code value (ctx.useOf pattern.bindings)).declared_eq_nil]
  | expr span value => simp [codeStmt, Code.declared, (tidy_code value .read).declared_eq_nil, stmtNames]
  | ret span value =>
    cases value with
    | none => simp [codeStmt, Code.declared, stmtNames]
    | some value =>
      simp [codeStmt, Code.declared, Step.declared, (tidy_code value .move).declared_eq_nil, stmtNames]
  | loop | counted => simp [codeStmt, Code.declared, stmtNames]

theorem names_codeStmts (stmts : List Stmt) :
    ((codeStmts ctx stmts).declared ctx).map Prod.fst = stmtsNames stmts := by
  induction stmts with
  | nil => rfl
  | cons s rest ih => simp [codeStmts, Code.declared, stmtsNames, names_codeStmt, ih]

theorem names_codeInit (init : Option Stmt) :
    ((codeInit ctx init).declared ctx).map Prod.fst = initNames init := by
  cases init with
  | none => rfl
  | some s => exact names_codeStmt s

theorem declared_all (codes : List Code) :
    (Code.all codes).declared ctx = codes.reverse.flatMap (Code.declared ctx) := by
  induction codes with
  | nil => rfl
  | cons c rest ih =>
    cases rest with
    | nil => simp [Code.all]
    | cons next rest => simp [Code.all, Code.declared, ih]

theorem names_paramsCode (f : FuncDecl) :
    ((ctx.paramsCode f).declared ctx).map Prod.fst = ctx.paramNames := by
  rw [Context.paramsCode, Code.declared, declared_all, List.map_append, Context.paramNames]
  congr 1
  · rw [← List.map_reverse, List.flatMap_map, List.map_flatMap]
    simp only [Code.declared, Step.declared, List.map_singleton]
    rw [← List.map_eq_flatMap, List.map_reverse]
    change (List.map (Signature.Param.name ∘ Prod.fst) _).reverse = _
    rw [← List.map_map, List.zipIdx_map_fst]
  · split <;> simp [*, Code.declared, Step.declared]

/-! ### The code of a function -/

/-- Code that checks the identifiers of a place apart from the one it starts at. -/
def Code.ChecksRest (ctx : Context) (names : List String) (root : NodeInfo × String) (os : List Occurrence)
    (c : Code) : Prop :=
  ∀ o ∈ os, o.hidden = false → (o.info = root.1 ∧ o.name = root.2 ∧ o.scope = names) ∨ c.Checks ctx o names

section Places

open Code

variable {names : List String} {os : List Occurrence} {root : NodeInfo × String} {e operand : Expr}
  {evaluate indices temporary read move : Code}

theorem Code.ChecksRest.place {s : Step} (rest : indices.ChecksRest ctx names root os)
    (tidy : indices.Tidy false) (starts : ∀ o : Occurrence, (o.info, o.name) = root → s.Checks o) :
    (Code.seq indices (.step s)).ChecksAll ctx names os := by
  intro o member seen
  rcases rest o member seen with ⟨info, name, rfl⟩ | inIndices
  · exact .next (by simpa [tidy.declared_eq_nil] using .step (starts o (Prod.ext info name)))
  · exact .first inIndices

theorem Code.ChecksAll.lent {c : Code} (checks : c.ChecksAll ctx names os) :
    c.ChecksAll ctx names (lent operand os) := by
  unfold Ownership.lent
  split
  · exact .hide
  · exact checks

theorem Code.ChecksAll.passed {c : Code} (checks : c.ChecksAll ctx names os) :
    c.ChecksAll ctx names (ctx.passed e os) := by
  unfold Context.passed
  split
  · exact checks.lent
  · exact checks.lent
  · exact checks

theorem tidy_locate (e : Expr) : (Code.step (.locate e)).Tidy false := by
  simp [Step.declares]

theorem checks_placeCode {use : Use} (tidy : indices.Tidy false)
    (rest : ∀ root, e.root? = some root → indices.ChecksRest ctx names root os)
    (value : temporary.ChecksAll ctx names os) :
    (Context.placeCode e use indices temporary).ChecksAll ctx names os := by
  refine .after (tidy_locate e) ?_
  cases start : e.root? with
  | none => exact value
  | some root => exact (rest root start).place tidy fun o same => start.trans (congrArg some same.symm)

theorem checks_borrowCode {mutable : Bool} {site : NodeInfo} (tidy : indices.Tidy false)
    (rest : ∀ root, operand.root? = some root → indices.ChecksRest ctx names root os)
    (value : evaluate.ChecksAll ctx names os) :
    (Context.borrowCode operand mutable site evaluate indices).ChecksAll ctx names (lent operand os) := by
  unfold Context.borrowCode lent
  cases place : operand.isPlace with
  | false => exact value.before
  | true =>
    cases start : operand.root? with
    | none => exact .hide
    | some root =>
      exact .after (tidy_locate operand)
        ((rest root start).place tidy fun o same => start.trans (congrArg some same.symm))

theorem checks_argumentCode {a : Expr} (tidy : indices.Tidy false)
    (rest : ∀ root, a.root? = some root → indices.ChecksRest ctx names root os)
    (reads : read.ChecksAll ctx names os) (moves : move.ChecksAll ctx names os) :
    (ctx.argumentCode a read move indices).ChecksAll ctx names (ctx.passed a os) := by
  unfold Context.argumentCode Context.passed
  have typed : (Code.step (.typed a.id)).Tidy false := by simp [Step.declares]
  have plain : (if (ctx.notes.typeOf a.id).isRef then read else move).ChecksAll ctx names os := by
    split
    · exact reads
    · exact moves
  cases ctx.notes.coercions.get? a.id with
  | none => exact plain.after typed
  | some coercion =>
    cases coercion with
    | autoRef | autoRefMut => exact checks_borrowCode tidy rest moves
    | none | widen | autoDeref => exact plain.after typed

end Places

open Code

mutual

theorem checks_code : ∀ (e : Expr) (use : Use) (names : List String),
    (code ctx e use).ChecksAll ctx names (occurrences ctx names e)
  | .int .., _, _ | .float .., _, _ | .string .., _, _ | .bool .., _, _ => by
    rw [occurrences]
    exact .nil
  | .template _ parts, _, names => by
    rw [code, occurrences]
    exact (checks_codeParts parts names).before
  | .ident info name, _, names => by
    rw [code, occurrences]
    intro o member _
    obtain rfl := List.mem_singleton.mp member
    exact .first (.step ⟨rfl, rfl⟩)
  | .binary _ _ left right, _, names => by
    rw [code, occurrences]
    exact .seq (.discard (tidy_code left .read)) (checks_code left .read names).discard
      (checks_code right .read names).discard.before
  | .unary _ _ operand, _, names | .cast _ operand _, _, names => by
    rw [code, occurrences]
    exact (checks_code operand .read names).discard.before
  | .field info object name, use, names => by
    rw [code, occurrences]
    exact .before (checks_placeCode (tidy_codeIndices object)
      (fun root start => checksRest_codeIndices object root names start) (checks_code object .move names))
  | .index info object index, use, names => by
    rw [code, occurrences]
    have looked := (checks_code index .read names).discard
    refine .before (checks_placeCode (.seq (.discard (tidy_code index .read)) (tidy_codeIndices object))
      (fun root start => ?_) (.seq (tidy_code object .move) (checks_code object .move names) looked))
    intro o member seen
    rcases List.mem_append.mp member with inObject | inIndex
    · exact (checksRest_codeIndices object root names start o inObject seen).imp_right fun inner =>
        .next (by simpa [Code.declared, (tidy_code index .read).declared_eq_nil] using inner)
    · exact .inr (.first (looked o inIndex seen))
  | .deref info operand, use, names => by
    rw [code, occurrences]
    refine .before ?_
    split
    · exact checks_placeCode (tidy_codeIndices operand)
        (fun root start => checksRest_codeIndices operand root names start) (checks_code operand .read names)
    · exact checks_code operand .read names
  | .ref info mutable operand, _, names => by
    rw [code, occurrences]
    exact .before (checks_borrowCode (tidy_codeIndices operand)
      (fun root start => checksRest_codeIndices operand root names start) (checks_code operand .move names))
  | .call info callee args, _, names => by
    rw [code, occurrences]
    have value : (Code.step .value).Tidy false := by simp [Step.declares]
    have called := (checks_code callee .read names).discard
    have passed (s : Step) : (Code.seq (codeArgs ctx args) (.step s)).ChecksAll ctx names
        (occurrencesArgs ctx names args) := (checks_codeArgs args names).before
    refine .before ?_
    unfold Context.called
    cases ctx.notes.calls.get? info.id with
    | none => exact .seq (.discard (tidy_code callee .read)) called ((passed _).after value)
    | some signature =>
      cases Context.isWhole callee with
      | true => exact .after tidy_skip ((passed _).after value)
      | false => exact .seq (.discard (tidy_code callee .read)) called ((passed _).after value)
  | .methodCall info receiver _ args, _, names => by
    rw [code, occurrences]
    have passed (s : Step) : (Code.seq (codeArgs ctx args) (.step s)).ChecksAll ctx names
        (occurrencesArgs ctx names args) := (checks_codeArgs args names).before
    refine .before ?_
    cases ctx.notes.methods.get? info.id with
    | none => exact .seq (tidy_code receiver .read) (checks_code receiver .read names).passed (passed _)
    | some signature =>
      dsimp only
      split
      · exact .seq (tidy_code receiver .move) (checks_code receiver .move names).passed (passed _)
      · exact .seq (tidy_argumentCode (tidy_code receiver .read) (tidy_code receiver .move)
            (tidy_codeIndices receiver))
          (checks_argumentCode (tidy_codeIndices receiver)
            (fun root start => checksRest_codeIndices receiver root names start)
            (checks_code receiver .read names) (checks_code receiver .move names))
          (passed _)
  | .struct info _ fields, _, names => by
    rw [code, occurrences]
    exact ((checks_codeFields fields names).after (by simp [Step.declares])).before
  | .variant info _ _ args fields, _, names => by
    rw [code, occurrences]
    exact .before (.after (by simp [Step.declares])
      (.seq (tidy_codeAll args) (checks_codeAll args names) (checks_codeFields fields names)))
  | .tuple info elements, _, names | .array info elements, _, names => by
    rw [code, occurrences]
    exact ((checks_codeAll elements names).after (by simp [Step.declares])).before
  | .assign _ target value, _, names => by
    rw [code, occurrences]
    refine .before (.discard (.seq (tidy_code value .move) (checks_code value .move names)
      (.after (tidy_locate target) ?_)))
    unfold assigned
    cases start : target.root? with
    | none => exact .hide
    | some root =>
      exact (checksRest_codeIndices target root names start).place (tidy_codeIndices target)
        fun o same => start.trans (congrArg some same.symm)
  | .branch info condition consequent alternative, use, names => by
    rw [code, occurrences]
    refine .before (.seq (.discard (tidy_code condition .read)) (checks_code condition .read names).discard
      (.append (.arm List.mem_cons_self ?_) (.arm (List.mem_cons_of_mem _ List.mem_cons_self) ?_)))
    · exact (checks_code consequent use names).before
    · exact (checks_codeOption alternative use names).before
  | .select info scrutinee arms, use, names => by
    rw [code, occurrences]
    exact .before (.after (tidy_armsUseCode arms) (.seq (tidy_code scrutinee _)
      (checks_code scrutinee _ names) (.before (checks_codeArms arms use names))))
  | .block body, use, names => by
    rw [code, occurrences]
    exact (checks_codeBlock body use names).before

theorem checksRest_codeIndices : ∀ (e : Expr) (root : NodeInfo × String) (names : List String),
    e.root? = some root → (codeIndices ctx e).ChecksRest ctx names root (occurrences ctx names e)
  | .ident info name, root, names, start => by
    rw [occurrences]
    intro o member _
    obtain rfl := List.mem_singleton.mp member
    obtain rfl := Option.some.inj start
    exact .inl ⟨rfl, rfl, rfl⟩
  | .field _ object _, root, names, start => by
    rw [codeIndices, occurrences]
    exact checksRest_codeIndices object root names start
  | .deref _ operand, root, names, start => by
    rw [codeIndices, occurrences]
    exact checksRest_codeIndices operand root names start
  | .index _ object index, root, names, start => by
    rw [codeIndices, occurrences]
    intro o member seen
    rcases List.mem_append.mp member with inObject | inIndex
    · exact (checksRest_codeIndices object root names start o inObject seen).imp_right fun inner =>
        .next (by simpa [Code.declared, (tidy_code index .read).declared_eq_nil] using inner)
    · exact .inr (.first ((checks_code index .read names).discard o inIndex seen))

  | .int .., _, _, start | .float .., _, _, start | .string .., _, _, start | .bool .., _, _, start
  | .template .., _, _, start | .binary .., _, _, start | .unary .., _, _, start | .call .., _, _, start
  | .methodCall .., _, _, start | .ref .., _, _, start | .struct .., _, _, start | .variant .., _, _, start
  | .tuple .., _, _, start | .array .., _, _, start | .cast .., _, _, start | .assign .., _, _, start
  | .select .., _, _, start | .branch .., _, _, start | .block .., _, _, start => by cases start

theorem checks_codeParts : ∀ (parts : List TemplatePart) (names : List String),
    (codeParts ctx parts).ChecksAll ctx names (occurrencesParts ctx names parts)
  | [], _ => by
    rw [occurrencesParts]
    exact .nil
  | .text _ :: rest, names => by
    rw [codeParts, occurrencesParts]
    exact checks_codeParts rest names
  | .value e :: rest, names => by
    rw [codeParts, occurrencesParts]
    exact .seq (.discard (tidy_code e .read)) (checks_code e .read names).discard
      (checks_codeParts rest names)

theorem checks_codeArgs : ∀ (args : List Expr) (names : List String),
    (codeArgs ctx args).ChecksAll ctx names (occurrencesArgs ctx names args)
  | [], _ => by
    rw [occurrencesArgs]
    exact .nil
  | a :: rest, names => by
    rw [codeArgs, occurrencesArgs]
    exact .seq (tidy_argumentCode (tidy_code a .read) (tidy_code a .move) (tidy_codeIndices a))
      (checks_argumentCode (tidy_codeIndices a)
        (fun root start => checksRest_codeIndices a root names start)
        (checks_code a .read names) (checks_code a .move names))
      (checks_codeArgs rest names)

theorem checks_codeAll : ∀ (es : List Expr) (names : List String),
    (codeAll ctx es).ChecksAll ctx names (occurrencesAll ctx names es)
  | [], _ => by
    rw [occurrencesAll]
    exact .nil
  | e :: rest, names => by
    rw [codeAll, occurrencesAll]
    exact .seq (tidy_code e .move) (checks_code e .move names)
      ((checks_codeAll rest names).after (by simp [Step.declares]))

theorem checks_codeFields : ∀ (fields : List FieldInit) (names : List String),
    (codeFields ctx fields).ChecksAll ctx names (occurrencesFields ctx names fields)
  | [], _ => by
    rw [occurrencesFields]
    exact .nil
  | .mk _ _ value :: rest, names => by
    rw [codeFields, occurrencesFields]
    exact .seq (tidy_code value .move) (checks_code value .move names)
      ((checks_codeFields rest names).after (by simp [Step.declares]))

theorem checks_codeOption : ∀ (e : Option Expr) (use : Use) (names : List String),
    (codeOption ctx e use).ChecksAll ctx names (occurrencesOption ctx names e)
  | none, _, _ => by
    rw [occurrencesOption]
    exact .nil
  | some e, use, names => by
    rw [codeOption, occurrencesOption]
    exact checks_code e use names

theorem checks_codeArms : ∀ (arms : List MatchArm) (use : Use) (names : List String),
    (Code.choice (codeArms ctx arms use)).ChecksAll ctx names (occurrencesArms ctx names arms)
  | [], _, _ => by
    rw [occurrencesArms]
    exact .nil
  | .mk span pattern guard body :: rest, use, names => by
    rw [codeArms, occurrencesArms]
    refine .append (.arm List.mem_cons_self (.scope (.behind ?_))) ?_
    · simp only [Code.declared, Step.declared, names_bound]
      exact .seq (tidy_codeGuards pattern) (checks_codeGuards pattern _)
        (.seq (.discard (tidy_codeOption guard .read)) (checks_codeOption guard .read _).discard
          (checks_code body use _).before)
    · intro o member seen
      cases checks_codeArms rest use names o member seen with
      | arm chosen inner => exact .arm (List.mem_cons_of_mem _ chosen) inner

theorem checks_codeBlock : ∀ (b : Block) (use : Use) (names : List String),
    (codeBlock ctx b use).ChecksAll ctx names (occurrencesBlock ctx names b)
  | .mk _ stmts none, use, names => by
    rw [codeBlock, occurrencesBlock, occurrencesOption]
    exact .scope (.append (checks_codeStmts stmts names).before .nil)
  | .mk _ stmts (some value), use, names => by
    rw [codeBlock, occurrencesBlock, occurrencesOption]
    refine .scope (.append (checks_codeStmts stmts names).before (.behind ?_))
    rw [names_codeStmts]
    exact .scope (checks_code value use _).before

theorem checks_codeStmts : ∀ (stmts : List Stmt) (names : List String),
    (codeStmts ctx stmts).ChecksAll ctx names (occurrencesStmts ctx names stmts)
  | [], _ => by
    rw [occurrencesStmts]
    exact .nil
  | s :: rest, names => by
    rw [codeStmts, occurrencesStmts]
    refine .append (checks_codeStmt s names).before (.behind ?_)
    rw [names_codeStmt]
    exact checks_codeStmts rest _

theorem checks_codeStmt : ∀ (s : Stmt) (names : List String),
    (codeStmt ctx s).ChecksAll ctx names (occurrencesStmt ctx names s)
  | .bind span pattern _ none, names => by
    rw [occurrencesStmt, occurrencesOption]
    exact .append .nil .hide
  | .bind span pattern _ (some value), names => by
    rw [codeStmt, occurrencesStmt, occurrencesOption]
    exact .append (.scope (.discard (.after (tidy_useCode pattern.bindings)
      (checks_code value _ names).before))) .hide
  | .expr span value, names => by
    rw [codeStmt, occurrencesStmt]
    exact (checks_code value .read names).discard.scope
  | .ret span none, names => by
    rw [occurrencesStmt, occurrencesOption]
    exact .nil
  | .ret span (some value), names => by
    rw [codeStmt, occurrencesStmt, occurrencesOption]
    exact (checks_code value .move names).before.discard.before.scope
  | .loop span condition body, names => by
    rw [codeStmt, occurrencesStmt]
    exact .scope (.loop (checks_code condition .read names) (checks_codeBlock body .read names))
  | .counted span init condition update body, names => by
    rw [codeStmt, occurrencesStmt]
    refine .scope (.scope (.append (checks_codeInit init names).before (.behind ?_)))
    rw [names_codeInit]
    exact .loop (checks_codeOption condition .read _) (.seq (tidy_codeBlock body .read)
      (checks_codeBlock body .read _) (checks_codeOption update .read _))

theorem checks_codeInit : ∀ (init : Option Stmt) (names : List String),
    (codeInit ctx init).ChecksAll ctx names (occurrencesInit ctx names init)
  | none, _ => by
    rw [occurrencesInit]
    exact .nil
  | some s, names => by
    rw [codeInit, occurrencesInit]
    exact checks_codeStmt s names

theorem checks_codeGuards : ∀ (p : Pattern) (names : List String),
    (codeGuards ctx p).ChecksAll ctx names (occurrencesPattern ctx names p)
  | .tuple _ elements, names => by
    rw [codeGuards, occurrencesPattern]
    exact checks_codeGuardsAll elements names
  | .list _ front _ _, names => by
    rw [codeGuards, occurrencesPattern]
    exact checks_codeGuardsAll front names
  | .record _ _ fields _, names => by
    rw [codeGuards, occurrencesPattern]
    exact checks_codeGuardsFields fields names
  | .variant _ _ _ args fields _, names => by
    rw [codeGuards, occurrencesPattern]
    exact .seq (tidy_codeGuardsAll args) (checks_codeGuardsAll args names)
      (checks_codeGuardsFields fields names)
  | .alternatives _ choices, names => by
    rw [codeGuards, occurrencesPattern]
    exact checks_codeGuardsAll choices names
  | .guarded _ inner condition, names => by
    rw [codeGuards, occurrencesPattern]
    exact .seq (.discard (tidy_code condition .read)) (checks_code condition .read names).discard
      (checks_codeGuards inner names).before
  | .wildcard _, _ | .binding _, _ | .literal .., _ | .range .., _ => by
    rw [occurrencesPattern]
    exact .nil

theorem checks_codeGuardsAll : ∀ (ps : List Pattern) (names : List String),
    (codeGuardsAll ctx ps).ChecksAll ctx names (occurrencesPatterns ctx names ps)
  | [], _ => by
    rw [occurrencesPatterns]
    exact .nil
  | p :: rest, names => by
    rw [codeGuardsAll, occurrencesPatterns]
    exact .seq (tidy_codeGuards p) (checks_codeGuards p names) (checks_codeGuardsAll rest names)

theorem checks_codeGuardsFields : ∀ (ps : List FieldPattern) (names : List String),
    (codeGuardsFields ctx ps).ChecksAll ctx names (occurrencesFieldPatterns ctx names ps)
  | [], _ => by
    rw [occurrencesFieldPatterns]
    exact .nil
  | .mk _ p :: rest, names => by
    rw [codeGuardsFields, occurrencesFieldPatterns]
    exact .seq (tidy_codeGuards p) (checks_codeGuards p names) (checks_codeGuardsFields rest names)

end

/-- The code of a function checks every identifier in its body that is not hidden. -/
theorem checks_insideCode (f : FuncDecl) : (ctx.insideCode f).ChecksAll ctx [] (ctx.occurrencesIn f) := by
  rw [Context.insideCode]
  refine .behind ?_
  rw [names_paramsCode, List.append_nil]
  exact (checks_codeBlock f.body .move _).before.discard

end TreeCheck.Ownership
