import TreeCheck.Ownership.Rules

/-!
The ownership check of a function body. Branches are checked from the same flow and joined; the body
of a loop is checked twice, so that a value moved by one round is missed by the next.
-/

namespace TreeCheck.Ownership

mutual

/-- Checks an expression and tells what its value may point into. -/
def eval (ctx : Context) : Expr → Use → Own (List Origin)
  | .int .., _ | .float .., _ | .string .., _ | .bool .., _ => return []
  | .template _ parts, _ => do
    evalParts ctx parts
    return []
  | .ident info name, use => ctx.carried info.id (ctx.useName info name use)
  | .binary _ _ left right, _ => do
    let _ ← eval ctx left .read
    let _ ← eval ctx right .read
    return []
  | .unary _ _ operand, _ => do
    let _ ← eval ctx operand .read
    return []
  | .cast _ operand _, _ => do
    let _ ← eval ctx operand .read
    return []
  | .field info object name, use => ctx.carried info.id do
    let p ← ctx.place (.field info object name)
    if p.root == .temporary then eval ctx object .move
    else
      indices ctx object
      ctx.usePlace p (.field info object name) use
  | .index info object index, use => ctx.carried info.id do
    let p ← ctx.place (.index info object index)
    if p.root == .temporary then
      let origins ← eval ctx object .move
      let _ ← eval ctx index .read
      return origins
    else
      let _ ← eval ctx index .read
      indices ctx object
      ctx.usePlace p (.index info object index) use
  | .deref info operand, use => ctx.carried info.id do
    if operand.isPlace then
      let p ← ctx.place (.deref info operand)
      if p.root == .temporary then eval ctx operand .read
      else
        indices ctx operand
        ctx.usePlace p (.deref info operand) use
    else eval ctx operand .read
  | .ref info mutable operand, _ => ctx.carried info.id
    (ctx.borrow operand mutable info (eval ctx operand .move) (indices ctx operand))
  | .call info callee args, _ => ctx.carried info.id do
    match ctx.notes.calls.get? info.id with
    | none =>
      let _ ← eval ctx callee .read
      return (← evalArgs ctx args).foldl Origin.union []
    | some signature =>
      if !Context.isWhole callee then
        let _ ← eval ctx callee .read
      return ctx.returned signature [] (← evalArgs ctx args)
  | .methodCall info receiver _ args, _ => ctx.carried info.id do
    match ctx.notes.methods.get? info.id with
    | none =>
      let origins ← eval ctx receiver .read
      return (← evalArgs ctx args).foldl Origin.union origins
    | some signature =>
      let origins ← if (signature.self.map Signature.Self.mode) == some .value then
          eval ctx receiver .move
        else
          ctx.argument receiver (eval ctx receiver .read) (eval ctx receiver .move)
            (indices ctx receiver)
      return ctx.returned signature origins (← evalArgs ctx args)
  | .struct info _ fields, _ => ctx.carried info.id (evalFields ctx fields [])
  | .variant info _ _ args fields, _ => ctx.carried info.id do
    evalFields ctx fields (← evalAll ctx args [])
  | .tuple info elements, _ => ctx.carried info.id (evalAll ctx elements [])
  | .array info elements, _ => ctx.carried info.id (evalAll ctx elements [])
  | .assign _ target value, _ => do
    let origins ← eval ctx value .move
    let p ← ctx.place target
    match p.root with
    | .temporary => pure ()
    | .unbound => indices ctx target
    | .var id =>
      indices ctx target
      ctx.write id p target origins
    return []
  | .branch info condition consequent alternative, use => ctx.carried info.id do
    let _ ← eval ctx condition .read
    let before ← save
    let origins ← eval ctx consequent use
    let after ← save
    restore before
    let more ← evalOption ctx alternative use
    merge [after, ← save]
    return Origin.union origins more
  | .select info scrutinee arms, use => ctx.carried info.id do
    let origins ← eval ctx scrutinee (← armsUse ctx arms)
    let before ← save
    let (result, ends) ← evalArms ctx arms use origins before []
    if !ends.isEmpty then merge ends
    return result
  | .block body, use => ctx.carried body.id (evalBlock ctx body use)

/-- Checks the indices in a place, from the outside in. -/
def indices (ctx : Context) : Expr → Own Unit
  | .field _ object _ => indices ctx object
  | .index _ object index => do
    let _ ← eval ctx index .read
    indices ctx object
  | .deref _ operand => indices ctx operand
  | _ => pure ()

def evalParts (ctx : Context) : List TemplatePart → Own Unit
  | [] => pure ()
  | .text _ :: rest => evalParts ctx rest
  | .value e :: rest => do
    let _ ← eval ctx e .read
    evalParts ctx rest

/-- Arguments of a call, each with what it points into. -/
def evalArgs (ctx : Context) : List Expr → Own (List (List Origin))
  | [] => return []
  | a :: rest => do
    let origins ← ctx.argument a (eval ctx a .read) (eval ctx a .move) (indices ctx a)
    return origins :: (← evalArgs ctx rest)

/-- Values that become parts of another value. -/
def evalAll (ctx : Context) : List Expr → List Origin → Own (List Origin)
  | [], origins => return origins
  | e :: rest, origins => do
    let more ← eval ctx e .move
    evalAll ctx rest (Origin.union origins more)

def evalFields (ctx : Context) : List FieldInit → List Origin → Own (List Origin)
  | [], origins => return origins
  | .mk _ _ value :: rest, origins => do
    let more ← eval ctx value .move
    evalFields ctx rest (Origin.union origins more)

def evalOption (ctx : Context) : Option Expr → Use → Own (List Origin)
  | none, _ => return []
  | some e, use => eval ctx e use

def armsUse (ctx : Context) : List MatchArm → Own Use
  | [] => return .read
  | .mk _ pattern _ _ :: rest => do
    let use ← ctx.patternUse pattern
    let more ← armsUse ctx rest
    return if use == .move then .move else more

/-- Checks each arm from the same flow. Tells what the values of the arms may point into, and the
flows at their ends. -/
def evalArms (ctx : Context) : List MatchArm → Use → List Origin → Flow → List Origin →
    Own (List Origin × List Flow)
  | [], _, _, _, origins => return (origins, [])
  | .mk span pattern guard body :: rest, use, scrutinee, before, origins => do
    restore before
    push false span
    ctx.bindAll (some scrutinee) pattern.bindings
    guardsPattern ctx pattern
    let _ ← evalOption ctx guard .read
    let more ← eval ctx body use
    let origins := Origin.union origins more
    keep origins
    pop
    let after ← save
    let (origins, ends) ← evalArms ctx rest use scrutinee before origins
    return (origins, after :: ends)

def evalBlock (ctx : Context) : Block → Use → Own (List Origin)
  | .mk info stmts tail, use => do
    push false info.span
    walkStmts ctx stmts
    let origins ← match tail with
      | none => pure []
      | some value => do
        push true value.span
        let origins ← eval ctx value use
        keep origins
        pop
        pure origins
    pop
    return origins

def walkStmts (ctx : Context) : List Stmt → Own Unit
  | [] => pure ()
  | s :: rest => do
    walkStmt ctx s
    walkStmts ctx rest

def walkStmt (ctx : Context) : Stmt → Own Unit
  | .bind span pattern _ none => do
    push true span
    ctx.bindAll none pattern.bindings
    pop
  | .bind span pattern _ (some value) => do
    push true span
    let origins ← eval ctx value (← ctx.patternUse pattern)
    ctx.bindAll (some origins) pattern.bindings
    pop
  | .expr span value => do
    push true span
    let _ ← eval ctx value .read
    pop
  | .ret span none => do
    push true span
    setDiverged
    pop
  | .ret span (some value) => do
    push true span
    ctx.checkEscape value.span (← eval ctx value .move)
    setDiverged
    pop
  | .loop span condition body => do
    push true span
    let before ← save
    let _ ← eval ctx condition .read
    let start ← save
    let _ ← evalBlock ctx body .read
    let once ← save
    if once.diverged then restore start
    let _ ← eval ctx condition .read
    let _ ← evalBlock ctx body .read
    merge [start, once, ← save]
    if before.diverged then setDiverged
    pop
  | .counted span init condition update body => do
    push true span
    push false span
    walkInit ctx init
    let before ← save
    let _ ← evalOption ctx condition .read
    let start ← save
    let _ ← evalBlock ctx body .read
    let _ ← evalOption ctx update .read
    let once ← save
    if once.diverged then restore start
    let _ ← evalOption ctx condition .read
    let _ ← evalBlock ctx body .read
    let _ ← evalOption ctx update .read
    merge [start, once, ← save]
    if before.diverged then setDiverged
    pop
    pop

def walkInit (ctx : Context) : Option Stmt → Own Unit
  | none => pure ()
  | some s => walkStmt ctx s

/-- Checks the conditions of all guards in a pattern, those inside conditions included. -/
def guardsPattern (ctx : Context) : Pattern → Own Unit
  | .tuple _ elements => guardsPatterns ctx elements
  | .list _ front _ _ => guardsPatterns ctx front
  | .record _ _ fields _ => guardsFieldPatterns ctx fields
  | .variant _ _ _ args fields _ => do
    guardsPatterns ctx args
    guardsFieldPatterns ctx fields
  | .alternatives _ choices => guardsPatterns ctx choices
  | .guarded _ inner condition => do
    let _ ← eval ctx condition .read
    guardsPattern ctx inner
    guards ctx condition
  | .wildcard _ | .binding _ | .literal .. | .range .. => pure ()

def guardsPatterns (ctx : Context) : List Pattern → Own Unit
  | [] => pure ()
  | p :: rest => do
    guardsPattern ctx p
    guardsPatterns ctx rest

def guardsFieldPatterns (ctx : Context) : List FieldPattern → Own Unit
  | [] => pure ()
  | .mk _ p :: rest => do
    guardsPattern ctx p
    guardsFieldPatterns ctx rest

/-- Checks the conditions of all guards in the patterns of an expression. -/
def guards (ctx : Context) : Expr → Own Unit
  | .int .. | .float .. | .string .. | .bool .. | .ident .. => pure ()
  | .template _ parts => guardsParts ctx parts
  | .binary _ _ left right => do
    guards ctx left
    guards ctx right
  | .unary _ _ operand => guards ctx operand
  | .call _ callee args => do
    guards ctx callee
    guardsAll ctx args
  | .methodCall _ receiver _ args => do
    guards ctx receiver
    guardsAll ctx args
  | .field _ object _ => guards ctx object
  | .index _ object index => do
    guards ctx object
    guards ctx index
  | .ref _ _ operand => guards ctx operand
  | .deref _ operand => guards ctx operand
  | .struct _ _ fields => guardsFields ctx fields
  | .variant _ _ _ args fields => do
    guardsAll ctx args
    guardsFields ctx fields
  | .tuple _ elements => guardsAll ctx elements
  | .array _ elements => guardsAll ctx elements
  | .cast _ operand _ => guards ctx operand
  | .assign _ target value => do
    guards ctx target
    guards ctx value
  | .select _ scrutinee arms => do
    guards ctx scrutinee
    guardsArms ctx arms
  | .branch _ condition consequent alternative => do
    guards ctx condition
    guards ctx consequent
    guardsOption ctx alternative
  | .block body => guardsBlock ctx body

def guardsAll (ctx : Context) : List Expr → Own Unit
  | [] => pure ()
  | e :: rest => do
    guards ctx e
    guardsAll ctx rest

def guardsOption (ctx : Context) : Option Expr → Own Unit
  | none => pure ()
  | some e => guards ctx e

def guardsParts (ctx : Context) : List TemplatePart → Own Unit
  | [] => pure ()
  | .text _ :: rest => guardsParts ctx rest
  | .value e :: rest => do
    guards ctx e
    guardsParts ctx rest

def guardsFields (ctx : Context) : List FieldInit → Own Unit
  | [] => pure ()
  | .mk _ _ value :: rest => do
    guards ctx value
    guardsFields ctx rest

def guardsArms (ctx : Context) : List MatchArm → Own Unit
  | [] => pure ()
  | .mk _ pattern guard body :: rest => do
    guardsPattern ctx pattern
    guardsOption ctx guard
    guards ctx body
    guardsArms ctx rest

def guardsBlock (ctx : Context) : Block → Own Unit
  | .mk _ stmts tail => do
    guardsStmts ctx stmts
    guardsOption ctx tail

def guardsStmts (ctx : Context) : List Stmt → Own Unit
  | [] => pure ()
  | s :: rest => do
    guardsStmt ctx s
    guardsStmts ctx rest

def guardsStmt (ctx : Context) : Stmt → Own Unit
  | .bind _ pattern _ init => do
    guardsPattern ctx pattern
    guardsOption ctx init
  | .expr _ value => guards ctx value
  | .ret _ value => guardsOption ctx value
  | .loop _ condition body => do
    guards ctx condition
    guardsBlock ctx body
  | .counted _ init condition update body => do
    guardsInit ctx init
    guardsOption ctx condition
    guardsBlock ctx body
    guardsOption ctx update

def guardsInit (ctx : Context) : Option Stmt → Own Unit
  | none => pure ()
  | some s => guardsStmt ctx s

end

/-- What an ownership check finds out about a function. -/
structure Result where
  moves : NodeTable String := []
  borrows : NodeTable Bool := []
  diagnostics : List Diagnostic := []
deriving Inhabited

/-- Declares a parameter; one that is a reference holds what it points into. -/
def declareParam (name : String) (type : Ty) (mutable : Bool) (span : Span) : Own Unit :=
  modify fun l =>
    let (id, l) := l.declare name type mutable span
    { l with
      vars := l.vars.modify id fun v => { v with isParam := true }
      flow := l.flow.updateVar id fun f =>
        if type.isRef then { f with holds := [.param name] } else f }

/-- Checks the body of a function and what it returns. -/
def Context.run (ctx : Context) (f : FuncDecl) : Own Unit := do
  push false f.span
  if let some t := ctx.signature.receiverType? then declareParam "self" t false f.span
  ctx.signature.params.zipIdx.forM fun (p, i) =>
    declareParam p.name p.type p.mutable ((f.params[i]?.map Param.span).getD f.span)
  let origins ← evalBlock ctx f.body .move
  if let some value := f.body.tail then ctx.checkEscape value.span origins
  pop

/-- Checks the function at a position of a program, which has passed type checking. A declaration
that was rejected is passed over. -/
def check (table : Table) (position : Nat) (f : FuncDecl) (notes : Typing.Annotations) :
    Except Failure Result := do
  match table.signature? position f with
  | none => return {}
  | some signature =>
    let ctx : Context :=
      { decls := table.decls, signature, function := f.qualifiedName, notes }
    let ((), l) ← (ctx.run f).run {}
    return { moves := l.moves, borrows := l.borrows, diagnostics := l.bag.items }

end TreeCheck.Ownership
