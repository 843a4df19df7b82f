import TreeCheck.Ownership.Walk

/-!
An ownership check laid out as code: which rules it applies in which order, and where it branches, loops
and returns. Running the code with joins is the check itself; running it without joins, one arm at each
branch and any number of rounds for each loop, gives the paths through a function.
-/

namespace TreeCheck.Ownership

/-- A check between two of its steps: the ledger, what the values at hand may point into, the latest
value first, and what the values of the arms seen so far may point into. -/
structure Machine where
  ledger : Ledger := {}
  values : List (List Origin) := []
  found : List Origin := []
deriving Inhabited

namespace Machine

def top (m : Machine) : List Origin := m.values.headD []

/-- Applies a rule to the ledger. -/
def perform (m : Machine) (rule : Own Unit) : Except Failure Machine := do
  let ((), ledger) ← rule.run m.ledger
  return { m with ledger }

/-- Applies a rule and puts its value in the place of the latest values. -/
def yield (m : Machine) (used : Nat) (rule : Own (List Origin)) : Except Failure Machine := do
  let (origins, ledger) ← rule.run m.ledger
  return { m with ledger, values := origins :: m.values.drop used }

def withFlow (m : Machine) (flow : Flow) : Machine := { m with ledger := { m.ledger with flow } }

/-- Goes on with the values at hand before, whatever was done since. -/
def resume (m after : Machine) : Machine := { m with ledger := after.ledger }

/-- What a call is applied to: the latest values in the order of their arrival. -/
def args (m : Machine) (count : Nat) : List (List Origin) := (m.values.take count).reverse

def enter (isTemporary : Bool) (span : Span) (m : Machine) : Machine :=
  { m with ledger := m.ledger.push isTemporary span }

def exit (m : Machine) : Machine := { m with ledger := m.ledger.pop }

/-- Where the second round of a loop starts: after the first one, or without it if it has returned. -/
def again (first once : Machine) : Machine :=
  once.withFlow (if once.ledger.flow.diverged then once.ledger.flow.restore first.ledger.flow
    else once.ledger.flow)

/-- The machine after no round of a loop, after one or after two. -/
def looped (m first once twice : Machine) : Machine :=
  let flow := twice.ledger.flow.merge [first.ledger.flow, once.ledger.flow, twice.ledger.flow]
  twice.withFlow (if m.ledger.flow.diverged then { flow with diverged := true } else flow)

/-- The machine after an arm, whose value joins those of the other arms. -/
def gathered (m after : Machine) : Machine :=
  { after with values := after.found :: m.values, found := m.found }

end Machine

/-- One rule of a check. -/
inductive Step where
  /-- A value that points nowhere. -/
  | value
  /-- Forgets the value before the latest one. -/
  | nip
  /-- Joins what the two latest values point into. -/
  | union
  /-- Counts the latest value among those of the arms. -/
  | collect
  /-- The type of a node must be known. -/
  | typed (id : Nat)
  | carried (id : Nat)
  | useName (info : NodeInfo) (name : String) (use : Use)
  /-- The types on the way to a place must be known. -/
  | locate (e : Expr)
  | usePlace (e : Expr) (use : Use)
  | borrowPlace (operand : Expr) (mutable : Bool) (site : NodeInfo)
  /-- Lends a temporary value. -/
  | lend (mutable : Bool) (site : NodeInfo)
  /-- Assigns the latest value, which is that of a node. -/
  | write (target : Expr) (id : Nat)
  /-- The result of a call without a known signature. -/
  | gather (count : Nat)
  | returned (signature : Signature) (count : Nat)
  | keep
  | keepFound
  /-- Declares what a pattern binds in the latest value. -/
  | bind (bindings : List Binding)
  | bindLate (bindings : List Binding)
  | param (name : String) (type : Ty) (mutable : Bool) (span : Span)
  | escape (span : Span)

/-- Borrows a place once the indices in it are checked. -/
def Context.borrowSite (ctx : Context) (operand : Expr) (mutable : Bool) (site : NodeInfo) :
    Own (List Origin) := do
  let p ← ctx.place operand
  match p.root with
  | .unbound => return []
  | .var id => ctx.borrowPlace id p operand mutable site
  | .temporary => ctx.borrowPlace 0 p operand mutable site

/-- Assigns to a place once the indices in it are checked. -/
def Context.writeSite (ctx : Context) (target : Expr) (origins : List Origin) : Own Unit := do
  let p ← ctx.place target
  match p.root with
  | .var id => ctx.write id p target origins
  | .unbound | .temporary => pure ()

def Step.run (ctx : Context) (m : Machine) : Step → Except Failure Machine
  | .value => .ok { m with values := [] :: m.values }
  | .nip => .ok { m with values := m.top :: m.values.drop 2 }
  | .union => .ok { m with values := Origin.union (m.values.getD 1 []) m.top :: m.values.drop 2 }
  | .collect => .ok { m with values := m.values.tail, found := Origin.union m.found m.top }
  | .typed id => m.perform do let _ ← ctx.typeOf id
  | .carried id => m.yield 1 (ctx.carried id (pure m.top))
  | .useName info name use => m.yield 0 (ctx.useName info name use)
  | .locate e => m.perform do let _ ← ctx.place e
  | .usePlace e use => m.yield 0 do ctx.usePlace (← ctx.place e) e use
  | .borrowPlace operand mutable site => m.yield 0 (ctx.borrowSite operand mutable site)
  | .lend mutable site => m.yield 1 do
    return Origin.union m.top [.loan (← Ownership.lend none mutable site)]
  | .write target id => m.perform do
    ctx.writeSite target (← ctx.carried id (pure m.top))
  | .gather count =>
    let origins := (m.args count).foldl Origin.union (m.values.getD count [])
    .ok { m with values := origins :: m.values.drop (count + 1) }
  | .returned signature count =>
    let origins := ctx.returned signature (m.values.getD count []) (m.args count)
    .ok { m with values := origins :: m.values.drop (count + 1) }
  | .keep => m.perform (Ownership.keep m.top)
  | .keepFound => m.perform (Ownership.keep m.found)
  | .bind bindings => m.perform (ctx.bindAll (some m.top) bindings)
  | .bindLate bindings => m.perform (ctx.bindAll none bindings)
  | .param name type mutable span => m.perform (declareParam name type mutable span)
  | .escape span => m.perform (ctx.checkEscape span m.top)

inductive Code where
  | skip
  | step (step : Step)
  | seq (first next : Code)
  /-- Code whose value is not looked at. -/
  | discard (body : Code)
  | scope (isTemporary : Bool) (span : Span) (body : Code)
  /-- One of several arms, each of which collects its value. -/
  | choice (arms : List Code)
  /-- A condition, and then any number of rounds, each followed by the condition. -/
  | loop (test round : Code)
  /-- Returns from the function. -/
  | leave

namespace Code

def all : List Code → Code
  | [] => .skip
  | [c] => c
  | c :: rest => .seq c (all rest)

mutual

/-- Runs code with joins: all arms from the same flow, and two rounds of each loop. -/
def run (ctx : Context) : Code → Machine → Except Failure Machine
  | .skip, m => .ok m
  | .step s, m => s.run ctx m
  | .seq first next, m => do run ctx next (← run ctx first m)
  | .discard body, m => do return m.resume (← run ctx body m)
  | .scope isTemporary span body, m => do
    return (← run ctx body (m.enter isTemporary span)).exit
  | .choice arms, m => do
    let (after, ends) ← runArms ctx arms m.ledger.flow { m with found := [] }
    return m.gathered (after.withFlow (after.ledger.flow.merge ends))
  | .loop test round, m => do
    let first ← run ctx test m
    let once ← run ctx round (m.resume first)
    let retested ← run ctx test (m.resume (first.again once))
    let twice ← run ctx round (m.resume retested)
    return m.resume (m.looped first once twice)
  | .leave, m => .ok (m.withFlow { m.ledger.flow with diverged := true })

/-- Runs each arm from the same flow; also tells the flows at their ends. -/
def runArms (ctx : Context) : List Code → Flow → Machine → Except Failure (Machine × List Flow)
  | [], _, m => .ok (m, [])
  | arm :: rest, before, m => do
    let after ← run ctx arm (m.withFlow (m.ledger.flow.restore before))
    let (last, ends) ← runArms ctx rest before { after with values := m.values }
    return (last, after.ledger.flow :: ends)

end

/-- A condition and a number of rounds, each followed by the condition. -/
def rounds (test round : Code) : Nat → Code
  | 0 => .discard test
  | count + 1 => .seq (rounds test round count) (.seq (.discard round) (.discard test))

end Code

/-- How often paths may go round which loops. -/
abbrev RoundLimit : Type := Code → Code → Nat → Prop

def anyRounds : RoundLimit := fun _ _ _ => True

/-- The paths through code: one arm of each choice, some number of rounds of each loop, up to a return. A
path may be cut off anywhere, and then only leaves the scopes it is in; the flag tells whether it
reaches the end. -/
inductive Path (ctx : Context) (limit : RoundLimit) : Code → Machine → Machine → Bool → Prop
  | cut {c : Code} {m : Machine} : Path ctx limit c m m false
  | skip {m : Machine} : Path ctx limit .skip m m true
  | step {s : Step} {m after : Machine} (applied : s.run ctx m = .ok after) :
      Path ctx limit (.step s) m after true
  | seq {first next : Code} {m middle after : Machine} {ends : Bool}
      (start : Path ctx limit first m middle true) (rest : Path ctx limit next middle after ends) :
      Path ctx limit (.seq first next) m after ends
  | within {first next : Code} {m after : Machine} (start : Path ctx limit first m after false) :
      Path ctx limit (.seq first next) m after false
  | discard {body : Code} {m after : Machine} {ends : Bool} (inner : Path ctx limit body m after ends) :
      Path ctx limit (.discard body) m (m.resume after) ends
  | scope {isTemporary : Bool} {span : Span} {body : Code} {m after : Machine} {ends : Bool}
      (inner : Path ctx limit body (m.enter isTemporary span) after ends) :
      Path ctx limit (.scope isTemporary span body) m after.exit ends
  | arm {arms : List Code} {arm : Code} {m after : Machine} {ends : Bool} (chosen : arm ∈ arms)
      (inner : Path ctx limit arm { m with found := [] } after ends) :
      Path ctx limit (.choice arms) m (m.gathered after) ends
  | without {m : Machine} : Path ctx limit (.choice []) m (m.gathered { m with found := [] }) true
  | loop {test round : Code} {m after : Machine} {ends : Bool} (count : Nat)
      (allowed : limit test round count)
      (inner : Path ctx limit (Code.rounds test round count) m after ends) :
      Path ctx limit (.loop test round) m after ends
  | leave {m : Machine} :
      Path ctx limit .leave m (m.withFlow { m.ledger.flow with diverged := true }) false

/-! ### The code of a function -/

namespace Context

/-- How a pattern consumes the value it matches, given the types of its bindings. -/
def useOf (ctx : Context) : List Binding → Use
  | [] => .read
  | b :: rest => if (ctx.notes.typeOf b.info.id).isCopy then ctx.useOf rest else .move

/-- The types that have to be known to tell how a pattern consumes its value. -/
def useCode (ctx : Context) : List Binding → Code
  | [] => .skip
  | b :: rest => .seq (.step (.typed b.info.id))
      (if (ctx.notes.typeOf b.info.id).isCopy then ctx.useCode rest else .skip)

def armsUseOf (ctx : Context) : List MatchArm → Use
  | [] => .read
  | .mk _ pattern _ _ :: rest =>
    if ctx.useOf pattern.bindings == .move then .move else ctx.armsUseOf rest

def armsUseCode (ctx : Context) : List MatchArm → Code
  | [] => .skip
  | .mk _ pattern _ _ :: rest => .seq (ctx.useCode pattern.bindings) (ctx.armsUseCode rest)

def borrowCode (operand : Expr) (mutable : Bool) (site : NodeInfo) (evaluate indices : Code) :
    Code :=
  if operand.isPlace then
    .all [.step (.locate operand), indices, .step (.borrowPlace operand mutable site)]
  else .all [evaluate, .step (.lend mutable site)]

def argumentCode (ctx : Context) (a : Expr) (read move indices : Code) : Code :=
  match ctx.notes.coercions.get? a.id with
  | some .autoRef => borrowCode a false a.info move indices
  | some .autoRefMut => borrowCode a true a.info move indices
  | _ => .seq (.step (.typed a.id)) (if (ctx.notes.typeOf a.id).isRef then read else move)

def placeCode (e : Expr) (use : Use) (indices temporary : Code) : Code :=
  .seq (.step (.locate e))
    (if e.root?.isSome then .seq indices (.step (.usePlace e use)) else temporary)

end Context

mutual

def code (ctx : Context) : Expr → Use → Code
  | .int .., _ | .float .., _ | .string .., _ | .bool .., _ => .step .value
  | .template _ parts, _ => .seq (codeParts ctx parts) (.step .value)
  | .ident info name, use => .seq (.step (.useName info name use)) (.step (.carried info.id))
  | .binary _ _ left right, _ =>
    .all [.discard (code ctx left .read), .discard (code ctx right .read), .step .value]
  | .unary _ _ operand, _ => .seq (.discard (code ctx operand .read)) (.step .value)
  | .cast _ operand _, _ => .seq (.discard (code ctx operand .read)) (.step .value)
  | .field info object name, use => .seq
    (Context.placeCode (.field info object name) use (codeIndices ctx object)
      (code ctx object .move))
    (.step (.carried info.id))
  | .index info object index, use => .seq
    (Context.placeCode (.index info object index) use
      (.seq (.discard (code ctx index .read)) (codeIndices ctx object))
      (.seq (code ctx object .move) (.discard (code ctx index .read))))
    (.step (.carried info.id))
  | .deref info operand, use => .seq
    (if operand.isPlace then
      Context.placeCode (.deref info operand) use (codeIndices ctx operand) (code ctx operand .read)
    else code ctx operand .read)
    (.step (.carried info.id))
  | .ref info mutable operand, _ => .seq
    (Context.borrowCode operand mutable info (code ctx operand .move) (codeIndices ctx operand))
    (.step (.carried info.id))
  | .call info callee args, _ => .seq
    (match ctx.notes.calls.get? info.id with
    | none => .all [.discard (code ctx callee .read), .step .value, codeArgs ctx args,
        .step (.gather args.length)]
    | some signature => .all [
        if Context.isWhole callee then .skip else .discard (code ctx callee .read),
        .step .value, codeArgs ctx args, .step (.returned signature args.length)])
    (.step (.carried info.id))
  | .methodCall info receiver _ args, _ => .seq
    (match ctx.notes.methods.get? info.id with
    | none => .all [code ctx receiver .read, codeArgs ctx args, .step (.gather args.length)]
    | some signature => .all [
        if (signature.self.map Signature.Self.mode) == some .value then code ctx receiver .move
        else ctx.argumentCode receiver (code ctx receiver .read) (code ctx receiver .move)
          (codeIndices ctx receiver),
        codeArgs ctx args, .step (.returned signature args.length)])
    (.step (.carried info.id))
  | .struct info _ fields, _ =>
    .seq (.seq (.step .value) (codeFields ctx fields)) (.step (.carried info.id))
  | .variant info _ _ args fields, _ =>
    .seq (.all [.step .value, codeAll ctx args, codeFields ctx fields]) (.step (.carried info.id))
  | .tuple info elements, _ =>
    .seq (.seq (.step .value) (codeAll ctx elements)) (.step (.carried info.id))
  | .array info elements, _ =>
    .seq (.seq (.step .value) (codeAll ctx elements)) (.step (.carried info.id))
  | .assign _ target value, _ => .seq
    (.discard (.all [code ctx value .move, .step (.locate target),
      if target.root?.isSome then .seq (codeIndices ctx target) (.step (.write target value.id))
      else .skip]))
    (.step .value)
  | .branch info condition consequent alternative, use => .seq
    (.seq (.discard (code ctx condition .read))
      (.choice [.seq (code ctx consequent use) (.step .collect),
        .seq (codeOption ctx alternative use) (.step .collect)]))
    (.step (.carried info.id))
  | .select info scrutinee arms, use => .seq
    (.all [ctx.armsUseCode arms, code ctx scrutinee (ctx.armsUseOf arms),
      .choice (codeArms ctx arms use), .step .nip])
    (.step (.carried info.id))
  | .block body, use => .seq (codeBlock ctx body use) (.step (.carried body.id))

def codeIndices (ctx : Context) : Expr → Code
  | .field _ object _ => codeIndices ctx object
  | .index _ object index => .seq (.discard (code ctx index .read)) (codeIndices ctx object)
  | .deref _ operand => codeIndices ctx operand
  | _ => .skip

def codeParts (ctx : Context) : List TemplatePart → Code
  | [] => .skip
  | .text _ :: rest => codeParts ctx rest
  | .value e :: rest => .seq (.discard (code ctx e .read)) (codeParts ctx rest)

def codeArgs (ctx : Context) : List Expr → Code
  | [] => .skip
  | a :: rest => .seq
    (ctx.argumentCode a (code ctx a .read) (code ctx a .move) (codeIndices ctx a))
    (codeArgs ctx rest)

def codeAll (ctx : Context) : List Expr → Code
  | [] => .skip
  | e :: rest => .all [code ctx e .move, .step .union, codeAll ctx rest]

def codeFields (ctx : Context) : List FieldInit → Code
  | [] => .skip
  | .mk _ _ value :: rest => .all [code ctx value .move, .step .union, codeFields ctx rest]

def codeOption (ctx : Context) : Option Expr → Use → Code
  | none, _ => .step .value
  | some e, use => code ctx e use

def codeArms (ctx : Context) : List MatchArm → Use → List Code
  | [], _ => []
  | .mk span pattern guard body :: rest, use =>
    .scope false span (.all [.step (.bind pattern.bindings), codeGuards ctx pattern,
      .discard (codeOption ctx guard .read), code ctx body use, .step .collect, .step .keepFound])
    :: codeArms ctx rest use

def codeBlock (ctx : Context) : Block → Use → Code
  | .mk info stmts tail, use => .scope false info.span (.seq (codeStmts ctx stmts)
    (match tail with
    | none => .step .value
    | some value => .scope true value.span (.seq (code ctx value use) (.step .keep))))

def codeStmts (ctx : Context) : List Stmt → Code
  | [] => .skip
  | s :: rest => .seq (codeStmt ctx s) (codeStmts ctx rest)

def codeStmt (ctx : Context) : Stmt → Code
  | .bind span pattern _ none => .scope true span (.step (.bindLate pattern.bindings))
  | .bind span pattern _ (some value) => .scope true span (.discard
    (.all [ctx.useCode pattern.bindings, code ctx value (ctx.useOf pattern.bindings),
      .step (.bind pattern.bindings)]))
  | .expr span value => .scope true span (.discard (code ctx value .read))
  | .ret span none => .scope true span .leave
  | .ret span (some value) => .scope true span
    (.seq (.discard (.seq (code ctx value .move) (.step (.escape value.span)))) .leave)
  | .loop span condition body => .scope true span
    (.loop (code ctx condition .read) (codeBlock ctx body .read))
  | .counted span init condition update body => .scope true span (.scope false span
    (.seq (codeInit ctx init) (.loop (codeOption ctx condition .read)
      (.seq (codeBlock ctx body .read) (codeOption ctx update .read)))))

def codeInit (ctx : Context) : Option Stmt → Code
  | none => .skip
  | some s => codeStmt ctx s

def codeGuards (ctx : Context) : Pattern → Code
  | .tuple _ elements => codeGuardsAll ctx elements
  | .list _ front _ _ => codeGuardsAll ctx front
  | .record _ _ fields _ => codeGuardsFields ctx fields
  | .variant _ _ _ args fields _ => .seq (codeGuardsAll ctx args) (codeGuardsFields ctx fields)
  | .alternatives _ choices => codeGuardsAll ctx choices
  | .guarded _ inner condition =>
    .all [.discard (code ctx condition .read), codeGuards ctx inner, codeInner ctx condition]
  | .wildcard _ | .binding _ | .literal .. | .range .. => .skip

def codeGuardsAll (ctx : Context) : List Pattern → Code
  | [] => .skip
  | p :: rest => .seq (codeGuards ctx p) (codeGuardsAll ctx rest)

def codeGuardsFields (ctx : Context) : List FieldPattern → Code
  | [] => .skip
  | .mk _ p :: rest => .seq (codeGuards ctx p) (codeGuardsFields ctx rest)

/-- The conditions of all guards in the patterns of an expression. -/
def codeInner (ctx : Context) : Expr → Code
  | .int .. | .float .. | .string .. | .bool .. | .ident .. => .skip
  | .template _ parts => codeInnerParts ctx parts
  | .binary _ _ left right => .seq (codeInner ctx left) (codeInner ctx right)
  | .unary _ _ operand => codeInner ctx operand
  | .call _ callee args => .seq (codeInner ctx callee) (codeInnerAll ctx args)
  | .methodCall _ receiver _ args => .seq (codeInner ctx receiver) (codeInnerAll ctx args)
  | .field _ object _ => codeInner ctx object
  | .index _ object index => .seq (codeInner ctx object) (codeInner ctx index)
  | .ref _ _ operand => codeInner ctx operand
  | .deref _ operand => codeInner ctx operand
  | .struct _ _ fields => codeInnerFields ctx fields
  | .variant _ _ _ args fields => .seq (codeInnerAll ctx args) (codeInnerFields ctx fields)
  | .tuple _ elements => codeInnerAll ctx elements
  | .array _ elements => codeInnerAll ctx elements
  | .cast _ operand _ => codeInner ctx operand
  | .assign _ target value => .seq (codeInner ctx target) (codeInner ctx value)
  | .select _ scrutinee arms => .seq (codeInner ctx scrutinee) (codeInnerArms ctx arms)
  | .branch _ condition consequent alternative =>
    .all [codeInner ctx condition, codeInner ctx consequent, codeInnerOption ctx alternative]
  | .block body => codeInnerBlock ctx body

def codeInnerAll (ctx : Context) : List Expr → Code
  | [] => .skip
  | e :: rest => .seq (codeInner ctx e) (codeInnerAll ctx rest)

def codeInnerOption (ctx : Context) : Option Expr → Code
  | none => .skip
  | some e => codeInner ctx e

def codeInnerParts (ctx : Context) : List TemplatePart → Code
  | [] => .skip
  | .text _ :: rest => codeInnerParts ctx rest
  | .value e :: rest => .seq (codeInner ctx e) (codeInnerParts ctx rest)

def codeInnerFields (ctx : Context) : List FieldInit → Code
  | [] => .skip
  | .mk _ _ value :: rest => .seq (codeInner ctx value) (codeInnerFields ctx rest)

def codeInnerArms (ctx : Context) : List MatchArm → Code
  | [] => .skip
  | .mk _ pattern guard body :: rest =>
    .all [codeGuards ctx pattern, codeInnerOption ctx guard, codeInner ctx body,
      codeInnerArms ctx rest]

def codeInnerBlock (ctx : Context) : Block → Code
  | .mk _ stmts tail => .seq (codeInnerStmts ctx stmts) (codeInnerOption ctx tail)

def codeInnerStmts (ctx : Context) : List Stmt → Code
  | [] => .skip
  | s :: rest => .seq (codeInnerStmt ctx s) (codeInnerStmts ctx rest)

def codeInnerStmt (ctx : Context) : Stmt → Code
  | .bind _ pattern _ init => .seq (codeGuards ctx pattern) (codeInnerOption ctx init)
  | .expr _ value => codeInner ctx value
  | .ret _ value => codeInnerOption ctx value
  | .loop _ condition body => .seq (codeInner ctx condition) (codeInnerBlock ctx body)
  | .counted _ init condition update body =>
    .all [codeInnerInit ctx init, codeInnerOption ctx condition, codeInnerBlock ctx body,
      codeInnerOption ctx update]

def codeInnerInit (ctx : Context) : Option Stmt → Code
  | none => .skip
  | some s => codeInnerStmt ctx s

end

namespace Context

/-- The parameters of a function, the receiver first. -/
def paramsCode (ctx : Context) (f : FuncDecl) : Code := .seq
  (match ctx.signature.receiverType? with
  | some t => .step (.param "self" t false f.span)
  | none => .skip)
  (.all (ctx.signature.params.zipIdx.map fun (p, i) =>
    .step (.param p.name p.type p.mutable ((f.params[i]?.map Param.span).getD f.span))))

def functionCode (ctx : Context) (f : FuncDecl) : Code :=
  .scope false f.span (.seq (ctx.paramsCode f) (.discard (.seq (codeBlock ctx f.body .move)
    (match f.body.tail with
    | some value => .step (.escape value.span)
    | none => .skip))))

end Context

/-!
### Following

Paths can be computed: a list of choices tells which arm to take at each choice and how often to go round
each loop, in the order in which they are met.
-/

/-- Follows a path as choices tell; also tells whether it reaches the end, and the choices that are left.
There is no result if a rule fails, the choices do not fit or a loop is not gone round as often. -/
abbrev Follower : Type := List Nat → Machine → Option (Machine × Bool × List Nat)

namespace Follower

def andThen (first next : Follower) : Follower := fun choices m =>
  match first choices m with
  | some (middle, true, rest) => next rest middle
  | some (after, false, rest) => some (after, false, rest)
  | none => none

def discard (body : Follower) : Follower := fun choices m =>
  (body choices m).map fun (after, ends, rest) => (m.resume after, ends, rest)

def rounds (test round : Follower) : Nat → Follower
  | 0 => test.discard
  | count + 1 => (rounds test round count).andThen (round.discard.andThen test.discard)

end Follower

namespace Code

variable (ctx : Context) (limit : RoundLimit) [∀ test round count, Decidable (limit test round count)]

mutual

def follow : Code → Follower
  | .skip => fun choices m => some (m, true, choices)
  | .step s => fun choices m =>
    match s.run ctx m with
    | .ok after => some (after, true, choices)
    | .error _ => none
  | .seq first next => (follow first).andThen (follow next)
  | .discard body => (follow body).discard
  | .scope isTemporary span body => fun choices m =>
    (follow body choices (m.enter isTemporary span)).map fun (after, ends, rest) =>
      (after.exit, ends, rest)
  | .choice arms => fun choices m =>
    match choices with
    | arm :: rest => (followArm arms arm rest { m with found := [] }).map
        fun (after, ends, rest) => (m.gathered after, ends, rest)
    | [] => none
  | .loop test round => fun choices m =>
    match choices with
    | count :: rest =>
      if limit test round count then Follower.rounds (follow test) (follow round) count rest m else none
    | [] => none
  | .leave => fun choices m => some (m.withFlow { m.ledger.flow with diverged := true }, false, choices)

def followArm : List Code → Nat → Follower
  | [], _ => fun _ _ => none
  | arm :: _, 0 => follow arm
  | _ :: rest, n + 1 => followArm rest n

end

end Code

variable {ctx : Context} {limit : RoundLimit}

/-- What a follower computes are paths through some code. -/
def Follower.Sound (ctx : Context) (limit : RoundLimit) (c : Code) (follower : Follower) : Prop :=
  ∀ ⦃choices : List Nat⦄ ⦃m after : Machine⦄ ⦃ends : Bool⦄ ⦃rest : List Nat⦄,
    follower choices m = some (after, ends, rest) → Path ctx limit c m after ends

namespace Follower.Sound

variable {first next body test round : Code} {f g : Follower}

theorem andThen (start : f.Sound ctx limit first) (rest : g.Sound ctx limit next) :
    (f.andThen g).Sound ctx limit (.seq first next) := by
  intro choices m after ends left reached
  unfold Follower.andThen at reached
  split at reached
  · rename_i middle remaining early
    exact .seq (start early) (rest reached)
  · rename_i stop remaining early
    cases reached
    exact .within (start early)
  · cases reached

theorem discard (inner : f.Sound ctx limit body) : f.discard.Sound ctx limit (.discard body) := by
  intro choices m after ends left reached
  obtain ⟨⟨stop, ends, rest⟩, followed, same⟩ := Option.map_eq_some_iff.mp reached
  cases same
  exact .discard (inner followed)

theorem rounds (tests : f.Sound ctx limit test) (goes : g.Sound ctx limit round) (count : Nat) :
    (Follower.rounds f g count).Sound ctx limit (Code.rounds test round count) := by
  induction count with
  | zero => exact tests.discard
  | succ count ih => exact ih.andThen (goes.discard.andThen tests.discard)

end Follower.Sound

variable [∀ test round count, Decidable (limit test round count)]

open Code in
mutual

theorem follow_sound : ∀ c : Code, (follow ctx limit c).Sound ctx limit c
  | .skip => by
    intro choices m after ends rest reached
    cases reached
    exact .skip
  | .step s => by
    intro choices m after ends rest reached
    simp only [follow] at reached
    split at reached
    · rename_i done applied
      cases reached
      exact .step applied
    · cases reached
  | .seq first next => (follow_sound first).andThen (follow_sound next)
  | .discard body => (follow_sound body).discard
  | .scope isTemporary span body => by
    intro choices m after ends rest reached
    simp only [follow] at reached
    obtain ⟨⟨stop, ends, rest⟩, followed, same⟩ := Option.map_eq_some_iff.mp reached
    cases same
    exact .scope (follow_sound body followed)
  | .choice arms => by
    intro choices m after ends rest reached
    simp only [follow] at reached
    split at reached
    · obtain ⟨⟨stop, ends, rest⟩, followed, same⟩ := Option.map_eq_some_iff.mp reached
      cases same
      obtain ⟨arm, chosen, path⟩ := followArm_sound arms _ followed
      exact .arm chosen path
    · cases reached
  | .loop test round => by
    intro choices m after ends rest reached
    simp only [follow] at reached
    split at reached
    · rename_i count remaining
      split at reached
      · rename_i allowed
        exact .loop count allowed ((follow_sound test).rounds (follow_sound round) count reached)
      · cases reached
    · cases reached
  | .leave => by
    intro choices m after ends rest reached
    cases reached
    exact .leave

theorem followArm_sound : ∀ (arms : List Code) (n : Nat) {choices : List Nat} {m after : Machine}
    {ends : Bool} {rest : List Nat}, followArm ctx limit arms n choices m = some (after, ends, rest) →
    ∃ arm ∈ arms, Path ctx limit arm m after ends
  | [], _, _, _, _, _, _, reached => by
    simp [followArm] at reached
  | arm :: others, 0, _, _, _, _, _, reached => by
    rw [followArm] at reached
    exact ⟨arm, List.mem_cons_self, follow_sound arm reached⟩
  | _ :: others, n + 1, _, _, _, _, _, reached => by
    rw [followArm] at reached
    obtain ⟨arm, member, path⟩ := followArm_sound others n reached
    exact ⟨arm, List.mem_cons_of_mem _ member, path⟩

end

instance (test round : Code) (count : Nat) : Decidable (anyRounds test round count) := isTrue trivial

/-- Whether the path through a function that fits some choices reaches the end, and what it reports first. -/
def Context.leadAlong (ctx : Context) (limit : RoundLimit)
    [∀ test round count, Decidable (limit test round count)] (f : FuncDecl) (choices : List Nat) :
    Option (Bool × Option Diagnostic.Kind) :=
  ((ctx.functionCode f).follow ctx limit choices {}).map fun (after, ends, _) =>
    (ends, after.ledger.bag.contents.head?.map Diagnostic.kind)

theorem exists_followed {c : Code} {choices : List Nat} {ends : Bool} {kind : Option Diagnostic.Kind}
    (led : (c.follow ctx limit choices {}).map (fun (after, ends, _) =>
      (ends, after.ledger.bag.contents.head?.map Diagnostic.kind)) = some (ends, kind)) :
    ∃ after, Path ctx limit c {} after ends ∧ after.ledger.bag.contents.head?.map Diagnostic.kind = kind := by
  obtain ⟨⟨after, stop, rest⟩, followed, same⟩ := Option.map_eq_some_iff.mp led
  cases same
  exact ⟨after, follow_sound _ followed, rfl⟩

theorem exists_path {f : FuncDecl} {choices : List Nat} {ends : Bool} {kind : Option Diagnostic.Kind}
    (led : ctx.leadAlong limit f choices = some (ends, kind)) :
    ∃ after, Path ctx limit (ctx.functionCode f) {} after ends ∧
      after.ledger.bag.contents.head?.map Diagnostic.kind = kind :=
  exists_followed led

end TreeCheck.Ownership
