import TreeCheck.Defect
import TreeCheck.Ownership.Ledger
import TreeCheck.Typing.State

/-!
The ownership rules: what reading, moving, borrowing and assigning do to variables, and which of
these are faults.
-/

namespace TreeCheck.Ownership

/-- What a function is checked against. -/
structure Context where
  decls : Decls
  signature : Signature
  function : String
  notes : Typing.Annotations

abbrev Own : Type → Type := StateT Ledger (Except Failure)

/-- Where a place starts. -/
inductive Root where
  | var (id : Nat)
  /-- A name that is no variable. -/
  | unbound
  | temporary
deriving DecidableEq, Repr, Inhabited

/-- A place as it is reached from its root. -/
structure Place where
  root : Root
  /-- Whether a reference is followed on the way. -/
  throughRef : Bool := false
  /-- Whether all references followed on the way are mutable. -/
  viaMut : Bool := true
deriving DecidableEq, Repr, Inhabited

/-- The place one step further, from a part of a type. -/
def Place.step (p : Place) (t : Ty) : Place :=
  match t with
  | .ref mutable _ => { p with throughRef := true, viaMut := p.viaMut && mutable }
  | _ => p

/-! ### Reading the ledger -/

def var (id : Nat) : Own Var := do
  let l ← get
  match l.vars[id]? with
  | some v => return v
  | none => throw (.crash s!"runtime error: index out of range [{id}] with length {l.vars.length}")

def varFlow (id : Nat) : Own VarFlow := do
  let l ← get
  match l.flow.vars[id]? with
  | some v => return v
  | none =>
    throw (.crash s!"runtime error: index out of range [{id}] with length {l.flow.vars.length}")

/-- The borrow state of a variable. -/
def stateOf (id : Nat) : Own State := do
  let l ← get
  match l.flow.vars[id]? with
  | some flow => return l.state id flow
  | none => throw (.defect (.unknownBinding id))

/-- What the references in a variable may point into. -/
def held (id : Nat) : Own (List Origin) := return (← varFlow id).holds

def push (isTemporary : Bool) (span : Span) : Own Unit := modify fun l => l.push isTemporary span

def pop : Own Unit := modify Ledger.pop

def save : Own Flow := return (← get).flow

def restore (saved : Flow) : Own Unit :=
  modify fun l => { l with flow := l.flow.restore saved }

def merge (paths : List Flow) : Own Unit :=
  modify fun l => { l with flow := l.flow.merge paths }

def setDiverged : Own Unit :=
  modify fun l => { l with flow := { l.flow with diverged := true } }

def lend (owner : Option Nat) (mutable : Bool) (site : NodeInfo) : Own Nat :=
  modifyGet fun l => l.lend owner mutable site.id site.span

/-- Keeps what a value points into alive as long as temporary values around the current scope. -/
def keep (origins : List Origin) : Own Unit := modify fun l => l.rescope origins l.enclosing

def adopt (id : Nat) (origins : List Origin) : Own Unit := do
  let v ← var id
  modify fun l => l.adopt id v origins

namespace Context

def add (ctx : Context) (d : Diagnostic) : Own Unit :=
  modify fun l => { l with bag := l.bag.add { d with function := ctx.function } }

/-- The type of a node; it must not be open. -/
def typeOf (ctx : Context) (id : Nat) : Own Ty :=
  match ctx.notes.typeOf id with
  | .var .. => throw (.defect (.untypedNode id ctx.function))
  | t => pure t

def carries (ctx : Context) (t : Ty) : Bool := ctx.decls.containsReference t

/-- What the value of a node may point into: nothing if its type holds no reference. -/
def carried (ctx : Context) (id : Nat) (origins : Own (List Origin)) : Own (List Origin) := do
  let origins ← origins
  if origins.isEmpty then return []
  return if ctx.carries (← ctx.typeOf id) then origins else []

def place (ctx : Context) : Expr → Own Place
  | .ident _ name => do
    match (← get).lookup? name with
    | some id => return { root := .var id }
    | none => return { root := .unbound }
  | .field _ object _ => do
    let t ← ctx.typeOf object.id
    return (← ctx.place object).step t
  | .index _ object _ => do
    let t ← ctx.typeOf object.id
    return (← ctx.place object).step t
  | .deref _ operand => do
    let t ← ctx.typeOf operand.id
    return (← ctx.place operand).step t
  | _ => return { root := .temporary }

/-! ### Actions on variables -/

def useAfterMove (ctx : Context) (id : Nat) (span : Span) : Own Unit := do
  let v ← var id
  let flow ← varFlow id
  if flow.late then
    ctx.add { kind := .useAfterMove, span, message := s!"use of possibly-uninitialized `{v.name}`" }
  else
    let d : Diagnostic :=
      { kind := .useAfterMove, span, message := s!"use of moved value `{v.name}`"
        hint := "the value's type does not implement copy semantics" }
    ctx.add (d.withLabel flow.movedAt "value moved here")

def read (ctx : Context) (id : Nat) (span : Span) : Own Unit := do
  let s ← stateOf id
  let v ← var id
  if (transition s .read v.mutable).2.isSome then ctx.useAfterMove id span

/-- The span of the oldest loan on a variable, and whether it is mutable. -/
def blocking (id : Nat) : Own (Span × Bool) := do
  match (← get).loansOn id with
  | loan :: _ => return (loan.span, loan.mutable)
  | [] => return (default, false)

def move (ctx : Context) (id : Nat) (site : NodeInfo) : Own Unit := do
  modify fun l => l.invalidate id "moved" site.span
  let s ← stateOf id
  let v ← var id
  match (transition s .move v.mutable).2 with
  | none =>
    modify fun l =>
      { l with
        flow := l.flow.updateVar id fun f => { f with moved := true, movedAt := site.span }
        moves := l.moves.insert site.id v.name }
  | some violation =>
    if violation.kind == .useAfterMove then ctx.useAfterMove id site.span
    else
      let (span, _) ← blocking id
      let d : Diagnostic :=
        { kind := .conflictingBorrow, span := site.span
          message := s!"cannot move out of `{v.name}` because it is borrowed" }
      ctx.add (d.withLabel span s!"borrow of `{v.name}` occurs here")

/-- Reports the use of a variable that holds a reference into something that is gone. -/
def touchOrigin (ctx : Context) (v : Var) (span : Span) : Origin → Own Unit
  | .param _ => pure ()
  | .loan id => do
    let l ← get
    match (l.flow.lease? id).bind Lease.ended with
    | none => pure ()
    | some (reason, endedAt) =>
      if l.reported.contains id then return
      modify fun l => { l with reported := id :: l.reported }
      let some loan := l.loans[id]? | throw (.crash "runtime error: loan out of range")
      let some ownerId := loan.owner | throw (.crash "runtime error: loan without an owner")
      let owner ← var ownerId
      let d : Diagnostic :=
        { kind := .borrowOutlivesOwner, span
          message := s!"`{v.name}` is used after `{owner.name}`, which it borrows, was {reason}" }
      ctx.add ((d.withLabel loan.span s!"`{owner.name}` is borrowed here").withLabel endedAt
        s!"`{owner.name}` is {reason} here")

def touch (ctx : Context) (id : Nat) (span : Span) : Own Unit := do
  let v ← var id
  (← held id).forM fun origin => ctx.touchOrigin v span origin

def useName (ctx : Context) (info : NodeInfo) (name : String) (use : Use) :
    Own (List Origin) := do
  match (← get).lookup? name with
  | none => return []
  | some id =>
    ctx.touch id info.span
    let v ← var id
    if use == .move && !v.type.isCopy then ctx.move id info else ctx.read id info.span
    held id

/-- Uses a part of a variable as a value. Taking a part that is not copied moves the whole variable,
and is a fault through a reference. -/
def usePlace (ctx : Context) (p : Place) (e : Expr) (use : Use) : Own (List Origin) := do
  match p.root with
  | .unbound | .temporary => return []
  | .var id =>
    ctx.touch id e.span
    if use == .read then ctx.read id e.span
    else if (← ctx.typeOf e.id).isCopy then ctx.read id e.span
    else if p.throughRef then
      ctx.read id e.span
      ctx.add
        { kind := .conflictingBorrow, span := e.span
          message := s!"cannot move out of borrowed content `{e.text}`"
          hint := "borrow it with `&` or copy the parts you need" }
    else ctx.move id e.info
    held id

/-- Borrows a variable that is not reached through a reference. -/
def borrowVar (ctx : Context) (id : Nat) (v : Var) (operand : Expr) (mutable : Bool)
    (site : NodeInfo) : Own (List Origin) := do
  let s ← stateOf id
  match (transition s (if mutable then .borrowMut else .borrow) v.mutable).2 with
  | none => return [.loan (← lend (some id) mutable site)]
  | some violation =>
    match violation.kind with
    | .useAfterMove => ctx.useAfterMove id operand.span
    | .mutateThroughImmutableBinding =>
      let d : Diagnostic :=
        { kind := .mutateThroughImmutableBinding, span := site.span
          message := s!"cannot borrow `{v.name}` as mutable, as it is not declared as mutable" }
      ctx.add (d.withLabel v.span s!"consider changing this to `mut {v.name}`")
    | _ =>
      let (span, isMutable) ← blocking id
      let heldAs := if isMutable then "mutable" else "immutable"
      let wanted := if mutable then "mutable" else "immutable"
      let d : Diagnostic :=
        { kind := .conflictingBorrow, span := site.span
          message := s!"cannot borrow `{v.name}` as {wanted} because it is also borrowed as {heldAs}" }
      ctx.add (d.withLabel span s!"{heldAs} borrow occurs here")
    return []

/-- Borrows a place that starts at a variable. Borrowing through a reference borrows again what it
points into. -/
def borrowPlace (ctx : Context) (id : Nat) (p : Place) (operand : Expr) (mutable : Bool)
    (site : NodeInfo) : Own (List Origin) := do
  let v ← var id
  ctx.touch id operand.span
  if !p.throughRef then ctx.borrowVar id v operand mutable site
  else
    ctx.read id operand.span
    if mutable && !p.viaMut then
      ctx.add
        { kind := .mutateThroughImmutableBinding, span := site.span
          message :=
            s!"cannot borrow `{operand.text}` as mutable, as it is behind a `&` reference" }
    held id

/-- Borrows an operand. Its value is evaluated by `evaluate` if it is no place, and the indices in
it by `indices` if it is one. A place that starts at a temporary value counts as one that starts at
the first variable. -/
def borrow (ctx : Context) (operand : Expr) (mutable : Bool) (site : NodeInfo)
    (evaluate : Own (List Origin)) (indices : Own Unit) : Own (List Origin) := do
  if operand.isPlace then
    let p ← ctx.place operand
    indices
    match p.root with
    | .unbound => return []
    | .var id => ctx.borrowPlace id p operand mutable site
    | .temporary => ctx.borrowPlace 0 p operand mutable site
  else
    let origins ← evaluate
    return Origin.union origins [.loan (← lend none mutable site)]

/-- Passes an argument: a place that is borrowed implicitly is borrowed, a reference is borrowed
again, and anything else is moved. -/
def argument (ctx : Context) (a : Expr) (read move : Own (List Origin)) (indices : Own Unit) :
    Own (List Origin) := do
  match ctx.notes.coercions.get? a.id with
  | some .autoRef => ctx.borrow a false a.info move indices
  | some .autoRefMut => ctx.borrow a true a.info move indices
  | _ => if (← ctx.typeOf a.id).isRef then read else move

/-- Whether an assignment sets a whole variable. -/
def isWhole : Expr → Bool
  | .ident .. => true
  | _ => false

/-- Assigns to a place that starts at a variable and is not reached through a reference. -/
def writeVar (ctx : Context) (id : Nat) (target : Expr) (origins : List Origin) : Own Unit := do
  let v ← var id
  let whole := isWhole target
  let s ← stateOf id
  let flow ← varFlow id
  if !whole && s == .moved then ctx.useAfterMove id target.span
  else
    match (transition s .write (v.mutable || (whole && flow.late))).2 with
    | some violation =>
      if violation.kind == .mutateThroughImmutableBinding then
        let message := if whole then s!"cannot assign twice to immutable variable `{v.name}`"
          else s!"cannot assign to `{target.text}`, as `{v.name}` is not declared as mutable"
        let d : Diagnostic :=
          { kind := .mutateThroughImmutableBinding, span := target.span, message }
        ctx.add (d.withLabel v.span s!"consider changing this to `mut {v.name}`")
      else
        let (span, _) ← blocking id
        let d : Diagnostic :=
          { kind := .conflictingBorrow, span := target.span
            message := s!"cannot assign to `{target.text}` because it is borrowed" }
        ctx.add (d.withLabel span s!"borrow of `{v.name}` occurs here")
    | none =>
      if whole then
        modify fun l =>
          { l with flow := l.flow.updateVar id fun f => { f with moved := false, late := false } }
        if ctx.carries v.type then adopt id origins
      else if ctx.carries (← ctx.typeOf target.id) then
        adopt id (Origin.union flow.holds origins)

/-- Assigns to a place that starts at a variable. -/
def write (ctx : Context) (id : Nat) (p : Place) (target : Expr) (origins : List Origin) :
    Own Unit := do
  if p.throughRef then
    ctx.read id target.span
    if !p.viaMut then
      ctx.add
        { kind := .mutateThroughImmutableBinding, span := target.span
          message := s!"cannot assign to `{target.text}`, which is behind a `&` reference" }
  else ctx.writeVar id target origins

/-- What the result of a call may point into: what the arguments named by the lives clause point
into, or all arguments without such a clause. -/
def returned (ctx : Context) (signature : Signature) (receiver : List Origin)
    (args : List (List Origin)) : List Origin :=
  if !ctx.carries signature.result then []
  else match signature.lives with
    | none => args.foldl Origin.union receiver
    | some names => names.foldl (fun origins name =>
      if name == "self" then Origin.union origins receiver
      else match (signature.paramIndex? name).bind fun i => args[i]? with
        | some arg => Origin.union origins arg
        | none => origins) []

/-- How a pattern consumes the value it matches: by taking a part that is not copied, or not. -/
def patternUse (ctx : Context) (p : Pattern) : Own Use := go p.bindings
where
  go : List Binding → Own Use
    | [] => return .read
    | b :: rest => do if (← ctx.typeOf b.info.id).isCopy then go rest else return .move

/-- Declares what a pattern binds. The bindings hold what the matched value points into; without a
value they are not initialized. -/
def bindAll (ctx : Context) (origins : Option (List Origin)) : List Binding → Own Unit
  | [] => pure ()
  | b :: rest => do
    let t ← ctx.typeOf b.info.id
    let id ← modifyGet fun l => l.declare b.name t b.mutable b.info.span
    match origins with
    | none =>
      modify fun l =>
        { l with flow := l.flow.updateVar id fun f => { f with moved := true, late := true } }
    | some origins => if ctx.carries t then adopt id origins
    ctx.bindAll origins rest

/-- Reports a returned reference that points into something that does not outlive the call, or into
a parameter that the lives clause does not name. -/
def checkOrigin (ctx : Context) (span : Span) : Origin → Own Unit
  | .param name =>
    match ctx.signature.lives with
    | some names =>
      if names.contains name then pure ()
      else ctx.add
        { kind := .danglingReference, span
          message :=
            s!"returned reference borrows from `{name}`, which the lives clause does not name"
          hint := s!"add `{name}` to `lives return <- [...]`" }
    | none => pure ()
  | .loan id => do
    let some loan := (← get).loans[id]? | throw (.crash "runtime error: loan out of range")
    match loan.owner with
    | none =>
      let d : Diagnostic :=
        { kind := .danglingReference, span, message := "returns a reference to a temporary value" }
      ctx.add (d.withLabel loan.span "temporary value borrowed here")
    | some ownerId =>
      let owner ← var ownerId
      let what := if owner.isParam then "parameter" else "local variable"
      let d : Diagnostic :=
        { kind := .danglingReference, span
          message := s!"returns a reference to {what} `{owner.name}`"
          hint := "return an owned value instead" }
      ctx.add (d.withLabel loan.span s!"`{owner.name}` is borrowed here")

def checkEscape (ctx : Context) (span : Span) (origins : List Origin) : Own Unit :=
  if ctx.carries ctx.signature.result then origins.forM fun origin => ctx.checkOrigin span origin
  else pure ()

end Context

end TreeCheck.Ownership
