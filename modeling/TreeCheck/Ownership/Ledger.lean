import TreeCheck.Ownership.State
import TreeCheck.Syntax.NodeTable
import TreeCheck.Ty.Decls

/-!
The ledger of an ownership check: the variables of a function, the loans on them, and the scopes
that are open. What depends on the path taken is kept apart as the flow, which is saved before a
branch and joined after it.
-/

namespace TreeCheck.Ownership

/-- How the value of an expression is consumed. -/
inductive Use where
  /-- It is looked at or copied. -/
  | read
  /-- It is taken away, unless its type is copied. -/
  | move
deriving DecidableEq, Repr, Inhabited

/-- What a reference may point into: something lent, or what a parameter points into. -/
inductive Origin where
  | loan (id : Nat)
  | param (name : String)
deriving DecidableEq, Repr, Inhabited

def Origin.union (a b : List Origin) : List Origin := (a ++ b).eraseDups

/-- A declared variable. -/
structure Var where
  name : String
  type : Ty
  mutable : Bool
  isParam : Bool := false
  scope : Nat
  span : Span
deriving Repr, Inhabited

/-- What a path does to a variable. -/
structure VarFlow where
  moved : Bool := false
  /-- Declared without a value and not assigned so far. -/
  late : Bool := false
  movedAt : Span := default
  /-- What the references in its value may point into. -/
  holds : List Origin := []
deriving DecidableEq, Repr, Inhabited

/-- A borrow of a variable, or of a temporary value. -/
structure Loan where
  owner : Option Nat
  mutable : Bool
  span : Span
deriving Repr, Inhabited

/-- What a path does to a loan. -/
structure Lease where
  /-- The scope that the loan is given back with. -/
  scope : Nat
  /-- The variable that keeps the reference. -/
  holder : Option Nat := none
  /-- What became of the owner, and where, if it is gone. -/
  ended : Option (String × Span) := none
deriving DecidableEq, Repr, Inhabited

structure Scope where
  id : Nat
  /-- Whether the scope is that of temporary values. Names are declared in other scopes only. -/
  isTemporary : Bool
  stop : Span
  /-- The names declared in the scope, the latest first. -/
  names : List (String × Nat) := []
deriving Repr, Inhabited

/-- The state that depends on the path taken. -/
structure Flow where
  vars : List VarFlow := []
  /-- The live loans by their numbers. -/
  live : List (Nat × Lease) := []
  /-- Whether the path has returned. -/
  diverged : Bool := false
deriving DecidableEq, Repr, Inhabited

namespace Flow

def lease? (f : Flow) (loan : Nat) : Option Lease :=
  (f.live.find? fun entry => entry.1 == loan).map Prod.snd

def updateLeases (f : Flow) (change : Nat → Lease → Lease) : Flow :=
  { f with live := f.live.map fun (id, lease) => (id, change id lease) }

def updateVar (f : Flow) (id : Nat) (change : VarFlow → VarFlow) : Flow :=
  { f with vars := f.vars.modify id change }

/-- Goes back to a saved flow; variables declared since then keep their state. -/
def restore (current saved : Flow) : Flow :=
  { saved with vars := saved.vars ++ current.vars.drop saved.vars.length }

/-- A variable after two paths: moved if it was moved on one of them. -/
def joinVar (a b : VarFlow) : VarFlow :=
  { moved := a.moved || b.moved
    movedAt := if b.moved && !a.moved then b.movedAt else a.movedAt
    late := a.late || b.late
    holds := Origin.union a.holds b.holds }

def joinVars : List VarFlow → List VarFlow → List VarFlow
  | a :: as, b :: bs => joinVar a b :: joinVars as bs
  | as, _ => as

/-- A loan after two paths: its owner is gone if it was gone on one of them. -/
def joinLease (a b : Lease) : Lease := { a with ended := a.ended.or b.ended }

def joinLive (a b : List (Nat × Lease)) : List (Nat × Lease) :=
  let shared := a.map fun (id, lease) =>
    match b.lookup id with
    | some other => (id, joinLease lease other)
    | none => (id, lease)
  let added := b.filter fun (id, _) => (a.lookup id).isNone
  (shared ++ added).mergeSort fun x y => x.1 ≤ y.1

/-- The flow after either of two paths, both of which go on. -/
def join (a b : Flow) : Flow :=
  { vars := joinVars a.vars b.vars, live := joinLive a.live b.live, diverged := false }

/-- The flow after one of several paths. Those that have returned do not count, unless all have. -/
def merge (current : Flow) (paths : List Flow) : Flow :=
  match paths.filter fun p => !p.diverged with
  | first :: rest => { rest.foldl join (current.restore first) with diverged := false }
  | [] =>
    match paths with
    | first :: _ => { current.restore first with diverged := true }
    | [] => current

end Flow

structure Ledger where
  vars : List Var := []
  loans : List Loan := []
  /-- The open scopes, innermost first. -/
  scopes : List Scope := []
  /-- The number of scopes opened so far. -/
  scopeCount : Nat := 0
  flow : Flow := {}
  /-- The loans whose loss was reported. -/
  reported : List Nat := []
  bag : Bag := {}
  /-- The nodes that move a variable, with its name. -/
  moves : NodeTable String := []
  /-- The nodes that borrow, and whether they borrow mutably. -/
  borrows : NodeTable Bool := []
deriving Inhabited

namespace Ledger

/-- Opens a scope that ends where a span ends. -/
def push (l : Ledger) (isTemporary : Bool) (span : Span) : Ledger :=
  let id := l.scopeCount + 1
  { l with
    scopes := { id, isTemporary, stop := ⟨span.stop, span.stop⟩ } :: l.scopes
    scopeCount := id }

/-- Leaves a scope: its loans are given back, and other loans on its variables lose their owner. -/
def close (l : Ledger) (s : Scope) : Ledger :=
  let kept := { l.flow with live := l.flow.live.filter fun (_, lease) => lease.scope != s.id }
  let owners := s.names.map Prod.snd
  let flow := kept.updateLeases fun id lease =>
    match (l.loans[id]?).bind Loan.owner with
    | some owner =>
      if owners.contains owner then { lease with ended := lease.ended.or (some ("dropped", s.stop)) }
      else lease
    | none => lease
  { l with flow }

/-- Leaves the innermost scope. -/
def pop (l : Ledger) : Ledger :=
  match l.scopes with
  | [] => l
  | s :: outer => { l with scopes := outer }.close s

def outermost (l : Ledger) : Nat := (l.scopes.getLast?.map Scope.id).getD 0

/-- The innermost scope of temporary values. -/
def temporary (l : Ledger) : Nat :=
  ((l.scopes.find? Scope.isTemporary).map Scope.id).getD l.outermost

/-- The scope of temporary values around the innermost scope of names. -/
def enclosing (l : Ledger) : Nat :=
  let outer := (l.scopes.dropWhile Scope.isTemporary).tail
  ((outer.find? Scope.isTemporary).map Scope.id).getD l.outermost

/-- How far inside a scope is; a closed one is inside all others. -/
def depth (l : Ledger) (scope : Nat) : Nat :=
  match l.scopes.reverse.findIdx? fun s => s.id == scope with
  | some i => i
  | none => l.scopes.length

/-- Declares a variable in the innermost scope of names; also tells its number. -/
def declare (l : Ledger) (name : String) (type : Ty) (mutable : Bool) (span : Span) :
    Nat × Ledger :=
  let id := l.vars.length
  let inner := l.scopes.takeWhile Scope.isTemporary
  let outer := l.scopes.dropWhile Scope.isTemporary
  let named (s : Scope) : Scope := { s with names := (name, id) :: s.names }
  let (scope, scopes) := match outer with
    | s :: rest => (s.id, inner ++ named s :: rest)
    | [] => (l.outermost, l.scopes.dropLast ++ l.scopes.getLast?.toList.map named)
  (id, { l with
    vars := l.vars ++ [({ name, type, mutable, scope, span } : Var)]
    flow := { l.flow with vars := l.flow.vars ++ [({} : VarFlow)] }
    scopes })

def lookup? (l : Ledger) (name : String) : Option Nat :=
  l.scopes.findSome? fun s => s.names.lookup name

/-- The live loans on a variable whose owner is not gone, oldest first. -/
def loansOn (l : Ledger) (var : Nat) : List Loan :=
  l.flow.live.filterMap fun (id, lease) =>
    match l.loans[id]? with
    | some loan => if loan.owner == some var && lease.ended.isNone then some loan else none
    | none => none

/-- The borrow state of a variable on the current path. -/
def state (l : Ledger) (var : Nat) (flow : VarFlow) : State :=
  if flow.moved then .moved
  else if (l.loansOn var).any Loan.mutable then .exclusive
  else .sharedBy (l.loansOn var).length

/-- Lends a variable or a temporary value; also tells the number of the loan. -/
def lend (l : Ledger) (owner : Option Nat) (mutable : Bool) (node : Nat) (span : Span) :
    Nat × Ledger :=
  let id := l.loans.length
  (id, { l with
    loans := l.loans ++ [{ owner, mutable, span }]
    flow := { l.flow with live := l.flow.live ++ [(id, { scope := l.temporary })] }
    borrows := l.borrows.insert node mutable })

/-- A lease that lasts at least as long as a scope. -/
def extend (l : Ledger) (scope : Nat) (lease : Lease) : Lease :=
  if l.depth scope < l.depth lease.scope then { lease with scope } else lease

/-- Makes loans last at least as long as a scope. -/
def rescope (l : Ledger) (origins : List Origin) (scope : Nat) : Ledger :=
  { l with flow := l.flow.updateLeases fun id lease =>
    if origins.contains (.loan id) then l.extend scope lease else lease }

/-- Makes a variable hold origins; their loans last at least as long as the variable. -/
def adopt (l : Ledger) (id : Nat) (var : Var) (origins : List Origin) : Ledger :=
  let flow := l.flow.updateLeases fun loan lease =>
    if origins.contains (.loan loan) then { l.extend var.scope lease with holder := some id }
    else lease
  { l with flow := flow.updateVar id fun v => { v with holds := Origin.union [] origins } }

/-- Ends the loans on a variable that other variables hold. -/
def invalidate (l : Ledger) (var : Nat) (reason : String) (span : Span) : Ledger :=
  { l with flow := l.flow.updateLeases fun id lease =>
    if ((l.loans[id]?).bind Loan.owner) == some var && lease.holder.isSome then
      { lease with ended := lease.ended.or (some (reason, span)) }
    else lease }

end Ledger

end TreeCheck.Ownership
