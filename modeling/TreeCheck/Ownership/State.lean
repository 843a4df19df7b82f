import TreeCheck.Diagnostic

/-!
Borrow states of a binding and the rule by which an action changes them. Every pair of a state and
an action yields a next state or a violation.
-/

namespace TreeCheck.Ownership

/-- The borrow state of a binding; a shared borrow counts the live references less one, so that
the count is never zero. -/
inductive State where
  | owned
  | moved
  | shared (others : Nat)
  | exclusive
deriving DecidableEq, Repr, Inhabited

namespace State

/-- The state with a number of live shared references. -/
def sharedBy : Nat → State
  | 0 => .owned
  | n + 1 => .shared n

def text : State → String
  | .owned => "owned"
  | .moved => "moved"
  | .shared others => s!"shared-borrowed({others + 1})"
  | .exclusive => "mut-borrowed"

def isBorrowed : State → Bool
  | .shared _ | .exclusive => true
  | .owned | .moved => false

end State

/-- What is done to a binding. -/
inductive Action where
  | declare
  | read
  | move
  | borrow
  | borrowMut
  | write
  | release
  | releaseMut
  /-- Any other action; it is never permitted. -/
  | unknown
deriving DecidableEq, Repr, Inhabited

def Action.text : Action → String
  | .declare => "declare"
  | .read => "read"
  | .move => "move"
  | .borrow => "borrow"
  | .borrowMut => "borrow-mut"
  | .write => "write"
  | .release => "release"
  | .releaseMut => "release-mut"
  | .unknown => "unknown"

def Action.ofText (text : String) : Action :=
  ([.declare, .read, .move, .borrow, .borrowMut, .write, .release, .releaseMut].find?
    fun (action : Action) => action.text == text).getD .unknown

/-- A refused action. -/
structure Violation where
  kind : Diagnostic.Kind
  action : Action
  state : State
deriving DecidableEq, Repr

def Violation.text (v : Violation) : String :=
  s!"{v.action.text} of a {v.state.text} binding: {v.kind.name}"

/-- The state after an action on a binding that may or may not be mutated, or the kind of fault. -/
def State.after (mutable : Bool) : Action → State → Except Diagnostic.Kind State
  | .declare, _ => .ok .owned
  | .read, .moved => .error .useAfterMove
  | .read, s => .ok s
  | .move, .owned => .ok .moved
  | .move, .moved => .error .useAfterMove
  | .move, _ => .error .conflictingBorrow
  | .borrow, .owned => .ok (.shared 0)
  | .borrow, .shared others => .ok (.shared (others + 1))
  | .borrow, .moved => .error .useAfterMove
  | .borrow, .exclusive => .error .conflictingBorrow
  | .borrowMut, .moved => .error .useAfterMove
  | .borrowMut, s =>
    if !mutable then .error .mutateThroughImmutableBinding
    else if s == .owned then .ok .exclusive
    else .error .conflictingBorrow
  | .write, s =>
    if s.isBorrowed then .error .conflictingBorrow
    else if !mutable then .error .mutateThroughImmutableBinding
    else .ok .owned
  | .release, .shared others => .ok (.sharedBy others)
  | .release, s => .ok s
  | .releaseMut, .exclusive => .ok .owned
  | .releaseMut, s => .ok s
  | .unknown, _ => .error .analysisAborted

/-- Applies an action. A refused one leaves the state as it was. -/
def transition (s : State) (action : Action) (mutable : Bool) : State × Option Violation :=
  match s.after mutable action with
  | .ok next => (next, none)
  | .error kind => (s, some ⟨kind, action, s⟩)

end TreeCheck.Ownership
