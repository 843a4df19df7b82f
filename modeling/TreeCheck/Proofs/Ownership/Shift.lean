import TreeCheck.Proofs.Ownership.Progress
import TreeCheck.Proofs.Typing.Shift

/-!
The ownership rules on a tree whose numbers are higher by a constant. Numbers only say where a move or borrow is
noted, so the variables, the loans and the paths stay the same.
-/

namespace TreeCheck.Ownership

variable {k : Nat} {α : Type} {span : Span}

/-- A ledger whose notes are about higher numbers. -/
def Ledger.shift (k : Nat) (l : Ledger) : Ledger :=
  { l with moves := l.moves.shift k, borrows := l.borrows.shift k }

def Context.shift (k : Nat) (ctx : Context) : Context := { ctx with notes := ctx.notes.shift k }

/-- Two checks that do the same, the second one at higher numbers. -/
abbrev InStep (k : Nat) (first second : Own α) : Prop := Parallel (Ledger.shift k) first second

/-! ### The ledger -/

theorem var_inStep (id : Nat) : InStep k (var id) (var id) := by
  refine .get fun l => ?_
  have same : (l.shift k).vars = l.vars := rfl
  rw [same]
  cases l.vars[id]? with
  | none => exact .throw _
  | some v => exact .pure v

theorem varFlow_inStep (id : Nat) : InStep k (varFlow id) (varFlow id) := by
  refine .get fun l => ?_
  have same : (l.shift k).flow = l.flow := rfl
  rw [same]
  cases l.flow.vars[id]? with
  | none => exact .throw _
  | some flow => exact .pure flow

theorem stateOf_inStep (id : Nat) : InStep k (stateOf id) (stateOf id) := by
  refine .get fun l => ?_
  have same : (l.shift k).flow = l.flow := rfl
  rw [same]
  cases l.flow.vars[id]? with
  | none => exact .throw _
  | some flow => exact .pure (l.state id flow)

theorem held_inStep (id : Nat) : InStep k (held id) (held id) := .bind (varFlow_inStep id) fun _ => .pure _

theorem push_inStep (isTemporary : Bool) : InStep k (push isTemporary span) (push isTemporary span) :=
  .modify fun _ => rfl

theorem pop_inStep : InStep k pop pop := by
  refine .modify fun l => ?_
  have same : (l.shift k).scopes = l.scopes := rfl
  rw [Ledger.pop, Ledger.pop, same]
  cases l.scopes <;> rfl

theorem save_inStep : InStep k save save := .get fun _ => .pure _

theorem restore_inStep (saved : Flow) : InStep k (restore saved) (restore saved) := .modify fun _ => rfl

theorem merge_inStep (paths : List Flow) : InStep k (merge paths) (merge paths) := .modify fun _ => rfl

theorem setDiverged_inStep : InStep k setDiverged setDiverged := .modify fun _ => rfl

theorem lend_inStep (owner : Option Nat) (isMutable : Bool) (site : NodeInfo) :
    InStep k (lend owner isMutable site) (lend owner isMutable (site.shift k)) :=
  .modifyGet fun _ => rfl

theorem keep_inStep (origins : List Origin) : InStep k (keep origins) (keep origins) := .modify fun _ => rfl

theorem adopt_inStep (id : Nat) (origins : List Origin) : InStep k (adopt id origins) (adopt id origins) :=
  .bind (var_inStep id) fun _ => .modify fun _ => rfl

theorem blocking_inStep (id : Nat) : InStep k (Context.blocking id) (Context.blocking id) := by
  refine .get fun l => ?_
  have same : (l.shift k).loansOn id = l.loansOn id := rfl
  rw [same]
  cases l.loansOn id <;> exact .pure _

namespace Context

variable {ctx : Context}

theorem add_inStep {d : Diagnostic} : InStep k (ctx.add d) ((ctx.shift k).add d) := .modify fun _ => rfl

/-! ### Types -/

theorem typeOf_inStep (typed : ctx.Typed) (id : Nat) : InStep k (ctx.typeOf id) ((ctx.shift k).typeOf (id + k)) := by
  have same : (ctx.shift k).notes.typeOf (id + k) = ctx.notes.typeOf id := ctx.notes.typeOf_shift id
  have closed := typed id
  rw [typeOf, typeOf, same]
  generalize ctx.notes.typeOf id = t at closed ⊢
  cases t with
  | var => cases closed
  | _ => exact .pure _

theorem carried_inStep (typed : ctx.Typed) (id : Nat) {first second : Own (List Origin)}
    (inner : InStep k first second) : InStep k (ctx.carried id first) ((ctx.shift k).carried (id + k) second) := by
  refine .bind inner fun origins => .ite _ (.pure _) ?_
  exact .bind (typeOf_inStep typed id) fun _ => .pure _

theorem place_inStep (typed : ctx.Typed) : ∀ e : Expr, InStep k (ctx.place e) ((ctx.shift k).place (e.shift k))
  | .ident _ name => by
    refine .get fun l => ?_
    have same : (l.shift k).lookup? name = l.lookup? name := rfl
    rw [same]
    cases l.lookup? name <;> exact .pure _
  | .field _ object _ | .index _ object _ | .deref _ object => by
    rw [Expr.shift, place, place, object.id_shift]
    exact .bind (typeOf_inStep typed object.id) fun t => .bind (place_inStep typed object) fun _ => .pure _
  | .int .. | .float .. | .string .. | .template .. | .bool .. | .binary .. | .unary .. | .call .. | .methodCall ..
  | .ref .. | .struct .. | .variant .. | .tuple .. | .array .. | .cast .. | .assign .. | .select .. | .branch ..
  | .block .. => .pure _

/-! ### Actions on variables -/

theorem useAfterMove_inStep (id : Nat) : InStep k (ctx.useAfterMove id span) ((ctx.shift k).useAfterMove id span) :=
  .bind (var_inStep id) fun _ => .bind (varFlow_inStep id) fun _ => .ite _ add_inStep add_inStep

theorem read_inStep (id : Nat) : InStep k (ctx.read id span) ((ctx.shift k).read id span) :=
  .bind (stateOf_inStep id) fun _ => .bind (var_inStep id) fun _ => .ite _ (useAfterMove_inStep id) (.pure _)

theorem move_inStep (id : Nat) (site : NodeInfo) :
    InStep k (ctx.move id site) ((ctx.shift k).move id (site.shift k)) := by
  refine .bind (.modify fun _ => rfl) fun _ => .bind (stateOf_inStep id) fun s => .bind (var_inStep id) fun v => ?_
  cases (transition s .move v.mutable).2 with
  | none => exact .modify fun _ => rfl
  | some violation =>
    exact .ite _ (useAfterMove_inStep id) (.bind (blocking_inStep id) fun _ => add_inStep)

theorem touchOrigin_inStep (v : Var) (origin : Origin) :
    InStep k (ctx.touchOrigin v span origin) ((ctx.shift k).touchOrigin v span origin) := by
  cases origin with
  | param => exact .pure _
  | loan id =>
    refine .get fun l => ?_
    have same : (l.shift k).flow = l.flow ∧ (l.shift k).reported = l.reported ∧ (l.shift k).loans = l.loans :=
      ⟨rfl, rfl, rfl⟩
    rw [same.1, same.2.1, same.2.2]
    cases (l.flow.lease? id).bind Lease.ended with
    | none => exact .pure _
    | some ended =>
      refine .ite _ (.pure _) (.bind (.modify fun _ => rfl) fun _ => ?_)
      rcases l.loans[id]? with _ | ⟨_ | owner, _, _⟩
      · exact .throw _
      · exact .throw _
      · exact .bind (var_inStep owner) fun _ => add_inStep

theorem touch_inStep (id : Nat) : InStep k (ctx.touch id span) ((ctx.shift k).touch id span) := by
  refine .bind (var_inStep id) fun v => .bind (held_inStep id) fun origins => ?_
  exact .forM fun origin _ => touchOrigin_inStep v origin

theorem useName_inStep (info : NodeInfo) (name : String) (use : Use) :
    InStep k (ctx.useName info name use) ((ctx.shift k).useName (info.shift k) name use) := by
  refine .get fun l => ?_
  have same : (l.shift k).lookup? name = l.lookup? name := rfl
  rw [same]
  cases l.lookup? name with
  | none => exact .pure _
  | some id =>
    refine .bind (touch_inStep id) fun _ => .bind (var_inStep id) fun v => .ite _ ?_ ?_
    · exact .bind (move_inStep id info) fun _ => held_inStep id
    · exact .bind (read_inStep id) fun _ => held_inStep id

theorem usePlace_inStep (typed : ctx.Typed) (p : Place) (e : Expr) (use : Use) :
    InStep k (ctx.usePlace p e use) ((ctx.shift k).usePlace p (e.shift k) use) := by
  rw [usePlace, usePlace, e.span_shift, e.text_shift, e.id_shift, e.info_shift]
  cases p.root with
  | unbound | temporary => exact .pure _
  | var id =>
    have read : InStep k (ctx.read id e.span) ((ctx.shift k).read id e.span) := read_inStep id
    have reads := Parallel.bind read fun _ => held_inStep id
    refine .bind (touch_inStep id) fun _ => .ite _ reads (.bind (typeOf_inStep typed e.id) fun t => ?_)
    refine .ite _ reads (.ite _ ?_ ?_)
    · exact .bind (read_inStep id) fun _ => .bind add_inStep fun _ => held_inStep id
    · exact .bind (move_inStep id e.info) fun _ => held_inStep id

theorem borrowVar_inStep (id : Nat) (v : Var) (operand : Expr) (isMutable : Bool) (site : NodeInfo) :
    InStep k (ctx.borrowVar id v operand isMutable site)
      ((ctx.shift k).borrowVar id v (operand.shift k) isMutable (site.shift k)) := by
  rw [borrowVar, borrowVar, operand.span_shift]
  refine .bind (stateOf_inStep id) fun s => ?_
  cases (transition s (if isMutable then .borrowMut else .borrow) v.mutable).2 with
  | none => exact .bind (lend_inStep (some id) isMutable site) fun _ => .pure _
  | some violation =>
    dsimp only
    cases violation.kind with
    | useAfterMove => exact .bind (useAfterMove_inStep id) fun _ => .pure _
    | mutateThroughImmutableBinding => exact .bind add_inStep fun _ => .pure _
    | _ => exact .bind (blocking_inStep id) fun _ => .bind add_inStep fun _ => .pure _

theorem borrowPlace_inStep (id : Nat) (p : Place) (operand : Expr) (isMutable : Bool) (site : NodeInfo) :
    InStep k (ctx.borrowPlace id p operand isMutable site)
      ((ctx.shift k).borrowPlace id p (operand.shift k) isMutable (site.shift k)) := by
  rw [borrowPlace, borrowPlace, operand.span_shift, operand.text_shift]
  refine .bind (var_inStep id) fun v => .bind (touch_inStep id) fun _ => ?_
  refine .ite _ (borrowVar_inStep id v operand isMutable site) (.bind (read_inStep id) fun _ => ?_)
  exact .optional _ add_inStep (held_inStep id)

theorem borrow_inStep (typed : ctx.Typed) (operand : Expr) (isMutable : Bool) (site : NodeInfo)
    {evaluate other : Own (List Origin)} {indices others : Own Unit} (value : InStep k evaluate other)
    (inner : InStep k indices others) :
    InStep k (ctx.borrow operand isMutable site evaluate indices)
      ((ctx.shift k).borrow (operand.shift k) isMutable (site.shift k) other others) := by
  rw [borrow, borrow, operand.isPlace_shift]
  refine .ite _ (.bind (place_inStep typed operand) fun p => .bind inner fun _ => ?_) ?_
  · cases p.root with
    | unbound => exact .pure _
    | var id => exact borrowPlace_inStep id p operand isMutable site
    | temporary => exact borrowPlace_inStep 0 p operand isMutable site
  · exact .bind value fun _ => .bind (lend_inStep none isMutable site) fun _ => .pure _

theorem argument_inStep (typed : ctx.Typed) (a : Expr) {read move other others : Own (List Origin)}
    {indices inner : Own Unit} (reads : InStep k read other) (moves : InStep k move others)
    (inside : InStep k indices inner) :
    InStep k (ctx.argument a read move indices) ((ctx.shift k).argument (a.shift k) other others inner) := by
  have same : (ctx.shift k).notes.coercions.get? (a.id + k) = ctx.notes.coercions.get? a.id :=
    NodeTable.get?_shift a.id
  rw [argument, argument, a.id_shift, a.info_shift, same]
  split
  · exact borrow_inStep typed a false a.info moves inside
  · exact borrow_inStep typed a true a.info moves inside
  · exact .bind (typeOf_inStep typed a.id) fun _ => .ite _ reads moves

theorem isWhole_shift (e : Expr) : isWhole (e.shift k) = isWhole e := by
  cases e <;> rfl

theorem writeVar_inStep (typed : ctx.Typed) (id : Nat) (target : Expr) (origins : List Origin) :
    InStep k (ctx.writeVar id target origins) ((ctx.shift k).writeVar id (target.shift k) origins) := by
  rw [writeVar, writeVar, isWhole_shift, target.span_shift, target.text_shift, target.id_shift]
  refine .bind (var_inStep id) fun v => .bind (stateOf_inStep id) fun s => .bind (varFlow_inStep id) fun flow => ?_
  refine .ite _ (useAfterMove_inStep id) ?_
  cases (transition s .write (v.mutable || (isWhole target && flow.late))).2 with
  | some violation => exact .ite _ add_inStep (.bind (blocking_inStep id) fun _ => add_inStep)
  | none =>
    refine .ite _ (.bind (.modify fun _ => rfl) fun _ => .ite _ (adopt_inStep id origins) (.pure _)) ?_
    exact .bind (typeOf_inStep typed target.id) fun _ => .ite _ (adopt_inStep id _) (.pure _)

theorem write_inStep (typed : ctx.Typed) (id : Nat) (p : Place) (target : Expr) (origins : List Origin) :
    InStep k (ctx.write id p target origins) ((ctx.shift k).write id p (target.shift k) origins) := by
  rw [write, write, target.span_shift, target.text_shift]
  refine .ite _ (.bind (read_inStep id) fun _ => .ite _ add_inStep (.pure _)) ?_
  exact writeVar_inStep typed id target origins

/-! ### Patterns and results -/

theorem patternUse_inStep (typed : ctx.Typed) (p : Pattern) :
    InStep k (ctx.patternUse p) ((ctx.shift k).patternUse (p.shift k)) := by
  have each (list : List Binding) : InStep k (patternUse.go ctx list)
      (patternUse.go (ctx.shift k) (list.map (Binding.shift k))) := by
    induction list with
    | nil => exact .pure _
    | cons b rest ih => exact .bind (typeOf_inStep typed b.info.id) fun _ => .ite _ ih (.pure _)
  rw [patternUse, patternUse, p.bindings_shift]
  exact each p.bindings

theorem bindAll_inStep (typed : ctx.Typed) (origins : Option (List Origin)) (list : List Binding) :
    InStep k (ctx.bindAll origins list) ((ctx.shift k).bindAll origins (list.map (Binding.shift k))) := by
  induction list with
  | nil => exact .pure _
  | cons b rest ih =>
    refine .bind (typeOf_inStep typed b.info.id) fun t => .bind (.modifyGet fun _ => rfl) fun id => ?_
    cases origins with
    | none => exact .bind (.modify fun _ => rfl) fun _ => ih
    | some origins => exact .optional _ (adopt_inStep id origins) ih

theorem checkOrigin_inStep (origin : Origin) :
    InStep k (ctx.checkOrigin span origin) ((ctx.shift k).checkOrigin span origin) := by
  cases origin with
  | param name =>
    have same : (ctx.shift k).signature = ctx.signature := rfl
    rw [checkOrigin, checkOrigin, same]
    cases ctx.signature.lives with
    | none => exact .pure _
    | some names => exact .ite _ (.pure _) add_inStep
  | loan id =>
    refine .get fun l => ?_
    have same : (l.shift k).loans = l.loans := rfl
    rw [same]
    rcases l.loans[id]? with _ | ⟨_ | owner, _, _⟩
    · exact .throw _
    · exact add_inStep
    · exact .bind (var_inStep owner) fun _ => add_inStep

theorem checkEscape_inStep (origins : List Origin) :
    InStep k (ctx.checkEscape span origins) ((ctx.shift k).checkEscape span origins) :=
  .ite _ (.forM fun origin _ => checkOrigin_inStep origin) (.pure _)

end Context

end TreeCheck.Ownership
