import Mathlib.Data.List.Basic
import TreeCheck.Ownership.Walk
import TreeCheck.Proofs.Diagnostics

/-!
What the ownership rules leave alone. Every rule keeps the open scopes and the declared variables; what
else it keeps is said by a view of the variables on a path, and what it may report by the kinds of
diagnostics.
-/

namespace TreeCheck.Ownership

variable {α β γ : Type}

/-- One ledger after another: no variables are declared, the view of each variable is the same, and all
new diagnostics are of certain kinds. -/
structure Ledger.Keeps (view : VarFlow → γ) (kinds : Diagnostic.Kind → Prop) (l after : Ledger) :
    Prop where
  scopes : after.scopes = l.scopes
  vars : after.vars = l.vars
  views : ∀ i : Nat, (after.flow.vars[i]?).map view = (l.flow.vars[i]?).map view
  diverged : after.flow.diverged = l.flow.diverged
  reports : ∃ new, after.bag.contents = l.bag.contents ++ new ∧ ∀ d ∈ new, kinds d.kind

namespace Ledger.Keeps

variable {view : VarFlow → γ} {kinds : Diagnostic.Kind → Prop} {l middle after : Ledger}

theorem refl (l : Ledger) : l.Keeps view kinds l :=
  ⟨rfl, rfl, fun _ => rfl, rfl, [], by simp, by simp⟩

theorem trans (first : l.Keeps view kinds middle) (next : middle.Keeps view kinds after) :
    l.Keeps view kinds after := by
  obtain ⟨early, earlyBag, earlyKinds⟩ := first.reports
  obtain ⟨late, lateBag, lateKinds⟩ := next.reports
  refine ⟨next.scopes.trans first.scopes, next.vars.trans first.vars,
    fun i => (next.views i).trans (first.views i), next.diverged.trans first.diverged,
    early ++ late, by simp [lateBag, earlyBag], ?_⟩
  intro d member
  rcases List.mem_append.mp member with inEarly | inLate
  · exact earlyKinds d inEarly
  · exact lateKinds d inLate

theorem weaken {δ : Type} {coarse : VarFlow → δ} {more : Diagnostic.Kind → Prop}
    (keeps : l.Keeps view kinds after) (determined : ∀ v w, view v = view w → coarse v = coarse w)
    (allowed : ∀ k, kinds k → more k) : l.Keeps coarse more after := by
  obtain ⟨new, bag, each⟩ := keeps.reports
  refine ⟨keeps.scopes, keeps.vars, fun i => ?_, keeps.diverged, new, bag, fun d member =>
    allowed _ (each d member)⟩
  have same := keeps.views i
  cases now : after.flow.vars[i]? with
  | none =>
    cases old : l.flow.vars[i]? with
    | none => rfl
    | some w => simp [now, old] at same
  | some v =>
    rw [now] at same
    obtain ⟨w, old, viewed⟩ := Option.map_eq_some_iff.mp same.symm
    simp [old, determined v w viewed.symm]

theorem length (keeps : l.Keeps view kinds after) :
    after.flow.vars.length = l.flow.vars.length := by
  have outside (i : Nat) : after.flow.vars.length ≤ i ↔ l.flow.vars.length ≤ i := by
    rw [← List.getElem?_eq_none_iff, ← List.getElem?_eq_none_iff, ← Option.map_eq_none_iff,
      keeps.views i, Option.map_eq_none_iff]
  have := outside l.flow.vars.length
  have := outside after.flow.vars.length
  omega

theorem updateVar {change : VarFlow → VarFlow} (same : ∀ v, view (change v) = view v) (id : Nat) :
    l.Keeps view kinds { l with flow := l.flow.updateVar id change } := by
  refine ⟨rfl, rfl, fun i => ?_, rfl, [], by simp, by simp⟩
  simp only [Flow.updateVar, List.getElem?_modify]
  cases l.flow.vars[i]? with
  | none => rfl
  | some v => by_cases h : id = i <;> simp [h, same]

end Ledger.Keeps

namespace Own

/-- How a sequence ends: the first part ends, and the rest goes on from there. -/
theorem run_bind_ok {x : Own α} {f : α → Own β} {l after : Ledger} {b : β} :
    (x >>= f).run l = .ok (b, after) ↔
      ∃ a middle, x.run l = .ok (a, middle) ∧ (f a).run middle = .ok (b, after) := by
  rw [StateT.run_bind]
  cases result : x.run l with
  | error failure => simp [bind, Except.bind]
  | ok pair =>
    obtain ⟨a, middle⟩ := pair
    simp [bind, Except.bind]

theorem run_pure_ok {a b : α} {l after : Ledger} :
    (pure a : Own α).run l = .ok (b, after) ↔ a = b ∧ l = after := by
  change Except.ok (a, l) = Except.ok (b, after) ↔ _
  simp

theorem run_modify_ok {change : Ledger → Ledger} {l after : Ledger} {u : Unit} :
    (modify change : Own Unit).run l = .ok (u, after) ↔ change l = after := by
  simp [modify, modifyGet, MonadStateOf.modifyGet, StateT.run, StateT.modifyGet, pure, Except.pure]

theorem run_modifyGet_ok {change : Ledger → α × Ledger} {l after : Ledger} {a : α} :
    (modifyGet change : Own α).run l = .ok (a, after) ↔ change l = (a, after) := by
  simp [modifyGet, MonadStateOf.modifyGet, StateT.run, StateT.modifyGet, pure, Except.pure]

theorem run_get_ok {l after current : Ledger} :
    (get : Own Ledger).run l = .ok (current, after) ↔ l = current ∧ l = after := by
  simp [get, getThe, MonadStateOf.get, StateT.run, StateT.get, pure, Except.pure]

/-- What is done keeps what `Ledger.Keeps` says, whenever it ends. -/
def Keeps (view : VarFlow → γ) (kinds : Diagnostic.Kind → Prop) (x : Own α) : Prop :=
  ∀ ⦃l : Ledger⦄ ⦃a : α⦄ ⦃after : Ledger⦄, x.run l = .ok (a, after) → l.Keeps view kinds after

namespace Keeps

variable {view : VarFlow → γ} {kinds : Diagnostic.Kind → Prop}

theorem pure (a : α) : Own.Keeps view kinds (Pure.pure a : Own α) := by
  intro l b after ran
  obtain ⟨-, rfl⟩ := run_pure_ok.mp ran
  exact .refl l

theorem bind {x : Own α} {f : α → Own β} (first : Own.Keeps view kinds x)
    (next : ∀ a, Own.Keeps view kinds (f a)) : Own.Keeps view kinds (x >>= f) := by
  intro l b after ran
  obtain ⟨a, middle, start, rest⟩ := run_bind_ok.mp ran
  exact (first start).trans (next a rest)

theorem throw (failure : Failure) : Own.Keeps view kinds (MonadExcept.throw failure : Own α) := by
  intro l a after ran
  cases ran

theorem get : Own.Keeps view kinds (MonadState.get : Own Ledger) := by
  intro l a after ran
  cases ran
  exact .refl l

theorem edit {change : Ledger → Ledger} (keeps : ∀ l : Ledger, l.Keeps view kinds (change l)) :
    Own.Keeps view kinds (modify change : Own Unit) := by
  intro l a after ran
  cases ran
  exact keeps l

theorem forM {f : α → Own Unit} (xs : List α) (each : ∀ a, Own.Keeps view kinds (f a)) :
    Own.Keeps view kinds (xs.forM f) := by
  induction xs with
  | nil => exact pure ()
  | cons a xs ih => exact bind (each a) fun _ => ih

end Keeps

end Own

section Rules

variable {view : VarFlow → γ} {kinds : Diagnostic.Kind → Prop}

theorem var_keeps (id : Nat) : (var id).Keeps view kinds := by
  refine .bind .get fun l => ?_
  cases l.vars[id]? with
  | none => exact .throw _
  | some v => exact .pure v

theorem varFlow_keeps (id : Nat) : (varFlow id).Keeps view kinds := by
  refine .bind .get fun l => ?_
  cases l.flow.vars[id]? with
  | none => exact .throw _
  | some v => exact .pure v

theorem stateOf_keeps (id : Nat) : (stateOf id).Keeps view kinds := by
  refine .bind .get fun l => ?_
  cases l.flow.vars[id]? with
  | none => exact .throw _
  | some v => exact .pure _

theorem held_keeps (id : Nat) : (held id).Keeps view kinds :=
  .bind (varFlow_keeps id) fun _ => .pure _

theorem blocking_keeps (id : Nat) : (Context.blocking id).Keeps view kinds := by
  refine .bind .get fun l => ?_
  cases l.loansOn id with
  | nil => exact .pure _
  | cons loan rest => exact .pure _

theorem lend_keeps (owner : Option Nat) (mutable : Bool) (site : NodeInfo) :
    (lend owner mutable site).Keeps view kinds := by
  intro l a after ran
  cases ran
  exact ⟨rfl, rfl, fun _ => rfl, rfl, [], by simp, by simp⟩

theorem keep_keeps (origins : List Origin) : (keep origins).Keeps view kinds :=
  .edit fun _ => ⟨rfl, rfl, fun _ => rfl, rfl, [], by simp [Ledger.rescope], by simp⟩

/-- Nobody who does not look at what variables hold notices what they adopt. -/
theorem adopt_keeps (blind : ∀ v origins, view { v with holds := origins } = view v) (id : Nat)
    (origins : List Origin) : (adopt id origins).Keeps view kinds := by
  refine .bind (var_keeps id) fun v => .edit fun l => ?_
  exact (Ledger.Keeps.updateVar (fun w => blind w _) id).trans
    ⟨rfl, rfl, fun _ => rfl, rfl, [], by simp [Ledger.adopt], by simp⟩

namespace Context

variable (ctx : Context)

theorem add_keeps {d : Diagnostic} (allowed : kinds d.kind) : (ctx.add d).Keeps view kinds := by
  refine .edit fun l => ⟨rfl, rfl, fun _ => rfl, rfl, ?_⟩
  by_cases held : l.bag.holds { d with function := ctx.function }
  · exact ⟨[], by simp [Bag.add, held], by simp⟩
  · exact ⟨[{ d with function := ctx.function }], by simp [Bag.add, held], by simpa using allowed⟩

theorem typeOf_keeps (id : Nat) : (ctx.typeOf id).Keeps view kinds := by
  unfold typeOf
  split
  · exact .throw _
  · exact .pure _

theorem carried_keeps (id : Nat) {origins : Own (List Origin)} (inner : origins.Keeps view kinds) :
    (ctx.carried id origins).Keeps view kinds := by
  refine .bind inner fun found => ?_
  split
  · exact .pure _
  · exact .bind (ctx.typeOf_keeps id) fun _ => .pure _

theorem place_keeps (e : Expr) : (ctx.place e).Keeps view kinds := by
  fun_induction ctx.place e with
  | case1 _ name =>
    refine .bind .get fun l => ?_
    cases l.lookup? name with
    | none => exact .pure _
    | some id => exact .pure _
  | case2 _ object _ ih | case3 _ object _ ih | case4 _ object ih =>
    exact .bind (ctx.typeOf_keeps _) fun _ => .bind ih fun _ => .pure _
  | case5 => exact .pure _

theorem useAfterMove_keeps (allowed : kinds .useAfterMove) (id : Nat) (span : Span) :
    (ctx.useAfterMove id span).Keeps view kinds := by
  refine .bind (var_keeps id) fun v => .bind (varFlow_keeps id) fun flow => ?_
  split
  · exact ctx.add_keeps allowed
  · exact ctx.add_keeps (by simpa using allowed)

theorem read_keeps (allowed : kinds .useAfterMove) (id : Nat) (span : Span) :
    (ctx.read id span).Keeps view kinds := by
  refine .bind (stateOf_keeps id) fun s => .bind (var_keeps id) fun v => ?_
  split
  · exact ctx.useAfterMove_keeps allowed id span
  · exact .pure ()

theorem touchOrigin_keeps (allowed : kinds .borrowOutlivesOwner) (v : Var) (span : Span)
    (origin : Origin) : (ctx.touchOrigin v span origin).Keeps view kinds := by
  cases origin with
  | param name => exact .pure ()
  | loan id =>
    refine .bind .get fun l => ?_
    cases (l.flow.lease? id).bind Lease.ended with
    | none => exact .pure ()
    | some reason =>
      obtain ⟨reason, endedAt⟩ := reason
      dsimp only
      split
      · exact .pure ()
      · refine .bind (.edit fun l => ?_) fun _ => ?_
        · exact ⟨rfl, rfl, fun _ => rfl, rfl, [], by simp, by simp⟩
        cases l.loans[id]? with
        | none => exact .throw _
        | some loan =>
          dsimp only
          cases loan.owner with
          | none => exact .throw _
          | some owner =>
            exact .bind (var_keeps owner) fun _ => ctx.add_keeps (by simpa using allowed)

theorem touch_keeps (allowed : kinds .borrowOutlivesOwner) (id : Nat) (span : Span) :
    (ctx.touch id span).Keeps view kinds :=
  .bind (var_keeps id) fun v => .bind (held_keeps id) fun origins =>
    .forM origins fun origin => ctx.touchOrigin_keeps allowed v span origin

theorem invalidate_keeps (l : Ledger) (id : Nat) (reason : String) (span : Span) :
    l.Keeps view kinds (l.invalidate id reason span) :=
  ⟨rfl, rfl, fun _ => rfl, rfl, [], by simp [Ledger.invalidate], by simp⟩

/-- Nobody who does not look at what is moved notices that a variable is moved. -/
theorem move_keeps (blind : ∀ v span, view { v with moved := true, movedAt := span } = view v)
    (used : kinds .useAfterMove) (lent : kinds .conflictingBorrow) (id : Nat) (site : NodeInfo) :
    (ctx.move id site).Keeps view kinds := by
  refine .bind (.edit fun l => invalidate_keeps l id "moved" site.span) fun _ =>
    .bind (stateOf_keeps id) fun s => .bind (var_keeps id) fun v => ?_
  cases (transition s .move v.mutable).2 with
  | none =>
    refine .edit fun l => ?_
    exact (Ledger.Keeps.updateVar (fun w => blind w site.span) id).trans
      ⟨rfl, rfl, fun _ => rfl, rfl, [], by simp, by simp⟩
  | some violation =>
    dsimp only
    split
    · exact ctx.useAfterMove_keeps used id _
    · exact .bind (blocking_keeps id) fun _ => ctx.add_keeps (by simpa using lent)

theorem borrowVar_keeps (used : kinds .useAfterMove) (lent : kinds .conflictingBorrow)
    (immutable : kinds .mutateThroughImmutableBinding) (id : Nat) (v : Var) (operand : Expr)
    (mutable : Bool) (site : NodeInfo) :
    (ctx.borrowVar id v operand mutable site).Keeps view kinds := by
  refine .bind (stateOf_keeps id) fun s => ?_
  split
  · exact .bind (lend_keeps _ _ _) fun _ => .pure _
  · split
    · exact .bind (ctx.useAfterMove_keeps used id _) fun _ => .pure _
    · exact .bind (ctx.add_keeps (by simpa using immutable)) fun _ => .pure _
    · refine .bind (blocking_keeps id) fun _ => ?_
      exact .bind (ctx.add_keeps (by simpa using lent)) fun _ => .pure _

theorem checkOrigin_keeps (allowed : kinds .danglingReference) (span : Span) (origin : Origin) :
    (ctx.checkOrigin span origin).Keeps view kinds := by
  cases origin with
  | param name =>
    simp only [checkOrigin]
    split
    · split
      · exact .pure ()
      · exact ctx.add_keeps allowed
    · exact .pure ()
  | loan id =>
    refine .bind .get fun l => ?_
    cases l.loans[id]? with
    | none => exact .throw _
    | some loan =>
      dsimp only
      cases loan.owner with
      | none => exact ctx.add_keeps (by simpa using allowed)
      | some owner =>
        exact .bind (var_keeps owner) fun _ => ctx.add_keeps (by simpa using allowed)

theorem checkEscape_keeps (allowed : kinds .danglingReference) (span : Span)
    (origins : List Origin) : (ctx.checkEscape span origins).Keeps view kinds := by
  unfold checkEscape
  split
  · exact .forM origins fun origin => ctx.checkOrigin_keeps allowed span origin
  · exact .pure ()

section Uses

variable (blind : ∀ v span, view { v with moved := true, movedAt := span } = view v)
  (used : kinds .useAfterMove) (lent : kinds .conflictingBorrow) (outlived : kinds .borrowOutlivesOwner)
include blind used lent outlived

theorem useName_keeps (info : NodeInfo) (name : String) (use : Use) :
    (ctx.useName info name use).Keeps view kinds := by
  refine .bind .get fun l => ?_
  cases l.lookup? name with
  | none => exact .pure _
  | some id =>
    refine .bind (ctx.touch_keeps outlived id _) fun _ => .bind (var_keeps id) fun v => ?_
    dsimp only
    split
    · exact .bind (ctx.move_keeps blind used lent id info) fun _ => held_keeps id
    · exact .bind (ctx.read_keeps used id _) fun _ => held_keeps id

theorem usePlace_keeps (p : Place) (e : Expr) (use : Use) :
    (ctx.usePlace p e use).Keeps view kinds := by
  unfold usePlace
  split
  · exact .pure _
  · exact .pure _
  · refine .bind (ctx.touch_keeps outlived _ _) fun _ => ?_
    split
    · exact .bind (ctx.read_keeps used _ _) fun _ => held_keeps _
    · refine .bind (ctx.typeOf_keeps _) fun t => ?_
      split
      · exact .bind (ctx.read_keeps used _ _) fun _ => held_keeps _
      · split
        · exact .bind (ctx.read_keeps used _ _) fun _ => .bind (ctx.add_keeps lent) fun _ =>
            held_keeps _
        · exact .bind (ctx.move_keeps blind used lent _ _) fun _ => held_keeps _

omit blind in
theorem borrowPlace_keeps (immutable : kinds .mutateThroughImmutableBinding) (id : Nat) (p : Place)
    (operand : Expr) (mutable : Bool) (site : NodeInfo) :
    (ctx.borrowPlace id p operand mutable site).Keeps view kinds := by
  refine .bind (var_keeps id) fun v => .bind (ctx.touch_keeps outlived id _) fun _ => ?_
  split
  · exact ctx.borrowVar_keeps used lent immutable id v operand mutable site
  · refine .bind (ctx.read_keeps used id _) fun _ => ?_
    dsimp only
    split
    · exact .bind (ctx.add_keeps immutable) fun _ => held_keeps id
    · exact held_keeps id

end Uses

/-- Assignments declare nothing. -/
theorem write_keeps (blind : ∀ v w, view v = view w) (used : kinds .useAfterMove) (lent : kinds .conflictingBorrow)
    (immutable : kinds .mutateThroughImmutableBinding) (id : Nat) (p : Place) (target : Expr)
    (origins : List Origin) : (ctx.write id p target origins).Keeps view kinds := by
  unfold write
  split
  · refine .bind (ctx.read_keeps used id _) fun _ => ?_
    split
    · exact ctx.add_keeps immutable
    · exact .pure ()
  · refine .bind (var_keeps id) fun v => .bind (stateOf_keeps id) fun s =>
      .bind (varFlow_keeps id) fun flow => ?_
    split
    · exact ctx.useAfterMove_keeps used id _
    · split
      · split
        · exact ctx.add_keeps (by simpa using immutable)
        · exact .bind (blocking_keeps id) fun _ => ctx.add_keeps (by simpa using lent)
      · split
        · refine .bind (.edit fun l => ?_) fun _ => ?_
          · exact Ledger.Keeps.updateVar (fun v => blind _ v) id
          split
          · exact adopt_keeps (fun _ _ => blind _ _) id origins
          · exact .pure ()
        · refine .bind (ctx.typeOf_keeps _) fun t => ?_
          split
          · exact adopt_keeps (fun _ _ => blind _ _) id _
          · exact .pure ()

end Context

end Rules
end TreeCheck.Ownership
