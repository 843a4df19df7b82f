import TreeCheck.Proofs.Ownership.Outcomes

/-!
What each rule does to the variables that are moved. A rule uses a variable, takes its value away or replaces
it, and a rule that reports nothing has not used a moved variable.
-/

namespace TreeCheck.Ownership

section
-- The equations of these definitions are made here once, so that no proof below waits while another makes them.
attribute [local simp] Context.usePlace Context.write State.after State.sharedBy transition
end

variable {ctx : Context} {l middle after : Ledger}

def IsMoved (v : VarFlow) : Prop := v.moved = true

namespace Ledger

theorem Keeps.has_moved {kinds : Diagnostic.Kind → Prop} (keeps : l.Keeps VarFlow.moved kinds after)
    (id : Nat) : after.flow.Has IsMoved id ↔ l.flow.Has IsMoved id :=
  keeps.has (fun _ _ same moved => same.symm.trans moved) id

end Ledger

/-! ### Effects -/

/-- What is done to variables: which must not be moved, which are moved afterwards, and which get a new
value. -/
structure Effect where
  uses : Nat → Prop := fun _ => False
  sets : Nat → Prop := fun _ => False
  clears : Nat → Prop := fun _ => False

namespace Effect

def none : Effect := {}

/-- An effect on a ledger, of which a view tells what is moved before and after: only the use of something
moved is reported as such, and without a report nothing moved is used. -/
structure Holds (e : Effect) (before now : Nat → Prop) (l after : Ledger) : Prop where
  reports : l.bag.contents <+: after.bag.contents
  blamed : l.Quiet → after.lead = some .useAfterMove → ∃ i, e.uses i ∧ before i
  spared : after.Quiet → ∀ i, e.uses i → ¬before i
  moved : after.Quiet → ∀ i, now i ↔ e.sets i ∨ (before i ∧ ¬e.clears i)

end Effect

/-- What is done to one variable: its value is used, taken away or replaced. -/
inductive Access where
  | use
  | take
  | replace

def Access.on (id : Nat) : Access → Effect
  | .use => { uses := (· = id) }
  | .take => { uses := (· = id), sets := (· = id) }
  | .replace => { clears := (· = id) }

/-- An effect on the variables by their numbers. -/
def Ledger.Acts (e : Effect) (l after : Ledger) : Prop :=
  e.Holds (l.flow.Has IsMoved) (after.flow.Has IsMoved) l after

namespace Ledger.Acts

variable {e : Effect}

theorem of_keeps (keeps : l.Keeps VarFlow.moved (· ≠ .useAfterMove) after) : l.Acts .none after := by
  refine ⟨keeps.reported, fun quiet first => absurd first (keeps.lead_ne quiet),
    fun _ _ used => used.elim, fun _ i => ?_⟩
  simpa [Effect.none] using keeps.has_moved i

theorem refused {id : Nat} (reports : l.bag.contents <+: after.bag.contents) (loud : ¬after.Quiet)
    (used : e.uses id) (moved : l.flow.Has IsMoved id) : l.Acts e after :=
  ⟨reports, fun _ _ => ⟨id, used, moved⟩, fun quiet => absurd quiet loud,
    fun quiet => absurd quiet loud⟩

/-- Something else is reported. -/
theorem faulty {γ : Type} {view : VarFlow → γ} (keeps : l.Keeps view (· ≠ .useAfterMove) after)
    (loud : ¬after.Quiet) : l.Acts e after :=
  ⟨keeps.reported, fun quiet first => absurd first (keeps.lead_ne quiet),
    fun quiet => absurd quiet loud, fun quiet => absurd quiet loud⟩

/-- Nothing is reported. -/
theorem silent (same : after.bag = l.bag) (spared : ∀ i, e.uses i → ¬l.flow.Has IsMoved i)
    (moved : ∀ i, after.flow.Has IsMoved i ↔
      e.sets i ∨ (l.flow.Has IsMoved i ∧ ¬e.clears i)) : l.Acts e after := by
  refine ⟨by simp [same], fun quiet led => ?_, fun _ => spared, fun _ => moved⟩
  rw [lead, same] at led
  simp [Quiet] at quiet
  simp [quiet] at led

theorem of_none (first : l.Acts .none middle) (next : middle.Acts e after) : l.Acts e after := by
  have unchanged (quiet : after.Quiet) (i : Nat) :
      middle.flow.Has IsMoved i ↔ l.flow.Has IsMoved i := by
    simpa [Effect.none] using first.moved (quiet.of_reported next.reports) i
  refine ⟨first.reports.trans next.reports, fun quiet led => ?_, fun quiet i used => ?_,
    fun quiet i => ?_⟩
  · by_cases middleQuiet : middle.Quiet
    · obtain ⟨i, used, moved⟩ := next.blamed middleQuiet led
      refine ⟨i, used, ?_⟩
      simpa [Effect.none] using (first.moved middleQuiet i).mp moved
    · rw [lead_of_reported next.reports middleQuiet] at led
      obtain ⟨i, used, -⟩ := first.blamed quiet led
      exact used.elim
  · rw [← unchanged quiet]
    exact next.spared quiet i used
  · rw [← unchanged quiet]
    exact next.moved quiet i

theorem and_none (first : l.Acts e middle) (next : middle.Acts .none after) : l.Acts e after := by
  refine ⟨first.reports.trans next.reports, fun quiet led => ?_,
    fun quiet => first.spared (quiet.of_reported next.reports), fun quiet i => ?_⟩
  · by_cases middleQuiet : middle.Quiet
    · obtain ⟨i, used, -⟩ := next.blamed middleQuiet led
      exact used.elim
    · rw [lead_of_reported next.reports middleQuiet] at led
      exact first.blamed quiet led
  · rw [← first.moved (quiet.of_reported next.reports) i]
    simpa [Effect.none] using next.moved quiet i

end Ledger.Acts

/-! ### Rules -/

theorem transition_read {s : State} {mutable : Bool} :
    (transition s .read mutable).2.isSome = true ↔ s = .moved := by
  cases s <;> simp [transition, State.after]

theorem moved_of_violation {s : State} {action : Action} {mutable : Bool} {violation : Violation}
    (refused : (transition s action mutable).2 = some violation)
    (used : violation.kind = .useAfterMove) : s = .moved := by
  unfold transition at refused
  cases result : s.after mutable action with
  | ok next => simp [result] at refused
  | error kind =>
    simp only [result, Option.some.injEq] at refused
    subst refused
    subst used
    cases action <;> cases s <;> simp [State.after] at result <;> grind

namespace Ledger

theorem state_eq_moved {id : Nat} {flow : VarFlow} : l.state id flow = .moved ↔ flow.moved = true := by
  unfold state
  split
  · simp [*]
  · rename_i kept
    simp only [kept]
    split
    · simp
    · cases (l.loansOn id).length <;> simp [State.sharedBy]

end Ledger

theorem stateOf_moved {id : Nat} {s : State} (ran : (stateOf id).run l = .ok (s, after)) :
    l = after ∧ (s = .moved ↔ l.flow.Has IsMoved id) := by
  obtain ⟨v, found, rfl, rfl⟩ := stateOf_ok ran
  refine ⟨rfl, ?_⟩
  simp [Ledger.state_eq_moved, Flow.Has, found, IsMoved]

namespace Context

theorem useAfterMove_acts {id : Nat} {span : Span} {u : Unit} {e : Effect} (used : e.uses id)
    (moved : l.flow.Has IsMoved id) (ran : (ctx.useAfterMove id span).run l = .ok (u, after)) :
    l.Acts e after := by
  have keeps : l.Keeps VarFlow.moved (fun _ => True) after := ctx.useAfterMove_keeps trivial id span ran
  exact .refused keeps.reported (useAfterMove_loud ran) used moved

theorem read_acts {id : Nat} {span : Span} {u : Unit}
    (ran : (ctx.read id span).run l = .ok (u, after)) : l.Acts (Access.use.on id) after := by
  obtain ⟨s, _, state, ran⟩ := Own.run_bind_ok.mp ran
  obtain ⟨rfl, moved⟩ := stateOf_moved state
  obtain ⟨v, _, known, ran⟩ := Own.run_bind_ok.mp ran
  obtain ⟨-, rfl⟩ := var_ok known
  split at ran
  · rename_i violated
    exact useAfterMove_acts rfl (moved.mp (transition_read.mp violated)) ran
  · rename_i allowed
    have kept : ¬l.flow.Has IsMoved id := fun isMoved => allowed (transition_read.mpr (moved.mpr isMoved))
    obtain ⟨-, rfl⟩ := Own.run_pure_ok.mp ran
    refine .silent rfl ?_ fun i => by simp [Access.on]
    rintro i rfl
    exact kept

theorem touch_acts {id : Nat} {span : Span} {u : Unit}
    (ran : (ctx.touch id span).run l = .ok (u, after)) : l.Acts .none after :=
  .of_keeps (ctx.touch_keeps (by decide) id span ran)

theorem held_acts {id : Nat} {origins : List Origin} (ran : (held id).run l = .ok (origins, after)) :
    l.Acts .none after :=
  .of_keeps (held_keeps id ran)

theorem blocking_acts {id : Nat} {loan : Span × Bool}
    (ran : (blocking id).run l = .ok (loan, after)) : l.Acts .none after :=
  .of_keeps (blocking_keeps id ran)

theorem add_acts {d : Diagnostic} {u : Unit} {e : Effect} (other : d.kind ≠ .useAfterMove)
    (ran : (ctx.add d).run l = .ok (u, after)) : l.Acts e after := by
  have keeps : l.Keeps VarFlow.moved (· ≠ .useAfterMove) after := ctx.add_keeps other ran
  exact .faulty keeps (add_loud ran)

end Context

namespace Context

theorem move_acts {id : Nat} {site : NodeInfo} {u : Unit}
    (ran : (ctx.move id site).run l = .ok (u, after)) : l.Acts (Access.take.on id) after := by
  obtain ⟨_, ended, invalidated, ran⟩ := Own.run_bind_ok.mp ran
  obtain rfl := Own.run_modify_ok.mp invalidated
  refine (Ledger.Acts.of_keeps (invalidate_keeps l id "moved" site.span)).of_none ?_
  generalize l.invalidate id "moved" site.span = l at ran
  obtain ⟨s, _, state, ran⟩ := Own.run_bind_ok.mp ran
  obtain ⟨flow, present, rfl, rfl⟩ := stateOf_ok state
  have moved := (stateOf_moved state).2
  obtain ⟨v, _, known, ran⟩ := Own.run_bind_ok.mp ran
  obtain ⟨-, rfl⟩ := var_ok known
  cases shape : l.state id flow with
  | owned =>
    simp only [shape, transition, State.after] at ran
    obtain rfl := Own.run_modify_ok.mp ran
    have kept : ¬l.flow.Has IsMoved id := by simp [← moved, shape]
    refine .silent rfl ?_ fun i => ?_
    · rintro i rfl
      exact kept
    · rw [Flow.has_updateVar]
      simp only [Access.on, not_false_eq_true, and_true]
      split
      · rename_i same
        subst same
        simp [Flow.Has, present, IsMoved]
      · rename_i different
        simp [different]
  | moved =>
    simp only [shape, transition, State.after, beq_self_eq_true, if_true] at ran
    exact useAfterMove_acts rfl (moved.mp shape) ran
  | shared | exclusive =>
    simp only [shape, transition, State.after] at ran
    obtain ⟨loan, _, blocked, ran⟩ := Own.run_bind_ok.mp ran
    exact (blocking_acts blocked).of_none (add_acts (by simp) ran)

theorem borrowVar_acts {id : Nat} {v : Var} {operand : Expr} {mutable : Bool} {site : NodeInfo}
    {origins : List Origin}
    (ran : (ctx.borrowVar id v operand mutable site).run l = .ok (origins, after)) :
    l.Acts (Access.use.on id) after := by
  obtain ⟨s, _, state, ran⟩ := Own.run_bind_ok.mp ran
  obtain ⟨rfl, moved⟩ := stateOf_moved state
  split at ran
  · rename_i allowed
    have kept : ¬l.flow.Has IsMoved id := by
      rw [← moved]
      rintro rfl
      cases mutable <;> simp [transition, State.after] at allowed
    obtain ⟨loan, _, lent, ran⟩ := Own.run_bind_ok.mp ran
    obtain ⟨-, rfl⟩ := Own.run_pure_ok.mp ran
    obtain ⟨-, rfl⟩ := Prod.mk.inj (Own.run_modifyGet_ok.mp lent)
    refine .silent rfl ?_ fun i => by simp [Access.on, Flow.Has]
    rintro i rfl
    exact kept
  · rename_i violation refused
    split at ran
    · rename_i used
      have isMoved : s = .moved := moved_of_violation refused used
      obtain ⟨_, _, reported, ran⟩ := Own.run_bind_ok.mp ran
      obtain ⟨-, rfl⟩ := Own.run_pure_ok.mp ran
      exact useAfterMove_acts rfl (moved.mp isMoved) reported
    · obtain ⟨_, _, reported, ran⟩ := Own.run_bind_ok.mp ran
      obtain ⟨-, rfl⟩ := Own.run_pure_ok.mp ran
      exact add_acts (by simp) reported
    · obtain ⟨loan, _, blocked, ran⟩ := Own.run_bind_ok.mp ran
      obtain ⟨_, _, reported, ran⟩ := Own.run_bind_ok.mp ran
      obtain ⟨-, rfl⟩ := Own.run_pure_ok.mp ran
      exact (blocking_acts blocked).of_none (add_acts (by simp) reported)

theorem borrowPlace_acts {id : Nat} {p : Place} {operand : Expr} {mutable : Bool} {site : NodeInfo}
    {origins : List Origin}
    (ran : (ctx.borrowPlace id p operand mutable site).run l = .ok (origins, after)) :
    l.Acts (Access.use.on id) after := by
  obtain ⟨v, _, known, ran⟩ := Own.run_bind_ok.mp ran
  obtain ⟨-, rfl⟩ := var_ok known
  obtain ⟨_, touched, touches, ran⟩ := Own.run_bind_ok.mp ran
  refine (touch_acts touches).of_none ?_
  split at ran
  · exact borrowVar_acts ran
  · obtain ⟨_, seen, reads, ran⟩ := Own.run_bind_ok.mp ran
    refine (read_acts reads).and_none ?_
    split at ran
    · obtain ⟨_, _, reported, ran⟩ := Own.run_bind_ok.mp ran
      exact (add_acts (by simp) reported).and_none (held_acts ran)
    · exact held_acts ran

/-- What taking a part of a variable as a value does to the variable. -/
def partAccess (ctx : Context) (e : Expr) (use : Use) : Access :=
  if use == .read || (ctx.notes.typeOf e.id).isCopy || ctx.through e then .use else .take

theorem usePlace_acts {p : Place} {e : Expr} {use : Use} {id : Nat} {origins : List Origin}
    (root : p.root = .var id) (through : p.throughRef = ctx.through e)
    (ran : (ctx.usePlace p e use).run l = .ok (origins, after)) :
    l.Acts ((ctx.partAccess e use).on id) after := by
  simp only [usePlace, root] at ran
  obtain ⟨_, touched, touches, ran⟩ := Own.run_bind_ok.mp ran
  refine (touch_acts touches).of_none ?_
  unfold partAccess
  split at ran
  · rename_i reading
    obtain ⟨_, seen, reads, ran⟩ := Own.run_bind_ok.mp ran
    simp only [reading, Bool.true_or, if_true]
    exact (read_acts reads).and_none (held_acts ran)
  · rename_i moving
    obtain ⟨t, _, typed, ran⟩ := Own.run_bind_ok.mp ran
    obtain ⟨rfl, rfl⟩ := typeOf_ok typed
    split at ran
    · rename_i copied
      obtain ⟨_, seen, reads, ran⟩ := Own.run_bind_ok.mp ran
      simp only [copied, Bool.true_or, Bool.or_true, if_true]
      exact (read_acts reads).and_none (held_acts ran)
    · rename_i taken
      rw [through] at ran
      split at ran
      · rename_i behind
        obtain ⟨_, seen, reads, ran⟩ := Own.run_bind_ok.mp ran
        obtain ⟨_, _, reported, ran⟩ := Own.run_bind_ok.mp ran
        simp only [behind, Bool.or_true, if_true]
        exact (read_acts reads).and_none ((add_acts (by simp) reported).and_none (held_acts ran))
      · rename_i direct
        obtain ⟨_, gone, moves, ran⟩ := Own.run_bind_ok.mp ran
        simp only [moving, taken, direct]
        exact (move_acts moves).and_none (held_acts ran)

/-- What taking a variable of a type as a value does to the variable. -/
def nameAccess (type : Ty) (use : Use) : Access :=
  if use == .move && !type.isCopy then .take else .use

theorem useName_acts {info : NodeInfo} {name : String} {use : Use} {id : Nat} {origins : List Origin}
    (found : l.lookup? name = some id)
    (ran : (ctx.useName info name use).run l = .ok (origins, after)) :
    ∃ v, l.vars[id]? = some v ∧ l.Acts ((nameAccess v.type use).on id) after := by
  obtain ⟨current, _, read, ran⟩ := Own.run_bind_ok.mp ran
  obtain ⟨rfl, rfl⟩ := Own.run_get_ok.mp read
  simp only [found] at ran
  obtain ⟨_, touched, touches, ran⟩ := Own.run_bind_ok.mp ran
  obtain ⟨v, _, known, ran⟩ := Own.run_bind_ok.mp ran
  obtain ⟨declared, rfl⟩ := var_ok known
  have kept : l.Keeps (fun _ => ()) (fun _ => True) touched := ctx.touch_keeps trivial id info.span touches
  refine ⟨v, by rw [← kept.vars, declared], (touch_acts touches).of_none ?_⟩
  split at ran
  · rename_i moving
    obtain ⟨_, gone, moves, ran⟩ := Own.run_bind_ok.mp ran
    rw [nameAccess, if_pos moving]
    exact (move_acts moves).and_none (held_acts ran)
  · rename_i reading
    obtain ⟨_, seen, reads, ran⟩ := Own.run_bind_ok.mp ran
    rw [nameAccess, if_neg reading]
    exact (read_acts reads).and_none (held_acts ran)

theorem adopt_acts {id : Nat} {origins : List Origin} {u : Unit}
    (ran : (adopt id origins).run l = .ok (u, after)) : l.Acts .none after :=
  .of_keeps (adopt_keeps (fun _ _ => rfl) id origins ran)

/-- What an assignment does to the variable it starts at: assigning to a whole variable does not use its
old value, which assigning to a part does. -/
def writeAccess (ctx : Context) (target : Expr) : Access :=
  if !ctx.through target && isWhole target then .replace else .use

theorem writeVar_acts {id : Nat} {target : Expr} {origins : List Origin} {u : Unit}
    (ran : (ctx.writeVar id target origins).run l = .ok (u, after)) :
    l.Acts ((if isWhole target then .replace else .use : Access).on id) after := by
  obtain ⟨v, _, known, ran⟩ := Own.run_bind_ok.mp ran
  obtain ⟨-, rfl⟩ := var_ok known
  obtain ⟨s, _, state, ran⟩ := Own.run_bind_ok.mp ran
  obtain ⟨rfl, moved⟩ := stateOf_moved state
  obtain ⟨flow, _, path, ran⟩ := Own.run_bind_ok.mp ran
  obtain ⟨present, rfl⟩ := varFlow_ok path
  split at ran
  · rename_i used
    simp only [Bool.and_eq_true, Bool.not_eq_true', beq_iff_eq] at used
    rw [used.1]
    exact useAfterMove_acts rfl (moved.mp used.2) ran
  · rename_i unused
    split at ran
    · split at ran
      · exact add_acts (by simp) ran
      · obtain ⟨loan, _, blocked, ran⟩ := Own.run_bind_ok.mp ran
        exact (blocking_acts blocked).of_none (add_acts (by simp) ran)
    · split at ran
      · rename_i whole
        obtain ⟨_, _, cleared, ran⟩ := Own.run_bind_ok.mp ran
        obtain rfl := Own.run_modify_ok.mp cleared
        rw [if_pos whole]
        have clears : l.Acts (Access.replace.on id) { l with
            flow := l.flow.updateVar id fun f => { f with moved := false, late := false } } := by
          refine .silent rfl (fun _ used => used.elim) fun i => ?_
          rw [Flow.has_updateVar]
          by_cases same : i = id
          · simp [same, Access.on, Flow.Has, IsMoved]
          · simp [same, Access.on]
        split at ran
        · exact clears.and_none (adopt_acts ran)
        · obtain ⟨-, rfl⟩ := Own.run_pure_ok.mp ran
          exact clears
      · rename_i part
        rw [if_neg part]
        have kept : ¬l.flow.Has IsMoved id := by
          rw [← moved]
          simpa [part] using unused
        have reads : l.Acts (Access.use.on id) l := by
          refine .silent rfl ?_ fun i => by simp [Access.on]
          rintro i rfl
          exact kept
        obtain ⟨t, _, typed, ran⟩ := Own.run_bind_ok.mp ran
        obtain ⟨-, rfl⟩ := typeOf_ok typed
        split at ran
        · exact reads.and_none (adopt_acts ran)
        · obtain ⟨-, rfl⟩ := Own.run_pure_ok.mp ran
          exact reads

theorem write_acts {id : Nat} {p : Place} {target : Expr} {origins : List Origin} {u : Unit}
    (through : p.throughRef = ctx.through target)
    (ran : (ctx.write id p target origins).run l = .ok (u, after)) :
    l.Acts ((ctx.writeAccess target).on id) after := by
  rw [write, through] at ran
  split at ran
  · rename_i behind
    obtain ⟨_, seen, reads, ran⟩ := Own.run_bind_ok.mp ran
    simp only [writeAccess, behind, Bool.not_true, Bool.false_and, Bool.false_eq_true, if_false]
    refine (read_acts reads).and_none ?_
    split at ran
    · exact add_acts (by simp) ran
    · obtain ⟨-, rfl⟩ := Own.run_pure_ok.mp ran
      exact .of_keeps (.refl _)
  · rename_i direct
    simpa [writeAccess, direct] using writeVar_acts ran

end Context

end TreeCheck.Ownership
