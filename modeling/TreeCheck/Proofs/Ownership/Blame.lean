import TreeCheck.Proofs.Keys
import TreeCheck.Proofs.Ownership.MoveSteps

/-!
The use of a moved variable is reported. Whichever rule uses the variable, and whatever else is wrong with the
use, there is a diagnostic of that kind afterwards.
-/

namespace TreeCheck

namespace Ownership

variable {ctx : Context} {l middle after : Ledger}

/-- Whether the use of something moved is reported. -/
def Blames (ds : List Diagnostic) : Prop := ∃ d ∈ ds, d.kind.number = Diagnostic.Kind.useAfterMove.number

theorem Blames.extend {ds more : List Diagnostic} (blames : Blames ds) (reported : ds <+: more) :
    Blames more := by
  obtain ⟨d, member, kind⟩ := blames
  exact ⟨d, reported.subset member, kind⟩

/-- Whether the use of something moved is reported in a ledger. -/
abbrev Ledger.Blames (l : Ledger) : Prop := Ownership.Blames l.bag.contents

namespace Context

theorem add_blames {d : Diagnostic} {u : Unit} (kind : d.kind = .useAfterMove)
    (ran : (ctx.add d).run l = .ok (u, after)) : after.Blames := by
  obtain rfl := Own.run_modify_ok.mp ran
  unfold Ledger.Blames Bag.add
  split
  next held =>
    obtain ⟨e, member, same⟩ := List.any_eq_true.mp held
    exact ⟨e, member, by rw [Diagnostic.number_eq_of_key (beq_iff_eq.mp same)]; exact congrArg _ kind⟩
  · exact ⟨_, List.mem_append_right _ List.mem_cons_self, congrArg _ kind⟩

theorem useAfterMove_blames {id : Nat} {span : Span} {u : Unit}
    (ran : (ctx.useAfterMove id span).run l = .ok (u, after)) : after.Blames := by
  obtain ⟨v, _, -, ran⟩ := Own.run_bind_ok.mp ran
  obtain ⟨flow, _, -, ran⟩ := Own.run_bind_ok.mp ran
  split at ran
  · exact add_blames rfl ran
  · exact add_blames (by simp) ran

theorem touch_moved {id other : Nat} {span : Span} {u : Unit}
    (ran : (ctx.touch id span).run l = .ok (u, after)) (moved : l.flow.Has IsMoved other) :
    after.flow.Has IsMoved other :=
  have keeps : l.Keeps VarFlow.moved (fun _ => True) after := ctx.touch_keeps trivial id span ran
  (keeps.has_moved other).mpr moved

theorem read_blames {id : Nat} {span : Span} {u : Unit} (moved : l.flow.Has IsMoved id)
    (ran : (ctx.read id span).run l = .ok (u, after)) : after.Blames := by
  obtain ⟨s, _, state, ran⟩ := Own.run_bind_ok.mp ran
  obtain ⟨rfl, isMoved⟩ := stateOf_moved state
  obtain ⟨v, _, known, ran⟩ := Own.run_bind_ok.mp ran
  obtain ⟨-, rfl⟩ := var_ok known
  rw [if_pos (transition_read.mpr (isMoved.mpr moved))] at ran
  exact useAfterMove_blames ran

theorem move_blames {id : Nat} {site : NodeInfo} {u : Unit} (moved : l.flow.Has IsMoved id)
    (ran : (ctx.move id site).run l = .ok (u, after)) : after.Blames := by
  obtain ⟨_, ended, invalidated, ran⟩ := Own.run_bind_ok.mp ran
  obtain rfl := Own.run_modify_ok.mp invalidated
  have keeps : l.Keeps VarFlow.moved (fun _ => True) _ := invalidate_keeps l id "moved" site.span
  replace moved := (keeps.has_moved id).mpr moved
  obtain ⟨s, _, state, ran⟩ := Own.run_bind_ok.mp ran
  obtain ⟨rfl, isMoved⟩ := stateOf_moved state
  obtain rfl := isMoved.mpr moved
  obtain ⟨v, _, known, ran⟩ := Own.run_bind_ok.mp ran
  obtain ⟨-, rfl⟩ := var_ok known
  simp only [transition, State.after, beq_self_eq_true, if_true] at ran
  exact useAfterMove_blames ran

theorem borrowVar_blames {id : Nat} {v : Var} {operand : Expr} {mutable : Bool} {site : NodeInfo}
    {origins : List Origin} (moved : l.flow.Has IsMoved id)
    (ran : (ctx.borrowVar id v operand mutable site).run l = .ok (origins, after)) : after.Blames := by
  obtain ⟨s, _, state, ran⟩ := Own.run_bind_ok.mp ran
  obtain ⟨rfl, isMoved⟩ := stateOf_moved state
  obtain rfl := isMoved.mpr moved
  have refused : (transition .moved (if mutable then .borrowMut else .borrow) v.mutable).2 =
      some ⟨.useAfterMove, if mutable then .borrowMut else .borrow, .moved⟩ := by
    cases mutable <;> rfl
  simp only [refused] at ran
  obtain ⟨_, _, reported, ran⟩ := Own.run_bind_ok.mp ran
  obtain ⟨-, rfl⟩ := Own.run_pure_ok.mp ran
  exact useAfterMove_blames reported

theorem borrowPlace_blames {id : Nat} {p : Place} {operand : Expr} {mutable : Bool} {site : NodeInfo}
    {origins : List Origin} (moved : l.flow.Has IsMoved id)
    (ran : (ctx.borrowPlace id p operand mutable site).run l = .ok (origins, after)) : after.Blames := by
  obtain ⟨v, _, known, ran⟩ := Own.run_bind_ok.mp ran
  obtain ⟨-, rfl⟩ := var_ok known
  obtain ⟨_, touched, touches, ran⟩ := Own.run_bind_ok.mp ran
  replace moved := touch_moved touches moved
  split at ran
  · exact borrowVar_blames moved ran
  · obtain ⟨_, seen, reads, ran⟩ := Own.run_bind_ok.mp ran
    refine (read_blames moved reads).extend ?_
    split at ran
    · obtain ⟨_, _, reported, ran⟩ := Own.run_bind_ok.mp ran
      exact (add_acts (e := .none) (by simp) reported).reports.trans (held_acts ran).reports
    · exact (held_acts ran).reports

theorem usePlace_blames {p : Place} {e : Expr} {use : Use} {id : Nat} {origins : List Origin}
    (root : p.root = .var id) (moved : l.flow.Has IsMoved id)
    (ran : (ctx.usePlace p e use).run l = .ok (origins, after)) : after.Blames := by
  simp only [usePlace, root] at ran
  obtain ⟨_, touched, touches, ran⟩ := Own.run_bind_ok.mp ran
  replace moved := touch_moved touches moved
  split at ran
  · obtain ⟨_, seen, reads, ran⟩ := Own.run_bind_ok.mp ran
    exact (read_blames moved reads).extend (held_acts ran).reports
  · obtain ⟨t, _, typed, ran⟩ := Own.run_bind_ok.mp ran
    obtain ⟨rfl, rfl⟩ := typeOf_ok typed
    split at ran
    · obtain ⟨_, seen, reads, ran⟩ := Own.run_bind_ok.mp ran
      exact (read_blames moved reads).extend (held_acts ran).reports
    · split at ran
      · obtain ⟨_, seen, reads, ran⟩ := Own.run_bind_ok.mp ran
        obtain ⟨_, _, reported, ran⟩ := Own.run_bind_ok.mp ran
        exact (read_blames moved reads).extend
          ((add_acts (e := .none) (by simp) reported).reports.trans (held_acts ran).reports)
      · obtain ⟨_, gone, moves, ran⟩ := Own.run_bind_ok.mp ran
        exact (move_blames moved moves).extend (held_acts ran).reports

theorem useName_blames {info : NodeInfo} {name : String} {use : Use} {id : Nat} {origins : List Origin}
    (found : l.lookup? name = some id) (moved : l.flow.Has IsMoved id)
    (ran : (ctx.useName info name use).run l = .ok (origins, after)) : after.Blames := by
  obtain ⟨current, _, read, ran⟩ := Own.run_bind_ok.mp ran
  obtain ⟨rfl, rfl⟩ := Own.run_get_ok.mp read
  simp only [found] at ran
  obtain ⟨_, touched, touches, ran⟩ := Own.run_bind_ok.mp ran
  replace moved := touch_moved touches moved
  obtain ⟨v, _, known, ran⟩ := Own.run_bind_ok.mp ran
  obtain ⟨-, rfl⟩ := var_ok known
  split at ran
  · obtain ⟨_, gone, moves, ran⟩ := Own.run_bind_ok.mp ran
    exact (move_blames moved moves).extend (held_acts ran).reports
  · obtain ⟨_, seen, reads, ran⟩ := Own.run_bind_ok.mp ran
    exact (read_blames moved reads).extend (held_acts ran).reports

/-- Assigning to a part of a variable uses the variable. -/
theorem writeVar_blames {id : Nat} {target : Expr} {origins : List Origin} {u : Unit}
    (part : isWhole target = false) (moved : l.flow.Has IsMoved id)
    (ran : (ctx.writeVar id target origins).run l = .ok (u, after)) : after.Blames := by
  obtain ⟨v, _, known, ran⟩ := Own.run_bind_ok.mp ran
  obtain ⟨-, rfl⟩ := var_ok known
  obtain ⟨s, _, state, ran⟩ := Own.run_bind_ok.mp ran
  obtain ⟨rfl, isMoved⟩ := stateOf_moved state
  obtain rfl := isMoved.mpr moved
  obtain ⟨flow, _, path, ran⟩ := Own.run_bind_ok.mp ran
  obtain ⟨-, rfl⟩ := varFlow_ok path
  rw [if_pos (by simp [part])] at ran
  exact useAfterMove_blames ran

theorem write_blames {id : Nat} {p : Place} {target : Expr} {origins : List Origin} {u : Unit}
    (through : p.throughRef = ctx.through target) (part : ctx.writeAccess target ≠ .replace)
    (moved : l.flow.Has IsMoved id) (ran : (ctx.write id p target origins).run l = .ok (u, after)) :
    after.Blames := by
  rw [write, through] at ran
  split at ran
  · obtain ⟨_, seen, reads, ran⟩ := Own.run_bind_ok.mp ran
    refine (read_blames moved reads).extend ?_
    split at ran
    · exact (add_acts (e := .none) (by simp) ran).reports
    · obtain ⟨-, rfl⟩ := Own.run_pure_ok.mp ran
      exact List.prefix_rfl
  next direct =>
    refine writeVar_blames ?_ moved ran
    simpa [writeAccess, direct] using part

end Context

end Ownership

end TreeCheck
