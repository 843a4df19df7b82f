import TreeCheck.Proofs.Ownership.BorrowJoins
import TreeCheck.Proofs.Ownership.Guards
import TreeCheck.Proofs.Ownership.Scoped

/-!
Aliasing on a path. Where nothing is joined, the loans on a variable are shared or one mutable loan alone, a moved
variable has none, and what is done to a variable changes its state the way the rule of the states has it.
-/

namespace TreeCheck.Ownership

variable {ctx : Context} {limit : RoundLimit} {l after : Ledger} {id : Nat} {v : VarFlow} {lendable : Nat → Prop}

/-- Loans that may be live together: shared ones, or a mutable one alone. -/
def Compatible (loans : List Loan) : Prop :=
  (∀ loan ∈ loans, loan.mutable = false) ∨ ∃ loan, loan.mutable = true ∧ loans = [loan]

theorem Compatible.sublist {fewer loans : List Loan} (compatible : Compatible loans) (part : fewer.Sublist loans) :
    Compatible fewer := by
  rcases compatible with shared | ⟨loan, mutable, rfl⟩
  · exact .inl fun loan member => shared loan (part.subset member)
  · rcases List.sublist_singleton.mp part with rfl | rfl
    · exact .inl (List.forall_mem_nil _)
    · exact .inr ⟨loan, mutable, rfl⟩

theorem filterMap_sublist {α β : Type} {f g : α → Option β} (fewer : ∀ a b, f a = some b → g a = some b)
    (xs : List α) : (xs.filterMap f).Sublist (xs.filterMap g) := by
  induction xs with
  | nil => exact .slnil
  | cons a xs ih =>
    cases found : f a with
    | none =>
      rw [List.filterMap_cons_none found]
      exact ih.trans ((List.sublist_cons_self a xs).filterMap g)
    | some b =>
      rw [List.filterMap_cons_some found, List.filterMap_cons_some (fewer a b found)]
      exact ih.cons_cons b

namespace Ledger

/-! ### Loans and states -/

theorem state_eq_owned : l.state id v = .owned ↔ v.moved = false ∧ l.loansOn id = [] := by
  unfold state
  cases v.moved with
  | true => simp
  | false =>
    cases l.loansOn id with
    | nil => simp [State.sharedBy]
    | cons loan rest =>
      simp only [Bool.false_eq_true, if_false, List.length_cons, State.sharedBy]
      split <;> simp

theorem state_eq_shared {others : Nat} : l.state id v = .shared others ↔
    v.moved = false ∧ (∀ loan ∈ l.loansOn id, loan.mutable = false) ∧ (l.loansOn id).length = others + 1 := by
  unfold state
  cases v.moved with
  | true => simp
  | false =>
    cases mutable : (l.loansOn id).any Loan.mutable with
    | true =>
      obtain ⟨loan, member, isMutable⟩ := List.any_eq_true.mp mutable
      simp only [Bool.false_eq_true, if_false, if_true, reduceCtorEq, true_and, false_iff, not_and]
      exact fun shared => by simp [shared loan member] at isMutable
    | false =>
      have shared : ∀ loan ∈ l.loansOn id, loan.mutable = false := by simpa using mutable
      cases (l.loansOn id).length with
      | zero => simp [State.sharedBy]
      | succ n => simpa [State.sharedBy] using fun _ => shared

/-- No loan comes up where leases change, unless they are ended no more. -/
theorem loansOn_updateLeases {change : Nat → Lease → Lease}
    (ends : ∀ k lease, (change k lease).ended = none → lease.ended = none) (id : Nat) :
    (({ l with flow := l.flow.updateLeases change } : Ledger).loansOn id).Sublist (l.loansOn id) := by
  rw [loansOn, Flow.updateLeases, List.filterMap_map]
  refine filterMap_sublist (fun entry loan found => ?_) l.flow.live
  simp only [Function.comp_apply] at found
  cases lent : l.loans[entry.1]? with
  | none => simp [lent] at found
  | some other =>
    simp only [lent, Option.ite_none_right_eq_some, Bool.and_eq_true, Option.isNone_iff_eq_none] at found ⊢
    exact ⟨⟨found.1.1, ends _ _ found.1.2⟩, found.2⟩

theorem adopt_ends (l : Ledger) (id : Nat) (w : Var) (origins : List Origin) (k : Nat) (lease : Lease)
    (ended : (if origins.contains (.loan k) then { l.extend w.scope lease with holder := some id } else lease).ended =
      none) : lease.ended = none := by
  split at ended
  · exact (l.extend_ended w.scope lease).symm.trans ended
  · exact ended

theorem loansOn_lend (lent : ∀ entry ∈ l.flow.live, entry.1 < l.loans.length) (owner : Option Nat) (mutable : Bool)
    (node : Nat) (span : Span) (id : Nat) : (l.lend owner mutable node span).2.loansOn id =
      l.loansOn id ++ if owner = some id then [({ owner, mutable, span } : Loan)] else [] := by
  unfold loansOn lend
  simp only [List.filterMap_append]
  congr 1
  · refine List.filterMap_congr fun entry live => ?_
    simp only [List.getElem?_append_left (lent entry live)]
  · by_cases same : owner = some id <;> simp [same]

/-! ### What a path keeps -/

/-- The loans on a path: each is on a variable that is declared, the live ones on a variable are compatible, and a
moved variable has none. -/
structure Disciplined (l : Ledger) : Prop where
  balanced : l.Balanced
  owners : ∀ loan ∈ l.loans, ∀ owner ∈ loan.owner, owner < l.vars.length
  lent : ∀ entry ∈ l.flow.live, entry.1 < l.loans.length
  compatible : ∀ id, Compatible (l.loansOn id)
  moved : ∀ id, l.flow.Has IsMoved id → l.loansOn id = []

namespace Disciplined

theorem start : ({} : Ledger).Disciplined :=
  ⟨rfl, List.forall_mem_nil _, List.forall_mem_nil _, fun _ => .inl (List.forall_mem_nil _), fun _ _ => rfl⟩

theorem undeclared (disciplined : l.Disciplined) (outside : l.vars.length ≤ id) : l.loansOn id = [] := by
  refine List.eq_nil_iff_forall_not_mem.mpr fun loan member => ?_
  obtain ⟨k, lease, -, found, owned, -⟩ := mem_loansOn.mp member
  exact Nat.not_lt_of_le outside (disciplined.owners loan (List.mem_of_getElem? found) id owned)

/-- Reports, scopes and tables are not looked at. -/
theorem unchanged (disciplined : l.Disciplined) (vars : after.vars = l.vars) (loans : after.loans = l.loans)
    (flow : after.flow = l.flow) : after.Disciplined := by
  obtain ⟨balanced, owners, lent, compatible, moved⟩ := disciplined
  have loansOn : after.loansOn = l.loansOn := by
    funext id
    rw [Ledger.loansOn, loans, flow]
    rfl
  exact ⟨by rwa [Balanced, vars, flow], by rwa [vars, loans], by rwa [loans, flow], by rwa [loansOn],
    by rwa [loansOn, flow]⟩

theorem withLive (disciplined : l.Disciplined) (live : List (Nat × Lease))
    (lent : ∀ entry ∈ live, entry.1 < l.loans.length)
    (fewer : ∀ id, (({ l with flow := { l.flow with live } } : Ledger).loansOn id).Sublist (l.loansOn id)) :
    ({ l with flow := { l.flow with live } } : Ledger).Disciplined where
  balanced := disciplined.balanced
  owners := disciplined.owners
  lent := lent
  compatible := fun id => (disciplined.compatible id).sublist (fewer id)
  moved := fun id isMoved => List.sublist_nil.mp (disciplined.moved id isMoved ▸ fewer id)

theorem updateLeases {change : Nat → Lease → Lease} (disciplined : l.Disciplined)
    (ends : ∀ k lease, (change k lease).ended = none → lease.ended = none) :
    ({ l with flow := l.flow.updateLeases change } : Ledger).Disciplined := by
  refine disciplined.withLive _ (fun entry member => ?_) (loansOn_updateLeases ends)
  obtain ⟨before, live, rfl⟩ := List.mem_map.mp member
  exact disciplined.lent before live

theorem updateVar {change : VarFlow → VarFlow} (disciplined : l.Disciplined) (id : Nat)
    (moves : ∀ flow, l.flow.vars[id]? = some flow → (change flow).moved = true →
      flow.moved = true ∨ l.loansOn id = []) :
    ({ l with flow := l.flow.updateVar id change } : Ledger).Disciplined where
  balanced := by
    rw [Balanced, Flow.updateVar, List.length_modify]
    exact disciplined.balanced
  owners := disciplined.owners
  lent := disciplined.lent
  compatible := disciplined.compatible
  moved := fun other isMoved => by
    rw [Flow.has_updateVar] at isMoved
    split at isMoved
    · rename_i same
      subst same
      obtain ⟨flow, present, isMoved⟩ := isMoved
      exact (moves flow present isMoved).elim (fun before => disciplined.moved other ⟨flow, present, before⟩)
        fun unlent => unlent
    · exact disciplined.moved other isMoved

theorem lend {mutable : Bool} {owner : Option Nat} (disciplined : l.Disciplined) (node : Nat) (span : Span)
    (allowed : ∀ id ∈ owner, l.Permits id (if mutable then .borrowMut else .borrow)) :
    (l.lend owner mutable node span).2.Disciplined where
  balanced := disciplined.balanced
  owners := List.forall_mem_append.mpr ⟨disciplined.owners, List.forall_mem_singleton.mpr fun id owned => by
    obtain ⟨v, flow, declared, -⟩ := allowed id owned
    exact (List.getElem?_eq_some_iff.mp declared).1⟩
  lent := by
    simp only [Ledger.lend, List.length_append, List.length_singleton]
    refine List.forall_mem_append.mpr ⟨fun entry live => ?_, List.forall_mem_singleton.mpr (Nat.lt_succ_self _)⟩
    exact Nat.lt_succ_of_lt (disciplined.lent entry live)
  compatible := fun id => by
    rw [loansOn_lend disciplined.lent]
    split
    · rename_i owned
      obtain ⟨v, flow, declared, present, permitted⟩ := allowed id owned
      cases mutable with
      | true =>
        have state : l.state id flow = .owned := by
          revert permitted
          cases l.state id flow <;> cases v.mutable <;> simp [transition, State.after]
        rw [(state_eq_owned.mp state).2]
        exact .inr ⟨_, rfl, rfl⟩
      | false =>
        refine .inl (List.forall_mem_append.mpr ⟨?_, List.forall_mem_singleton.mpr rfl⟩)
        cases state : l.state id flow with
        | owned => simp [(state_eq_owned.mp state).2]
        | shared others => exact (state_eq_shared.mp state).2.1
        | moved | exclusive => simp [state, transition, State.after] at permitted
    · rw [List.append_nil]
      exact disciplined.compatible id
  moved := fun id isMoved => by
    rw [loansOn_lend disciplined.lent, disciplined.moved id isMoved]
    split
    · rename_i owned
      obtain ⟨v, flow, declared, present, permitted⟩ := allowed id owned
      obtain ⟨known, found, moved⟩ := isMoved
      cases Option.some.inj (present.symm.trans found)
      rw [state_eq_moved.mpr moved] at permitted
      cases mutable <;> simp [transition, State.after] at permitted
    · rfl

theorem invalidate (disciplined : l.Disciplined) (id : Nat) (reason : String) (span : Span) :
    (l.invalidate id reason span).Disciplined :=
  disciplined.updateLeases fun k lease ended => by
    split at ended
    · exact (Option.or_eq_none_iff.mp ended).1
    · exact ended

theorem rescope (disciplined : l.Disciplined) (origins : List Origin) (scope : Nat) :
    (l.rescope origins scope).Disciplined :=
  disciplined.updateLeases fun k lease ended => by
    split at ended
    · rwa [extend_ended] at ended
    · exact ended

theorem adopt (disciplined : l.Disciplined) (id : Nat) (w : Var) (origins : List Origin) :
    (l.adopt id w origins).Disciplined :=
  (disciplined.updateLeases (l.adopt_ends id w origins)).updateVar id fun _ _ moved => .inl moved

theorem declare (disciplined : l.Disciplined) (name : String) (type : Ty) (mutable : Bool) (span : Span)
    (describe : Var → Var) (start : VarFlow → VarFlow) :
    ({ (l.declare name type mutable span).2 with
      vars := (l.declare name type mutable span).2.vars.modify l.vars.length describe
      flow := (l.declare name type mutable span).2.flow.updateVar l.vars.length start } : Ledger).Disciplined := by
  obtain ⟨scope, scopes, shape, -⟩ := declare_shape l name type mutable span
  have balanced : l.flow.vars.length = l.vars.length := disciplined.balanced
  simp only [shape]
  -- On a path the flow knows each variable, so the new one gets the number that no loan is on.
  refine ⟨by simp [Balanced, Flow.updateVar, balanced], fun loan member owner owned => ?_, disciplined.lent,
    disciplined.compatible, fun id isMoved => ?_⟩
  · simpa using Nat.lt_succ_of_lt (disciplined.owners loan member owner owned)
  · by_cases old : id < l.vars.length
    · rw [Flow.has_updateVar, if_neg (Nat.ne_of_lt old)] at isMoved
      exact disciplined.moved id ((Flow.has_append_old (balanced ▸ old)).mp isMoved)
    · exact disciplined.undeclared (Nat.le_of_not_lt old)

/-- What a path keeps, each edit of its ledger keeps. -/
theorem edit (disciplined : l.Disciplined) (edit : l.EditOf lendable after) : after.Disciplined := by
  cases edit with
  | report | mourn => exact disciplined.unchanged rfl rfl rfl
  | lend owner mutable node span allowed =>
    exact disciplined.lend node span fun id owned => (allowed id owned).2
  | invalidate id reason span => exact disciplined.invalidate id reason span
  | move id span moves allowed =>
    -- The rule of the states sees the loans that no variable holds only; the others have just been ended.
    obtain ⟨v, flow, -, present, permitted⟩ := allowed
    have owned : (l.invalidate id "moved" span).state id flow = .owned := by
      revert permitted
      cases (l.invalidate id "moved" span).state id flow <;> simp [transition, State.after]
    have unlent := (state_eq_owned.mp owned).2
    exact ((disciplined.invalidate id "moved" span).updateVar id fun _ _ _ => .inr unlent).unchanged rfl rfl rfl
  | assign id => exact disciplined.updateVar id fun _ _ moved => by cases moved
  | adopt id v origins => exact disciplined.adopt id v origins
  | rescope origins scope => exact disciplined.rescope origins scope
  | declare name type mutable span describe same start =>
    exact disciplined.declare name type mutable span describe start

theorem edits (disciplined : l.Disciplined) (edits : l.EditsOf lendable after) : after.Disciplined := by
  induction edits with
  | refl => exact disciplined
  | tail _ edit ih => exact ih.edit edit

theorem push (disciplined : l.Disciplined) (isTemporary : Bool) (span : Span) :
    (l.push isTemporary span).Disciplined :=
  disciplined.unchanged rfl rfl rfl

theorem pop (disciplined : l.Disciplined) : l.pop.Disciplined := by
  unfold Ledger.pop
  split
  · exact disciplined
  · rename_i s outer opened
    have left : ({ l with scopes := outer } : Ledger).Disciplined := disciplined.unchanged rfl rfl rfl
    have kept := left.withLive (l.flow.live.filter fun entry => entry.2.scope != s.id)
      (fun entry member => disciplined.lent entry (List.mem_filter.mp member).1)
      fun id => List.filter_sublist.filterMap _
    refine kept.updateLeases fun k lease ended => ?_
    split at ended
    · split at ended
      · exact (Option.or_eq_none_iff.mp ended).1
      · exact ended
    · exact ended

end Disciplined

end Ledger

/-! ### Points on paths -/

/-- The machines that the paths through some code come past. -/
inductive Code.Along (ctx : Context) (limit : RoundLimit) : Code → Machine → Machine → Prop
  | stop {c : Code} {m after : Machine} {ends : Bool} (path : Path ctx limit c m after ends) :
      Along ctx limit c m after
  | first {first next : Code} {m p : Machine} (inner : Along ctx limit first m p) :
      Along ctx limit (.seq first next) m p
  | next {first next : Code} {m middle p : Machine} (path : Path ctx limit first m middle true)
      (inner : Along ctx limit next middle p) : Along ctx limit (.seq first next) m p
  | discard {body : Code} {m p : Machine} (inner : Along ctx limit body m p) : Along ctx limit (.discard body) m p
  | scope {isTemporary : Bool} {span : Span} {body : Code} {m p : Machine}
      (inner : Along ctx limit body (m.enter isTemporary span) p) :
      Along ctx limit (.scope isTemporary span body) m p
  | arm {arms : List Code} {arm : Code} {m p : Machine} (chosen : arm ∈ arms)
      (inner : Along ctx limit arm { m with found := [] } p) : Along ctx limit (.choice arms) m p
  | loop {test round : Code} {m p : Machine} (count : Nat) (allowed : limit test round count)
      (inner : Along ctx limit (Code.rounds test round count) m p) : Along ctx limit (.loop test round) m p

namespace Ledger.Disciplined

variable {c : Code} {m p : Machine} {ends : Bool}

theorem path (path : Path ctx limit c m p ends) (disciplined : m.ledger.Disciplined) : p.ledger.Disciplined := by
  induction path with
  | cut | skip | without => exact disciplined
  | step applied => exact disciplined.edits (Step.run_edits applied)
  | seq _ _ first next => exact next (first disciplined)
  | within _ ih | discard _ ih | arm _ _ ih | loop _ _ _ ih => exact ih disciplined
  | scope _ ih => exact (ih (disciplined.push _ _)).pop
  | leave =>
    exact ⟨disciplined.balanced, disciplined.owners, disciplined.lent, disciplined.compatible, disciplined.moved⟩

theorem along (along : c.Along ctx limit m p) (disciplined : m.ledger.Disciplined) : p.ledger.Disciplined := by
  induction along with
  | stop path => exact disciplined.path path
  | first _ ih | discard _ ih | arm _ _ ih | loop _ _ _ ih => exact ih disciplined
  | next path _ ih => exact ih (disciplined.path path)
  | scope _ ih => exact ih (disciplined.push _ _)

end Ledger.Disciplined

/-! ### What is done to a variable -/

namespace Demand

/-- Whether a demand may change a variable that is declared in some way: the first value of a variable may be
assigned to it as a whole. -/
def mayChange (v : Var) (flow : VarFlow) : Demand → Bool
  | .write target _ => v.mutable || (Context.isWhole target && flow.late)
  | .move _ | .borrow .. => v.mutable

/-- The rule of the states permits a demand on a variable, and leads from the state that the demand meets to the
state that it leaves behind. -/
def Keeps (l : Ledger) (id : Nat) (after : Ledger) (d : Demand) : Prop :=
  ∃ v flow now, l.vars[id]? = some v ∧ l.flow.vars[id]? = some flow ∧ after.flow.vars[id]? = some now ∧
    transition ((d.meets l id).state id flow) d.action (d.mayChange v flow) = (after.state id now, none)

theorem keeps_move {site : NodeInfo} {u : Unit} (ran : (ctx.move id site).run l = .ok (u, after))
    (quiet : after.Quiet) : (Demand.move site).Keeps l id after := by
  obtain ⟨_, ended, invalidated, ran⟩ := Own.run_bind_ok.mp ran
  obtain rfl := Own.run_modify_ok.mp invalidated
  obtain ⟨s, _, state, ran⟩ := Own.run_bind_ok.mp ran
  obtain ⟨flow, present, shape, rfl⟩ := stateOf_ok state
  obtain ⟨w, _, known, ran⟩ := Own.run_bind_ok.mp ran
  obtain ⟨declared, rfl⟩ := var_ok known
  cases s with
  | owned =>
    obtain rfl := Own.run_modify_ok.mp ran
    refine ⟨w, flow, { flow with moved := true, movedAt := site.span }, declared, present, ?_, ?_⟩
    · simp [Flow.updateVar, present]
    · rw [meets, shape]
      simp [action, transition, State.after, Ledger.state]
  | moved => exact absurd quiet (Context.useAfterMove_loud ran)
  | shared | exclusive =>
    obtain ⟨_, _, -, ran⟩ := Own.run_bind_ok.mp ran
    exact absurd quiet (Context.add_loud ran)

/-- A permitted loan takes its owner to the state that the rule of the states tells. -/
theorem transition_lend {owned : Bool} {mutable : Bool} (disciplined : l.Disciplined) (node : Nat) (span : Span)
    (permitted : (transition (l.state id v) (if mutable then .borrowMut else .borrow) owned).2 = none) :
    transition (l.state id v) (if mutable then .borrowMut else .borrow) owned =
      ((l.lend (some id) mutable node span).2.state id v, none) := by
  have loans := Ledger.loansOn_lend disciplined.lent (some id) mutable node span id
  rw [if_pos rfl] at loans
  cases shape : l.state id v with
  | moved => cases mutable <;> simp [shape, transition, State.after] at permitted
  | exclusive => cases mutable <;> cases owned <;> simp [shape, transition, State.after] at permitted
  | owned =>
    obtain ⟨kept, unlent⟩ := Ledger.state_eq_owned.mp shape
    rw [unlent, List.nil_append] at loans
    cases mutable with
    | true =>
      have changeable : owned = true := by
        cases owned <;> simp [shape, transition, State.after] at permitted ⊢
      rw [Ledger.state_eq_exclusive.mpr ⟨kept, _, loans ▸ List.mem_singleton_self _, rfl⟩, changeable]
      rfl
    | false =>
      have shared : (l.lend (some id) false node span).2.state id v = .shared 0 :=
        Ledger.state_eq_shared.mpr ⟨kept, by simp [loans], by simp [loans]⟩
      rw [shared]
      rfl
  | shared others =>
    cases mutable with
    | true => cases owned <;> simp [shape, transition, State.after] at permitted
    | false =>
      obtain ⟨kept, immutable, length⟩ := Ledger.state_eq_shared.mp shape
      have shared : (l.lend (some id) false node span).2.state id v = .shared (others + 1) :=
        Ledger.state_eq_shared.mpr ⟨kept, loans ▸ List.forall_mem_append.mpr
          ⟨immutable, List.forall_mem_singleton.mpr rfl⟩, by simp [loans, length]⟩
      rw [shared]
      rfl

theorem keeps_borrow {w : Var} {operand : Expr} {mutable : Bool} {site : NodeInfo} {origins : List Origin}
    (disciplined : l.Disciplined) (declared : l.vars[id]? = some w)
    (ran : (ctx.borrowVar id w operand mutable site).run l = .ok (origins, after)) (quiet : after.Quiet) :
    (Demand.borrow operand mutable site).Keeps l id after := by
  obtain ⟨s, _, state, ran⟩ := Own.run_bind_ok.mp ran
  obtain ⟨flow, present, rfl, rfl⟩ := stateOf_ok state
  split at ran
  · rename_i permitted
    obtain ⟨_, _, lent, ran⟩ := Own.run_bind_ok.mp ran
    obtain ⟨-, rfl⟩ := Own.run_pure_ok.mp ran
    cases lent
    exact ⟨w, flow, flow, declared, present, present, transition_lend disciplined site.id site.span permitted⟩
  · refine absurd quiet ?_
    split at ran
    · obtain ⟨_, _, reported, ran⟩ := Own.run_bind_ok.mp ran
      obtain ⟨-, rfl⟩ := Own.run_pure_ok.mp ran
      exact Context.useAfterMove_loud reported
    · obtain ⟨_, _, reported, ran⟩ := Own.run_bind_ok.mp ran
      obtain ⟨-, rfl⟩ := Own.run_pure_ok.mp ran
      exact Context.add_loud reported
    · obtain ⟨_, _, -, ran⟩ := Own.run_bind_ok.mp ran
      obtain ⟨_, _, reported, ran⟩ := Own.run_bind_ok.mp ran
      obtain ⟨-, rfl⟩ := Own.run_pure_ok.mp ran
      exact Context.add_loud reported

/-- A variable that is neither moved nor lent stays so when it is made to hold what is assigned to it. -/
theorem owned_store {origins : List Origin} {carries : Bool} {u : Unit} (present : l.flow.vars[id]? = some v)
    (owned : l.state id v = .owned)
    (ran : (if carries then adopt id origins else pure ()).run l = .ok (u, after)) :
    ∃ now, after.flow.vars[id]? = some now ∧ after.state id now = .owned := by
  split at ran
  · obtain ⟨w, rfl⟩ := adopt_ok ran
    obtain ⟨kept, unlent⟩ := Ledger.state_eq_owned.mp owned
    have fewer := Ledger.loansOn_updateLeases (l := l) (l.adopt_ends id w origins) id
    rw [unlent] at fewer
    refine ⟨{ v with holds := Origin.union [] origins }, ?_, ?_⟩
    · simp [Ledger.adopt, Flow.updateVar, Flow.updateLeases, present]
    · exact Ledger.state_eq_owned.mpr ⟨kept, List.sublist_nil.mp fewer⟩
  · obtain ⟨-, rfl⟩ := Own.run_pure_ok.mp ran
    exact ⟨v, present, owned⟩

theorem keeps_write {target : Expr} {origins : List Origin} {u : Unit} (disciplined : l.Disciplined)
    (ran : (ctx.writeVar id target origins).run l = .ok (u, after)) (quiet : after.Quiet) :
    (Demand.write target origins).Keeps l id after := by
  obtain ⟨w, _, known, ran⟩ := Own.run_bind_ok.mp ran
  obtain ⟨declared, rfl⟩ := var_ok known
  obtain ⟨s, _, state, ran⟩ := Own.run_bind_ok.mp ran
  obtain ⟨flow, present, rfl, rfl⟩ := stateOf_ok state
  obtain ⟨_, _, path, ran⟩ := Own.run_bind_ok.mp ran
  obtain ⟨same, rfl⟩ := varFlow_ok path
  cases Option.some.inj (present.symm.trans same)
  split at ran
  · exact absurd quiet (Context.useAfterMove_loud ran)
  rename_i usable
  split at ran
  · refine absurd quiet ?_
    split at ran
    · exact Context.add_loud ran
    · obtain ⟨_, _, -, ran⟩ := Own.run_bind_ok.mp ran
      exact Context.add_loud ran
  · rename_i permitted
    have unlent : l.loansOn id = [] := by
      cases shape : l.state id flow with
      | owned => exact (Ledger.state_eq_owned.mp shape).2
      | moved => exact disciplined.moved id ⟨flow, present, Ledger.state_eq_moved.mp shape⟩
      | shared | exclusive => simp [shape, transition, State.after, State.isBorrowed] at permitted
    have follows : transition (l.state id flow) .write (w.mutable || (Context.isWhole target && flow.late)) =
        (.owned, none) := by
      revert permitted
      cases (w.mutable || (Context.isWhole target && flow.late)) <;> cases l.state id flow <;>
        simp [transition, State.after, State.isBorrowed]
    suffices owned : ∃ now, after.flow.vars[id]? = some now ∧ after.state id now = .owned by
      obtain ⟨now, stored, owned⟩ := owned
      exact ⟨w, flow, now, declared, present, stored, owned ▸ follows⟩
    split at ran
    · obtain ⟨_, cleared, clears, ran⟩ := Own.run_bind_ok.mp ran
      obtain rfl := Own.run_modify_ok.mp clears
      have assigned : (l.flow.updateVar id fun f => { f with moved := false, late := false }).vars[id]? =
          some { flow with moved := false, late := false } := by
        simp [Flow.updateVar, present]
      refine owned_store assigned ?_ ran
      exact Ledger.state_eq_owned.mpr ⟨rfl, unlent⟩
    · rename_i part
      have kept : flow.moved = false := by
        refine Bool.eq_false_iff.mpr fun moved => usable ?_
        simp [part, Ledger.state_eq_moved.mpr moved]
      obtain ⟨t, _, typed, ran⟩ := Own.run_bind_ok.mp ran
      obtain ⟨-, rfl⟩ := Context.typeOf_ok typed
      exact owned_store present (Ledger.state_eq_owned.mpr ⟨kept, unlent⟩) ran

/-- A demand that is not refused is met the way the rule of the states has it. -/
theorem keeps {d : Demand} {u : Unit} (disciplined : l.Disciplined) (ran : (d.run ctx id).run l = .ok (u, after))
    (quiet : after.Quiet) : d.Keeps l id after := by
  cases d with
  | move site => exact keeps_move ran quiet
  | borrow operand mutable site =>
    obtain ⟨w, _, known, ran⟩ := Own.run_bind_ok.mp ran
    obtain ⟨declared, rfl⟩ := var_ok known
    obtain ⟨origins, _, borrowed, ran⟩ := Own.run_bind_ok.mp ran
    obtain ⟨-, rfl⟩ := Own.run_pure_ok.mp ran
    exact keeps_borrow disciplined declared borrowed quiet
  | write target origins => exact keeps_write disciplined ran quiet

end Demand

/-! ### What is done in a step -/

theorem Context.touchOrigins_quiet {w : Var} {span : Span} {u : Unit} {origins : List Origin}
    (ran : (origins.forM fun origin => ctx.touchOrigin w span origin).run l = .ok (u, after))
    (quiet : after.Quiet) : l = after := by
  induction origins generalizing l with
  | nil => exact (Own.run_pure_ok.mp ran).2
  | cons origin rest ih =>
    obtain ⟨_, touched, first, others⟩ := Own.run_bind_ok.mp ran
    obtain rfl := ih others
    rcases ctx.touchOrigin_ok first with ⟨same, -⟩ | ⟨loan, d, -, same⟩
    · exact same.symm
    · obtain ⟨told, member, -⟩ := Ledger.tells_add l.bag (congrArg Ledger.bag same)
      exact absurd (quiet ▸ member) List.not_mem_nil

/-- A use that reports nothing leaves the ledger alone until it is done. -/
theorem Context.touch_quiet {span : Span} {u : Unit} (ran : (ctx.touch id span).run l = .ok (u, after))
    (quiet : after.Quiet) : l = after := by
  obtain ⟨w, _, known, ran⟩ := Own.run_bind_ok.mp ran
  obtain ⟨-, rfl⟩ := var_ok known
  obtain ⟨origins, _, holds, ran⟩ := Own.run_bind_ok.mp ran
  obtain ⟨flow, -, -, rfl⟩ := held_ok holds
  exact touchOrigins_quiet ran quiet

/-- What a step takes, lends or assigns to: a variable that is moved unless its type is copied, or one that a place
starts at which is not reached through a reference. -/
inductive Step.Demands (ctx : Context) (m : Machine) : Step → Nat → Demand → Prop
  | name {info : NodeInfo} {name : String} {id : Nat} {v : Var} (looked : m.ledger.lookup? name = some id)
      (declared : m.ledger.vars[id]? = some v) (taken : v.type.isCopy = false) :
      Demands ctx m (.useName info name .move) id (.move info)
  | part {e : Expr} {p : Place} {id : Nat} (reached : ctx.placeIn m.ledger.scopes e = .ok p)
      (root : p.root = .var id) (direct : p.throughRef = false)
      (taken : (ctx.notes.typeOf e.id).isCopy = false) : Demands ctx m (.usePlace e .move) id (.move e.info)
  | borrow {operand : Expr} {mutable : Bool} {site : NodeInfo} {p : Place} {id : Nat}
      (reached : ctx.placeIn m.ledger.scopes operand = .ok p)
      (root : p.root = .var id ∨ (p.root = .temporary ∧ id = 0)) (direct : p.throughRef = false) :
      Demands ctx m (.borrowPlace operand mutable site) id (.borrow operand mutable site)
  | write {target : Expr} {node : Nat} {p : Place} {id : Nat} {origins : List Origin}
      (reached : ctx.placeIn m.ledger.scopes target = .ok p) (root : p.root = .var id)
      (direct : p.throughRef = false)
      (carried : (ctx.carried node (pure m.top)).run m.ledger = .ok (origins, m.ledger)) :
      Demands ctx m (.write target node) id (.write target origins)

/-- A step that reports nothing does what it demands and nothing else. -/
theorem Step.Demands.ran {s : Step} {d : Demand} {m stop : Machine} (demands : s.Demands ctx m id d)
    (ran : s.run ctx m = .ok stop) (quiet : stop.ledger.Quiet) :
    (d.run ctx id).run m.ledger = .ok ((), stop.ledger) := by
  have move_reports {site : NodeInfo} {l after : Ledger} {u : Unit}
      (moves : (ctx.move id site).run l = .ok (u, after)) : l.bag.contents <+: after.bag.contents := by
    have edits : l.Edits after := ctx.move_edits id site moves
    exact edits.reports
  cases demands with
  | @name info _ _ v looked declared taken =>
    obtain ⟨origins, after, done, rfl⟩ := Machine.yield_ok.mp ran
    obtain ⟨_, _, got, done⟩ := Own.run_bind_ok.mp done
    obtain ⟨rfl, rfl⟩ := Own.run_get_ok.mp got
    simp only [looked] at done
    obtain ⟨_, touched, touches, done⟩ := Own.run_bind_ok.mp done
    obtain ⟨w, _, known, done⟩ := Own.run_bind_ok.mp done
    obtain ⟨found, rfl⟩ := var_ok known
    have kept : m.ledger.Keeps (fun _ => ()) (fun _ => True) touched := ctx.touch_keeps trivial id _ touches
    cases Option.some.inj (declared.symm.trans (kept.vars ▸ found))
    simp only [beq_self_eq_true, taken, Bool.not_false, Bool.and_self, if_true] at done
    obtain ⟨_, moved, moves, done⟩ := Own.run_bind_ok.mp done
    obtain ⟨-, -, -, rfl⟩ := held_ok done
    obtain rfl := Context.touch_quiet touches (quiet.of_reported (move_reports moves))
    exact moves
  | part reached root direct taken =>
    obtain ⟨origins, after, done, rfl⟩ := Machine.yield_ok.mp ran
    obtain ⟨p, _, located, done⟩ := Own.run_bind_ok.mp done
    obtain ⟨found, rfl⟩ := place_ok located
    cases Except.ok.inj (reached.symm.trans found)
    simp only [Context.usePlace, root] at done
    obtain ⟨_, touched, touches, done⟩ := Own.run_bind_ok.mp done
    rw [if_neg (by decide)] at done
    obtain ⟨t, _, typed, done⟩ := Own.run_bind_ok.mp done
    obtain ⟨rfl, rfl⟩ := Context.typeOf_ok typed
    rw [if_neg (by simp [taken]), if_neg (by simp [direct])] at done
    obtain ⟨_, moved, moves, done⟩ := Own.run_bind_ok.mp done
    obtain ⟨-, -, -, rfl⟩ := held_ok done
    obtain rfl := Context.touch_quiet touches (quiet.of_reported (move_reports moves))
    exact moves
  | @borrow operand mutable site p _ reached root direct =>
    obtain ⟨origins, after, done, rfl⟩ := Machine.yield_ok.mp ran
    obtain ⟨q, _, located, done⟩ := Own.run_bind_ok.mp done
    obtain ⟨found, rfl⟩ := place_ok located
    cases Except.ok.inj (reached.symm.trans found)
    have done : (ctx.borrowPlace id p operand mutable site).run m.ledger = .ok (origins, after) := by
      rcases root with root | ⟨root, rfl⟩ <;> simpa only [root] using done
    obtain ⟨v, _, known, done⟩ := Own.run_bind_ok.mp done
    obtain ⟨declared, rfl⟩ := var_ok known
    obtain ⟨_, touched, touches, done⟩ := Own.run_bind_ok.mp done
    rw [if_pos (by simp [direct])] at done
    have kept : m.ledger.Keeps (fun _ => ()) (fun _ => True) touched := ctx.touch_keeps trivial id _ touches
    have edits : touched.Edits after := ctx.borrowVar_edits (kept.vars ▸ declared) trivial done
    obtain rfl := Context.touch_quiet touches (quiet.of_reported edits.reports)
    exact Own.run_bind_ok.mpr ⟨v, m.ledger, known, Own.run_bind_ok.mpr ⟨origins, after, done, rfl⟩⟩
  | write reached root direct carried =>
    obtain ⟨after, done, rfl⟩ := Machine.perform_ok.mp ran
    obtain ⟨_, _, carries, done⟩ := Own.run_bind_ok.mp done
    cases carried.symm.trans carries
    obtain ⟨q, _, located, done⟩ := Own.run_bind_ok.mp done
    obtain ⟨found, rfl⟩ := place_ok located
    cases Except.ok.inj (reached.symm.trans found)
    simp only [root, Context.write, direct] at done
    exact done

/-- On each path through a function, at each of its points, the live loans on a variable are shared or one mutable
loan alone, a moved variable has none, and a step that reports nothing takes the variable that it moves, lends or
assigns to from its state to the one that the rule of the states tells. -/
theorem paths_keep_loans_compatible (ctx : Context) (f : FuncDecl) {p : Machine}
    (reached : (ctx.functionCode f).Along ctx anyRounds {} p) :
    (∀ id, Compatible (p.ledger.loansOn id)) ∧
      (∀ id, p.ledger.flow.Has IsMoved id → p.ledger.loansOn id = []) ∧
      ∀ (s : Step) (stop : Machine) (id : Nat) (d : Demand), s.run ctx p = .ok stop → stop.ledger.Quiet →
        s.Demands ctx p id d → d.Keeps p.ledger id stop.ledger := by
  have disciplined : p.ledger.Disciplined := Ledger.Disciplined.start.along reached
  exact ⟨disciplined.compatible, disciplined.moved, fun s stop id d ran quiet demands =>
    Demand.keeps disciplined (demands.ran ran quiet) quiet⟩

theorem paths_keep_loans_compatible_borrowing :
    let place (id : Nat) : Expr := .ident ⟨id, default⟩ "z"
    let ctx := borrowingContext false false place (.int .i32)
    ∃ p, (ctx.functionCode (borrowing false false place)).Along ctx anyRounds {} p ∧
      (p.ledger.loansOn 0).length = 1 ∧ Compatible (p.ledger.loansOn 0) ∧
      ∃ stop, (Step.borrowPlace (place 13) false ⟨12, default⟩).run ctx p = .ok stop ∧
        (Demand.borrow (place 13) false ⟨12, default⟩).Keeps p.ledger 0 stop.ledger := by
  intro place ctx
  -- The point behind the first borrow, with the second one to come.
  let start := (({} : Machine).enter false default).enter false default
  let stmts := (borrowing false false place).body.stmts
  let early : Code := .seq (codeStmt ctx (stmts.get ⟨0, by decide⟩)) (codeStmt ctx (stmts.get ⟨1, by decide⟩))
  have facts : ∀ x ∈ early.follow ctx anyRounds [] start, x.2.1 = true ∧ (x.1.ledger.loansOn 0).length = 1 ∧
      x.1.ledger.lookup? "z" = some 0 ∧
      ∃ stop ∈ ((Step.borrowPlace (place 13) false ⟨12, default⟩).run ctx x.1).toOption,
        stop.ledger.bag.contents.isEmpty = true := by
    decide +kernel
  have taken : (early.follow ctx anyRounds [] start).isSome = true := by decide +kernel
  obtain ⟨⟨p, ends, rest⟩, found⟩ := Option.isSome_iff_exists.mp taken
  obtain ⟨rfl, lent, looked, stop, done, quiet⟩ := facts _ found
  have path : Path ctx anyRounds (.seq (codeStmt ctx _) (codeStmt ctx _)) start p true := follow_sound early found
  cases path with
  | seq first second =>
    have reached : (ctx.functionCode (borrowing false false place)).Along ctx anyRounds {} p :=
      .scope (.next (.seq .skip .skip) (.discard (.first (.scope (.first (.stop
        (.seq first (.seq second .cut))))))))
    obtain ⟨compatible, -, keeps⟩ := paths_keep_loans_compatible ctx _ reached
    have ran : (Step.borrowPlace (place 13) false ⟨12, default⟩).run ctx p = .ok stop := by
      revert done
      cases (Step.borrowPlace (place 13) false ⟨12, default⟩).run ctx p <;> simp [Except.toOption]
    refine ⟨p, reached, lent, compatible 0, stop, ran, keeps _ stop 0 _ ran (List.isEmpty_iff.mp quiet) ?_⟩
    refine .borrow (p := { root := .var 0 }) ?_ (.inl rfl) rfl
    simp only [Context.placeIn, place]
    rw [← Ledger.lookup?, looked]

end TreeCheck.Ownership
