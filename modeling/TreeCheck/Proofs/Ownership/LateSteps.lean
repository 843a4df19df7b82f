import TreeCheck.Proofs.Ownership.Accepted
import TreeCheck.Proofs.Ownership.Sources

/-!
Variables declared without a value. What each step does to those that have no value so far is known from the
step and the names in scope, and so is what must hold of them for the step not to be refused as a change of
something that is not mutable.
-/

namespace TreeCheck.Ownership

section
-- The equations of these definitions are made here once, so that no proof below waits while another makes them.
attribute [local simp] Context.isWhole State.after State.isBorrowed Step.Rooted borrowSlot transition
end

variable {ctx : Context} {l after : Ledger} {m next : Machine} {j id : Nat}

/-- Declared without a value, and not assigned so far. -/
def IsLate (v : VarFlow) : Prop := v.late = true

theorem joinable_late : Joinable IsLate := by
  intro a b
  simp [IsLate, Flow.joinVar]

namespace Ledger

theorem Keeps.has_late {kinds : Diagnostic.Kind → Prop} (keeps : l.Keeps VarFlow.late kinds after) (id : Nat) :
    after.flow.Has IsLate id ↔ l.flow.Has IsLate id :=
  keeps.has (fun _ _ same late => same.symm.trans late) id

/-- The variable in a slot is not mutable. -/
def Fixed (l : Ledger) (j : Nat) : Prop :=
  ∃ id v, slotIn l.env j = some id ∧ l.vars[id]? = some v ∧ v.mutable = false

theorem Fixed.inside (fixed : l.Fixed j) : j < l.env.length := by
  obtain ⟨id, v, found, -⟩ := fixed
  exact lt_length_of_slotIn found

theorem fixed_iff {v : Var} (found : slotIn l.env j = some id) (declared : l.vars[id]? = some v) :
    l.Fixed j ↔ v.mutable = false := by
  simp [Fixed, found, declared]

theorem Grows.fixed {names : List (String × Option Ty)} (grows : l.Grows names after) (regular : l.Regular)
    (inside : j < l.env.length) : after.Fixed j ↔ l.Fixed j := by
  obtain ⟨id, found⟩ := exists_slotIn inside
  have known := regular.lt_of_slotIn found
  obtain ⟨v, declared⟩ : ∃ v, l.vars[id]? = some v := ⟨_, List.getElem?_eq_getElem known⟩
  have still : after.vars[id]? = some v := (getElem?_of_extends grows.vars known).trans declared
  rw [fixed_iff ((grows.slotIn_eq regular inside).trans found) still, fixed_iff found declared]

/-- Without a declaration the same variables are mutable. -/
theorem Grows.fixed_nil (grows : l.Grows [] after) (regular : l.Regular) : after.Fixed j ↔ l.Fixed j := by
  have env : after.env = l.env := by rw [Ledger.env, grows.scopes_eq, Ledger.env]
  by_cases inside : j < l.env.length
  · exact grows.fixed regular inside
  · exact iff_of_false (fun fixed => inside (env ▸ fixed.inside)) fun fixed => inside fixed.inside

theorem fixed_push (isTemporary : Bool) (span : Span) : (l.push isTemporary span).Fixed j ↔ l.Fixed j := by
  simp [Fixed, push_env]

theorem fixed_pop : l.pop.Fixed j ↔ j < l.pop.env.length ∧ l.Fixed j := by
  constructor
  · intro fixed
    have inside := fixed.inside
    obtain ⟨id, v, found, declared, mutable⟩ := fixed
    exact ⟨inside, id, v, by rwa [← slotIn_pop inside], by rwa [← pop_vars], mutable⟩
  · rintro ⟨inside, id, v, found, declared, mutable⟩
    exact ⟨id, v, by rwa [slotIn_pop inside], by rwa [pop_vars], mutable⟩

/-- A declared variable has the next slot. -/
theorem fixed_declared {x : String × Option Ty} {v : Var} (grows : l.Grows [x] after) (regular : l.Regular)
    (length : after.vars.length = l.vars.length + 1) (added : after.vars[l.vars.length]? = some v) :
    after.Fixed j ↔ l.Fixed j ∨ (j = l.env.length ∧ v.mutable = false) := by
  by_cases inside : j < l.env.length
  · rw [grows.fixed regular inside]
    simp [Nat.ne_of_lt inside]
  · have absent : ¬l.Fixed j := fun fixed => inside fixed.inside
    have grown : after.env.length = l.env.length + 1 := by
      rw [← length_outline, grows.outline regular, List.length_append, length_outline]
      simp [Nat.add_comm]
    simp only [absent, false_or]
    by_cases next : j = l.env.length
    · obtain ⟨id, found⟩ := exists_slotIn (show j < after.env.length by omega)
      obtain ⟨outside, known⟩ := grows.fresh_slot regular (by omega) found
      obtain rfl : id = l.vars.length := by omega
      rw [fixed_iff found added]
      simp [next]
    · refine iff_of_false (fun fixed => ?_) fun last => next last.1
      have := fixed.inside
      omega

end Ledger

/-! ### Declarations -/

namespace Context

theorem fill_keeps_late (origins : List Origin) (id : Nat) (t : Ty) :
    (ctx.fill (some origins) id t).Keeps VarFlow.late (fun _ => True) := by
  simp only [fill]
  split
  · exact adopt_keeps (fun _ _ => rfl) id origins
  · exact .pure ()

theorem fill_late {bound : Option (List Origin)} {t : Ty} {name : String} {mutable : Bool} {span : Span}
    {declared : Ledger} {u : Unit} (named : l.Named) (balanced : l.Balanced)
    (added : l.declare name t mutable span = (id, declared))
    (ran : (ctx.fill bound id t).run declared = .ok (u, after)) :
    (∀ i < l.vars.length, (after.flow.Has IsLate i ↔ l.flow.Has IsLate i)) ∧
      (after.flow.Has IsLate l.vars.length ↔ bound = none) := by
  obtain ⟨scope, shape⟩ := Ledger.declare_eq named name t mutable span
  rw [added] at shape
  obtain ⟨rfl, rfl⟩ := Prod.mk.inj shape
  have before (i : Nat) (inside : i < l.vars.length) :
      ({ l.flow with vars := l.flow.vars ++ [({} : VarFlow)] } : Flow).Has IsLate i ↔ l.flow.Has IsLate i :=
    Flow.has_append_old (by rwa [balanced])
  have added (property : VarFlow → Prop) : ({ l.flow with vars := l.flow.vars ++ [({} : VarFlow)] } : Flow).Has
      property l.vars.length ↔ property {} := by
    rw [← balanced, Flow.has_append_new]
  cases bound with
  | none =>
    obtain rfl := Own.run_modify_ok.mp ran
    refine ⟨fun i inside => ?_, ?_⟩
    · rw [Flow.has_updateVar, if_neg (by omega), before i inside]
    · rw [Flow.has_updateVar, if_pos rfl, added]
      simp [IsLate]
  | some origins =>
    have keeps := fill_keeps_late origins l.vars.length t ran
    refine ⟨fun i inside => (keeps.has_late i).trans (before i inside), ?_⟩
    rw [keeps.has_late, added]
    simp [IsLate]

theorem bindAll_late {bound : Option (List Origin)} {bindings : List Binding} {u : Unit} (regular : l.Regular)
    (ran : (ctx.bindAll bound bindings).run l = .ok (u, after)) (j : Nat) :
    after.Shows IsLate j ↔ l.Shows IsLate j ∨
      (bound = none ∧ l.env.length ≤ j ∧ j < l.env.length + bindings.length) := by
  have each : after.Shows IsLate j ↔ l.Shows IsLate j ∨
      ∃ i b, bindings[i]? = some b ∧ j = l.env.length + i ∧ bound = none := by
    refine bindAll_new regular ran (fun b _ _ _ _ regular added fills grows j => ?_) j
    obtain ⟨old, new⟩ := fill_late regular.named regular.balanced added fills
    exact shows_declared grows regular old (fill_length added fills) new
  rw [each]
  refine or_congr_right ⟨?_, ?_⟩
  · rintro ⟨i, b, found, rfl, none⟩
    have := (List.getElem?_eq_some_iff.mp found).1
    exact ⟨none, by omega, by omega⟩
  · rintro ⟨none, inside, outside⟩
    exact ⟨j - l.env.length, _, List.getElem?_eq_getElem (by omega), by omega, none⟩

theorem bindAll_fixed {bound : Option (List Origin)} {bindings : List Binding} {u : Unit} (regular : l.Regular)
    (ran : (ctx.bindAll bound bindings).run l = .ok (u, after)) (j : Nat) :
    after.Fixed j ↔ l.Fixed j ∨
      ∃ i b, bindings[i]? = some b ∧ j = l.env.length + i ∧ b.mutable = false := by
  refine bindAll_new regular ran (fun b before _ filled _ regular added fills grows j => ?_) j
  obtain ⟨scope, shape⟩ :=
    Ledger.declare_eq regular.named b.name (ctx.notes.typeOf b.info.id) b.mutable b.info.span
  rw [added] at shape
  obtain ⟨rfl, rfl⟩ := Prod.mk.inj shape
  have vars := (fill_keeps bound _ _ fills).vars
  let new : Var :=
    { name := b.name, type := ctx.notes.typeOf b.info.id, mutable := b.mutable, scope, span := b.info.span }
  have last : filled.vars[before.vars.length]? = some new := by simp [vars, new]
  exact Ledger.fixed_declared grows regular (by simp [vars]) last

end Context

theorem declareParam_late {name : String} {type : Ty} {mutable : Bool} {span : Span} {u : Unit}
    (regular : l.Regular) (ran : (declareParam name type mutable span).run l = .ok (u, after)) (j : Nat) :
    (after.Shows IsLate j ↔ l.Shows IsLate j) ∧
      (after.Fixed j ↔ l.Fixed j ∨ (j = l.env.length ∧ mutable = false)) := by
  have grows := (declareParam_grows regular.named ran).1
  have changed := Own.run_modify_ok.mp ran
  obtain ⟨scope, shape⟩ := Ledger.declare_eq regular.named name type mutable span
  rw [shape] at changed
  subst changed
  have balanced := regular.balanced
  constructor
  · have shows : _ ↔ l.Shows IsLate j ∨ (j = l.env.length ∧ False) :=
      shows_declared grows regular (fun id inside => ?_) (by simp) ?_
    · simpa using shows
    · rw [Flow.has_updateVar, if_neg (by omega), Flow.has_append_old (by rwa [balanced])]
    · rw [Flow.has_updateVar, if_pos rfl, ← balanced, Flow.has_append_new]
      cases type.isRef <;> simp [IsLate]
  · have added : ((l.vars ++ [({ name, type, mutable, scope, span } : Var)]).modify l.vars.length fun v =>
        { v with isParam := true })[l.vars.length]? =
          some { name, type, mutable, isParam := true, scope, span } := by simp
    exact Ledger.fixed_declared grows regular (by simp) added

/-! ### Rules -/

theorem transition_fixed {s : State} {action : Action} {mutable : Bool} {violation : Violation}
    (refused : (transition s action mutable).2 = some violation)
    (kind : violation.kind = .mutateThroughImmutableBinding) :
    mutable = false ∧ (action = .borrowMut ∨ action = .write) := by
  unfold transition at refused
  cases result : s.after mutable action with
  | ok next => simp [result] at refused
  | error found =>
    simp only [result, Option.some.injEq] at refused
    subst refused
    subst kind
    cases action <;> cases s <;> cases mutable <;> simp [State.after, State.isBorrowed] at result ⊢

theorem transition_mutable {s : State} {action : Action} {mutable : Bool}
    (allowed : (transition s action mutable).2 = none) (asks : action = .borrowMut ∨ action = .write) :
    mutable = true := by
  rcases asks with rfl | rfl <;> cases mutable <;> cases s <;>
    simp [transition, State.after, State.isBorrowed] at allowed ⊢

/-- What is reported first is a change of something that is not mutable only if there is such a fault, and with
one there is a report. -/
structure Ledger.Charges (fault : Prop) (l after : Ledger) : Prop where
  reports : l.bag.contents <+: after.bag.contents
  charged : l.Quiet → after.lead = some .mutateThroughImmutableBinding → fault
  spared : after.Quiet → ¬fault

namespace Ledger.Charges

variable {γ : Type} {view : VarFlow → γ} {fault other : Prop} {middle : Ledger}

theorem congr (charges : l.Charges fault after) (same : fault ↔ other) : l.Charges other after := by
  rwa [← same]

theorem of_keeps (keeps : l.Keeps view (· ≠ .mutateThroughImmutableBinding) after) (spared : ¬fault) :
    l.Charges fault after :=
  ⟨keeps.reported, fun quiet led => absurd led (keeps.lead_ne quiet), fun _ => spared⟩

/-- Something else is reported. -/
theorem of_loud (keeps : l.Keeps view (· ≠ .mutateThroughImmutableBinding) after) (loud : ¬after.Quiet) :
    l.Charges fault after :=
  ⟨keeps.reported, fun quiet led => absurd led (keeps.lead_ne quiet), fun quiet => absurd quiet loud⟩

theorem refused (reports : l.bag.contents <+: after.bag.contents) (loud : ¬after.Quiet) (found : fault) :
    l.Charges fault after :=
  ⟨reports, fun _ _ => found, fun quiet => absurd quiet loud⟩

theorem behind (first : l.Keeps view (· ≠ .mutateThroughImmutableBinding) middle)
    (next : middle.Charges fault after) : l.Charges fault after := by
  refine ⟨first.reported.trans next.reports, fun quiet led => ?_, next.spared⟩
  by_cases middleQuiet : middle.Quiet
  · exact next.charged middleQuiet led
  · rw [lead_of_reported next.reports middleQuiet] at led
    exact absurd led (first.lead_ne quiet)

theorem ahead (first : l.Charges fault middle)
    (next : middle.Keeps view (· ≠ .mutateThroughImmutableBinding) after) : l.Charges fault after := by
  refine ⟨first.reports.trans next.reported, fun quiet led => ?_,
    fun quiet => first.spared (quiet.of_reported next.reported)⟩
  by_cases middleQuiet : middle.Quiet
  · exact absurd led (next.lead_ne middleQuiet)
  · rw [lead_of_reported next.reported middleQuiet] at led
    exact first.charged quiet led

end Ledger.Charges

namespace Context

variable {origins : List Origin}

/-- A place with the references on the way to it, wherever it starts. -/
def reach (ctx : Context) : Expr → Place
  | .field _ object _ => (ctx.reach object).step (ctx.notes.typeOf object.id)
  | .index _ object _ => (ctx.reach object).step (ctx.notes.typeOf object.id)
  | .deref _ operand => (ctx.reach operand).step (ctx.notes.typeOf operand.id)
  | _ => { root := .temporary }

theorem viaMut_eq {e : Expr} {scopes : List Scope} {p : Place} (found : ctx.placeIn scopes e = .ok p) :
    p.viaMut = (ctx.reach e).viaMut := by
  have stepped (p q : Place) (t : Ty) (same : p.viaMut = q.viaMut) : (p.step t).viaMut = (q.step t).viaMut := by
    unfold Place.step
    cases t <;> simp [same]
  fun_induction ctx.placeIn scopes e generalizing p with
  | case1 _ name id | case2 _ name =>
    cases found
    rfl
  | case3 _ object _ ih | case4 _ object _ ih | case5 _ object ih =>
    obtain ⟨t, typed, found⟩ := bind_ok.mp found
    obtain ⟨inner, reached, found⟩ := bind_ok.mp found
    cases found
    rw [reach, known_ok typed]
    exact stepped _ _ _ (ih reached)
  | case6 e other others further rest =>
    cases found
    cases e <;> simp_all [reach]

theorem borrowVar_charges {v : Var} {operand : Expr} {mutable : Bool} {site : NodeInfo}
    (ran : (ctx.borrowVar id v operand mutable site).run l = .ok (origins, after)) :
    l.Charges (mutable = true ∧ v.mutable = false) after := by
  obtain ⟨s, _, state, ran⟩ := Own.run_bind_ok.mp ran
  obtain ⟨-, -, -, rfl⟩ := stateOf_ok state
  split at ran
  · rename_i allowed
    have keeps : l.Keeps VarFlow.late (· ≠ .mutateThroughImmutableBinding) after :=
      Own.Keeps.bind (lend_keeps _ _ _) (fun _ => .pure _) ran
    refine .of_keeps keeps fun ⟨isMutable, fixed⟩ => ?_
    subst isMutable
    simp [transition_mutable allowed (.inl rfl)] at fixed
  · rename_i violation refused
    split at ran
    · obtain ⟨_, _, reported, ran⟩ := Own.run_bind_ok.mp ran
      obtain ⟨-, rfl⟩ := Own.run_pure_ok.mp ran
      have keeps : l.Keeps VarFlow.late (· ≠ .mutateThroughImmutableBinding) _ :=
        ctx.useAfterMove_keeps nofun id _ reported
      exact .of_loud keeps (useAfterMove_loud reported)
    · rename_i kind
      obtain ⟨_, _, reported, ran⟩ := Own.run_bind_ok.mp ran
      obtain ⟨-, rfl⟩ := Own.run_pure_ok.mp ran
      have keeps : l.Keeps VarFlow.late (fun _ => True) _ := ctx.add_keeps trivial reported
      obtain ⟨fixed, asks⟩ := transition_fixed refused kind
      exact .refused keeps.reported (add_loud reported) ⟨by cases mutable <;> simp_all, fixed⟩
    · obtain ⟨loan, _, blocked, ran⟩ := Own.run_bind_ok.mp ran
      obtain ⟨_, _, reported, ran⟩ := Own.run_bind_ok.mp ran
      obtain ⟨-, rfl⟩ := Own.run_pure_ok.mp ran
      have first : l.Keeps VarFlow.late (· ≠ .mutateThroughImmutableBinding) _ := blocking_keeps id blocked
      have next : Ledger.Keeps VarFlow.late (· ≠ .mutateThroughImmutableBinding) _ _ :=
        ctx.add_keeps (by simp) reported
      exact .of_loud (first.trans next) (add_loud reported)

theorem borrowPlace_charges {p : Place} {v : Var} {operand : Expr} {mutable : Bool} {site : NodeInfo}
    (declared : l.vars[id]? = some v)
    (ran : (ctx.borrowPlace id p operand mutable site).run l = .ok (origins, after)) :
    l.Charges (mutable = true ∧ if p.throughRef then p.viaMut = false else v.mutable = false) after := by
  obtain ⟨w, _, known, ran⟩ := Own.run_bind_ok.mp ran
  obtain ⟨same, rfl⟩ := var_ok known
  obtain rfl : v = w := Option.some.inj (declared.symm.trans same)
  obtain ⟨_, touched, touches, ran⟩ := Own.run_bind_ok.mp ran
  have first : l.Keeps VarFlow.late (· ≠ .mutateThroughImmutableBinding) touched :=
    ctx.touch_keeps nofun id _ touches
  refine .behind first ?_
  split at ran
  · rename_i direct
    simp only [Bool.not_eq_true'] at direct
    simpa [direct] using borrowVar_charges ran
  · rename_i through
    simp only [Bool.not_eq_true', Bool.not_eq_false] at through
    obtain ⟨_, seen, reads, ran⟩ := Own.run_bind_ok.mp ran
    have next : touched.Keeps VarFlow.late (· ≠ .mutateThroughImmutableBinding) seen :=
      ctx.read_keeps nofun id _ reads
    refine .behind next ?_
    simp only [through, if_true]
    split at ran
    · rename_i shared
      obtain ⟨_, _, reported, ran⟩ := Own.run_bind_ok.mp ran
      have keeps : seen.Keeps VarFlow.late (fun _ => True) _ := ctx.add_keeps trivial reported
      have last : Ledger.Keeps VarFlow.late (· ≠ .mutateThroughImmutableBinding) _ after := held_keeps id ran
      exact (Ledger.Charges.refused keeps.reported (add_loud reported) (by simpa using shared)).ahead last
    · rename_i allowed
      have last : seen.Keeps VarFlow.late (· ≠ .mutateThroughImmutableBinding) after := held_keeps id ran
      exact .of_keeps last (by simpa using allowed)

theorem writeVar_charges {v : Var} {target : Expr} {u : Unit} (declared : l.vars[id]? = some v)
    (ran : (ctx.writeVar id target origins).run l = .ok (u, after)) :
    l.Charges (v.mutable = false ∧ ¬(isWhole target = true ∧ l.flow.Has IsLate id)) after := by
  obtain ⟨w, _, known, ran⟩ := Own.run_bind_ok.mp ran
  obtain ⟨same, rfl⟩ := var_ok known
  obtain rfl : v = w := Option.some.inj (declared.symm.trans same)
  obtain ⟨s, _, state, ran⟩ := Own.run_bind_ok.mp ran
  obtain ⟨-, -, -, rfl⟩ := stateOf_ok state
  obtain ⟨flow, _, path, ran⟩ := Own.run_bind_ok.mp ran
  obtain ⟨present, rfl⟩ := varFlow_ok path
  have late : l.flow.Has IsLate id ↔ flow.late = true := by simp [Flow.Has, present, IsLate]
  rw [late]
  split at ran
  · have keeps : l.Keeps VarFlow.late (· ≠ .mutateThroughImmutableBinding) after :=
      ctx.useAfterMove_keeps (by simp) id _ ran
    exact .of_loud keeps (useAfterMove_loud ran)
  · split at ran
    · rename_i violation refused
      split at ran
      · rename_i kind
        have keeps : l.Keeps VarFlow.late (fun _ => True) after := ctx.add_keeps trivial ran
        have fixed := (transition_fixed refused (by simpa using kind)).1
        exact .refused keeps.reported (add_loud ran) (by simpa using fixed)
      · obtain ⟨loan, _, blocked, ran⟩ := Own.run_bind_ok.mp ran
        have first : l.Keeps VarFlow.late (· ≠ .mutateThroughImmutableBinding) _ := blocking_keeps id blocked
        have next : Ledger.Keeps VarFlow.late (· ≠ .mutateThroughImmutableBinding) _ after :=
          ctx.add_keeps (by simp) ran
        exact .of_loud (first.trans next) (add_loud ran)
    · rename_i allowed
      have permitted := transition_mutable allowed (.inr rfl)
      have keeps : l.Keeps (fun _ => ()) (· ≠ .mutateThroughImmutableBinding) after := by
        split at ran
        · refine Own.Keeps.bind (.edit fun l => ?_) (fun _ => ?_) ran
          · apply Ledger.Keeps.updateVar
            intro v
            rfl
          · split
            · exact adopt_keeps (fun _ _ => rfl) id _
            · exact .pure ()
        · refine Own.Keeps.bind (ctx.typeOf_keeps _) (fun _ => ?_) ran
          split
          · exact adopt_keeps (fun _ _ => rfl) id _
          · exact .pure ()
      refine .of_keeps keeps ?_
      rintro ⟨fixed, given⟩
      simp only [fixed, Bool.false_or, Bool.and_eq_true] at permitted
      exact given permitted

theorem write_charges {p : Place} {v : Var} {target : Expr} {u : Unit} (declared : l.vars[id]? = some v)
    (ran : (ctx.write id p target origins).run l = .ok (u, after)) :
    l.Charges (if p.throughRef then p.viaMut = false
      else v.mutable = false ∧ ¬(isWhole target = true ∧ l.flow.Has IsLate id)) after := by
  unfold write at ran
  split at ran
  · rename_i through
    simp only [through, if_true]
    obtain ⟨_, seen, reads, ran⟩ := Own.run_bind_ok.mp ran
    have first : l.Keeps VarFlow.late (· ≠ .mutateThroughImmutableBinding) seen :=
      ctx.read_keeps nofun id _ reads
    refine .behind first ?_
    split at ran
    · rename_i shared
      have keeps : seen.Keeps VarFlow.late (fun _ => True) after := ctx.add_keeps trivial ran
      exact .refused keeps.reported (add_loud ran) (by simpa using shared)
    · rename_i allowed
      obtain ⟨-, rfl⟩ := Own.run_pure_ok.mp ran
      have keeps : seen.Keeps VarFlow.late (· ≠ .mutateThroughImmutableBinding) seen := .refl seen
      exact .of_keeps keeps (by simpa using allowed)
  · rename_i direct
    simp only [direct]
    exact writeVar_charges declared ran

/-- An assignment to a whole variable gives it a value. -/
theorem writeVar_late {target : Expr} {u : Unit} (quiet : after.Quiet)
    (ran : (ctx.writeVar id target origins).run l = .ok (u, after)) (i : Nat) :
    after.flow.Has IsLate i ↔ l.flow.Has IsLate i ∧ ¬(isWhole target = true ∧ i = id) := by
  obtain ⟨w, _, known, ran⟩ := Own.run_bind_ok.mp ran
  obtain ⟨same, rfl⟩ := var_ok known
  obtain ⟨s, _, state, ran⟩ := Own.run_bind_ok.mp ran
  obtain ⟨-, -, -, rfl⟩ := stateOf_ok state
  obtain ⟨flow, _, path, ran⟩ := Own.run_bind_ok.mp ran
  obtain ⟨present, rfl⟩ := varFlow_ok path
  have stored {type : Ty} {given : List Origin} {middle : Ledger}
      (ran : (if ctx.carries type then adopt id given else pure ()).run middle = .ok (u, after)) :
      middle.Keeps VarFlow.late (fun _ => True) after := by
    split at ran
    · exact adopt_keeps (fun _ _ => rfl) _ _ ran
    · obtain ⟨-, rfl⟩ := Own.run_pure_ok.mp ran
      exact .refl _
  split at ran
  · exact absurd quiet (useAfterMove_loud ran)
  · split at ran
    · split at ran
      · exact absurd quiet (add_loud ran)
      · obtain ⟨loan, _, blocked, ran⟩ := Own.run_bind_ok.mp ran
        exact absurd quiet (add_loud ran)
    · split at ran
      · rename_i whole
        obtain ⟨_, _, cleared, ran⟩ := Own.run_bind_ok.mp ran
        obtain rfl := Own.run_modify_ok.mp cleared
        rw [(stored ran).has_late, Flow.has_updateVar]
        by_cases here : i = id
        · simp [here, whole, Flow.Has, IsLate]
        · simp [here]
      · rename_i part
        obtain ⟨t, _, typed, ran⟩ := Own.run_bind_ok.mp ran
        obtain ⟨rfl, rfl⟩ := typeOf_ok typed
        rw [(stored ran).has_late]
        simp [part]

theorem write_late {p : Place} {target : Expr} {u : Unit} (quiet : after.Quiet)
    (through : p.throughRef = ctx.through target)
    (ran : (ctx.write id p target origins).run l = .ok (u, after)) (i : Nat) :
    after.flow.Has IsLate i ↔ l.flow.Has IsLate i ∧ ¬(isWhole target = true ∧ i = id) := by
  unfold write at ran
  split at ran
  · rename_i behind
    -- A whole variable is not reached through a reference.
    have part : isWhole target = false := by
      rw [through] at behind
      cases target <;> simp_all [isWhole, Context.through]
    have keeps : l.Keeps VarFlow.late (fun _ => True) after := by
      refine Own.Keeps.bind (ctx.read_keeps trivial id _) (fun _ => ?_) ran
      split
      · exact ctx.add_keeps trivial
      · exact .pure ()
    simpa [part] using keeps.has_late i
  · exact writeVar_late quiet ran i

end Context

/-! ### Steps -/

namespace Step

def assigned (outline : List (String × Option Ty)) : Step → Option Nat
  | .write target _ => if Context.isWhole target then slotOf outline target else none
  | _ => none

/-- How many variables without a value a step declares. -/
def lateCount : Step → Nat
  | .bindLate bindings => bindings.length
  | _ => 0

/-- Whether a step declares, with a number of new variables before it, one that is not mutable. -/
def Fixes (i : Nat) : Step → Prop
  | .bind bindings | .bindLate bindings => ∃ b, bindings[i]? = some b ∧ b.mutable = false
  | .param _ _ mutable _ => i = 0 ∧ mutable = false
  | _ => False

def Alters (ctx : Context) (l : Ledger) : Step → Prop
  | .borrowPlace operand mutable _ => mutable = true ∧ ∃ j, borrowSlot l.outline operand = some j ∧
      if ctx.through operand then (ctx.reach operand).viaMut = false else l.Fixed j
  | .write target _ => ∃ j, slotOf l.outline target = some j ∧
      if ctx.through target then (ctx.reach target).viaMut = false
      else l.Fixed j ∧ ¬(Context.isWhole target = true ∧ l.Shows IsLate j)
  | _ => False

/-- What has no value after a step has just been declared so, or had none before and is not assigned. -/
theorem run_late {s : Step} (regular : m.ledger.Regular) (quiet : next.ledger.Quiet)
    (ran : s.run ctx m = .ok next) (j : Nat) : next.ledger.Shows IsLate j ↔
      (m.ledger.Shows IsLate j ∧ s.assigned m.ledger.outline ≠ some j) ∨
        (m.ledger.env.length ≤ j ∧ j < m.ledger.env.length + s.lateCount) := by
  have fresh : ¬(m.ledger.env.length ≤ j ∧ j < m.ledger.env.length + 0) := by omega
  cases s with
  | bind bindings =>
    obtain ⟨l, done, rfl⟩ := Machine.perform_ok.mp ran
    simp [Context.bindAll_late regular done j, assigned, lateCount, fresh, -Nat.add_zero]
  | bindLate bindings =>
    obtain ⟨l, done, rfl⟩ := Machine.perform_ok.mp ran
    simp [Context.bindAll_late regular done j, assigned, lateCount]
  | param name type mutable span =>
    obtain ⟨l, done, rfl⟩ := Machine.perform_ok.mp ran
    simp [(declareParam_late regular done j).1, assigned, lateCount, fresh, -Nat.add_zero]
  | write target node =>
    have scopes := (run_keeps rfl ran).scopes
    obtain ⟨l, done, rfl⟩ := Machine.perform_ok.mp ran
    have env : l.env = m.ledger.env := by rw [Ledger.env, scopes, Ledger.env]
    obtain ⟨origins, _, carried, done⟩ := Own.run_bind_ok.mp done
    obtain rfl := carried_pure_ok carried
    obtain ⟨p, _, located, done⟩ := Own.run_bind_ok.mp done
    obtain ⟨reached, rfl⟩ := place_ok located
    simp only [assigned, lateCount, fresh, or_false]
    rcases place_start reached with ⟨noRoot, temporary⟩ | ⟨root, -, noSlot, unbound⟩ |
      ⟨info, name, k, id, -, slot, inScope, -, bound⟩
    · simp only [temporary] at done
      obtain ⟨-, rfl⟩ := Own.run_pure_ok.mp done
      simp [slotOf, noRoot]
    · simp only [unbound] at done
      obtain ⟨-, rfl⟩ := Own.run_pure_ok.mp done
      simp [noSlot]
    · simp only [bound] at done
      have late := Context.write_late quiet (Context.throughRef_eq reached) done
      rw [slot]
      cases other : slotIn m.ledger.env j with
      | none => simp [Ledger.Shows, env, other]
      | some i =>
        rw [Ledger.shows_iff (show slotIn l.env j = some i by rw [env, other]), Ledger.shows_iff other, late]
        have same : i = id ↔ k = j := by
          constructor
          · rintro rfl
            exact slotIn_inj regular.distinct inScope other
          · rintro rfl
            exact Option.some.inj (other.symm.trans inScope)
        cases Context.isWhole target <;> simp [same]
  | _ =>
    have keeps : m.ledger.Keeps VarFlow.late (fun _ => True) next.ledger :=
      run_keeps_view rfl (fun _ _ => rfl) (fun writes => by cases writes) trivial trivial trivial
        (fun _ => trivial) (fun _ => trivial) ran
    have env : next.ledger.env = m.ledger.env := by rw [Ledger.env, keeps.scopes, Ledger.env]
    have same := Ledger.shows_congr (j := j) env fun id _ => keeps.has_late id
    simp [same, assigned, lateCount, fresh, -Nat.add_zero]

/-- What is not mutable after a step was not mutable before, or has just been declared so. -/
theorem run_fixed {s : Step} (regular : m.ledger.Regular) (ran : s.run ctx m = .ok next) (j : Nat) :
    next.ledger.Fixed j ↔ m.ledger.Fixed j ∨
      (m.ledger.env.length ≤ j ∧ s.Fixes (j - m.ledger.env.length)) := by
  have kept (bindings : List Binding) : (∃ i b, bindings[i]? = some b ∧ j = m.ledger.env.length + i ∧
      b.mutable = false) ↔ m.ledger.env.length ≤ j ∧
        ∃ b, bindings[j - m.ledger.env.length]? = some b ∧ b.mutable = false := by
    constructor
    · rintro ⟨i, b, found, rfl, fixed⟩
      exact ⟨by omega, b, by simpa using found, fixed⟩
    · rintro ⟨outside, b, found, fixed⟩
      exact ⟨_, b, found, by omega, fixed⟩
  cases s with
  | bind bindings | bindLate bindings =>
    obtain ⟨l, done, rfl⟩ := Machine.perform_ok.mp ran
    rw [Context.bindAll_fixed regular done j, kept, Fixes]
  | param name type mutable span =>
    obtain ⟨l, done, rfl⟩ := Machine.perform_ok.mp ran
    rw [(declareParam_late regular done j).2, Fixes]
    refine or_congr_right ⟨?_, ?_⟩
    · rintro ⟨place, fixed⟩
      exact ⟨by omega, by omega, fixed⟩
    · rintro ⟨outside, place, fixed⟩
      exact ⟨by omega, fixed⟩
  | _ =>
    have grows : m.ledger.Grows [] next.ledger := .of_keeps (run_keeps rfl ran)
    simp [grows.fixed_nil regular, Fixes]

/-- A step is refused as a change of something that is not mutable if it is one. -/
theorem run_charges {s : Step} (regular : m.ledger.Regular)
    (rooted : s.Rooted ∨ slotIn m.ledger.env 0 = some 0) (ran : s.run ctx m = .ok next) :
    m.ledger.Charges (s.Alters ctx m.ledger) next.ledger := by
  have declared {j id : Nat} (inScope : slotIn m.ledger.env j = some id) : ∃ v, m.ledger.vars[id]? = some v :=
    ⟨_, List.getElem?_eq_getElem (regular.lt_of_slotIn inScope)⟩
  have unreported (bag : next.ledger.bag = m.ledger.bag) : m.ledger.Charges False next.ledger := by
    refine ⟨by simp [bag], fun quiet led => ?_, fun _ => id⟩
    have still : next.ledger.Quiet := by rw [Ledger.Quiet, bag, quiet]
    simp [Ledger.lead_of_quiet still] at led
  cases s with
  | bind bindings | bindLate bindings =>
    obtain ⟨l, done, rfl⟩ := Machine.perform_ok.mp ran
    exact unreported (Context.bindAll_bag done)
  | param name type mutable span =>
    obtain ⟨l, done, rfl⟩ := Machine.perform_ok.mp ran
    have changed := Own.run_modify_ok.mp done
    exact unreported (by rw [← changed]; rfl)
  | borrowPlace operand mutable site =>
    obtain ⟨origins, l, done, rfl⟩ := Machine.yield_ok.mp ran
    obtain ⟨p, _, located, done⟩ := Own.run_bind_ok.mp done
    obtain ⟨reached, rfl⟩ := place_ok located
    rcases place_start reached with ⟨noRoot, temporary⟩ | ⟨root, hasRoot, noSlot, unbound⟩ |
      ⟨info, name, k, id, hasRoot, slot, inScope, -, bound⟩
    · have anchor : slotIn m.ledger.env 0 = some 0 := by simpa [Rooted, noRoot] using rooted
      obtain ⟨v, known⟩ := declared anchor
      simp only [temporary] at done
      refine (Context.borrowPlace_charges known done).congr ?_
      simp [Alters, borrowSlot, noRoot, Context.throughRef_eq reached, Context.viaMut_eq reached,
        Ledger.fixed_iff anchor known]
    · simp only [unbound] at done
      obtain ⟨-, rfl⟩ := Own.run_pure_ok.mp done
      refine (unreported rfl).congr ?_
      simp [Alters, borrowSlot, hasRoot, noSlot]
    · obtain ⟨v, known⟩ := declared inScope
      simp only [bound] at done
      refine (Context.borrowPlace_charges known done).congr ?_
      simp [Alters, borrowSlot, hasRoot, slot, Context.throughRef_eq reached, Context.viaMut_eq reached,
        Ledger.fixed_iff inScope known]
  | write target node =>
    obtain ⟨l, done, rfl⟩ := Machine.perform_ok.mp ran
    obtain ⟨origins, _, carried, done⟩ := Own.run_bind_ok.mp done
    obtain rfl := carried_pure_ok carried
    obtain ⟨p, _, located, done⟩ := Own.run_bind_ok.mp done
    obtain ⟨reached, rfl⟩ := place_ok located
    rcases place_start reached with ⟨noRoot, temporary⟩ | ⟨root, -, noSlot, unbound⟩ |
      ⟨info, name, k, id, -, slot, inScope, -, bound⟩
    · simp only [temporary] at done
      obtain ⟨-, rfl⟩ := Own.run_pure_ok.mp done
      refine (unreported rfl).congr ?_
      simp [Alters, slotOf, noRoot]
    · simp only [unbound] at done
      obtain ⟨-, rfl⟩ := Own.run_pure_ok.mp done
      refine (unreported rfl).congr ?_
      simp [Alters, noSlot]
    · obtain ⟨v, known⟩ := declared inScope
      simp only [bound] at done
      refine (Context.write_charges known done).congr ?_
      simp [Alters, slot, Context.throughRef_eq reached, Context.viaMut_eq reached,
        Ledger.fixed_iff inScope known, Ledger.shows_iff inScope]
  | _ =>
    have keeps : m.ledger.Keeps VarFlow.late (· ≠ .mutateThroughImmutableBinding) next.ledger :=
      run_keeps_view rfl (fun _ _ => rfl) (fun writes => by cases writes) (by simp) (by simp) (by simp)
        (fun changes => by cases changes) (by simp) ran
    exact .of_keeps keeps fun alters => alters

end Step

end TreeCheck.Ownership
