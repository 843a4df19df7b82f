import TreeCheck.Proofs.Failing
import TreeCheck.Proofs.Ownership.Growth

/-!
Runs of code and paths through it declare the same names with the same types. Arms and loops declare
nothing that outlasts them, and whether a run ends in a return is known from the code.
-/

namespace TreeCheck.Ownership

section
-- The equations of these definitions are made here once, so that no proof below waits while another makes them.
attribute [local simp] Code.rounds Code.run Code.runArms Flow.merge Machine.again Machine.enter Machine.exit
  Machine.gathered Machine.looped Machine.resume Machine.withFlow
end

namespace Code

/-- Code whose arms and loops declare nothing that outlasts them. The flag tells whether the code itself
may declare something that does. -/
inductive Tidy : Bool → Code → Prop
  | skip {declares : Bool} : Tidy declares .skip
  | step {declares : Bool} {s : Step} (allowed : s.declares = true → declares = true) :
      Tidy declares (.step s)
  | seq {declares : Bool} {first next : Code} (start : Tidy declares first)
      (rest : Tidy declares next) : Tidy declares (.seq first next)
  | discard {declares : Bool} {body : Code} (inner : Tidy declares body) :
      Tidy declares (.discard body)
  | temporary {declares : Bool} {span : Span} {body : Code} (inner : Tidy declares body) :
      Tidy declares (.scope true span body)
  | named {declares : Bool} {span : Span} {body : Code} (inner : Tidy true body) :
      Tidy declares (.scope false span body)
  | choice {declares : Bool} {arms : List Code} (each : ∀ arm ∈ arms, Tidy false arm) :
      Tidy declares (.choice arms)
  | loop {declares : Bool} {test round : Code} (condition : Tidy false test)
      (body : Tidy false round) : Tidy declares (.loop test round)
  | leave {declares : Bool} : Tidy declares .leave

/-- The names declared by code that outlast it, with their types. -/
def declared (ctx : Context) : Code → List (String × Option Ty)
  | .step s => s.declared ctx
  | .seq first next => next.declared ctx ++ first.declared ctx
  | .discard body => body.declared ctx
  | .scope isTemporary _ body => if isTemporary then body.declared ctx else []
  | .skip | .choice _ | .loop .. | .leave => []

theorem Tidy.declared_eq_nil {ctx : Context} {c : Code} (tidy : Tidy false c) :
    c.declared ctx = [] := by
  generalize declaresNothing : false = declares at tidy
  induction tidy with
  | skip | named | choice | loop | leave => simp [declared]
  | step allowed =>
    refine Step.declared_eq_nil ?_
    subst declaresNothing
    simpa using allowed
  | seq _ _ first next => simp [declared, first declaresNothing, next declaresNothing]
  | discard _ ih | temporary _ ih => simp [declared, ih declaresNothing]

theorem Tidy.grows_nil {ctx : Context} {c : Code} {l after : Ledger} (tidy : Tidy false c)
    (grows : l.Grows (c.declared ctx) after) : l.Grows [] after := by
  rwa [tidy.declared_eq_nil] at grows

theorem Tidy.inner {isTemporary : Bool} {span : Span} {body : Code} {declares : Bool}
    (tidy : Tidy declares (.scope isTemporary span body)) : ∃ more, Tidy more body := by
  cases tidy with
  | temporary inner | named inner => exact ⟨_, inner⟩

theorem Tidy.mayDeclare {c : Code} {declares : Bool} (tidy : Tidy declares c) : Tidy true c := by
  induction tidy with
  | skip => exact .skip
  | step => exact .step fun _ => rfl
  | seq _ _ first next => exact .seq first next
  | discard _ ih => exact .discard ih
  | temporary _ ih => exact .temporary ih
  | named _ ih => exact .named ih
  | choice each => exact .choice each
  | loop condition body => exact .loop condition body
  | leave => exact .leave

mutual

/-- Whether every way through code returns from the function. -/
def leaves : Code → Bool
  | .skip | .step _ => false
  | .seq first next => first.leaves || next.leaves
  | .discard body => body.leaves
  | .scope _ _ body => body.leaves
  | .choice arms => !arms.isEmpty && allLeave arms
  | .loop test _ => test.leaves
  | .leave => true

def allLeave : List Code → Bool
  | [] => true
  | arm :: rest => arm.leaves && allLeave rest

end

theorem allLeave_eq_all (arms : List Code) : allLeave arms = arms.all leaves := by
  induction arms with
  | nil => rfl
  | cons arm rest ih => simp [allLeave, ih]

/-- What running code does to a machine, whatever the code does in detail. -/
structure Ran (ctx : Context) (c : Code) (m after : Machine) : Prop where
  grows : m.ledger.Grows (c.declared ctx) after.ledger
  balanced : m.ledger.Balanced → after.ledger.Balanced
  diverged : after.ledger.flow.diverged = (m.ledger.flow.diverged || c.leaves)
  found : ∀ origin ∈ m.found, origin ∈ after.found

/-- One arm of a choice as it is run: it starts with the scopes, the values and the flow from before the
choice, and later arms only add to the ledger. -/
structure ArmRun (ctx : Context) (m : Machine) (before : Flow) (arm : Code)
    (start after last : Machine) : Prop where
  ran : arm.run ctx start = .ok after
  grows : m.ledger.Grows [] start.ledger
  restored : ∃ extra, start.ledger.flow = { before with vars := before.vars ++ extra }
  values : start.values = m.values
  result : Ran ctx arm start after
  later : after.ledger.Grows [] last.ledger
  balanced : m.ledger.Balanced → before.vars.length ≤ m.ledger.vars.length →
    start.ledger.Balanced ∧ after.ledger.Balanced ∧ last.ledger.Balanced
  found : ∀ origin ∈ after.found, origin ∈ last.found

variable {ctx : Context}

theorem run_seq_ok {first next : Code} {m after : Machine}
    (ran : (Code.seq first next).run ctx m = .ok after) :
    ∃ middle, first.run ctx m = .ok middle ∧ next.run ctx middle = .ok after := by
  simp only [run] at ran
  exact bind_ok.mp ran

theorem run_discard_ok {body : Code} {m after : Machine}
    (ran : (Code.discard body).run ctx m = .ok after) :
    ∃ inner, body.run ctx m = .ok inner ∧ m.resume inner = after := by
  simp only [run] at ran
  obtain ⟨inner, innerRan, ended⟩ := bind_ok.mp ran
  exact ⟨inner, innerRan, Except.ok.inj ended⟩

theorem run_scope_ok {isTemporary : Bool} {span : Span} {body : Code} {m after : Machine}
    (ran : (Code.scope isTemporary span body).run ctx m = .ok after) :
    ∃ inner, body.run ctx (m.enter isTemporary span) = .ok inner ∧ inner.exit = after := by
  simp only [run] at ran
  obtain ⟨inner, innerRan, ended⟩ := bind_ok.mp ran
  exact ⟨inner, innerRan, Except.ok.inj ended⟩

theorem run_choice_ok {arms : List Code} {m after : Machine}
    (ran : (Code.choice arms).run ctx m = .ok after) :
    ∃ last ends, runArms ctx arms m.ledger.flow { m with found := [] } = .ok (last, ends) ∧
      m.gathered (last.withFlow (last.ledger.flow.merge ends)) = after := by
  simp only [run] at ran
  obtain ⟨⟨last, ends⟩, armsRan, ended⟩ := bind_ok.mp ran
  exact ⟨last, ends, armsRan, Except.ok.inj ended⟩

/-- The arms of a choice as they are run, with the flows at their ends. -/
structure ArmsRun (ctx : Context) (arms : List Code) (m : Machine) (before : Flow) (last : Machine)
    (ends : List Flow) : Prop where
  grows : m.ledger.Grows [] last.ledger
  balanced : m.ledger.Balanced → before.vars.length ≤ m.ledger.vars.length → last.ledger.Balanced
  found : ∀ origin ∈ m.found, origin ∈ last.found
  each : ∀ arm ∈ arms, ∃ start after, ArmRun ctx m before arm start after last ∧
    after.ledger.flow ∈ ends
  only : ∀ e ∈ ends, ∃ arm ∈ arms, ∃ start after, ArmRun ctx m before arm start after last ∧
    after.ledger.flow = e

theorem ArmRun.earlier {m middle : Machine} {before : Flow} {arm : Code} {start after last : Machine}
    (run : ArmRun ctx middle before arm start after last) (grows : m.ledger.Grows [] middle.ledger)
    (values : middle.values = m.values) (balanced : m.ledger.Balanced →
      before.vars.length ≤ m.ledger.vars.length → middle.ledger.Balanced) :
    ArmRun ctx m before arm start after last := by
  refine ⟨run.ran, grows.trans run.grows, run.restored, run.values.trans values, run.result,
    run.later, fun start shorter => ?_, run.found⟩
  exact run.balanced (balanced start shorter) (Nat.le_trans shorter grows.vars.length_le)

theorem ArmsRun.head {arm : Code} {rest : List Code} {before : Flow} {m after last : Machine} {ends : List Flow}
    (others : ArmsRun ctx rest { after with values := m.values } before last ends)
    (ran : arm.run ctx (m.withFlow (m.ledger.flow.restore before)) = .ok after)
    (result : Ran ctx arm (m.withFlow (m.ledger.flow.restore before)) after) :
    ArmRun ctx m before arm (m.withFlow (m.ledger.flow.restore before)) after last := by
  have started : m.ledger.Grows [] (m.withFlow (m.ledger.flow.restore before)).ledger := .withFlow _ _
  have longer : m.ledger.vars.length ≤ after.ledger.vars.length := result.grows.vars.length_le
  refine ⟨ran, started, ⟨_, rfl⟩, rfl, result, others.grows, fun balanced shorter => ?_, others.found⟩
  have startBalanced : (m.withFlow (m.ledger.flow.restore before)).ledger.Balanced := by
    rw [← balanced] at shorter
    exact (Flow.length_restore shorter).trans balanced
  have afterBalanced := result.balanced startBalanced
  exact ⟨startBalanced, afterBalanced, others.balanced afterBalanced (Nat.le_trans shorter longer)⟩

theorem runArms_ran {arms : List Code}
    (each : ∀ arm ∈ arms, ∀ {m after : Machine}, arm.run ctx m = .ok after →
      Ran ctx arm m after ∧ m.ledger.Grows [] after.ledger)
    {before : Flow} {m last : Machine} {ends : List Flow}
    (ran : runArms ctx arms before m = .ok (last, ends)) : ArmsRun ctx arms m before last ends := by
  induction arms generalizing m ends with
  | nil =>
    cases ran
    exact ⟨.refl _, fun balanced _ => balanced, fun _ member => member, by simp, by simp⟩
  | cons arm rest ih =>
    simp only [runArms] at ran
    obtain ⟨after, armRan, others⟩ := bind_ok.mp ran
    obtain ⟨⟨last, restEnds⟩, restRan, ended⟩ := bind_ok.mp others
    cases ended
    obtain ⟨result, armGrows⟩ := each arm List.mem_cons_self armRan
    have restRuns := ih (fun other member => each other (List.mem_cons_of_mem _ member))
      (m := { after with values := m.values }) restRan
    have run := restRuns.head armRan result
    have grows : m.ledger.Grows [] after.ledger := run.grows.trans armGrows
    have balanced (start : m.ledger.Balanced) (shorter : before.vars.length ≤ m.ledger.vars.length) :
        after.ledger.Balanced := (run.balanced start shorter).2.1
    refine ⟨grows.trans restRuns.grows, fun start shorter => (run.balanced start shorter).2.2,
      fun origin member => restRuns.found origin (result.found origin member), ?_, ?_⟩
    · rw [List.forall_mem_cons]
      refine ⟨⟨_, after, run, List.mem_cons_self⟩, fun other member => ?_⟩
      obtain ⟨start, stop, otherRun, ended⟩ := restRuns.each other member
      exact ⟨start, stop, otherRun.earlier grows rfl balanced, List.mem_cons_of_mem _ ended⟩
    · rw [List.forall_mem_cons]
      refine ⟨⟨arm, List.mem_cons_self, _, after, run, rfl⟩, fun e member => ?_⟩
      obtain ⟨other, inRest, start, stop, otherRun, ended⟩ := restRuns.only e member
      exact ⟨other, List.mem_cons_of_mem _ inRest, start, stop, otherRun.earlier grows rfl balanced,
        ended⟩

/-- An arm is run after those before it, and before those after it. -/
theorem runArms_append_ok {front back : List Code} {arm : Code} {before : Flow} {m last : Machine}
    {ends : List Flow} (ran : runArms ctx (front ++ arm :: back) before m = .ok (last, ends)) :
    ∃ middle early stopped late, runArms ctx front before m = .ok (middle, early) ∧
      arm.run ctx (middle.withFlow (middle.ledger.flow.restore before)) = .ok stopped ∧
      runArms ctx back before { stopped with values := middle.values } = .ok (last, late) := by
  induction front generalizing m ends with
  | nil =>
    simp only [List.nil_append, runArms] at ran
    obtain ⟨stopped, armRan, others⟩ := bind_ok.mp ran
    obtain ⟨⟨_, late⟩, later, ended⟩ := bind_ok.mp others
    cases ended
    exact ⟨m, [], stopped, late, rfl, armRan, later⟩
  | cons first rest ih =>
    simp only [List.cons_append, runArms] at ran
    obtain ⟨after, firstRan, others⟩ := bind_ok.mp ran
    obtain ⟨⟨_, restEnds⟩, restRan, ended⟩ := bind_ok.mp others
    cases ended
    obtain ⟨middle, early, stopped, late, earlier, result⟩ := ih restRan
    refine ⟨middle, after.ledger.flow :: early, stopped, late, ?_, result⟩
    rw [runArms]
    exact bind_ok.mpr ⟨after, firstRan, bind_ok.mpr ⟨_, earlier, rfl⟩⟩

theorem ArmRun.diverged {m : Machine} {before : Flow} {arm : Code} {start after last : Machine}
    (run : ArmRun ctx m before arm start after last) :
    after.ledger.flow.diverged = (before.diverged || arm.leaves) := by
  obtain ⟨extra, restored⟩ := run.restored
  rw [run.result.diverged, restored]

theorem ArmsRun.diverged {arms : List Code} {m : Machine} {before : Flow} {last : Machine}
    {ends : List Flow} (runs : ArmsRun ctx arms m before last ends) :
    ends.all Flow.diverged = (before.diverged || allLeave arms) := by
  rw [allLeave_eq_all, Bool.eq_iff_iff, List.all_eq_true, Bool.or_eq_true, List.all_eq_true]
  constructor
  · intro all
    by_cases stopped : before.diverged = true
    · exact .inl stopped
    · refine .inr fun arm member => ?_
      obtain ⟨start, after, run, ended⟩ := runs.each arm member
      simpa [run.diverged, stopped] using all _ ended
  · intro all e member
    obtain ⟨arm, inArms, start, after, run, rfl⟩ := runs.only e member
    rw [run.diverged, Bool.or_eq_true]
    exact all.imp_right fun each => each arm inArms

theorem ArmRun.lengths {m : Machine} {before : Flow} {arm : Code} {start after last : Machine}
    (run : ArmRun ctx m before arm start after last) (balanced : m.ledger.Balanced)
    (shorter : before.vars.length ≤ m.ledger.vars.length) :
    before.vars.length ≤ after.ledger.flow.vars.length ∧
      after.ledger.flow.vars.length ≤ last.ledger.flow.vars.length := by
  obtain ⟨-, afterBalanced, lastBalanced⟩ := run.balanced balanced shorter
  have := run.later.vars.length_le
  have := run.result.grows.vars.length_le
  have := run.grows.vars.length_le
  rw [afterBalanced, lastBalanced]
  omega

theorem ArmsRun.lengths {arms : List Code} {m : Machine} {before : Flow} {last : Machine}
    {ends : List Flow} (runs : ArmsRun ctx arms m before last ends) (balanced : m.ledger.Balanced)
    (shorter : before.vars.length ≤ m.ledger.vars.length) :
    ∀ e ∈ ends, before.vars.length ≤ e.vars.length ∧ e.vars.length ≤ last.ledger.flow.vars.length := by
  intro e member
  obtain ⟨arm, inArms, start, after, run, rfl⟩ := runs.only e member
  exact run.lengths balanced shorter

/-- The parts of a loop as they are run, the first round being followed by a second one. -/
structure LoopRun (ctx : Context) (test round : Code)
    (m first once retested twice : Machine) : Prop where
  tested : test.run ctx m = .ok first
  rounded : round.run ctx (m.resume first) = .ok once
  testedAgain : test.run ctx (m.resume (first.again once)) = .ok retested
  roundedAgain : round.run ctx (m.resume retested) = .ok twice

theorem run_loop_ok {test round : Code} {m after : Machine}
    (ran : (Code.loop test round).run ctx m = .ok after) : ∃ first once retested twice,
      LoopRun ctx test round m first once retested twice ∧
        m.resume (m.looped first once twice) = after := by
  simp only [run] at ran
  obtain ⟨first, tested, ran⟩ := bind_ok.mp ran
  obtain ⟨once, rounded, ran⟩ := bind_ok.mp ran
  obtain ⟨retested, testedAgain, ran⟩ := bind_ok.mp ran
  obtain ⟨twice, roundedAgain, ran⟩ := bind_ok.mp ran
  exact ⟨first, once, retested, twice, ⟨tested, rounded, testedAgain, roundedAgain⟩,
    Except.ok.inj ran⟩

/-- The ledgers of a loop grow from part to part. -/
structure LoopGrowth (m first once retested twice : Machine) : Prop where
  toFirst : m.ledger.Grows [] first.ledger
  toOnce : first.ledger.Grows [] once.ledger
  toAgain : once.ledger.Grows [] (first.again once).ledger
  toRetested : (first.again once).ledger.Grows [] retested.ledger
  toTwice : retested.ledger.Grows [] twice.ledger
  toEnd : twice.ledger.Grows [] (m.looped first once twice).ledger

theorem again_grows (first once : Machine) :
    once.ledger.Grows [] (first.again once).ledger :=
  .withFlow _ _

theorem again_balanced {first once : Machine} (firstBalanced : first.ledger.Balanced)
    (onceBalanced : once.ledger.Balanced) (grows : first.ledger.Grows [] once.ledger) :
    (first.again once).ledger.Balanced := by
  have longer := grows.vars.length_le
  rw [← firstBalanced, ← onceBalanced] at longer
  unfold Ledger.Balanced Machine.again Machine.withFlow
  split
  · exact (Flow.length_restore longer).trans onceBalanced
  · exact onceBalanced

theorem looped_balanced {m first once twice : Machine} (firstBalanced : first.ledger.Balanced)
    (onceBalanced : once.ledger.Balanced) (twiceBalanced : twice.ledger.Balanced)
    (firstGrows : first.ledger.Grows [] twice.ledger)
    (onceGrows : once.ledger.Grows [] twice.ledger) :
    (m.looped first once twice).ledger.Balanced := by
  have firstShorter := firstGrows.vars.length_le
  have onceShorter := onceGrows.vars.length_le
  rw [← firstBalanced, ← twiceBalanced] at firstShorter
  rw [← onceBalanced, ← twiceBalanced] at onceShorter
  have lengths : ∀ p ∈ [first.ledger.flow, once.ledger.flow, twice.ledger.flow],
      p.vars.length ≤ twice.ledger.flow.vars.length := by
    simp [firstShorter, onceShorter]
  have merged := (Flow.length_merge lengths).trans twiceBalanced
  unfold Ledger.Balanced Machine.looped Machine.withFlow
  split <;> exact merged

theorem LoopRun.growth {test round : Code} {m first once retested twice : Machine}
    (parts : LoopRun ctx test round m first once retested twice)
    (testRan : ∀ {m after : Machine}, test.run ctx m = .ok after → m.ledger.Grows [] after.ledger)
    (roundRan : ∀ {m after : Machine}, round.run ctx m = .ok after →
      m.ledger.Grows [] after.ledger) : LoopGrowth m first once retested twice :=
  ⟨testRan parts.tested, roundRan (m := m.resume first) parts.rounded, again_grows first once,
    testRan (m := m.resume (first.again once)) parts.testedAgain,
    roundRan (m := m.resume retested) parts.roundedAgain, .withFlow _ _⟩

theorem diverged_looped {m first once twice : Machine} {starts leavesTest : Bool}
    (before : m.ledger.flow.diverged = starts)
    (tested : first.ledger.flow.diverged = (starts || leavesTest))
    (onceDiverges : first.ledger.flow.diverged = true → once.ledger.flow.diverged = true)
    (twiceDiverges : first.ledger.flow.diverged = true → twice.ledger.flow.diverged = true) :
    (m.looped first once twice).ledger.flow.diverged = (starts || leavesTest) := by
  have merged : (twice.ledger.flow.merge
      [first.ledger.flow, once.ledger.flow, twice.ledger.flow]).diverged =
      [first.ledger.flow, once.ledger.flow, twice.ledger.flow].all Flow.diverged :=
    Flow.diverged_merge _ (by simp)
  simp only [Machine.looped, Machine.withFlow, before]
  cases starts with
  | true => simp
  | false =>
    simp only [Bool.false_or] at tested
    simp only [Bool.false_eq_true, if_false, Bool.false_or, merged]
    cases leavesTest with
    | false => simp [tested]
    | true => simp [tested, onceDiverges tested, twiceDiverges tested]

/-- Running tidy code declares what it says, and returns if it says so. -/
theorem Tidy.ran {declares : Bool} {c : Code} (tidy : Tidy declares c) {m after : Machine}
    (named : declares = true → m.ledger.Named) (ran : c.run ctx m = .ok after) :
    Ran ctx c m after := by
  induction tidy generalizing m after with
  | skip =>
    cases ran
    exact ⟨.refl _, id, by simp [leaves], fun _ member => member⟩
  | step allowed =>
    obtain ⟨grows, balanced, diverged⟩ := Step.run_grows (named ∘ allowed) ran
    exact ⟨grows, balanced, by simpa [leaves] using diverged, Step.run_found ran⟩
  | seq _ _ first next =>
    obtain ⟨middle, started, rest⟩ := run_seq_ok ran
    have early := first named started
    have late := next (fun mayDeclare => early.grows.named (named mayDeclare)) rest
    refine ⟨early.grows.trans late.grows, late.balanced ∘ early.balanced, ?_, fun origin member =>
      late.found origin (early.found origin member)⟩
    rw [late.diverged, early.diverged, leaves, Bool.or_assoc]
  | discard _ ih =>
    obtain ⟨inner, innerRan, rfl⟩ := run_discard_ok ran
    have result := ih named innerRan
    exact ⟨result.grows, result.balanced, result.diverged, fun _ member => member⟩
  | temporary _ ih =>
    obtain ⟨inner, innerRan, rfl⟩ := run_scope_ok ran
    have result := ih (fun mayDeclare => (named mayDeclare).push true _) innerRan
    refine ⟨result.grows.pop_temporary, ?_, ?_, result.found⟩
    · simpa [Ledger.Balanced, Machine.exit, Machine.enter] using result.balanced
    · simpa [Machine.exit, Machine.enter, leaves] using result.diverged
  | named _ ih =>
    obtain ⟨inner, innerRan, rfl⟩ := run_scope_ok ran
    have result := ih (fun _ => Ledger.named_push _ _) innerRan
    refine ⟨result.grows.pop_named, ?_, ?_, result.found⟩
    · simpa [Ledger.Balanced, Machine.exit, Machine.enter] using result.balanced
    · simpa [Machine.exit, Machine.enter, leaves] using result.diverged
  | @choice _ arms each ih =>
    obtain ⟨last, ends, armsRan, rfl⟩ := run_choice_ok ran
    have runs := runArms_ran (m := { m with found := [] })
      (fun arm member _ _ ran =>
        have result := ih arm member (by simp) ran
        ⟨result, (each arm member).grows_nil result.grows⟩)
      armsRan
    refine ⟨runs.grows.trans (.withFlow _ _), fun balanced => ?_, ?_, fun _ member => member⟩
    · have shorter : m.ledger.flow.vars.length ≤ m.ledger.vars.length := Nat.le_of_eq balanced
      exact (Flow.length_merge fun e member => (runs.lengths balanced shorter e member).2).trans
        (runs.balanced balanced shorter)
    · cases arms with
      | nil =>
        cases armsRan
        simp [Machine.gathered, Machine.withFlow, Flow.merge, leaves]
      | cons arm rest =>
        have some : ends ≠ [] := by
          obtain ⟨start, after, run, ended⟩ := runs.each arm List.mem_cons_self
          exact List.ne_nil_of_mem ended
        refine (Flow.diverged_merge _ some).trans ?_
        rw [runs.diverged, leaves]
        simp
  | loop condition body test round =>
    obtain ⟨first, once, retested, twice, parts, rfl⟩ := run_loop_ok ran
    have growth := parts.growth
      (fun ran => condition.grows_nil (test (by simp) ran).grows)
      (fun ran => body.grows_nil (round (by simp) ran).grows)
    have tested := test (by simp) parts.tested
    have rounded := round (by simp) parts.rounded
    have testedAgain := test (by simp) parts.testedAgain
    have roundedAgain := round (by simp) parts.roundedAgain
    have onceToTwice := growth.toAgain.trans (growth.toRetested.trans growth.toTwice)
    refine ⟨(growth.toFirst.trans (growth.toOnce.trans onceToTwice)).trans growth.toEnd,
      fun balanced => ?_, ?_, fun _ member => member⟩
    · have firstBalanced := tested.balanced balanced
      have onceBalanced := rounded.balanced firstBalanced
      have againBalanced := again_balanced firstBalanced onceBalanced growth.toOnce
      exact looped_balanced firstBalanced onceBalanced
        (roundedAgain.balanced (testedAgain.balanced againBalanced))
        (growth.toOnce.trans onceToTwice) onceToTwice
    · have onceDiverged := rounded.diverged
      have retestedDiverged := testedAgain.diverged
      have twiceDiverged := roundedAgain.diverged
      simp only [Machine.resume] at onceDiverged retestedDiverged twiceDiverged
      refine diverged_looped rfl tested.diverged (fun stopped => ?_) (fun stopped => ?_)
      · simp [onceDiverged, stopped]
      · have againStopped : (first.again once).ledger.flow.diverged = true := by
          simp [Machine.again, onceDiverged, stopped, Machine.withFlow, Flow.restore]
        simp [twiceDiverged, retestedDiverged, againStopped]
  | leave =>
    cases ran
    exact ⟨.withFlow _ _, id, by simp [leaves, Machine.withFlow], fun _ member => member⟩

theorem Tidy.rounds {declares : Bool} {test round : Code} (condition : Tidy false test)
    (body : Tidy false round) (count : Nat) : Tidy declares (rounds test round count) := by
  have weaken {c : Code} (tidy : Tidy false c) : Tidy declares c := by
    cases declares with
    | false => exact tidy
    | true => exact tidy.mayDeclare
  induction count with
  | zero => exact .discard (weaken condition)
  | succ count ih => exact .seq ih (.seq (.discard (weaken body)) (.discard (weaken condition)))

theorem leaves_rounds {test round : Code} {count : Nat}
    (goesOn : (rounds test round count).leaves = false) : test.leaves = false := by
  induction count with
  | zero => simpa [Code.rounds, leaves] using goesOn
  | succ count ih =>
    refine ih ?_
    simp [Code.rounds, leaves] at goesOn
    exact goesOn.1

end Code

/-- Following a path through tidy code declares what running the code declares. -/
structure Followed (ctx : Context) (c : Code) (m after : Machine) (ends : Bool) : Prop where
  reports : m.ledger.bag.contents <+: after.ledger.bag.contents
  grows : ends = true → m.ledger.Grows (c.declared ctx) after.ledger
  balanced : ends = true → m.ledger.Balanced → after.ledger.Balanced
  goesOn : ends = true → c.leaves = false

theorem Path.followed {ctx : Context} {limit : RoundLimit} {declares ends : Bool} {c : Code} {m after : Machine}
    (path : Path ctx limit c m after ends) (tidy : c.Tidy declares)
    (named : declares = true → m.ledger.Named) : Followed ctx c m after ends := by
  induction path generalizing declares with
  | cut => exact ⟨List.prefix_rfl, by simp, by simp, by simp⟩
  | skip => exact ⟨List.prefix_rfl, fun _ => .refl _, fun _ => id, fun _ => rfl⟩
  | step applied =>
    cases tidy with
    | step allowed =>
      obtain ⟨grows, balanced, -⟩ := Step.run_grows (named ∘ allowed) applied
      exact ⟨grows.reports, fun _ => grows, fun _ => balanced, fun _ => rfl⟩
  | seq _ _ first next =>
    cases tidy with
    | seq tidyFirst tidyNext =>
      have early := first tidyFirst named
      have late := next tidyNext fun mayDeclare => (early.grows rfl).named (named mayDeclare)
      refine ⟨early.reports.trans late.reports, fun ends => (early.grows rfl).trans (late.grows ends),
        fun ends => late.balanced ends ∘ early.balanced rfl, fun ends => ?_⟩
      simp [Code.leaves, early.goesOn rfl, late.goesOn ends]
  | within _ first =>
    cases tidy with
    | seq tidyFirst tidyNext => exact ⟨(first tidyFirst named).reports, by simp, by simp, by simp⟩
  | discard _ ih =>
    cases tidy with
    | discard inner =>
      have result := ih inner named
      exact ⟨result.reports, result.grows, result.balanced, result.goesOn⟩
  | scope _ ih =>
    cases tidy with
    | temporary inner =>
      have result := ih inner fun mayDeclare => (named mayDeclare).push true _
      refine ⟨?_, fun ends => (result.grows ends).pop_temporary, fun ends => ?_, result.goesOn⟩
      · simpa [Machine.exit, Machine.enter] using result.reports
      · simpa [Ledger.Balanced, Machine.exit, Machine.enter] using result.balanced ends
    | named inner =>
      have result := ih inner fun _ => Ledger.named_push _ _
      refine ⟨?_, fun ends => (result.grows ends).pop_named, fun ends => ?_, result.goesOn⟩
      · simpa [Machine.exit, Machine.enter] using result.reports
      · simpa [Ledger.Balanced, Machine.exit, Machine.enter] using result.balanced ends
  | @arm arms arm _ _ _ chosen _ ih =>
    cases tidy with
    | choice each =>
      have result := ih (each _ chosen) (by simp)
      refine ⟨result.reports, fun ends => ?_, result.balanced, fun ends => ?_⟩
      · exact (each _ chosen).grows_nil (result.grows ends)
      · rw [Code.leaves, Code.allLeave_eq_all, Bool.and_eq_false_iff]
        exact .inr (List.all_eq_false.mpr ⟨arm, chosen, by simp [result.goesOn ends]⟩)
  | without => exact ⟨List.prefix_rfl, fun _ => .refl _, fun _ => id, fun _ => rfl⟩
  | loop count _ _ ih =>
    cases tidy with
    | loop condition body =>
      have rounds : Code.Tidy false (Code.rounds _ _ count) := condition.rounds body count
      have result := ih rounds (by simp)
      refine ⟨result.reports, fun ends => ?_, result.balanced, fun ends => ?_⟩
      · exact rounds.grows_nil (result.grows ends)
      · rw [Code.leaves, Code.leaves_rounds (result.goesOn ends)]
  | leave => exact ⟨List.prefix_rfl, by simp, by simp, by simp⟩

theorem Path.unlimited {ctx : Context} {limit : RoundLimit} {c : Code} {m after : Machine} {ends : Bool}
    (path : Path ctx limit c m after ends) : Path ctx anyRounds c m after ends := by
  induction path with
  | cut => exact .cut
  | skip => exact .skip
  | step applied => exact .step applied
  | seq _ _ start rest => exact .seq start rest
  | within _ ih => exact .within ih
  | discard _ ih => exact .discard ih
  | scope _ ih => exact .scope ih
  | arm chosen _ ih => exact .arm chosen ih
  | without => exact .without
  | loop count _ _ ih => exact .loop count trivial ih
  | leave => exact .leave

/-! ### Properties of steps -/

namespace Code

/-- A property of every step of some code. -/
inductive Each (property : Step → Prop) : Code → Prop
  | skip : Each property .skip
  | step {s : Step} (holds : property s) : Each property (.step s)
  | seq {first next : Code} (start : Each property first) (rest : Each property next) :
      Each property (.seq first next)
  | discard {body : Code} (inner : Each property body) : Each property (.discard body)
  | scope {isTemporary : Bool} {span : Span} {body : Code} (inner : Each property body) :
      Each property (.scope isTemporary span body)
  | choice {arms : List Code} (each : ∀ arm ∈ arms, Each property arm) : Each property (.choice arms)
  | loop {test round : Code} (condition : Each property test) (body : Each property round) :
      Each property (.loop test round)
  | leave : Each property .leave

section Each

variable {property : Step → Prop} {declares : Bool} {c : Code}

theorem Tidy.each (tidy : Tidy declares c) (all : ∀ s, property s) : c.Each property := by
  induction tidy with
  | skip => exact .skip
  | step => exact .step (all _)
  | seq _ _ first next => exact .seq first next
  | discard _ ih => exact .discard ih
  | temporary _ ih | named _ ih => exact .scope ih
  | choice _ ih => exact .choice ih
  | loop _ _ test round => exact .loop test round
  | leave => exact .leave

theorem each_all {codes : List Code} (each : ∀ c ∈ codes, c.Each property) :
    (Code.all codes).Each property := by
  induction codes with
  | nil => exact .skip
  | cons c rest ih =>
    obtain ⟨first, others⟩ := List.forall_mem_cons.mp each
    cases rest with
    | nil => exact first
    | cons next rest => exact .seq first (ih others)

theorem Each.imp {other : Step → Prop} (each : c.Each property) (implies : ∀ s, property s → other s) :
    c.Each other := by
  induction each with
  | skip => exact .skip
  | step holds => exact .step (implies _ holds)
  | seq _ _ first next => exact .seq first next
  | discard _ ih => exact .discard ih
  | scope _ ih => exact .scope ih
  | choice _ ih => exact .choice ih
  | loop _ _ test round => exact .loop test round
  | leave => exact .leave

theorem Each.rounds {test round : Code} (condition : test.Each property) (body : round.Each property)
    (count : Nat) : (Code.rounds test round count).Each property := by
  induction count with
  | zero => exact .discard condition
  | succ count ih => exact .seq ih (.seq (.discard body) (.discard condition))

end Each

mutual

def every (test : Step → Bool) : Code → Bool
  | .skip | .leave => true
  | .step s => test s
  | .seq first next => every test first && every test next
  | .discard body | .scope _ _ body => every test body
  | .choice arms => everyArm test arms
  | .loop condition round => every test condition && every test round

def everyArm (test : Step → Bool) : List Code → Bool
  | [] => true
  | arm :: rest => every test arm && everyArm test rest

end

mutual

theorem every_iff {property : Step → Prop} [DecidablePred property] : ∀ c : Code,
    c.every (fun s => decide (property s)) = true ↔ c.Each property
  | .skip => ⟨fun _ => .skip, fun _ => rfl⟩
  | .step _ => ⟨fun tested => .step (of_decide_eq_true tested), fun | .step holds => decide_eq_true holds⟩
  | .seq first next => by
    rw [every, Bool.and_eq_true, every_iff first, every_iff next]
    exact ⟨fun parts => .seq parts.1 parts.2, fun | .seq start rest => ⟨start, rest⟩⟩
  | .discard body => by
    rw [every, every_iff body]
    exact ⟨.discard, fun | .discard inner => inner⟩
  | .scope _ _ body => by
    rw [every, every_iff body]
    exact ⟨.scope, fun | .scope inner => inner⟩
  | .choice arms => by
    rw [every, everyArm_iff arms]
    exact ⟨.choice, fun | .choice each => each⟩
  | .loop condition round => by
    rw [every, Bool.and_eq_true, every_iff condition, every_iff round]
    exact ⟨fun parts => .loop parts.1 parts.2, fun | .loop first next => ⟨first, next⟩⟩
  | .leave => ⟨fun _ => .leave, fun _ => rfl⟩

theorem everyArm_iff {property : Step → Prop} [DecidablePred property] : ∀ arms : List Code,
    everyArm (fun s => decide (property s)) arms = true ↔ ∀ arm ∈ arms, arm.Each property
  | [] => by simp [everyArm]
  | arm :: rest => by
    rw [everyArm, Bool.and_eq_true, every_iff arm, everyArm_iff rest, List.forall_mem_cons]

end

instance {property : Step → Prop} [DecidablePred property] (c : Code) : Decidable (c.Each property) :=
  decidable_of_iff _ (every_iff c)

end Code

end TreeCheck.Ownership
