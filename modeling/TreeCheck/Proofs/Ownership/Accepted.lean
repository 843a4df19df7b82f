import TreeCheck.Proofs.Ownership.Runs
import TreeCheck.Proofs.Ownership.Outcomes

/-!
Runs that report nothing. The parts of such a run report nothing either, and what a join shows of a slot
is what one of the joined parts shows. Runs and paths that start with the same names in scope end with the same
names in scope.
-/

namespace TreeCheck.Ownership

namespace Ledger

/-- The outermost variable in scope is the one declared first. -/
def Anchored (l : Ledger) : Prop := slotIn l.env 0 = some 0

theorem Grows.anchored {names : List (String × Option Ty)} {l after : Ledger}
    (grows : l.Grows names after) (regular : l.Regular) (anchor : l.Anchored) : after.Anchored := by
  rw [Anchored, grows.slotIn_eq regular (lt_length_of_slotIn anchor)]
  exact anchor

/-- The same names are in scope, and the outermost one stands for the variable declared first if that
matters. -/
structure Matches (anchored : Prop) (l other : Ledger) : Prop where
  outline : l.outline = other.outline
  anchor : anchored → l.Anchored
  otherAnchor : anchored → other.Anchored

namespace Matches

variable {anchored : Prop} {l other after otherAfter : Ledger} {names : List (String × Option Ty)}

theorem grows (same : l.Matches anchored other) (first : l.Grows names after) (regular : l.Regular)
    (second : other.Grows names otherAfter) (otherRegular : other.Regular) :
    after.Matches anchored otherAfter := by
  refine ⟨?_, fun needed => first.anchored regular (same.anchor needed),
    fun needed => second.anchored otherRegular (same.otherAnchor needed)⟩
  rw [first.outline regular, second.outline otherRegular, same.outline]

theorem push (same : l.Matches anchored other) (isTemporary : Bool) (span : Span) :
    (l.push isTemporary span).Matches anchored (other.push isTemporary span) := by
  refine ⟨?_, fun needed => ?_, fun needed => ?_⟩
  · rw [push_outline, push_outline, same.outline]
  · rw [Anchored, push_env]
    exact same.anchor needed
  · rw [Anchored, push_env]
    exact same.otherAnchor needed

theorem of_env (same : l.Matches anchored other) (outline : after.outline = l.outline)
    (env : after.env = l.env) (otherOutline : otherAfter.outline = other.outline)
    (otherEnv : otherAfter.env = other.env) : after.Matches anchored otherAfter := by
  refine ⟨by rw [outline, otherOutline, same.outline], fun needed => ?_, fun needed => ?_⟩
  · rw [Anchored, env]
    exact same.anchor needed
  · rw [Anchored, otherEnv]
    exact same.otherAnchor needed

end Matches

end Ledger

namespace Code

/-- A run that reports nothing, from a path that goes on. -/
structure Accepted (ctx : Context) (c : Code) (m after : Machine) : Prop where
  regular : m.ledger.Regular
  goesOn : m.ledger.flow.diverged = false
  ran : c.run ctx m = .ok after
  quiet : after.ledger.Quiet

namespace Accepted

variable {ctx : Context} {declares : Bool} {c : Code} {m after : Machine} {property : VarFlow → Prop}
  {j : Nat}

theorem result (accepted : Accepted ctx c m after) (tidy : Tidy declares c) : Ran ctx c m after :=
  tidy.ran (fun _ => accepted.regular.named) accepted.ran

theorem afterRegular (accepted : Accepted ctx c m after) (tidy : Tidy declares c) :
    after.ledger.Regular :=
  have result := accepted.result tidy
  result.grows.regular accepted.regular (result.balanced accepted.regular.balanced)

theorem outline (accepted : Accepted ctx c m after) (tidy : Tidy declares c) :
    after.ledger.outline = c.declared ctx ++ m.ledger.outline :=
  (accepted.result tidy).grows.outline accepted.regular

theorem diverged (accepted : Accepted ctx c m after) (tidy : Tidy declares c) :
    after.ledger.flow.diverged = c.leaves := by
  rw [(accepted.result tidy).diverged, accepted.goesOn, Bool.false_or]

/-- The first part of an accepted run, and the rest of it if the first part does not return. -/
theorem seq {first next : Code} (accepted : Accepted ctx (.seq first next) m after)
    (tidy : Tidy declares (.seq first next)) : ∃ middle, Accepted ctx first m middle ∧
      (first.leaves = false → Accepted ctx next middle after) := by
  obtain ⟨start, rest⟩ := tidy_seq.mp tidy
  obtain ⟨middle, started, ended⟩ := run_seq_ok accepted.ran
  have early := start.ran (fun _ => accepted.regular.named) started
  have late := rest.ran (fun mayDeclare => early.grows.named accepted.regular.named) ended
  have accepts : Accepted ctx first m middle :=
    ⟨accepted.regular, accepted.goesOn, started, accepted.quiet.of_reported late.grows.reports⟩
  refine ⟨middle, accepts, fun stays => ⟨accepts.afterRegular start, ?_, ended, accepted.quiet⟩⟩
  rw [accepts.diverged start, stays]

theorem discard {body : Code} (accepted : Accepted ctx (.discard body) m after) :
    ∃ inner, Accepted ctx body m inner ∧ m.resume inner = after := by
  obtain ⟨inner, ran, rfl⟩ := run_discard_ok accepted.ran
  exact ⟨inner, ⟨accepted.regular, accepted.goesOn, ran, accepted.quiet⟩, rfl⟩

theorem toDiscard {body : Code} {inner : Machine} (accepted : Accepted ctx body m inner) :
    Accepted ctx (.discard body) m (m.resume inner) := by
  refine ⟨accepted.regular, accepted.goesOn, ?_, accepted.quiet⟩
  rw [run, accepted.ran]
  rfl

theorem scope {isTemporary : Bool} {span : Span} {body : Code}
    (accepted : Accepted ctx (.scope isTemporary span body) m after) :
    ∃ inner, Accepted ctx body (m.enter isTemporary span) inner ∧ inner.exit = after := by
  obtain ⟨inner, ran, rfl⟩ := run_scope_ok accepted.ran
  refine ⟨inner, ⟨Ledger.push_regular accepted.regular isTemporary span, accepted.goesOn, ran, ?_⟩, rfl⟩
  simpa [Ledger.Quiet, Machine.exit] using accepted.quiet

end Accepted

/-- An arm of an accepted choice: it starts with what was shown before the choice, and what it shows at
its end is shown after the choice. -/
structure ArmAccepted (ctx : Context) (arm : Code) (m after start stop : Machine) : Prop where
  accepted : Accepted ctx arm start stop
  env : start.ledger.env = m.ledger.env
  outline : start.ledger.outline = m.ledger.outline
  shows : ∀ (property : VarFlow → Prop) (j : Nat),
    start.ledger.Shows property j ↔ m.ledger.Shows property j
  joined : arm.leaves = false → ∀ {property : VarFlow → Prop}, Joinable property → ∀ j,
    stop.ledger.Shows property j → after.ledger.Shows property j
  values : start.values = m.values
  gathered : ∃ collected, after.values = collected :: m.values ∧ after.found = m.found ∧
    ∀ origin ∈ stop.found, origin ∈ collected

variable {ctx : Context} {m after : Machine} {property : VarFlow → Prop}

theorem Tidy.env_eq {c : Code} (tidy : Tidy false c) {l next : Ledger}
    (grows : l.Grows (c.declared ctx) next) : next.env = l.env := by
  rw [Ledger.env, (tidy.grows_nil grows).scopes_eq, Ledger.env]

theorem Accepted.choice_merged {arms : List Code} (accepted : Accepted ctx (.choice arms) m after)
    (tidy : ∀ arm ∈ arms, Tidy false arm) : ∃ last ends,
      ArmsRun ctx arms { m with found := [] } m.ledger.flow last ends ∧
        m.gathered (last.withFlow (last.ledger.flow.merge ends)) = after := by
  obtain ⟨last, ends, armsRan, merged⟩ := run_choice_ok accepted.ran
  refine ⟨last, ends, runArms_ran (fun arm member _ _ ran => ?_) armsRan, merged⟩
  have result := (tidy arm member).ran (by simp) ran
  exact ⟨result, (tidy arm member).grows_nil result.grows⟩

/-- The flows at the ends of all arms know about the variables from before the choice. -/
theorem ArmsRun.present {arms : List Code} {last : Machine} {ends : List Flow}
    (runs : ArmsRun ctx arms { m with found := [] } m.ledger.flow last ends)
    (regular : m.ledger.Regular) {id j : Nat} (found : slotIn m.ledger.env j = some id) :
    ∀ e ∈ ends, id < e.vars.length := by
  intro e member
  have declared := regular.lt_of_slotIn found
  have balanced := regular.balanced
  have longer := (runs.lengths balanced (Nat.le_of_eq balanced) e member).1
  unfold Ledger.Balanced at balanced
  omega

theorem ArmRun.accepted {arms : List Code} {arm : Code} {start stop last : Machine} {ends : List Flow}
    (choice : Accepted ctx (.choice arms) m after) (tidy : Tidy false arm)
    (runs : ArmsRun ctx arms { m with found := [] } m.ledger.flow last ends)
    (merged : m.gathered (last.withFlow (last.ledger.flow.merge ends)) = after)
    (run : ArmRun ctx { m with found := [] } m.ledger.flow arm start stop last)
    (ended : stop.ledger.flow ∈ ends) : ArmAccepted ctx arm m after start stop := by
  have balanced := choice.regular.balanced
  obtain ⟨startBalanced, stopBalanced, -⟩ := run.balanced balanced (Nat.le_of_eq balanced)
  have env : start.ledger.env = m.ledger.env := by rw [Ledger.env, run.grows.scopes_eq, Ledger.env]
  obtain ⟨extra, restored⟩ := run.restored
  have quiet : stop.ledger.Quiet := by
    refine Ledger.Quiet.of_reported ?_ run.later.reports
    have quiet := choice.quiet
    rw [← merged] at quiet
    exact quiet
  refine ⟨⟨run.grows.regular choice.regular startBalanced, ?_, run.ran, quiet⟩, env,
    run.grows.outline choice.regular, fun property j => ?_, fun stays property joins j shows => ?_,
    run.values, last.found, by rw [← merged]; rfl, by rw [← merged]; rfl, run.found⟩
  · rw [restored]
    exact choice.goesOn
  · refine Ledger.shows_congr env fun id found => ?_
    have inside : id < m.ledger.flow.vars.length := by
      rw [balanced]
      exact choice.regular.lt_of_slotIn found
    simp [Flow.Has, restored, List.getElem?_append_left inside]
  · have stopEnv : stop.ledger.env = m.ledger.env := (tidy.env_eq run.result.grows).trans env
    obtain ⟨id, found, has⟩ := shows
    rw [stopEnv] at found
    have lastEnv : last.ledger.env = m.ledger.env := by
      rw [Ledger.env, runs.grows.scopes_eq, Ledger.env]
    rw [← merged]
    refine ⟨id, lastEnv ▸ found, ?_⟩
    have goesOn : stop.ledger.flow.diverged = false := by
      rw [run.diverged, choice.goesOn, stays, Bool.false_or]
    exact (Flow.has_merge joins (runs.present choice.regular found) ⟨_, ended, goesOn⟩).mpr
      ⟨_, ended, goesOn, has⟩

theorem Accepted.arm {arms : List Code} (accepted : Accepted ctx (.choice arms) m after)
    (tidy : ∀ arm ∈ arms, Tidy false arm) {arm : Code} (chosen : arm ∈ arms) :
    ∃ start stop, ArmAccepted ctx arm m after start stop := by
  obtain ⟨last, ends, runs, merged⟩ := accepted.choice_merged tidy
  obtain ⟨start, stop, run, ended⟩ := runs.each arm chosen
  exact ⟨start, stop, run.accepted accepted (tidy arm chosen) runs merged ended⟩

theorem Accepted.someArm {arms : List Code} (accepted : Accepted ctx (.choice arms) m after)
    (tidy : ∀ arm ∈ arms, Tidy false arm) (joins : Joinable property)
    (some : arms ≠ []) (stays : (Code.choice arms).leaves = false) {j : Nat}
    (shows : after.ledger.Shows property j) : ∃ arm ∈ arms, arm.leaves = false ∧
      ∃ start stop, ArmAccepted ctx arm m after start stop ∧ stop.ledger.Shows property j := by
  obtain ⟨last, ends, runs, merged⟩ := accepted.choice_merged tidy
  have lastEnv : last.ledger.env = m.ledger.env := by
    rw [Ledger.env, runs.grows.scopes_eq, Ledger.env]
  obtain ⟨id, found, has⟩ := shows
  rw [← merged] at found has
  have inScope : slotIn m.ledger.env j = Option.some id := lastEnv ▸ found
  have reached : ∃ e ∈ ends, e.diverged = false := by
    have all := runs.diverged
    rw [accepted.goesOn, Bool.false_or] at all
    have notAll : allLeave arms = false := by
      simpa [leaves, some] using stays
    rw [notAll] at all
    simpa using all
  obtain ⟨e, ended, goesOn, shown⟩ :=
    (Flow.has_merge joins (runs.present accepted.regular inScope) reached).mp has
  obtain ⟨arm, inArms, start, stop, run, rfl⟩ := runs.only e ended
  have leaves : arm.leaves = false := by
    simpa [run.diverged, accepted.goesOn] using goesOn
  have part := run.accepted accepted (tidy arm inArms) runs merged ended
  refine ⟨arm, inArms, leaves, start, stop, part, id, ?_, shown⟩
  rw [(tidy arm inArms).env_eq run.result.grows, part.env]
  exact inScope

theorem Accepted.noArm (accepted : Accepted ctx (.choice []) m after) (j : Nat) :
    after.ledger.Shows property j ↔ m.ledger.Shows property j := by
  obtain ⟨last, ends, armsRan, rfl⟩ := run_choice_ok accepted.ran
  cases armsRan
  rfl

/-- The parts of an accepted loop whose condition does not return. The second round is only taken if the
first one does not return either. -/
structure LoopAccepted (ctx : Context) (test round : Code)
    (m after first once retested twice : Machine) : Prop where
  tested : Accepted ctx test m first
  rounded : Accepted ctx round (m.resume first) once
  testedAgain : round.leaves = false → Accepted ctx test (m.resume once) retested
  roundedAgain : round.leaves = false → Accepted ctx round (m.resume retested) twice
  env : after.ledger.env = m.ledger.env
  joined : ∀ {property : VarFlow → Prop}, Joinable property → ∀ j,
    after.ledger.Shows property j ↔ first.ledger.Shows property j ∨
      (round.leaves = false ∧ (once.ledger.Shows property j ∨ twice.ledger.Shows property j))

theorem Accepted.loopTest {test round : Code} (accepted : Accepted ctx (.loop test round) m after)
    (condition : Tidy false test) (body : Tidy false round) : ∃ first, Accepted ctx test m first := by
  obtain ⟨first, once, retested, twice, parts, ended⟩ := run_loop_ok accepted.ran
  have growth := parts.growth
    (fun ran => condition.grows_nil (condition.ran (by simp) ran).grows)
    (fun ran => body.grows_nil (body.ran (by simp) ran).grows)
  have quiet := accepted.quiet
  rw [← ended] at quiet
  have toEnd := growth.toOnce.trans
    (growth.toAgain.trans (growth.toRetested.trans (growth.toTwice.trans growth.toEnd)))
  exact ⟨first, accepted.regular, accepted.goesOn, parts.tested, quiet.of_reported toEnd.reports⟩

theorem shows_looped (joins : Joinable property) {m first once twice : Machine} {j : Nat}
    (goesOn : m.ledger.flow.diverged = false) (firstGoesOn : first.ledger.flow.diverged = false)
    (firstEnv : first.ledger.env = m.ledger.env) (onceEnv : once.ledger.env = m.ledger.env)
    (twiceEnv : twice.ledger.env = m.ledger.env)
    (present : ∀ id, slotIn m.ledger.env j = some id → id < first.ledger.flow.vars.length ∧
      id < once.ledger.flow.vars.length ∧ id < twice.ledger.flow.vars.length) :
    (m.looped first once twice).ledger.Shows property j ↔ first.ledger.Shows property j ∨
      (once.ledger.flow.diverged = false ∧ once.ledger.Shows property j) ∨
      (twice.ledger.flow.diverged = false ∧ twice.ledger.Shows property j) := by
  have loopedEnv : (m.looped first once twice).ledger.env = m.ledger.env := twiceEnv
  unfold Ledger.Shows
  rw [loopedEnv, firstEnv, onceEnv, twiceEnv]
  cases found : slotIn m.ledger.env j with
  | none => simp
  | some id =>
    obtain ⟨inFirst, inOnce, inTwice⟩ := present id found
    have merged : (twice.ledger.flow.merge
        [first.ledger.flow, once.ledger.flow, twice.ledger.flow]).Has property id ↔ _ :=
      Flow.has_merge joins (by simp [inFirst, inOnce, inTwice])
        ⟨_, List.mem_cons_self, firstGoesOn⟩
    simp only [Machine.looped, goesOn, Machine.withFlow, Option.some.injEq, exists_eq_left',
      Bool.false_eq_true, if_false]
    rw [merged]
    simp [firstGoesOn]

theorem Accepted.loop {test round : Code} (accepted : Accepted ctx (.loop test round) m after)
    (condition : Tidy false test) (body : Tidy false round) (stays : test.leaves = false) :
    ∃ first once retested twice, LoopAccepted ctx test round m after first once retested twice := by
  obtain ⟨first, once, retested, twice, parts, rfl⟩ := run_loop_ok accepted.ran
  have growth := parts.growth
    (fun ran => condition.grows_nil (condition.ran (by simp) ran).grows)
    (fun ran => body.grows_nil (body.ran (by simp) ran).grows)
  have twiceQuiet : twice.ledger.Quiet := accepted.quiet.of_reported growth.toEnd.reports
  have retestedQuiet := twiceQuiet.of_reported growth.toTwice.reports
  have againQuiet := retestedQuiet.of_reported growth.toRetested.reports
  have onceQuiet := againQuiet.of_reported growth.toAgain.reports
  have firstQuiet := onceQuiet.of_reported growth.toOnce.reports
  have tested : Accepted ctx test m first :=
    ⟨accepted.regular, accepted.goesOn, parts.tested, firstQuiet⟩
  have firstRegular := tested.afterRegular condition
  have rounded : Accepted ctx round (m.resume first) once :=
    ⟨firstRegular, (tested.diverged condition).trans stays, parts.rounded, onceQuiet⟩
  have onceRegular := rounded.afterRegular body
  have onceDiverged := rounded.diverged body
  have again (goesOn : round.leaves = false) : first.again once = once := by
    simp [Machine.again, onceDiverged, goesOn, Machine.withFlow]
  have testedAgain (goesOn : round.leaves = false) : Accepted ctx test (m.resume once) retested :=
    ⟨onceRegular, onceDiverged.trans goesOn, again goesOn ▸ parts.testedAgain, retestedQuiet⟩
  have roundedAgain (goesOn : round.leaves = false) : Accepted ctx round (m.resume retested) twice :=
    ⟨(testedAgain goesOn).afterRegular condition, ((testedAgain goesOn).diverged condition).trans stays,
      parts.roundedAgain, twiceQuiet⟩
  have againBalanced := again_balanced firstRegular.balanced onceRegular.balanced growth.toOnce
  have twiceBalanced := (body.ran (by simp) parts.roundedAgain).balanced
    ((condition.ran (by simp) parts.testedAgain).balanced againBalanced)
  have onceToTwice := growth.toAgain.trans (growth.toRetested.trans growth.toTwice)
  have toTwice := growth.toFirst.trans (growth.toOnce.trans onceToTwice)
  have env : twice.ledger.env = m.ledger.env := by rw [Ledger.env, toTwice.scopes_eq, Ledger.env]
  have twiceDiverged : twice.ledger.flow.diverged = round.leaves := by
    rw [(body.ran (by simp) parts.roundedAgain).diverged]
    cases goesOn : round.leaves with
    | true => simp
    | false =>
      have retestedDiverged := (testedAgain goesOn).diverged condition
      simp [Machine.resume, retestedDiverged, stays]
  have firstEnv : first.ledger.env = m.ledger.env := condition.env_eq (tested.result condition).grows
  have onceEnv : once.ledger.env = m.ledger.env :=
    (body.env_eq (rounded.result body).grows).trans firstEnv
  refine ⟨first, once, retested, twice, tested, rounded, testedAgain, roundedAgain, env,
    fun joins j => ?_⟩
  refine (shows_looped joins accepted.goesOn ((tested.diverged condition).trans stays) firstEnv onceEnv
    env fun id declared => ?_).trans ?_
  · have inside := accepted.regular.lt_of_slotIn declared
    rw [firstRegular.balanced, onceRegular.balanced, twiceBalanced]
    exact ⟨Nat.lt_of_lt_of_le inside growth.toFirst.vars.length_le,
      Nat.lt_of_lt_of_le inside (growth.toFirst.trans growth.toOnce).vars.length_le,
      Nat.lt_of_lt_of_le inside toTwice.vars.length_le⟩
  · rw [onceDiverged, twiceDiverged, and_or_left]

theorem Accepted.matches {anchored : Prop} {declares : Bool} {c : Code} {a b afterA afterB : Machine}
    (first : Accepted ctx c a afterA) (second : Accepted ctx c b afterB) (tidy : Tidy declares c)
    (same : a.ledger.Matches anchored b.ledger) : afterA.ledger.Matches anchored afterB.ledger :=
  same.grows (first.result tidy).grows first.regular (second.result tidy).grows second.regular

/-- Code that declares nothing keeps what is in scope. -/
theorem Accepted.kept {c : Code} (accepted : Accepted ctx c m after) (tidy : Tidy false c) :
    after.ledger.outline = m.ledger.outline ∧ after.ledger.env = m.ledger.env := by
  refine ⟨?_, tidy.env_eq (accepted.result tidy).grows⟩
  rw [accepted.outline tidy, tidy.declared_eq_nil, List.nil_append]

theorem LoopAccepted.kept {test round : Code} {first once retested twice : Machine}
    (parts : LoopAccepted ctx test round m after first once retested twice)
    (condition : Tidy false test) (body : Tidy false round) (goesOn : round.leaves = false) :
    (first.ledger.outline = m.ledger.outline ∧ first.ledger.env = m.ledger.env) ∧
    (once.ledger.outline = m.ledger.outline ∧ once.ledger.env = m.ledger.env) ∧
    (retested.ledger.outline = m.ledger.outline ∧ retested.ledger.env = m.ledger.env) := by
  have firstKept := parts.tested.kept condition
  have onceKept := parts.rounded.kept body
  have retestedKept := (parts.testedAgain goesOn).kept condition
  simp only [Machine.resume] at onceKept retestedKept
  refine ⟨firstKept, ⟨onceKept.1.trans firstKept.1, onceKept.2.trans firstKept.2⟩, ?_⟩
  exact ⟨retestedKept.1.trans (onceKept.1.trans firstKept.1),
    retestedKept.2.trans (onceKept.2.trans firstKept.2)⟩

end Code

/-! ### Paths -/

variable {ctx : Context} {limit : RoundLimit} {c : Code} {declares : Bool} {p after : Machine}

theorem Path.regular (path : Path ctx limit c p after true) (tidy : c.Tidy declares)
    (regular : p.ledger.Regular) : after.ledger.Regular :=
  have followed := path.followed tidy fun _ => regular.named
  (followed.grows rfl).regular regular (followed.balanced rfl regular.balanced)

/-- A path through code that declares nothing keeps what is in scope. -/
theorem Path.kept (path : Path ctx limit c p after true) (tidy : c.Tidy false)
    (regular : p.ledger.Regular) :
    after.ledger.outline = p.ledger.outline ∧ after.ledger.env = p.ledger.env := by
  have grows := (path.followed tidy (by simp)).grows rfl
  refine ⟨?_, tidy.env_eq grows⟩
  rw [grows.outline regular, tidy.declared_eq_nil, List.nil_append]

end TreeCheck.Ownership
