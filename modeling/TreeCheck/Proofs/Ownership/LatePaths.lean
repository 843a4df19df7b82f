import Mathlib
import TreeCheck.Proofs.Ownership.Code
import TreeCheck.Proofs.Ownership.Functions
import TreeCheck.Proofs.Ownership.LateSteps

/-!
Late initialisation on paths. Where the joins of a run agree on which variables have no value so far, a path
gives a value to what is not mutable only where the run does; so it does that at most once.
-/

namespace TreeCheck.Ownership

/-- Whether the flows that go on agree on which of the variables in scope have no value so far; mutable ones
do not count. -/
def Ledger.agree (l : Ledger) (flows : List Flow) : Bool :=
  let reached := flows.filter fun f => !f.diverged
  let late (id : Nat) (f : Flow) : Bool := (f.vars[id]?).any VarFlow.late
  l.env.all fun (_, id) => (l.vars[id]?).any Var.mutable || reached.all (late id) ||
    reached.all (fun f => !late id f)

namespace Code

def passes {α : Type} (reached : Except Failure α) (test : α → Bool) : Bool :=
  match reached with
  | .ok a => test a
  | .error _ => true

@[simp] theorem passes_ok {α : Type} (a : α) (test : α → Bool) : passes (.ok a) test = test a := rfl

mutual

/-- Whether all joins of a run agree on which variables have no value so far. -/
def agrees (ctx : Context) : Code → Machine → Bool
  | .skip, _ | .step _, _ | .leave, _ => true
  | .seq first next, m => agrees ctx first m && passes (run ctx first m) fun middle => agrees ctx next middle
  | .discard body, m => agrees ctx body m
  | .scope isTemporary span body, m => agrees ctx body (m.enter isTemporary span)
  | .choice arms, m =>
    agreesArms ctx arms m.ledger.flow { m with found := [] } &&
      passes (runArms ctx arms m.ledger.flow { m with found := [] }) fun (last, ends) => last.ledger.agree ends
  | .loop test round, m =>
    agrees ctx test m && passes (run ctx test m) fun first =>
      agrees ctx round (m.resume first) && passes (run ctx round (m.resume first)) fun once =>
        agrees ctx test (m.resume (first.again once)) &&
          passes (run ctx test (m.resume (first.again once))) fun retested =>
            agrees ctx round (m.resume retested) && passes (run ctx round (m.resume retested)) fun twice =>
              twice.ledger.agree [first.ledger.flow, once.ledger.flow, twice.ledger.flow]

def agreesArms (ctx : Context) : List Code → Flow → Machine → Bool
  | [], _, _ => true
  | arm :: rest, before, m =>
    let start := m.withFlow (m.ledger.flow.restore before)
    agrees ctx arm start &&
      passes (run ctx arm start) fun after => agreesArms ctx rest before { after with values := m.values }

end

end Code

variable {ctx : Context} {limit : RoundLimit} {anchored : Prop} {p m middle after done : Machine}
  {ends declares : Bool} {c : Code} {l : Ledger} {j : Nat}

theorem Ledger.late_of_agree {flows : List Flow} {id : Nat} (agree : l.agree flows = true)
    (fixed : l.Fixed j) (found : slotIn l.env j = some id) {first other : Flow} (member : first ∈ flows)
    (goesOn : first.diverged = false) (otherMember : other ∈ flows) (otherGoesOn : other.diverged = false)
    (late : first.Has IsLate id) : other.Has IsLate id := by
  obtain ⟨_, v, found', declared, mutable⟩ := fixed
  obtain rfl := Option.some.inj (found.symm.trans found')
  have has (f : Flow) : (f.vars[id]?).any VarFlow.late = true ↔ f.Has IsLate id := by
    simp [Flow.Has, IsLate, Option.any_eq_true]
  obtain ⟨x, inEnv, rfl⟩ := List.mem_map.mp (mem_of_slotIn found)
  have each := List.all_eq_true.mp agree x inEnv
  simp only [declared, Option.any_some, mutable, Bool.false_or, Bool.or_eq_true, List.all_eq_true,
    List.mem_filter, Bool.not_eq_true'] at each
  rcases each with all | none
  · exact (has other).mp (all other ⟨otherMember, otherGoesOn⟩)
  · have := none first ⟨member, goesOn⟩
    rw [← has] at late
    simp [late] at this

namespace Code

/-- A run without a report takes no value away: what has none afterwards had none before. -/
theorem Tidy.late_before (tidy : Tidy declares c) (accepted : Accepted ctx c m done) (stays : c.leaves = false)
    (inside : j < m.ledger.env.length) (late : done.ledger.Shows IsLate j) : m.ledger.Shows IsLate j := by
  induction tidy generalizing m done with
  | skip =>
    cases accepted.ran
    exact late
  | step =>
    have ran := accepted.ran
    rw [run] at ran
    rcases (Step.run_late accepted.regular accepted.quiet ran j).mp late with before | new
    · exact before.1
    · omega
  | seq start rest first next =>
    obtain ⟨staysFirst, staysNext⟩ := Bool.or_eq_false_iff.mp stays
    obtain ⟨middle, part, remaining⟩ := accepted.seq (.seq start rest)
    refine first part staysFirst inside (next (remaining staysFirst) staysNext ?_ late)
    exact (part.result start).grows.inside accepted.regular inside
  | discard _ ih =>
    obtain ⟨inner, part, rfl⟩ := accepted.discard
    exact ih part stays inside late
  | temporary _ ih | named _ ih =>
    obtain ⟨inner, part, rfl⟩ := accepted.scope
    have atStart := ih part stays (by rwa [Machine.enter, Ledger.push_env]) (Ledger.shows_pop.mp late).2
    exact (Ledger.shows_push _ _).mp atStart
  | @choice _ arms each ih =>
    by_cases empty : arms = []
    · subst empty
      exact (accepted.noArm j).mp late
    · obtain ⟨arm, inArms, armStays, start, stop, part, atStop⟩ :=
        accepted.someArm each joinable_late empty stays late
      exact (part.shows _ j).mp (ih arm inArms part.accepted armStays (part.env ▸ inside) atStop)
  | @loop _ _ rounds condition body test round =>
    obtain ⟨first, once, retested, twice, parts⟩ := accepted.loop condition body stays
    have fromFirst := test parts.tested stays inside
    have fromOnce (goesOn : rounds.leaves = false) (atOnce : once.ledger.Shows IsLate j) :
        m.ledger.Shows IsLate j := by
      have insideFirst : j < first.ledger.env.length := (parts.tested.kept condition).2 ▸ inside
      have atFirst := round parts.rounded goesOn insideFirst atOnce
      exact fromFirst atFirst
    rcases (parts.joined joinable_late j).mp late with atFirst | ⟨goesOn, atOnce | atTwice⟩
    · exact fromFirst atFirst
    · exact fromOnce goesOn atOnce
    · obtain ⟨-, onceKept, retestedKept⟩ := parts.kept condition body goesOn
      have insideOnce : j < once.ledger.env.length := onceKept.2 ▸ inside
      have insideRetested : j < retested.ledger.env.length := retestedKept.2 ▸ inside
      have atRetested := round (parts.roundedAgain goesOn) goesOn insideRetested atTwice
      have atOnce := test (parts.testedAgain goesOn) stays insideOnce atRetested
      exact fromOnce goesOn atOnce
  | leave => cases stays

end Code

/-! ### Paths beside a run -/

/-- What is not mutable on a path is not mutable in a run either, and if it has no value so far in the run, it
has none on the path. -/
def Ledger.Stricter (run path : Ledger) : Prop :=
  ∀ j, path.Fixed j → run.Fixed j ∧ (run.Shows IsLate j → path.Shows IsLate j)

theorem Ledger.Stricter.refl (l : Ledger) : l.Stricter l := fun _ fixed => ⟨fixed, id⟩

theorem Ledger.Stricter.trans {other : Ledger} (first : l.Stricter after.ledger)
    (next : after.ledger.Stricter other) : l.Stricter other := by
  intro j fixed
  obtain ⟨between, late⟩ := next j fixed
  exact ⟨(first j between).1, late ∘ (first j between).2⟩

/-- A path along a run: they have the same names in scope, and the path is given values no earlier. -/
structure Alongside (anchored : Prop) (p m : Machine) : Prop where
  regular : p.ledger.Regular
  alike : m.ledger.Matches anchored p.ledger
  late : m.ledger.Stricter p.ledger

/-- A path from a machine without a report: it does not report first that something is changed that is not
mutable, and as long as it reports nothing, it is given values no earlier than the run. -/
structure Secured (done after : Machine) (ends : Bool) : Prop where
  lead : after.ledger.lead ≠ some .mutateThroughImmutableBinding
  late : ends = true → after.ledger.Quiet → done.ledger.Stricter after.ledger

/-- A run of the code whose joins agree secures the paths through it. -/
def Code.Secures (ctx : Context) (anchored : Prop) (c : Code) : Prop :=
  ∀ ⦃p m done after : Machine⦄ ⦃ends : Bool⦄, Alongside anchored p m → Code.Accepted ctx c m done →
    c.agrees ctx m = true → p.ledger.Quiet → Path ctx anyRounds c p after ends → Secured done after ends

theorem Secured.cut (quiet : p.ledger.Quiet) : Secured done p false :=
  ⟨by simp [Ledger.lead_of_quiet quiet], nofun⟩

theorem Secured.loud (secured : Secured m middle ends) (loud : ¬middle.ledger.Quiet)
    (reports : middle.ledger.bag.contents <+: after.ledger.bag.contents) (stop : Bool) :
    Secured done after stop := by
  refine ⟨?_, fun _ quiet => absurd (quiet.of_reported reports) loud⟩
  rw [Ledger.lead_of_reported reports loud]
  exact secured.lead

theorem Secured.behind (secured : Secured m after ends) (strict : done.ledger.Stricter m.ledger) :
    Secured done after ends :=
  ⟨secured.lead, fun ended quiet => strict.trans (secured.late ended quiet)⟩

/-- A path in two parts is secured if the first part is, and the second one after it. -/
theorem Secured.seq {first next : Code} (tidy : next.Tidy declares)
    (named : ∀ middle, Path ctx limit first p middle true → declares = true → middle.ledger.Named)
    (quiet : p.ledger.Quiet)
    (start : ∀ {middle ends}, Path ctx limit first p middle ends → Secured m middle ends)
    (rest : ∀ {middle}, Path ctx limit first p middle true → middle.ledger.Quiet →
      m.ledger.Stricter middle.ledger → Path ctx limit next middle after ends → Secured done after ends)
    (path : Path ctx limit (.seq first next) p after ends) : Secured done after ends := by
  cases path with
  | cut => exact .cut quiet
  | within inner => exact ⟨(start inner).lead, nofun⟩
  | @seq _ _ _ middle _ _ early late =>
    by_cases middleQuiet : middle.ledger.Quiet
    · exact rest early middleQuiet ((start early).late rfl middleQuiet) late
    · exact (start early).loud middleQuiet (late.followed tidy (named middle early)).reports ends

namespace Alongside

theorem next (beside : Alongside anchored p m) (accepted : Code.Accepted ctx c m done)
    (path : Path ctx limit c p after true) (tidy : c.Tidy declares)
    (late : done.ledger.Stricter after.ledger) : Alongside anchored after done :=
  ⟨path.regular tidy beside.regular,
    beside.alike.grows (accepted.result tidy).grows accepted.regular
      ((path.followed tidy fun _ => beside.regular.named).grows rfl) beside.regular, late⟩

/-- A path that keeps its names is along another run with the same names. -/
theorem goOn (beside : Alongside anchored p m) (path : Path ctx limit c p after true) (tidy : c.Tidy false)
    (kept : done.ledger.outline = m.ledger.outline ∧ done.ledger.env = m.ledger.env)
    (late : done.ledger.Stricter after.ledger) : Alongside anchored after done :=
  have stays := path.kept tidy beside.regular
  ⟨path.regular tidy beside.regular, beside.alike.of_env kept.1 kept.2 stays.1 stays.2, late⟩

end Alongside

namespace Step

variable {s : Step}

/-- What a step changes on a path although it is not mutable, it changes so in the run. -/
theorem Alters.along (strict : m.ledger.Stricter p.ledger) (outline : m.ledger.outline = p.ledger.outline)
    (alters : s.Alters ctx p.ledger) : s.Alters ctx m.ledger := by
  cases s with
  | borrowPlace operand mutable site =>
    obtain ⟨isMutable, j, slot, fault⟩ := alters
    refine ⟨isMutable, j, outline ▸ slot, ?_⟩
    by_cases through : ctx.through operand = true
    · simpa only [through, if_true] using fault
    · simp only [through] at fault ⊢
      exact (strict j fault).1
  | write target node =>
    obtain ⟨j, slot, fault⟩ := alters
    refine ⟨j, outline ▸ slot, ?_⟩
    by_cases through : ctx.through target = true
    · simpa only [through, if_true] using fault
    · simp only [through] at fault ⊢
      obtain ⟨fixed, given⟩ := fault
      exact ⟨(strict j fixed).1, fun ⟨whole, late⟩ => given ⟨whole, (strict j fixed).2 late⟩⟩
  | _ => exact alters

end Step

theorem Ledger.Stricter.step {s : Step} (strict : m.ledger.Stricter p.ledger)
    (outline : m.ledger.outline = p.ledger.outline) (regularP : p.ledger.Regular) (regularM : m.ledger.Regular)
    (ranP : s.run ctx p = .ok after) (ranM : s.run ctx m = .ok done) (quietP : after.ledger.Quiet)
    (quietM : done.ledger.Quiet) : done.ledger.Stricter after.ledger := by
  intro j fixed
  have length : m.ledger.env.length = p.ledger.env.length := by
    rw [← Ledger.length_outline, outline, Ledger.length_outline]
  rw [Step.run_fixed regularM ranM, Step.run_late regularM quietM ranM, Step.run_late regularP quietP ranP,
    outline, length]
  rcases (Step.run_fixed regularP ranP j).mp fixed with before | ⟨outside, new⟩
  · obtain ⟨fixedM, late⟩ := strict j before
    exact ⟨.inl fixedM, Or.imp_left fun ⟨lateM, unset⟩ => ⟨late lateM, unset⟩⟩
  · refine ⟨.inr ⟨outside, new⟩, Or.imp_left fun ⟨lateM, _⟩ => ?_⟩
    have := lateM.inside
    omega

namespace Code

theorem agreesArms_each {arms : List Code} {before : Flow} {last : Machine} {flows : List Flow}
    (tidy : ∀ arm ∈ arms, Tidy false arm) (ran : runArms ctx arms before m = .ok (last, flows))
    (agrees : agreesArms ctx arms before m = true) {arm : Code} (chosen : arm ∈ arms) : ∃ start stop,
      ArmRun ctx m before arm start stop last ∧ stop.ledger.flow ∈ flows ∧ arm.agrees ctx start = true := by
  have each {arm : Code} (tidy : Tidy false arm) {m after : Machine} (ran : arm.run ctx m = .ok after) :
      Ran ctx arm m after ∧ m.ledger.Grows [] after.ledger :=
    have result := tidy.ran nofun ran
    ⟨result, tidy.grows_nil result.grows⟩
  induction arms generalizing m flows with
  | nil => cases chosen
  | cons head rest ih =>
    obtain ⟨tidyHead, tidyRest⟩ := List.forall_mem_cons.mp tidy
    simp only [runArms] at ran
    obtain ⟨after, armRan, others⟩ := bind_ok.mp ran
    obtain ⟨⟨stop, restFlows⟩, restRan, ended⟩ := bind_ok.mp others
    cases ended
    simp only [agreesArms, armRan, passes_ok, Bool.and_eq_true] at agrees
    obtain ⟨result, grows⟩ := each tidyHead armRan
    have restRuns := runArms_ran (fun arm member _ _ ran => each (tidyRest arm member) ran) restRan
    have run := restRuns.head armRan result
    rcases List.mem_cons.mp chosen with rfl | inRest
    · exact ⟨_, after, run, List.mem_cons_self, agrees.1⟩
    · obtain ⟨start, stop, otherRun, ended, agree⟩ := ih tidyRest restRan agrees.2 inRest
      exact ⟨start, stop, otherRun.earlier (run.grows.trans grows) rfl (fun start shorter =>
        (run.balanced start shorter).2.1), List.mem_cons_of_mem _ ended, agree⟩

/-- Where the ends of the arms of a choice agree, what is late after the choice is late at each of them. -/
theorem late_of_merged {arms : List Code} {last stop : Machine} {flows : List Flow}
    (accepted : Accepted ctx (.choice arms) m done)
    (runs : ArmsRun ctx arms { m with found := [] } m.ledger.flow last flows)
    (merged : m.gathered (last.withFlow (last.ledger.flow.merge flows)) = done)
    (agree : last.ledger.agree flows = true) (fixed : m.ledger.Fixed j)
    (shows : done.ledger.Shows IsLate j) (ended : stop.ledger.flow ∈ flows)
    (goesOn : stop.ledger.flow.diverged = false) (env : stop.ledger.env = m.ledger.env) :
    stop.ledger.Shows IsLate j := by
  have lastEnv : last.ledger.env = m.ledger.env := by rw [Ledger.env, runs.grows.scopes_eq, Ledger.env]
  have lastFixed : last.ledger.Fixed j := (runs.grows.fixed_nil accepted.regular).mpr fixed
  obtain ⟨id, found, has⟩ := shows
  rw [← merged] at found has
  have inScope : slotIn m.ledger.env j = some id := lastEnv ▸ found
  obtain ⟨flow, member, reached, late⟩ :=
    (Flow.has_merge joinable_late (runs.present accepted.regular inScope) ⟨_, ended, goesOn⟩).mp has
  exact ⟨id, env ▸ inScope,
    Ledger.late_of_agree agree lastFixed (lastEnv ▸ inScope) member reached ended goesOn late⟩

section Parts

variable {test round : Code} {first once retested twice : Machine}

theorem LoopAccepted.retested_grows (parts : LoopAccepted ctx test round m done first once retested twice)
    (condition : Tidy false test) (body : Tidy false round) (goesOn : round.leaves = false) :
    m.ledger.Grows [] retested.ledger :=
  have toOnce := body.grows_nil (parts.rounded.result body).grows
  (condition.grows_nil (parts.tested.result condition).grows).trans
    (toOnce.trans (condition.grows_nil ((parts.testedAgain goesOn).result condition).grows))

/-- Where the parts of a loop agree, what is late after one of them is late after each of them. -/
theorem LoopAccepted.same_late (parts : LoopAccepted ctx test round m done first once retested twice)
    (condition : Tidy false test) (body : Tidy false round) (stays : test.leaves = false)
    (goesOn : round.leaves = false) (regular : m.ledger.Regular) (fixed : m.ledger.Fixed j)
    (agree : twice.ledger.agree [first.ledger.flow, once.ledger.flow, twice.ledger.flow] = true)
    {part other : Machine} (member : part ∈ [first, once, twice]) (otherMember : other ∈ [first, once, twice])
    (late : part.ledger.Shows IsLate j) : other.ledger.Shows IsLate j := by
  obtain ⟨firstKept, onceKept, retestedKept⟩ := parts.kept condition body goesOn
  have twiceKept := (parts.roundedAgain goesOn).kept body
  have env : ∀ part ∈ [first, once, twice], part.ledger.env = m.ledger.env := by
    simp [firstKept.2, onceKept.2, twiceKept.2.trans retestedKept.2]
  have reached : ∀ part ∈ [first, once, twice], part.ledger.flow.diverged = false := by
    simp [(parts.tested.diverged condition).trans stays, (parts.rounded.diverged body).trans goesOn,
      ((parts.roundedAgain goesOn).diverged body).trans goesOn]
  have inFlows : ∀ part ∈ [first, once, twice],
      part.ledger.flow ∈ [first.ledger.flow, once.ledger.flow, twice.ledger.flow] := by simp
  have toTwice := (parts.retested_grows condition body goesOn).trans
    (body.grows_nil ((parts.roundedAgain goesOn).result body).grows)
  have twiceFixed : twice.ledger.Fixed j := (toTwice.fixed_nil regular).mpr fixed
  obtain ⟨id, found, has⟩ := late
  rw [env part member] at found
  refine ⟨id, (env other otherMember) ▸ found, Ledger.late_of_agree agree twiceFixed ?_
    (inFlows part member) (reached part member) (inFlows other otherMember) (reached other otherMember) has⟩
  rw [env twice (by simp)]
  exact found

/-- A loop the parts of which agree: the rounds give no value to what is not mutable. -/
structure LoopAgreed (ctx : Context) (test round : Code) (m after first once retested : Machine) : Prop where
  tests : test.agrees ctx m = true
  rounds : round.agrees ctx (m.resume first) = true
  again : round.leaves = false → test.agrees ctx (m.resume once) = true
  retested : round.leaves = false → first.ledger.Stricter retested.ledger
  ended : after.ledger.Stricter first.ledger

theorem LoopAccepted.agreed (parts : LoopAccepted ctx test round m done first once retested twice)
    (condition : Tidy false test) (body : Tidy false round) (accepted : Accepted ctx (.loop test round) m done)
    (stays : test.leaves = false) (agrees : (Code.loop test round).agrees ctx m = true) :
    LoopAgreed ctx test round m done first once retested := by
  have regular := accepted.regular
  have toFirst := condition.grows_nil (parts.tested.result condition).grows
  simp only [Code.agrees, parts.tested.ran, parts.rounded.ran, passes_ok, Bool.and_eq_true] at agrees
  obtain ⟨tests, rounds, rest⟩ := agrees
  have again (goesOn : round.leaves = false) : first.again once = once := by
    simp [Machine.again, (parts.rounded.diverged body).trans goesOn, Machine.withFlow]
  have same (goesOn : round.leaves = false) {j : Nat} (fixed : m.ledger.Fixed j) {part other : Machine}
      (member : part ∈ [first, once, twice]) (otherMember : other ∈ [first, once, twice]) :
      part.ledger.Shows IsLate j → other.ledger.Shows IsLate j := by
    simp only [again goesOn, (parts.testedAgain goesOn).ran, (parts.roundedAgain goesOn).ran, passes_ok,
      Bool.and_eq_true] at rest
    exact parts.same_late condition body stays goesOn regular fixed rest.2.2 member otherMember
  refine ⟨tests, rounds, fun goesOn => ?_, fun goesOn j fixed => ?_, fun j fixed => ?_⟩
  · rw [again goesOn] at rest
    exact rest.1
  · have toRetested := parts.retested_grows condition body goesOn
    have before := (toRetested.fixed_nil regular).mp fixed
    refine ⟨(toFirst.fixed_nil regular).mpr before, fun late => ?_⟩
    have atTwice : twice.ledger.Shows IsLate j := same goesOn before (by simp) (by simp) late
    have inside : j < retested.ledger.env.length := fixed.inside
    have atRetested := body.late_before (parts.roundedAgain goesOn) goesOn inside atTwice
    exact atRetested
  · have before := (toFirst.fixed_nil regular).mp fixed
    have whole : m.ledger.Grows [] done.ledger :=
      (accepted.result (.loop condition body : Tidy false _)).grows
    refine ⟨(whole.fixed_nil regular).mpr before, fun late => ?_⟩
    rcases (parts.joined joinable_late j).mp late with atFirst | ⟨goesOn, atOnce | atTwice⟩
    · exact atFirst
    · exact same goesOn before (by simp) (by simp) atOnce
    · exact same goesOn before (by simp) (by simp) atTwice

end Parts

namespace Secures

theorem step {s : Step} (rooted : s.Rooted ∨ anchored) : (Code.step s).Secures ctx anchored := by
  intro p m done after ends beside accepted _ quiet path
  cases path with
  | cut => exact .cut quiet
  | step applied =>
    have ran := accepted.ran
    rw [Code.run] at ran
    have onPath := s.run_charges beside.regular (rooted.imp_right beside.alike.otherAnchor) applied
    have inRun := s.run_charges accepted.regular (rooted.imp_right beside.alike.anchor) ran
    refine ⟨fun led => ?_, fun _ quietAfter => ?_⟩
    · exact inRun.spared accepted.quiet (.along beside.late beside.alike.outline (onPath.charged quiet led))
    · exact beside.late.step beside.alike.outline beside.regular accepted.regular applied ran quietAfter
        accepted.quiet

/-- The paths through code that is secured in two parts, of which the second may ask for more. -/
theorem seq_secured {first next : Code} {later : Prop} (start : first.Secures ctx anchored)
    (rest : next.Secures ctx later) (tidy : Tidy declares (.seq first next)) (beside : Alongside anchored p m)
    (accepted : Accepted ctx (.seq first next) m done) (agrees : (Code.seq first next).agrees ctx m = true)
    (quiet : p.ledger.Quiet)
    (strengthen : ∀ middle reached, Path ctx anyRounds first p middle true →
      Accepted ctx first m reached → Alongside anchored middle reached → Alongside later middle reached)
    (path : Path ctx anyRounds (.seq first next) p after ends) : Secured done after ends := by
  obtain ⟨tidyFirst, tidyNext⟩ := tidy_seq.mp tidy
  obtain ⟨reached, part, remaining⟩ := accepted.seq tidy
  simp only [Code.agrees, part.ran, passes_ok, Bool.and_eq_true] at agrees
  have followed {middle : Machine} (early : Path ctx anyRounds first p middle true) :=
    early.followed tidyFirst fun _ => beside.regular.named
  refine Secured.seq tidyNext (fun middle early _ => ((followed early).grows rfl).named beside.regular.named)
    quiet (start beside part agrees.1 quiet) (fun {middle} early middleQuiet late path => ?_) path
  have middleBeside := strengthen middle reached early part (beside.next part early tidyFirst late)
  exact rest middleBeside (remaining ((followed early).goesOn rfl)) agrees.2 middleQuiet path

theorem seq {first next : Code} (start : first.Secures ctx anchored) (rest : next.Secures ctx anchored)
    (tidy : Tidy declares (.seq first next)) : (Code.seq first next).Secures ctx anchored :=
  fun _ _ _ _ _ beside accepted agrees quiet path =>
    seq_secured start rest tidy beside accepted agrees quiet (fun _ _ _ _ beside => beside) path

theorem discard {body : Code} (inner : body.Secures ctx anchored) :
    (Code.discard body).Secures ctx anchored := by
  intro p m done after ends beside accepted agrees quiet path
  obtain ⟨reached, part, rfl⟩ := accepted.discard
  cases path with
  | cut => exact .cut quiet
  | discard path =>
    have secured := inner beside part agrees quiet path
    exact ⟨secured.lead, secured.late⟩

theorem scope {isTemporary : Bool} {span : Span} {body : Code} (inner : body.Secures ctx anchored)
    (tidy : Tidy declares (.scope isTemporary span body)) :
    (Code.scope isTemporary span body).Secures ctx anchored := by
  intro p m done after ends beside accepted agrees quiet path
  have grows := (accepted.result tidy).grows
  obtain ⟨reached, part, rfl⟩ := accepted.scope
  cases path with
  | cut => exact .cut quiet
  | @scope _ _ _ _ stop _ path =>
    have entered : Alongside anchored (p.enter isTemporary span) (m.enter isTemporary span) := by
      refine ⟨Ledger.push_regular beside.regular isTemporary span, beside.alike.push isTemporary span,
        fun j fixed => ?_⟩
      obtain ⟨fixedM, late⟩ := beside.late j ((Ledger.fixed_push isTemporary span).mp fixed)
      rw [Machine.enter, Machine.enter, Ledger.fixed_push, Ledger.shows_push, Ledger.shows_push]
      exact ⟨fixedM, late⟩
    have secured := inner entered part agrees (by simpa [Ledger.Quiet, Machine.enter] using quiet) path
    refine ⟨by simpa [Ledger.lead, Machine.exit] using secured.lead, fun ended quietAfter j fixed => ?_⟩
    have strict := secured.late ended (by simpa [Ledger.Quiet, Machine.exit] using quietAfter)
    obtain ⟨inside, atStop⟩ := Ledger.fixed_pop.mp fixed
    obtain ⟨fixedM, late⟩ := strict j atStop
    subst ended
    have followed := (Path.scope path).followed tidy fun _ => beside.regular.named
    have alike := beside.alike.grows grows accepted.regular (followed.grows rfl) beside.regular
    have insideM : j < reached.exit.ledger.env.length := by
      rw [← Ledger.length_outline, alike.outline, Ledger.length_outline]
      exact inside
    exact ⟨Ledger.fixed_pop.mpr ⟨insideM, fixedM⟩,
      fun shows => Ledger.shows_pop.mpr ⟨inside, late (Ledger.shows_pop.mp shows).2⟩⟩

theorem choice {arms : List Code} (each : ∀ arm ∈ arms, arm.Secures ctx anchored)
    (tidy : ∀ arm ∈ arms, Tidy false arm) : (Code.choice arms).Secures ctx anchored := by
  intro p m done after ends beside accepted agrees quiet path
  cases path with
  | cut => exact .cut quiet
  | without =>
    obtain ⟨last, flows, runs, rfl⟩ := run_choice_ok accepted.ran
    cases runs
    refine ⟨by simp [Machine.gathered, Ledger.lead_of_quiet quiet], fun _ _ => ?_⟩
    exact beside.late
  | @arm _ arm _ stop _ chosen path =>
    obtain ⟨last, flows, armsRan, merged⟩ := run_choice_ok accepted.ran
    simp only [Code.agrees, armsRan, passes_ok, Bool.and_eq_true] at agrees
    have runs := runArms_ran (fun arm member _ _ ran =>
      have result := (tidy arm member).ran (by simp) ran
      ⟨result, (tidy arm member).grows_nil result.grows⟩) armsRan
    obtain ⟨start, reached, run, ended, armAgrees⟩ := agreesArms_each tidy armsRan agrees.1 chosen
    have part := run.accepted accepted (tidy arm chosen) runs merged ended
    have entered : Alongside anchored { p with found := [] } start := by
      refine ⟨beside.regular, beside.alike.of_env part.outline part.env rfl rfl, fun j fixed => ?_⟩
      obtain ⟨fixedM, late⟩ := beside.late j fixed
      exact ⟨(run.grows.fixed_nil accepted.regular).mpr fixedM,
        fun shows => late ((part.shows _ j).mp shows)⟩
    have secured := each arm chosen entered part.accepted armAgrees quiet path
    refine ⟨secured.lead, fun stops quietAfter j fixed => ?_⟩
    have stays := (path.followed (tidy arm chosen) (by simp)).goesOn stops
    obtain ⟨fixedM, late⟩ := secured.late stops quietAfter j fixed
    have armGrows := (tidy arm chosen).grows_nil run.result.grows
    have fixedStart := (armGrows.fixed_nil part.accepted.regular).mp fixedM
    have fixedBefore := (run.grows.fixed_nil accepted.regular).mp fixedStart
    have whole : m.ledger.Grows [] done.ledger := (accepted.result (.choice tidy : Tidy false _)).grows
    refine ⟨(whole.fixed_nil accepted.regular).mpr fixedBefore, fun shows => late ?_⟩
    refine late_of_merged accepted runs merged agrees.2 fixedBefore shows ended ?_ ?_
    · rw [part.accepted.diverged (tidy arm chosen), stays]
    · exact ((tidy arm chosen).env_eq run.result.grows).trans part.env

section Loops

variable {test round : Code} (condition : Tidy false test) (body : Tidy false round)
include condition body

/-- No path goes round a loop whose condition returns. -/
theorem leaving_rounds (tests : test.Secures ctx anchored) (leaving : test.leaves = true)
    (beside : Alongside anchored p m) (tested : Accepted ctx (.discard test) m middle)
    (agrees : test.agrees ctx m = true) (quiet : p.ledger.Quiet) (count : Nat)
    (path : Path ctx anyRounds (Code.rounds test round count) p after ends) : Secured done after ends := by
  have stuck {count : Nat} {stop : Machine} {ends : Bool}
      (path : Path ctx anyRounds (Code.rounds test round count) p stop ends) (ended : ends = true) : False := by
    have stays := leaves_rounds ((path.followed (condition.rounds body count : Tidy false _) nofun).goesOn ended)
    simp [leaving] at stays
  induction count generalizing after ends with
  | zero => exact ⟨(tests.discard beside tested agrees quiet path).lead, fun ended => (stuck path ended).elim⟩
  | succ count ih =>
    exact Secured.seq (.seq (.discard body) (.discard condition) : Tidy false _) nofun quiet ih
      (fun early _ _ _ => (stuck early rfl).elim) path

/-- A path through any number of rounds of a loop is given values no earlier than the run after the condition is
checked for the first time, since the rounds of the run give none to what is not mutable. -/
theorem rounds (tests : test.Secures ctx anchored) (goes : round.Secures ctx anchored)
    (beside : Alongside anchored p m) {first once retested twice : Machine}
    (parts : LoopAccepted ctx test round m done first once retested twice)
    (agreed : LoopAgreed ctx test round m done first once retested)
    (quiet : p.ledger.Quiet) (count : Nat)
    (path : Path ctx anyRounds (Code.rounds test round count) p after ends) :
    Secured (m.resume first) after ends := by
  have tidyTest : Tidy false (.discard test) := .discard condition
  have tidyRound : Tidy false (.discard round) := .discard body
  induction count generalizing after ends with
  | zero => exact tests.discard beside parts.tested.toDiscard agreed.tests quiet path
  | succ count ih =>
    have tidy : Tidy false (Code.rounds test round count) := condition.rounds body count
    refine Secured.seq (.seq tidyRound tidyTest : Tidy false _) nofun quiet ih
      (fun {middle} early middleQuiet late path => ?_) path
    have atRound : Alongside anchored middle (m.resume first) :=
      beside.goOn early tidy (parts.tested.kept condition) late
    refine Secured.seq tidyTest nofun middleQuiet
      (fun path => goes.discard atRound parts.rounded.toDiscard agreed.rounds middleQuiet path)
      (fun {next} between nextQuiet late path => ?_) path
    have goesOn : round.leaves = false := (between.followed tidyRound nofun).goesOn rfl
    have atTest : Alongside anchored next (m.resume once) :=
      atRound.next parts.rounded.toDiscard between tidyRound late
    have secured :=
      tests.discard atTest (parts.testedAgain goesOn).toDiscard (agreed.again goesOn) nextQuiet path
    exact secured.behind (agreed.retested goesOn)

theorem loop (tests : test.Secures ctx anchored) (goes : round.Secures ctx anchored) :
    (Code.loop test round).Secures ctx anchored := by
  intro p m done after ends beside accepted agrees quiet path
  obtain ⟨start, tested⟩ := accepted.loopTest condition body
  have testAgrees : test.agrees ctx m = true := by
    rw [Code.agrees, Bool.and_eq_true] at agrees
    exact agrees.1
  cases path with
  | cut => exact .cut quiet
  | loop count allowed path =>
    cases stays : test.leaves with
    | true => exact leaving_rounds condition body tests stays beside tested.toDiscard testAgrees quiet count path
    | false =>
      obtain ⟨first, once, retested, twice, parts⟩ := accepted.loop condition body stays
      have agreed := parts.agreed condition body accepted stays agrees
      exact (rounds condition body tests goes beside parts agreed quiet count path).behind agreed.ended

end Loops

end Secures

end Code

/-- Where its joins agree, a run of tidy code secures the paths through it. -/
theorem Code.Tidy.secures (tidy : c.Tidy declares) (rooted : c.Each fun s => s.Rooted ∨ anchored) :
    c.Secures ctx anchored := by
  induction tidy with
  | skip =>
    intro p m done after ends beside accepted _ quiet path
    obtain rfl : m = done := Except.ok.inj accepted.ran
    cases path with
    | cut => exact .cut quiet
    | skip => exact ⟨by simp [Ledger.lead_of_quiet quiet], fun _ _ => beside.late⟩
  | step =>
    cases rooted with
    | step rooted => exact .step rooted
  | seq start rest early late =>
    cases rooted with
    | seq rootedStart rootedRest => exact (early rootedStart).seq (late rootedRest) (.seq start rest)
  | discard _ ih =>
    cases rooted with
    | discard rooted => exact (ih rooted).discard
  | temporary inner ih =>
    cases rooted with
    | scope rooted => exact (ih rooted).scope (.temporary inner)
  | named inner ih =>
    cases rooted with
    | scope rooted => exact (ih rooted).scope (tidy_named.mpr inner : Tidy false _)
  | choice each ih =>
    cases rooted with
    | choice rooted => exact .choice (fun arm member => ih arm member (rooted arm member)) each
  | loop condition body test round =>
    cases rooted with
    | loop rootedTest rootedRound => exact .loop condition body (test rootedTest) (round rootedRound)
  | leave =>
    intro p m done after ends beside accepted _ quiet path
    cases path with
    | cut => exact .cut quiet
    | leave =>
      have start : p.ledger.lead ≠ some .mutateThroughImmutableBinding := by
        simp [Ledger.lead_of_quiet quiet]
      exact ⟨start, nofun⟩

/-! ### Functions -/

theorem inside_secured {f : FuncDecl} {inner : Machine} (roots : ctx.RootsKnown f)
    (agrees : (ctx.insideCode f).agrees ctx (({} : Machine).enter false f.span) = true)
    (accepted : Code.Accepted ctx (ctx.insideCode f) (({} : Machine).enter false f.span) inner)
    (path : Path ctx anyRounds (ctx.insideCode f) (({} : Machine).enter false f.span) after ends) :
    Secured inner after ends := by
  have tidy : Code.Tidy true (ctx.insideCode f) := tidy_insideCode ctx f
  have beside : Alongside False (({} : Machine).enter false f.span) (({} : Machine).enter false f.span) :=
    ⟨accepted.regular, ⟨rfl, False.elim, False.elim⟩, .refl _⟩
  have params : (ctx.paramsCode f).Secures ctx False :=
    (tidy_paramsCode ctx f).secures ((Context.rooted_paramsCode ctx f).imp fun _ => .inl)
  rcases roots with parameter | rooted
  · have body : (ctx.bodyCode f).Secures ctx True :=
      (tidy_bodyCode ctx f).secures ((tidy_bodyCode ctx f).each fun _ => .inr trivial)
    refine Code.Secures.seq_secured params body tidy beside accepted agrees rfl
      (fun middle reached early part next => ⟨next.regular, ?_, next.late⟩) path
    have anchors := Context.anchors_paramsCode parameter f
    exact ⟨next.alike.outline, fun _ => anchors accepted.regular rfl (.inl part.ran),
      fun _ => anchors accepted.regular rfl (.inr early.unlimited)⟩
  · have body : (ctx.bodyCode f).Secures ctx False :=
      (tidy_bodyCode ctx f).secures (rooted.body.imp fun _ => .inl)
    exact Code.Secures.seq_secured params body tidy beside accepted agrees rfl
      (fun _ _ _ _ beside => beside) path

/-- Where branches, arms and rounds agree on which variables have no value so far, joins over-approximate every
path for changes of what is not mutable: a function that is checked without a diagnostic has no path on which
that is reported first. -/
theorem check_covers_initialisation {table : Table} {position : Nat} {f : FuncDecl}
    {notes : Typing.Annotations} {signature : Signature} {result : Result}
    (declared : table.signature? position f = some signature)
    (roots : (contextOf table signature f notes).RootsKnown f)
    (agrees : ((contextOf table signature f notes).functionCode f).agrees
      (contextOf table signature f notes) {} = true)
    (checked : check table position f notes = .ok result) (accepted : result.diagnostics = [])
    {after : Machine} {ends : Bool}
    (path : Path (contextOf table signature f notes) anyRounds
      ((contextOf table signature f notes).functionCode f) {} after ends) :
    after.ledger.bag.contents.head?.map Diagnostic.kind ≠ some .mutateThroughImmutableBinding :=
  check_lead declared checked accepted
    (fun _ _ _ part inside => (inside_secured roots agrees part inside).lead) path

/-- A function that declares a variable without a value, assigns it in one branch, and assigns it again in the
other branch or behind both. -/
def initialising (inBranch : Bool) : FuncDecl :=
  let declare : Stmt := .bind default (.binding { info := ⟨2, default⟩, name := "x" }) none none
  let assign (id : Nat) : Expr :=
    .assign ⟨id, default⟩ (.ident ⟨id + 1, default⟩ "x") (.int ⟨id + 2, default⟩ 1 "")
  let branch (other : Option Expr) : Stmt :=
    .expr default (.branch ⟨3, default⟩ (.ident ⟨4, default⟩ "c") (assign 5) other)
  { (default : FuncDecl) with
    name := "g"
    body := .mk ⟨1, default⟩
      (if inBranch then [declare, branch (some (assign 8))]
        else [declare, branch none, .expr default (assign 8)]) none }

def initialisingSignature : Signature :=
  { name := "g", kind := .function, typeParams := [], result := .unit, origin := some 0
    params := [{ name := "c", type := .bool }] }

def initialisingNotes : Typing.Annotations :=
  { types := ([1, 3, 5, 8].map fun id => (id, .unit)) ++ [(4, .bool)] ++
      ([2, 6, 7, 9, 10].map fun id => (id, .int .i32)) }

def initialisingTable : Table := { functions := [("g", initialisingSignature)] }

def initialisingContext (inBranch : Bool) : Context :=
  contextOf initialisingTable initialisingSignature (initialising inBranch) initialisingNotes

theorem check_covers_initialisation_branches : ∃ after,
    Path (initialisingContext true) anyRounds ((initialisingContext true).functionCode (initialising true)) {}
      after true ∧
      after.ledger.bag.contents.head?.map Diagnostic.kind ≠ some .mutateThroughImmutableBinding := by
  have quiet : (check initialisingTable 0 (initialising true) initialisingNotes).map Result.diagnostics =
      .ok [] := by cbv
  obtain ⟨result, checked, accepted⟩ := quiet_of_map quiet
  -- The second branch.
  obtain ⟨after, path, -⟩ := exists_path
    (show (initialisingContext true).leadAlong anyRounds (initialising true) [1] = some (true, none) by
      decide +kernel)
  exact ⟨after, path, check_covers_initialisation (show _ = some initialisingSignature by cbv)
    (.inl (.inr (by simp [contextOf, initialisingSignature]))) (by decide +kernel) checked accepted path⟩

/-- A variable that is assigned in one of two branches counts as one without a value behind them. -/
theorem check_misses_second_initialisation :
    (check initialisingTable 0 (initialising false) initialisingNotes).map Result.diagnostics = .ok [] ∧
      ∃ after, Path (initialisingContext false) anyRounds
          ((initialisingContext false).functionCode (initialising false)) {} after true ∧
        after.ledger.bag.contents.head?.map Diagnostic.kind = some .mutateThroughImmutableBinding :=
  -- The first branch.
  ⟨by cbv, exists_path
    (show (initialisingContext false).leadAlong anyRounds (initialising false) [0] = _ by decide +kernel)⟩

end TreeCheck.Ownership
