import Mathlib
import TreeCheck.Proofs.Ownership.Code
import TreeCheck.Proofs.Ownership.EscapeSteps
import TreeCheck.Proofs.Ownership.Functions

/-!
Returned references on paths. What a path holds, the run of the same code holds as well, as long as the path
does not go round a loop that assigns references more often than the run does; so it returns no reference
that the run does not return.
-/

namespace TreeCheck.Ownership

/-- Any number of rounds of a loop that assigns no reference, and at most two rounds of any other loop, whose
condition must neither assign nor return references. -/
def fewRounds (ctx : Context) : RoundLimit := fun test round count =>
  (test.Each (Step.Inert ctx) ∧ round.Each (Step.Inert ctx)) ∨ (test.Each (Step.Idle ctx) ∧ count ≤ 2)

instance (ctx : Context) (test round : Code) (count : Nat) : Decidable (fewRounds ctx test round count) :=
  inferInstanceAs (Decidable (_ ∨ _))

variable {ctx : Context} {limit : RoundLimit} {anchored : Prop} {p m middle after done : Machine}
variable {ends declares : Bool} {c : Code}

/-- A path through code that assigns no reference lets no variable hold more than before. -/
theorem Path.shows_before (path : Path ctx limit c p after ends) (ended : ends = true) (tidy : c.Tidy declares)
    (inert : c.Each (Step.Inert ctx)) (regular : p.ledger.Regular) (quiet : after.ledger.Quiet)
    {source : Option String} {j : Nat} (inside : j < p.ledger.env.length)
    (shows : after.ledger.Shows (HoldsFrom source) j) : p.ledger.Shows (HoldsFrom source) j := by
  induction path generalizing declares with
  | cut | within | leave => cases ended
  | skip | without => exact shows
  | step applied =>
    cases inert with
    | step inert => exact Step.shows_before inert regular quiet applied inside shows
  | seq early late first next =>
    cases inert with
    | seq inertFirst inertNext =>
      obtain ⟨tidyFirst, tidyNext⟩ := Code.tidy_seq.mp tidy
      have grows := (early.followed tidyFirst fun _ => regular.named).grows rfl
      have middleRegular := early.regular tidyFirst regular
      have reports := (late.followed tidyNext fun _ => middleRegular.named).reports
      exact first rfl tidyFirst inertFirst regular (quiet.of_reported reports) inside
        (next ended tidyNext inertNext middleRegular quiet (grows.inside regular inside) shows)
  | discard _ ih =>
    cases inert with
    | discard inert => exact ih ended (Code.tidy_discard.mp tidy) inert regular quiet inside shows
  | @scope isTemporary span _ m _ _ _ ih =>
    cases inert with
    | scope inert =>
      obtain ⟨more, body⟩ := tidy.inner
      refine (Ledger.shows_push isTemporary span).mp (ih ended body inert
        (Ledger.push_regular regular isTemporary span) (by simpa [Ledger.Quiet, Machine.exit] using quiet)
        ?_ (Ledger.shows_pop.mp shows).2)
      rw [Machine.enter, Ledger.push_env]
      exact inside
  | arm chosen _ ih =>
    cases inert with
    | choice each =>
      exact ih ended (Code.tidy_choice.mp tidy _ chosen) (each _ chosen) regular quiet inside shows
  | loop count _ _ ih =>
    cases inert with
    | loop condition body =>
      obtain ⟨tidyTest, tidyRound⟩ := Code.tidy_loop.mp tidy
      exact ih ended (tidyTest.rounds tidyRound count : Code.Tidy false _)
        (condition.rounds body count) regular quiet inside shows

/-- A path through code that returns nothing reports nothing about it first. -/
theorem Path.lead_ne (path : Path ctx limit c p after ends) (tidy : c.Tidy declares)
    (stays : c.Each fun s => s.escapes = false) (named : declares = true → p.ledger.Named)
    (quiet : p.ledger.Quiet) : after.ledger.lead ≠ some .danglingReference := by
  induction path generalizing declares with
  | @cut _ m | @skip m | @without m | @leave m =>
    have start : m.ledger.lead ≠ some .danglingReference := by simp [Ledger.lead_of_quiet quiet]
    exact start
  | step applied =>
    cases stays with
    | step stays => exact Step.lead_ne stays applied quiet
  | @seq _ _ _ middle _ _ early late first next =>
    cases stays with
    | seq staysFirst staysNext =>
      obtain ⟨tidyFirst, tidyNext⟩ := Code.tidy_seq.mp tidy
      have followed := early.followed tidyFirst named
      have nextNamed (mayDeclare : declares = true) :=
        (followed.grows rfl).named (named mayDeclare)
      by_cases middleQuiet : middle.ledger.Quiet
      · exact next tidyNext staysNext nextNamed middleQuiet
      · rw [Ledger.lead_of_reported (late.followed tidyNext nextNamed).reports middleQuiet]
        exact first tidyFirst staysFirst named quiet
  | within _ ih =>
    cases stays with
    | seq staysFirst _ => exact ih (Code.tidy_seq.mp tidy).1 staysFirst named quiet
  | discard _ ih =>
    cases stays with
    | discard stays => exact ih (Code.tidy_discard.mp tidy) stays named quiet
  | @scope isTemporary span _ _ _ _ _ ih =>
    cases stays with
    | scope stays =>
      cases tidy with
      | temporary inner =>
        simpa [Ledger.lead, Machine.exit] using ih inner stays
          (fun mayDeclare => (named mayDeclare).push true _) quiet
      | named inner =>
        simpa [Ledger.lead, Machine.exit] using ih inner stays
          (fun _ => Ledger.named_push _ _) quiet
  | arm chosen _ ih =>
    cases stays with
    | choice each => exact ih (Code.tidy_choice.mp tidy _ chosen) (each _ chosen) (by simp) quiet
  | loop count _ _ ih =>
    cases stays with
    | loop condition body =>
      obtain ⟨tidyTest, tidyRound⟩ := Code.tidy_loop.mp tidy
      exact ih (tidyTest.rounds tidyRound count : Code.Tidy false _) (condition.rounds body count)
        (by simp) quiet

theorem Path.values_eq (path : Path ctx limit (.discard c) p after ends) : after.values = p.values := by
  cases path with
  | cut | discard => rfl

theorem Path.found_eq (path : Path ctx limit (.discard c) p after ends) : after.found = p.found := by
  cases path with
  | cut | discard => rfl

/-- A path beside a run: they have the same names in scope, and the path holds no more. -/
structure Beside (anchored : Prop) (p m : Machine) : Prop where
  regular : p.ledger.Regular
  alike : m.ledger.Matches anchored p.ledger
  under : p.Under m

/-- A path from a machine without a report: it does not report first that something is returned that must
not be, and as long as it reports nothing, it holds no more than the run. -/
structure Confined (done after : Machine) (ends : Bool) : Prop where
  lead : after.ledger.lead ≠ some .danglingReference
  under : ends = true → after.ledger.Quiet → after.Under done

def Code.Confines (ctx : Context) (anchored : Prop) (c : Code) : Prop :=
  ∀ ⦃p m done after : Machine⦄ ⦃ends : Bool⦄, Beside anchored p m → Code.Accepted ctx c m done →
    p.ledger.Quiet → Path ctx (fewRounds ctx) c p after ends → Confined done after ends

theorem Confined.cut (quiet : p.ledger.Quiet) : Confined done p false :=
  ⟨by simp [Ledger.lead_of_quiet quiet], by simp⟩

theorem Confined.loud (confined : Confined m middle ends) (loud : ¬middle.ledger.Quiet)
    (reports : middle.ledger.bag.contents <+: after.ledger.bag.contents) (stop : Bool) :
    Confined done after stop := by
  refine ⟨?_, fun _ quiet => absurd (quiet.of_reported reports) loud⟩
  rw [Ledger.lead_of_reported reports loud]
  exact confined.lead

theorem Confined.widen {stop : Machine} (confined : Confined (m.resume middle) after ends)
    (slots : ends = true → ∀ source j, middle.ledger.Shows (HoldsFrom source) j →
      stop.ledger.Shows (HoldsFrom source) j) : Confined (m.resume stop) after ends :=
  ⟨confined.lead, fun ended quiet =>
    have under := confined.under ended quiet
    ⟨fun source j shows => slots ended source j (under.slots source j shows), under.values, under.found⟩⟩

/-- A path in two parts is confined if the first part is, and the second one after it. -/
theorem Confined.seq {first next : Code} (tidy : next.Tidy declares)
    (named : ∀ middle, Path ctx limit first p middle true → declares = true → middle.ledger.Named)
    (quiet : p.ledger.Quiet)
    (start : ∀ {middle ends}, Path ctx limit first p middle ends → Confined m middle ends)
    (rest : ∀ {middle}, Path ctx limit first p middle true → middle.ledger.Quiet → middle.Under m →
      Path ctx limit next middle after ends → Confined done after ends)
    (path : Path ctx limit (.seq first next) p after ends) : Confined done after ends := by
  cases path with
  | cut => exact .cut quiet
  | within inner => exact ⟨(start inner).lead, by simp⟩
  | @seq _ _ _ middle _ _ early late =>
    by_cases middleQuiet : middle.ledger.Quiet
    · exact rest early middleQuiet ((start early).under rfl middleQuiet) late
    · exact (start early).loud middleQuiet (late.followed tidy (named middle early)).reports ends

theorem Beside.next (beside : Beside anchored p m) (accepted : Code.Accepted ctx c m done)
    (path : Path ctx limit c p after true) (tidy : c.Tidy declares) (under : after.Under done) :
    Beside anchored after done :=
  ⟨path.regular tidy beside.regular,
    beside.alike.grows (accepted.result tidy).grows accepted.regular
      ((path.followed tidy fun _ => beside.regular.named).grows rfl) beside.regular, under⟩

/-- A path that keeps its names is beside another run with the same names. -/
theorem Beside.goOn (beside : Beside anchored p m) (path : Path ctx limit c p after true) (tidy : c.Tidy false)
    (kept : done.ledger.outline = m.ledger.outline ∧ done.ledger.env = m.ledger.env)
    (under : after.Under done) : Beside anchored after done :=
  have stays := path.kept tidy beside.regular
  ⟨path.regular tidy beside.regular, beside.alike.of_env kept.1 kept.2 stays.1 stays.2, under⟩

namespace Code.Confines

theorem step {s : Step} (rooted : s.Rooted ∨ anchored) : (Code.step s).Confines ctx anchored := by
  intro p m done after ends beside accepted quiet path
  cases path with
  | cut => exact .cut quiet
  | step applied =>
    have ran := accepted.ran
    rw [Code.run] at ran
    exact ⟨Step.lead_under beside.under applied ran quiet accepted.quiet, fun _ quietAfter =>
      beside.under.step beside.alike.outline beside.regular accepted.regular
        (rooted.imp_right beside.alike.otherAnchor) (rooted.imp_right beside.alike.anchor)
        applied ran quietAfter accepted.quiet⟩

/-- The paths through code that is confined in two parts, of which the second may ask for more. -/
theorem seq_confined {first next : Code} {later : Prop} (start : first.Confines ctx anchored)
    (rest : next.Confines ctx later) (tidy : Tidy declares (.seq first next)) (beside : Beside anchored p m)
    (accepted : Accepted ctx (.seq first next) m done) (quiet : p.ledger.Quiet)
    (strengthen : ∀ middle reached, Path ctx (fewRounds ctx) first p middle true →
      Accepted ctx first m reached → Beside anchored middle reached → Beside later middle reached)
    (path : Path ctx (fewRounds ctx) (.seq first next) p after ends) : Confined done after ends := by
  obtain ⟨tidyFirst, tidyNext⟩ := tidy_seq.mp tidy
  obtain ⟨reached, part, remaining⟩ := accepted.seq tidy
  have followed {middle : Machine} (early : Path ctx (fewRounds ctx) first p middle true) :=
    early.followed tidyFirst fun _ => beside.regular.named
  refine Confined.seq tidyNext (fun middle early _ => ((followed early).grows rfl).named beside.regular.named)
    quiet (start beside part quiet) (fun {middle} early middleQuiet under path => ?_) path
  have middleBeside := strengthen middle reached early part (beside.next part early tidyFirst under)
  exact rest middleBeside (remaining ((followed early).goesOn rfl)) middleQuiet path

theorem seq {first next : Code} (start : first.Confines ctx anchored) (rest : next.Confines ctx anchored)
    (tidy : Tidy declares (.seq first next)) : (Code.seq first next).Confines ctx anchored :=
  fun _ _ _ _ _ beside accepted quiet path =>
    seq_confined start rest tidy beside accepted quiet (fun _ _ _ _ beside => beside) path

theorem discard {body : Code} (inner : body.Confines ctx anchored) :
    (Code.discard body).Confines ctx anchored := by
  intro p m done after ends beside accepted quiet path
  obtain ⟨reached, part, rfl⟩ := accepted.discard
  cases path with
  | cut => exact .cut quiet
  | discard path =>
    have confined := inner beside part quiet path
    exact ⟨confined.lead, fun ended quietAfter =>
      ⟨(confined.under ended quietAfter).slots, beside.under.values, beside.under.found⟩⟩

theorem scope {isTemporary : Bool} {span : Span} {body : Code} (inner : body.Confines ctx anchored)
    (tidy : Tidy declares (.scope isTemporary span body)) :
    (Code.scope isTemporary span body).Confines ctx anchored := by
  intro p m done after ends beside accepted quiet path
  have grows := (accepted.result tidy).grows
  obtain ⟨reached, part, rfl⟩ := accepted.scope
  cases path with
  | cut => exact .cut quiet
  | @scope _ _ _ _ stop _ path =>
    have entered : Beside anchored (p.enter isTemporary span) (m.enter isTemporary span) := by
      refine ⟨Ledger.push_regular beside.regular isTemporary span,
        beside.alike.push isTemporary span, fun source j shows => ?_, beside.under.values,
        beside.under.found⟩
      exact (Ledger.shows_push isTemporary span).mpr
        (beside.under.slots source j ((Ledger.shows_push isTemporary span).mp shows))
    have confined := inner entered part (by simpa [Ledger.Quiet, Machine.enter] using quiet) path
    refine ⟨by simpa [Ledger.lead, Machine.exit] using confined.lead, fun ended quietAfter => ?_⟩
    have under := confined.under ended (by simpa [Ledger.Quiet, Machine.exit] using quietAfter)
    refine ⟨fun source j shows => ?_, under.values, under.found⟩
    obtain ⟨inside, atStop⟩ := Ledger.shows_pop.mp shows
    refine Ledger.shows_pop.mpr ⟨?_, under.slots source j atStop⟩
    subst ended
    have followed := (Path.scope path).followed tidy fun _ => beside.regular.named
    have alike := beside.alike.grows grows accepted.regular (followed.grows rfl) beside.regular
    rw [← Ledger.length_outline] at inside ⊢
    exact lt_of_lt_of_eq inside (congrArg List.length alike.outline.symm)

theorem choice {arms : List Code} (each : ∀ arm ∈ arms, arm.Confines ctx anchored)
    (tidy : ∀ arm ∈ arms, Tidy false arm) : (Code.choice arms).Confines ctx anchored := by
  intro p m done after ends beside accepted quiet path
  cases path with
  | cut => exact .cut quiet
  | without =>
    obtain ⟨last, stops, runs, rfl⟩ := run_choice_ok accepted.ran
    cases runs
    refine ⟨by simp [Machine.gathered, Ledger.lead_of_quiet quiet], fun _ _ => ?_⟩
    exact ⟨beside.under.slots, .cons (.refl _) beside.under.values, beside.under.found⟩
  | @arm _ arm _ stop _ chosen path =>
    obtain ⟨start, reached, part⟩ := accepted.arm tidy chosen
    have entered : Beside anchored { p with found := [] } start := by
      refine ⟨beside.regular, beside.alike.of_env part.outline part.env rfl rfl, fun source j shows => ?_,
        part.values ▸ beside.under.values, .nil _⟩
      exact (part.shows _ j).mpr (beside.under.slots source j shows)
    have confined := each arm chosen entered part.accepted quiet path
    refine ⟨confined.lead, fun ended quietAfter => ?_⟩
    have under := confined.under ended quietAfter
    have stays := (path.followed (tidy arm chosen) (by simp)).goesOn ended
    obtain ⟨collected, values, found, all⟩ := part.gathered
    refine ⟨fun source j shows => part.joined stays (joinable_holdsFrom source) j
      (under.slots source j shows), ?_, ?_⟩
    · rw [values]
      exact .cons (under.found.trans (.of_subset all)) beside.under.values
    · rw [found]
      exact beside.under.found

section Loops

variable {test round : Code} (condition : Tidy false test) (body : Tidy false round)
include condition body

/-- No path goes round a loop whose condition returns. -/
theorem leaving_rounds (tests : test.Confines ctx anchored) (leaving : test.leaves = true)
    (beside : Beside anchored p m) (tested : Accepted ctx (.discard test) m middle) (quiet : p.ledger.Quiet)
    (count : Nat) (path : Path ctx (fewRounds ctx) (Code.rounds test round count) p after ends) :
    Confined done after ends := by
  have stuck {count : Nat} {stop : Machine} {ends : Bool}
      (path : Path ctx (fewRounds ctx) (Code.rounds test round count) p stop ends) (ended : ends = true) :
      False := by
    have stays := leaves_rounds ((path.followed (condition.rounds body count : Tidy false _) (by simp)).goesOn ended)
    simp [leaving] at stays
  induction count generalizing after ends with
  | zero => exact ⟨(tests.discard beside tested quiet path).lead, fun ended => (stuck path ended).elim⟩
  | succ count ih =>
    exact Confined.seq (.seq (.discard body) (.discard condition) : Tidy false _) (by simp) quiet ih
      (fun early _ _ _ => (stuck early rfl).elim) path

/-- A path through any number of rounds of a loop that assigns no reference holds no more than the run after
the condition is checked for the first time. -/
theorem inert_rounds (tests : test.Confines ctx anchored) (rounds : round.Confines ctx anchored)
    (inertTest : test.Each (Step.Inert ctx)) (inertRound : round.Each (Step.Inert ctx))
    (beside : Beside anchored p m) {first once retested twice : Machine}
    (parts : LoopAccepted ctx test round m done first once retested twice) (quiet : p.ledger.Quiet)
    (count : Nat) (path : Path ctx (fewRounds ctx) (Code.rounds test round count) p after ends) :
    Confined (m.resume first) after ends := by
  have firstKept := parts.tested.kept condition
  induction count generalizing after ends with
  | zero => exact tests.discard beside parts.tested.toDiscard quiet path
  | succ count ih =>
    have tidy : Tidy false (Code.rounds test round count) := condition.rounds body count
    refine Confined.seq (.seq (.discard body) (.discard condition) : Tidy false _) (by simp) quiet ih
      (fun {middle} early middleQuiet under path => ?_) path
    have middleBeside : Beside anchored middle (m.resume first) := beside.goOn early tidy firstKept under
    refine Confined.seq (.discard condition : Tidy false _) (by simp) middleQuiet
      (fun path => rounds.discard middleBeside parts.rounded.toDiscard middleQuiet path)
      (fun {next} between nextQuiet under path => ?_) path
    have whole : Path ctx (fewRounds ctx) (.seq (Code.rounds test round count) (.discard round)) p next true :=
      .seq early between
    have tidyWhole : Tidy false (.seq (Code.rounds test round count) (.discard round)) :=
      .seq tidy (.discard body)
    -- The rounds have changed no slot, so the condition is checked as for the first time.
    have slots (source : Option String) (j : Nat) (shows : next.ledger.Shows (HoldsFrom source) j) :
        m.ledger.Shows (HoldsFrom source) j := by
      have inside := shows.inside
      rw [(whole.kept tidyWhole beside.regular).2] at inside
      exact beside.under.slots source j (whole.shows_before rfl tidyWhole
        (.seq (inertTest.rounds inertRound count) (.discard inertRound)) beside.regular nextQuiet inside shows)
    exact tests.discard (beside.goOn whole tidyWhole ⟨rfl, rfl⟩
      ⟨slots, under.values, under.found⟩) parts.tested.toDiscard nextQuiet path

omit body in
/-- A condition that neither assigns nor returns references leaves a path as it was. -/
theorem idle_test (idle : test.Each (Step.Idle ctx)) (regular : p.ledger.Regular) (under : p.Under m)
    (quiet : p.ledger.Quiet) (path : Path ctx (fewRounds ctx) (.discard test) p after ends) :
    Confined m after ends := by
  have tidy : Tidy false (.discard test) := .discard condition
  refine ⟨path.lead_ne tidy (.discard (idle.imp fun _ => And.right)) (by simp) quiet,
    fun ended quietAfter => ?_⟩
  subst ended
  refine ⟨fun source j shows => ?_, path.values_eq ▸ under.values, path.found_eq ▸ under.found⟩
  have inside := shows.inside
  rw [(path.kept tidy regular).2] at inside
  exact under.slots source j (path.shows_before rfl tidy (.discard (idle.imp fun _ => And.left)) regular
    quietAfter inside shows)

theorem round_idle (rounds : round.Confines ctx anchored) (idle : test.Each (Step.Idle ctx))
    (beside : Beside anchored p m) (accepted : Accepted ctx (.discard round) m done) (quiet : p.ledger.Quiet)
    (path : Path ctx (fewRounds ctx) (.seq (.discard round) (.discard test)) p after ends) :
    Confined done after ends :=
  Confined.seq (.discard condition : Tidy false _) (by simp) quiet (rounds.discard beside accepted quiet)
    (fun between nextQuiet under => idle_test condition idle
      (between.regular (.discard body : Tidy false _) beside.regular) under nextQuiet) path

/-- A path through one round of a loop holds no more than the run after its first round, and no more than the
run after the condition is checked again. -/
theorem one_round (tests : test.Confines ctx anchored) (rounds : round.Confines ctx anchored)
    (idle : test.Each (Step.Idle ctx)) (beside : Beside anchored p m) {first once retested twice : Machine}
    (parts : LoopAccepted ctx test round m done first once retested twice) (quiet : p.ledger.Quiet)
    (path : Path ctx (fewRounds ctx) (Code.rounds test round 1) p after ends) :
    Confined (m.resume once) after ends ∧ Confined (m.resume retested) after ends := by
  have tidyTest : Tidy false (.discard test) := .discard condition
  have tidyRound : Tidy false (.discard round) := .discard body
  have start {middle : Machine} {ends : Bool} (path : Path ctx (fewRounds ctx) (.discard test) p middle ends) :=
    tests.discard beside parts.tested.toDiscard quiet path
  have middleBeside {middle : Machine} (early : Path ctx (fewRounds ctx) (.discard test) p middle true)
      (under : middle.Under (m.resume first)) : Beside anchored middle (m.resume first) :=
    beside.next parts.tested.toDiscard early tidyTest under
  constructor
  · exact Confined.seq (.seq tidyRound tidyTest : Tidy false _) (by simp) quiet start
      (fun early middleQuiet under path => round_idle condition body rounds idle (middleBeside early under)
        parts.rounded.toDiscard middleQuiet path) path
  · refine Confined.seq (.seq tidyRound tidyTest : Tidy false _) (by simp) quiet start
      (fun early middleQuiet under path => ?_) path
    have atMiddle := middleBeside early under
    refine Confined.seq tidyTest (by simp) middleQuiet
      (fun path => rounds.discard atMiddle parts.rounded.toDiscard middleQuiet path)
      (fun between nextQuiet under path => ?_) path
    have goesOn : round.leaves = false := (between.followed tidyRound (by simp)).goesOn rfl
    exact tests.discard (atMiddle.next parts.rounded.toDiscard between tidyRound under)
      (parts.testedAgain goesOn).toDiscard nextQuiet path

/-- A path through two rounds of a loop holds no more than the run after its second round. -/
theorem two_rounds (tests : test.Confines ctx anchored) (rounds : round.Confines ctx anchored)
    (idle : test.Each (Step.Idle ctx)) (beside : Beside anchored p m) {first once retested twice : Machine}
    (parts : LoopAccepted ctx test round m done first once retested twice) (quiet : p.ledger.Quiet)
    (path : Path ctx (fewRounds ctx) (Code.rounds test round 2) p after ends) :
    Confined (m.resume twice) after ends := by
  have tidy : Tidy false (Code.rounds test round 1) := condition.rounds body 1
  refine Confined.seq (.seq (.discard body) (.discard condition) : Tidy false _) (by simp) quiet
    (fun path => (one_round condition body tests rounds idle beside parts quiet path).2)
    (fun early middleQuiet under path => ?_) path
  have goesOn : round.leaves = false := by
    have stays := (early.followed tidy (by simp)).goesOn rfl
    simp only [Code.rounds, leaves, Bool.or_eq_false_iff] at stays
    exact stays.2.1
  have atRound : Beside anchored _ (m.resume retested) :=
    beside.goOn early tidy (parts.kept condition body goesOn).2.2 under
  exact round_idle condition body rounds idle atRound (parts.roundedAgain goesOn).toDiscard middleQuiet path

theorem loop (tests : test.Confines ctx anchored) (rounds : round.Confines ctx anchored) :
    (Code.loop test round).Confines ctx anchored := by
  intro p m done after ends beside accepted quiet path
  obtain ⟨start, tested⟩ := accepted.loopTest condition body
  cases path with
  | cut => exact .cut quiet
  | loop count allowed path =>
    cases stays : test.leaves with
    | true => exact leaving_rounds condition body tests stays beside tested.toDiscard quiet count path
    | false =>
      obtain ⟨first, once, retested, twice, parts⟩ := accepted.loop condition body stays
      have joined (source : Option String) := parts.joined (joinable_holdsFrom source)
      have resumed : m.resume done = done := by
        obtain ⟨_, _, _, _, -, rfl⟩ := run_loop_ok accepted.ran
        rfl
      rw [← resumed]
      have goesOn {count : Nat} (path : Path ctx (fewRounds ctx) (Code.rounds test round (count + 1)) p
          after ends) (ended : ends = true) : round.leaves = false := by
        have stays := (path.followed (condition.rounds body (count + 1) : Tidy false _) (by simp)).goesOn ended
        simp only [Code.rounds, leaves, Bool.or_eq_false_iff] at stays
        exact stays.2.1
      rcases allowed with ⟨inertTest, inertRound⟩ | ⟨idle, few⟩
      · exact (inert_rounds condition body tests rounds inertTest inertRound beside parts quiet count
          path).widen fun _ source j shows => (joined source j).mpr (.inl shows)
      · obtain rfl | rfl | rfl : count = 0 ∨ count = 1 ∨ count = 2 := by omega
        · exact (tests.discard beside parts.tested.toDiscard quiet path).widen
            fun _ source j shows => (joined source j).mpr (.inl shows)
        · exact (one_round condition body tests rounds idle beside parts quiet path).1.widen
            fun ended source j shows => (joined source j).mpr (.inr ⟨goesOn path ended, .inl shows⟩)
        · exact (two_rounds condition body tests rounds idle beside parts quiet path).widen
            fun ended source j shows => (joined source j).mpr (.inr ⟨goesOn path ended, .inr shows⟩)

end Loops

end Code.Confines

theorem Code.Tidy.confines (tidy : c.Tidy declares) (rooted : c.Each fun s => s.Rooted ∨ anchored) :
    c.Confines ctx anchored := by
  induction tidy with
  | skip =>
    intro p m done after ends beside accepted quiet path
    obtain rfl : m = done := Except.ok.inj accepted.ran
    cases path with
    | cut => exact .cut quiet
    | skip => exact ⟨by simp [Ledger.lead_of_quiet quiet], fun _ _ => beside.under⟩
  | step =>
    cases rooted with
    | step rooted => exact .step rooted
  | seq start rest early late =>
    cases rooted with
    | seq rootedStart rootedRest => exact (early rootedStart).seq (late rootedRest) (.seq start rest)
  | discard _ ih =>
    cases rooted with
    | discard rooted => exact (ih rooted).discard
  | temporary inner ih =>
    cases rooted with
    | scope rooted => exact (ih rooted).scope (.temporary inner)
  | named inner ih =>
    cases rooted with
    | scope rooted => exact (ih rooted).scope (tidy_named.mpr inner : Tidy false _)
  | choice each ih =>
    cases rooted with
    | choice rooted => exact .choice (fun arm member => ih arm member (rooted arm member)) each
  | loop condition body test round =>
    cases rooted with
    | loop rootedTest rootedRound => exact .loop condition body (test rootedTest) (round rootedRound)
  | leave =>
    intro p m done after ends beside accepted quiet path
    cases path with
    | cut => exact .cut quiet
    | leave =>
      have start : p.ledger.lead ≠ some .danglingReference := by simp [Ledger.lead_of_quiet quiet]
      exact ⟨start, by simp⟩

/-! ### Functions -/

theorem inside_confined {f : FuncDecl} {inner : Machine} (roots : ctx.RootsKnown f)
    (accepted : Code.Accepted ctx (ctx.insideCode f) (({} : Machine).enter false f.span) inner)
    (path : Path ctx (fewRounds ctx) (ctx.insideCode f) (({} : Machine).enter false f.span) after ends) :
    Confined inner after ends := by
  have tidy : Code.Tidy true (ctx.insideCode f) := tidy_insideCode ctx f
  have beside : Beside False (({} : Machine).enter false f.span) (({} : Machine).enter false f.span) :=
    ⟨accepted.regular, ⟨rfl, False.elim, False.elim⟩, fun _ _ shows => shows, .nil, .refl _⟩
  have params : (ctx.paramsCode f).Confines ctx False :=
    (tidy_paramsCode ctx f).confines ((Context.rooted_paramsCode ctx f).imp fun _ => .inl)
  rcases roots with parameter | rooted
  · have body : (ctx.bodyCode f).Confines ctx True :=
      (tidy_bodyCode ctx f).confines ((tidy_bodyCode ctx f).each fun _ => .inr trivial)
    refine Code.Confines.seq_confined params body tidy beside accepted rfl
      (fun middle reached early part next => ⟨next.regular, ?_, next.under⟩) path
    have anchors := Context.anchors_paramsCode parameter f
    exact ⟨next.alike.outline, fun _ => anchors accepted.regular rfl (.inl part.ran),
      fun _ => anchors accepted.regular rfl (.inr early.unlimited)⟩
  · have body : (ctx.bodyCode f).Confines ctx False :=
      (tidy_bodyCode ctx f).confines (rooted.body.imp fun _ => .inl)
    exact Code.Confines.seq_confined params body tidy beside accepted rfl
      (fun _ _ _ _ beside => beside) path

/-- Two passes over a loop are enough for two rounds, and for any number of rounds that assign no reference: a
function that is checked without a diagnostic has no such path on which the first diagnostic is the return
of a reference that must not be returned. -/
theorem check_covers_escapes {table : Table} {position : Nat} {f : FuncDecl}
    {notes : Typing.Annotations} {signature : Signature} {result : Result}
    (declared : table.signature? position f = some signature)
    (roots : (contextOf table signature f notes).RootsKnown f)
    (checked : check table position f notes = .ok result) (accepted : result.diagnostics = [])
    {after : Machine} {ends : Bool}
    (path : Path (contextOf table signature f notes) (fewRounds (contextOf table signature f notes))
      ((contextOf table signature f notes).functionCode f) {} after ends) :
    after.ledger.bag.contents.head?.map Diagnostic.kind ≠ some .danglingReference :=
  check_lead declared checked accepted
    (fun _ _ _ part inside => (inside_confined roots part inside).lead) path

/-- A function that passes a reference to a local variable along three variables in a loop, one of them a
round, and returns the last one. -/
def passing : FuncDecl :=
  let declare (id : Nat) (name : String) (value : Expr) : Stmt :=
    .bind default (.binding { info := ⟨id, default⟩, name, mutable := true }) none (some value)
  let assign (id : Nat) (name : String) (value : Expr) : Stmt :=
    .expr default (.assign ⟨id, default⟩ (.ident ⟨id + 1, default⟩ name) value)
  { (default : FuncDecl) with
    name := "g"
    body := .mk ⟨1, default⟩ [
      declare 2 "x" (.int ⟨3, default⟩ 1 ""),
      declare 4 "r" (.ident ⟨5, default⟩ "p"),
      declare 6 "s" (.ident ⟨7, default⟩ "p"),
      declare 8 "t" (.ident ⟨9, default⟩ "p"),
      .loop default (.ident ⟨10, default⟩ "c") (.mk ⟨11, default⟩ [
        assign 12 "t" (.ident ⟨14, default⟩ "s"),
        assign 15 "s" (.ident ⟨17, default⟩ "r"),
        assign 18 "r" (.ref ⟨20, default⟩ false (.ident ⟨21, default⟩ "x"))] none)]
      (some (.ident ⟨22, default⟩ "t")) }

def passingSignature : Signature :=
  { name := "g", kind := .function, typeParams := [], result := .ref false (.int .i32), origin := some 0
    params := [{ name := "p", type := .ref false (.int .i32) }, { name := "c", type := .bool }] }

def passingNotes : Typing.Annotations :=
  { types := [(2, .int .i32), (3, .int .i32), (10, .bool), (11, .unit), (12, .unit), (15, .unit), (18, .unit),
      (21, .int .i32)] ++
      ([1, 4, 5, 6, 7, 8, 9, 13, 14, 16, 17, 19, 20, 22].map fun id => (id, .ref false (.int .i32))) }

def passingTable : Table := { functions := [("g", passingSignature)] }

def passingContext : Context := contextOf passingTable passingSignature passing passingNotes

theorem check_covers_escapes_passing : ∃ after,
    Path passingContext (fewRounds passingContext) (passingContext.functionCode passing) {} after true ∧
      after.ledger.bag.contents.head?.map Diagnostic.kind ≠ some .danglingReference := by
  have quiet : (check passingTable 0 passing passingNotes).map Result.diagnostics = .ok [] := by cbv
  obtain ⟨result, checked, accepted⟩ := quiet_of_map quiet
  -- Two rounds.
  obtain ⟨after, path, -⟩ := exists_path
    (show passingContext.leadAlong (fewRounds passingContext) passing [2] = some (true, none) by decide +kernel)
  exact ⟨after, path, check_covers_escapes (show _ = some passingSignature by cbv)
    (.inl (.inr (by simp [contextOf, passingSignature]))) checked accepted path⟩

/-- Two passes over a loop are not enough for three rounds. -/
theorem check_misses_third_round :
    (check passingTable 0 passing passingNotes).map Result.diagnostics = .ok [] ∧
      ∃ after, Path passingContext anyRounds (passingContext.functionCode passing) {} after true ∧
        after.ledger.bag.contents.head?.map Diagnostic.kind = some .danglingReference :=
  ⟨by cbv, exists_path (show passingContext.leadAlong anyRounds passing [3] = _ by decide +kernel)⟩

end TreeCheck.Ownership
