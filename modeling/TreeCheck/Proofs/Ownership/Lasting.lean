import TreeCheck.Proofs.Ownership.Edits

/-!
What lasts through a check. A property of ledgers that no edit takes away holds from its first step to the last
one, on each way through the code.
-/

namespace TreeCheck.Ownership

variable {ctx : Context} {m after : Machine}

/-- A property of ledgers that no rule, no scope and no change of paths takes away. -/
structure Ledger.Lasting (property : Ledger → Prop) : Prop where
  edit : ∀ {l after : Ledger}, l.Edit after → property l → property after
  push : ∀ {l : Ledger} (isTemporary : Bool) (span : Span), property l → property (l.push isTemporary span)
  pop : ∀ {l : Ledger}, property l → property l.pop
  flow : ∀ {l : Ledger} (flow : Flow), property l → property { l with flow }

namespace Ledger.Lasting

variable {property : Ledger → Prop}

theorem edits (lasting : Lasting property) {l after : Ledger} (edits : l.Edits after) (holds : property l) :
    property after := by
  induction edits with
  | refl => exact holds
  | tail _ edit ih => exact lasting.edit edit ih

mutual

theorem run (lasting : Lasting property) : ∀ (c : Code) {m after : Machine}, c.run ctx m = .ok after →
    property m.ledger → property after.ledger
  | .skip, _, _, ran, holds => by
    cases ran
    exact holds
  | .step s, _, _, ran, holds => by
    rw [Code.run] at ran
    exact lasting.edits (s.run_edits ran) holds
  | .seq first next, _, _, ran, holds => by
    obtain ⟨middle, start, rest⟩ := Code.run_seq_ok ran
    exact lasting.run next rest (lasting.run first start holds)
  | .discard body, _, _, ran, holds => by
    obtain ⟨inner, innerRan, rfl⟩ := Code.run_discard_ok ran
    have atInner := lasting.run body innerRan holds
    exact atInner
  | .scope isTemporary span body, _, _, ran, holds => by
    obtain ⟨inner, innerRan, rfl⟩ := Code.run_scope_ok ran
    exact lasting.pop (lasting.run body innerRan (lasting.push isTemporary span holds))
  | .choice arms, _, _, ran, holds => by
    obtain ⟨last, ends, armsRan, rfl⟩ := Code.run_choice_ok ran
    exact lasting.flow _ (lasting.runArms arms armsRan holds)
  | .loop test round, m, _, ran, holds => by
    obtain ⟨first, once, retested, twice, parts, rfl⟩ := Code.run_loop_ok ran
    have atFirst : property first.ledger := lasting.run test parts.tested holds
    have atOnce : property once.ledger := lasting.run round parts.rounded atFirst
    have again : property (m.resume (first.again once)).ledger := lasting.flow _ atOnce
    have atRetested : property retested.ledger := lasting.run test parts.testedAgain again
    have atTwice : property twice.ledger := lasting.run round parts.roundedAgain atRetested
    exact lasting.flow _ atTwice
  | .leave, _, _, ran, holds => by
    cases ran
    exact lasting.flow _ holds

theorem runArms (lasting : Lasting property) : ∀ (arms : List Code) {before : Flow} {m last : Machine}
    {ends : List Flow}, Code.runArms ctx arms before m = .ok (last, ends) → property m.ledger → property last.ledger
  | [], _, _, _, _, ran, holds => by
    cases ran
    exact holds
  | arm :: rest, _, _, _, _, ran, holds => by
    simp only [Code.runArms] at ran
    obtain ⟨after, armRan, others⟩ := bind_ok.mp ran
    obtain ⟨⟨last, ends⟩, restRan, ended⟩ := bind_ok.mp others
    cases ended
    have atArm := lasting.run arm armRan (lasting.flow _ holds)
    exact lasting.runArms rest restRan atArm

end

end Ledger.Lasting

/-! ### The steps of a run -/

namespace Code

/-- The steps that a part of a run takes, if it is reached. -/
def onward {α β : Type} (reached : Except Failure α) (steps : α → List β) : List β :=
  match reached with
  | .ok a => steps a
  | .error _ => []

theorem mem_onward {α β : Type} {reached : Except Failure α} {steps : α → List β} {b : β} :
    b ∈ onward reached steps ↔ ∃ a, reached = .ok a ∧ b ∈ steps a := by
  cases reached <;> simp [onward]

mutual

def steps (ctx : Context) : Code → Machine → List (Machine × Step × Machine)
  | .skip, _ | .leave, _ => []
  | .step s, m => onward (s.run ctx m) fun after => [(m, s, after)]
  | .seq first next, m => steps ctx first m ++ onward (run ctx first m) fun middle => steps ctx next middle
  | .discard body, m => steps ctx body m
  | .scope isTemporary span body, m => steps ctx body (m.enter isTemporary span)
  | .choice arms, m => stepsArms ctx arms m.ledger.flow { m with found := [] }
  | .loop test round, m =>
    steps ctx test m ++ onward (run ctx test m) fun first =>
      steps ctx round (m.resume first) ++ onward (run ctx round (m.resume first)) fun once =>
        steps ctx test (m.resume (first.again once)) ++
          onward (run ctx test (m.resume (first.again once))) fun retested => steps ctx round (m.resume retested)

def stepsArms (ctx : Context) : List Code → Flow → Machine → List (Machine × Step × Machine)
  | [], _, _ => []
  | arm :: rest, before, m =>
    let start := m.withFlow (m.ledger.flow.restore before)
    steps ctx arm start ++
      onward (run ctx arm start) fun after => stepsArms ctx rest before { after with values := m.values }

end

variable {property : Ledger → Prop} {x : Machine × Step × Machine}

mutual

theorem steps_ran : ∀ (c : Code) {m : Machine}, x ∈ c.steps ctx m → x.2.1.run ctx x.1 = .ok x.2.2
  | .skip, _, taken | .leave, _, taken => by simp [steps] at taken
  | .step s, _, taken => by
    obtain ⟨after, ran, only⟩ := mem_onward.mp taken
    cases List.mem_singleton.mp only
    exact ran
  | .seq first next, _, taken => by
    rcases List.mem_append.mp taken with early | late
    · exact steps_ran first early
    · obtain ⟨middle, -, late⟩ := mem_onward.mp late
      exact steps_ran next late
  | .discard body, _, taken | .scope _ _ body, _, taken => steps_ran body taken
  | .choice arms, _, taken => stepsArms_ran arms taken
  | .loop test round, _, taken => by
    rcases List.mem_append.mp taken with tested | taken
    · exact steps_ran test tested
    obtain ⟨first, -, taken⟩ := mem_onward.mp taken
    rcases List.mem_append.mp taken with rounded | taken
    · exact steps_ran round rounded
    obtain ⟨once, -, taken⟩ := mem_onward.mp taken
    rcases List.mem_append.mp taken with tested | taken
    · exact steps_ran test tested
    obtain ⟨retested, -, rounded⟩ := mem_onward.mp taken
    exact steps_ran round rounded

theorem stepsArms_ran : ∀ (arms : List Code) {before : Flow} {m : Machine}, x ∈ stepsArms ctx arms before m →
    x.2.1.run ctx x.1 = .ok x.2.2
  | [], _, _, taken => by simp [stepsArms] at taken
  | arm :: rest, _, _, taken => by
    rcases List.mem_append.mp taken with here | others
    · exact steps_ran arm here
    · obtain ⟨after, -, later⟩ := mem_onward.mp others
      exact stepsArms_ran rest later

end

end Code

namespace Ledger.Lasting

variable {property : Ledger → Prop} {x : Machine × Step × Machine}

mutual

/-- What lasts and holds before a run holds before each step that it takes. -/
theorem reached (lasting : Lasting property) : ∀ (c : Code) {m : Machine}, x ∈ c.steps ctx m →
    property m.ledger → property x.1.ledger
  | .skip, _, taken, _ | .leave, _, taken, _ => by simp [Code.steps] at taken
  | .step s, _, taken, holds => by
    obtain ⟨after, ran, only⟩ := Code.mem_onward.mp taken
    cases List.mem_singleton.mp only
    exact holds
  | .seq first next, _, taken, holds => by
    rcases List.mem_append.mp taken with early | late
    · exact lasting.reached first early holds
    · obtain ⟨middle, ran, late⟩ := Code.mem_onward.mp late
      exact lasting.reached next late (lasting.run first ran holds)
  | .discard body, _, taken, holds => lasting.reached body taken holds
  | .scope isTemporary span body, _, taken, holds =>
    lasting.reached body taken (lasting.push isTemporary span holds)
  | .choice arms, _, taken, holds => lasting.reachedArms arms taken holds
  | .loop test round, m, taken, holds => by
    rcases List.mem_append.mp taken with tested | taken
    · exact lasting.reached test tested holds
    obtain ⟨first, ran, taken⟩ := Code.mem_onward.mp taken
    have atFirst := lasting.run test ran holds
    rcases List.mem_append.mp taken with rounded | taken
    · have atRound : property (m.resume first).ledger := atFirst
      exact lasting.reached round rounded atRound
    obtain ⟨once, ran, taken⟩ := Code.mem_onward.mp taken
    have atOnce := lasting.run round ran atFirst
    have again : property (m.resume (first.again once)).ledger := lasting.flow _ atOnce
    rcases List.mem_append.mp taken with tested | taken
    · exact lasting.reached test tested again
    obtain ⟨retested, ran, rounded⟩ := Code.mem_onward.mp taken
    have atRetested := lasting.run test ran again
    have atRound : property (m.resume retested).ledger := atRetested
    exact lasting.reached round rounded atRound

theorem reachedArms (lasting : Lasting property) : ∀ (arms : List Code) {before : Flow} {m : Machine},
    x ∈ Code.stepsArms ctx arms before m → property m.ledger → property x.1.ledger
  | [], _, _, taken, _ => by simp [Code.stepsArms] at taken
  | arm :: rest, _, _, taken, holds => by
    rcases List.mem_append.mp taken with here | others
    · exact lasting.reached arm here (lasting.flow _ holds)
    · obtain ⟨after, ran, later⟩ := Code.mem_onward.mp others
      have atAfter := lasting.run arm ran (lasting.flow _ holds)
      exact lasting.reachedArms rest later atAfter

end

mutual

/-- What lasts and holds after a step that a run takes holds after the run. -/
theorem goesOn (lasting : Lasting property) (holds : property x.2.2.ledger) : ∀ (c : Code) {m after : Machine},
    x ∈ c.steps ctx m → c.run ctx m = .ok after → property after.ledger
  | .skip, _, _, taken, _ | .leave, _, _, taken, _ => by simp [Code.steps] at taken
  | .step s, _, _, taken, ran => by
    obtain ⟨after, same, only⟩ := Code.mem_onward.mp taken
    rw [Code.run] at ran
    cases List.mem_singleton.mp only
    cases same.symm.trans ran
    exact holds
  | .seq first next, _, _, taken, ran => by
    obtain ⟨middle, start, rest⟩ := Code.run_seq_ok ran
    rcases List.mem_append.mp taken with early | late
    · exact lasting.run next rest (lasting.goesOn holds first early start)
    · obtain ⟨other, same, late⟩ := Code.mem_onward.mp late
      cases same.symm.trans start
      exact lasting.goesOn holds next late rest
  | .discard body, _, _, taken, ran => by
    obtain ⟨inner, innerRan, rfl⟩ := Code.run_discard_ok ran
    have atInner := lasting.goesOn holds body taken innerRan
    exact atInner
  | .scope _ _ body, _, _, taken, ran => by
    obtain ⟨inner, innerRan, rfl⟩ := Code.run_scope_ok ran
    exact lasting.pop (lasting.goesOn holds body taken innerRan)
  | .choice arms, _, _, taken, ran => by
    obtain ⟨last, ends, armsRan, rfl⟩ := Code.run_choice_ok ran
    exact lasting.flow _ (lasting.goesOnArms holds arms taken armsRan)
  | .loop test round, m, _, taken, ran => by
    obtain ⟨first, once, retested, twice, parts, rfl⟩ := Code.run_loop_ok ran
    -- What holds after one of the four parts holds after those behind it.
    have fromRetested (atRetested : property retested.ledger) : property (m.looped first once twice).ledger := by
      have atTwice := lasting.run round parts.roundedAgain atRetested
      exact lasting.flow _ atTwice
    have fromOnce (atOnce : property once.ledger) : property (m.looped first once twice).ledger :=
      have again : property (m.resume (first.again once)).ledger := lasting.flow _ atOnce
      have atRetested := lasting.run test parts.testedAgain again
      fromRetested atRetested
    rcases List.mem_append.mp taken with tested | taken
    · have atFirst := lasting.goesOn holds test tested parts.tested
      exact fromOnce (lasting.run round parts.rounded atFirst)
    obtain ⟨other, same, taken⟩ := Code.mem_onward.mp taken
    cases same.symm.trans parts.tested
    rcases List.mem_append.mp taken with rounded | taken
    · exact fromOnce (lasting.goesOn holds round rounded parts.rounded)
    obtain ⟨other, same, taken⟩ := Code.mem_onward.mp taken
    cases same.symm.trans parts.rounded
    rcases List.mem_append.mp taken with tested | taken
    · exact fromRetested (lasting.goesOn holds test tested parts.testedAgain)
    obtain ⟨other, same, rounded⟩ := Code.mem_onward.mp taken
    cases same.symm.trans parts.testedAgain
    have atTwice := lasting.goesOn holds round rounded parts.roundedAgain
    exact lasting.flow _ atTwice

theorem goesOnArms (lasting : Lasting property) (holds : property x.2.2.ledger) : ∀ (arms : List Code)
    {before : Flow} {m last : Machine} {ends : List Flow}, x ∈ Code.stepsArms ctx arms before m →
    Code.runArms ctx arms before m = .ok (last, ends) → property last.ledger
  | [], _, _, _, _, taken, _ => by simp [Code.stepsArms] at taken
  | arm :: rest, _, _, _, _, taken, ran => by
    simp only [Code.runArms] at ran
    obtain ⟨after, armRan, others⟩ := bind_ok.mp ran
    obtain ⟨⟨last, ends⟩, restRan, ended⟩ := bind_ok.mp others
    cases ended
    rcases List.mem_append.mp taken with here | later
    · have atArm := lasting.goesOn holds arm here armRan
      exact lasting.runArms rest restRan atArm
    · obtain ⟨other, same, later⟩ := Code.mem_onward.mp later
      cases same.symm.trans armRan
      exact lasting.goesOnArms holds rest later restRan

end

end Ledger.Lasting

/-! ### Ways on -/

/-- One move on a way on: some code is run with all its branches and joins, a scope is entered or left, or values
are put aside. -/
inductive Machine.Move (ctx : Context) : Machine → Machine → Prop
  | run {c : Code} {declares : Bool} {m after : Machine} (tidy : c.Tidy declares)
      (ran : c.run ctx m = .ok after) : Move ctx m after
  | enter {m : Machine} (isTemporary : Bool) (span : Span) : Move ctx m (m.enter isTemporary span)
  | exit {m : Machine} : Move ctx m m.exit
  | shelve {m : Machine} (values : List (List Origin)) (found : List Origin) : Move ctx m { m with values, found }

theorem Machine.Move.step {s : Step} (ran : s.run ctx m = .ok after) : Machine.Move ctx m after :=
  .run (.step fun _ => rfl : Code.Tidy true (.step s)) (by rw [Code.run, ran])

/-- One machine after any number of moves from another. Where the way ends in the middle of a branch or a round, it
is not joined with those beside it. -/
abbrev Machine.Onward (ctx : Context) : Machine → Machine → Prop := Relation.ReflTransGen (Machine.Move ctx)

theorem Path.onward {limit : RoundLimit} {c : Code} {ends : Bool} (path : Path ctx limit c m after ends) :
    m.Onward ctx after := by
  induction path with
  | cut | skip => exact .refl
  | step applied => exact .single (.step applied)
  | seq _ _ first next => exact first.trans next
  | within _ ih => exact ih
  | discard _ ih => exact ih.tail (.shelve _ _)
  | scope _ ih => exact .head (.enter _ _) (ih.tail .exit)
  | arm _ _ ih => exact .head (.shelve _ _) (ih.tail (.shelve _ _))
  | without => exact .single (.shelve _ _)
  | loop _ _ _ ih => exact ih
  | leave => exact .single (.run (.leave : Code.Tidy false .leave) rfl)

theorem Ledger.Lasting.onward {property : Ledger → Prop} (lasting : Lasting property)
    (onward : m.Onward ctx after) (holds : property m.ledger) : property after.ledger := by
  induction onward with
  | refl => exact holds
  | tail _ move ih =>
    cases move with
    | run _ ran => exact lasting.run _ ran ih
    | enter isTemporary span => exact lasting.push isTemporary span ih
    | exit => exact lasting.pop ih
    | shelve => exact ih

end TreeCheck.Ownership
