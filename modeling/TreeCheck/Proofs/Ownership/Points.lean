import TreeCheck.Proofs.Ownership.Runs
import TreeCheck.Proofs.Ownership.Intact
import TreeCheck.Proofs.Ownership.Seats

/-!
The points of a run. What the rules and the scopes keep, and what a join keeps if it holds on each of the joined
paths, holds at each point of a run: in its arms, in both rounds of its loops, and wherever it goes back to a flow
from before.
-/

namespace TreeCheck.Ownership

variable {ctx : Context} {m after p : Machine}

theorem Machine.scopes_run {c : Code} (tidy : c.Tidy false) (ran : c.run ctx m = .ok after) :
    after.ledger.scopes = m.ledger.scopes :=
  (tidy.grows_nil (tidy.ran nofun ran).grows).scopes_eq

theorem Ledger.precedes_lasting (base : Ledger) : Lasting base.Precedes where
  edit := fun {l after} edit precedes => by
    cases edit with
    | lend owner mutable node span => exact precedes.trans ⟨Nat.le_refl _, List.prefix_append _ _⟩
    | declare name type mutable span describe same start =>
      obtain ⟨scope, scopes, shape, -⟩ := declare_shape l name type mutable span
      exact precedes.trans ⟨by simp [shape], by simp [shape]⟩
    | _ => exact ⟨precedes.vars, precedes.loans⟩
  push := fun _ _ precedes => ⟨precedes.vars, precedes.loans⟩
  pop := fun {l} precedes => precedes.trans (precedes_pop l)
  flow := fun _ precedes => ⟨precedes.vars, precedes.loans⟩

theorem Code.runArms_snoc {front : List Code} {arm : Code} {before : Flow} {m last after : Machine}
    {ends : List Flow} (earlier : runArms ctx front before m = .ok (last, ends))
    (ran : arm.run ctx (last.withFlow (last.ledger.flow.restore before)) = .ok after) :
    runArms ctx (front ++ [arm]) before m =
      .ok ({ after with values := last.values }, ends ++ [after.ledger.flow]) := by
  induction front generalizing m ends with
  | nil =>
    cases earlier
    simp only [List.nil_append, runArms, ran]
    rfl
  | cons first rest ih =>
    simp only [runArms] at earlier
    obtain ⟨stopped, firstRan, others⟩ := bind_ok.mp earlier
    obtain ⟨⟨last, later⟩, restRan, ended⟩ := bind_ok.mp others
    cases ended
    rw [List.cons_append, runArms]
    exact bind_ok.mpr ⟨stopped, firstRan, bind_ok.mpr ⟨_, ih restRan, rfl⟩⟩

/-! ### Points -/

/-- The machines that a run of some code comes past. The run may fail further on. -/
inductive Code.Visits (ctx : Context) : Code → Machine → Machine → Prop
  | start {c : Code} {m : Machine} : Visits ctx c m m
  | stop {c : Code} {m after : Machine} (ran : c.run ctx m = .ok after) : Visits ctx c m after
  | first {first next : Code} {m p : Machine} (inner : Visits ctx first m p) : Visits ctx (.seq first next) m p
  | next {first next : Code} {m middle p : Machine} (ran : first.run ctx m = .ok middle)
      (inner : Visits ctx next middle p) : Visits ctx (.seq first next) m p
  | discard {body : Code} {m p : Machine} (inner : Visits ctx body m p) : Visits ctx (.discard body) m p
  | scope {isTemporary : Bool} {span : Span} {body : Code} {m p : Machine}
      (inner : Visits ctx body (m.enter isTemporary span) p) : Visits ctx (.scope isTemporary span body) m p
  | arm {front back : List Code} {arm : Code} {m middle p : Machine} {ends : List Flow}
      (earlier : runArms ctx front m.ledger.flow { m with found := [] } = .ok (middle, ends))
      (inner : Visits ctx arm (middle.withFlow (middle.ledger.flow.restore m.ledger.flow)) p) :
      Visits ctx (.choice (front ++ arm :: back)) m p
  | once {test round : Code} {m p : Machine} (inner : Visits ctx (.seq (.discard test) round) m p) :
      Visits ctx (.loop test round) m p
  | twice {test round : Code} {m first once p : Machine} (tested : test.run ctx m = .ok first)
      (rounded : round.run ctx (m.resume first) = .ok once)
      (inner : Visits ctx (.seq (.discard test) round) (m.resume (first.again once)) p) :
      Visits ctx (.loop test round) m p

theorem Code.run_discard {body : Code} (ran : body.run ctx m = .ok after) :
    (Code.discard body).run ctx m = .ok (m.resume after) := by
  rw [run, ran]
  rfl

mutual

/-- A run comes past the machines before and after each step that it takes. -/
theorem Code.visits_steps {x : Machine × Step × Machine} : ∀ (c : Code) {m : Machine}, x ∈ c.steps ctx m →
    c.Visits ctx m x.1 ∧ c.Visits ctx m x.2.2
  | .skip, _, taken | .leave, _, taken => by simp [steps] at taken
  | .step s, m, taken => by
    obtain ⟨after, ran, only⟩ := mem_onward.mp taken
    cases List.mem_singleton.mp only
    exact ⟨.start, .stop (by rwa [run])⟩
  | .seq first next, _, taken => by
    rcases List.mem_append.mp taken with early | late
    · exact (visits_steps first early).imp .first .first
    · obtain ⟨middle, ran, late⟩ := mem_onward.mp late
      exact (visits_steps next late).imp (.next ran) (.next ran)
  | .discard body, _, taken => (visits_steps body taken).imp .discard .discard
  | .scope _ _ body, _, taken => (visits_steps body taken).imp .scope .scope
  | .choice arms, m, taken => by
    have before : runArms ctx [] m.ledger.flow { m with found := [] } = .ok ({ m with found := [] }, []) := rfl
    exact visits_stepsArms arms before taken
  | .loop test round, m, taken => by
    rcases List.mem_append.mp taken with inTest | taken
    · exact (visits_steps test inTest).imp (.once ∘ .first ∘ .discard) (.once ∘ .first ∘ .discard)
    obtain ⟨first, tested, taken⟩ := mem_onward.mp taken
    rcases List.mem_append.mp taken with inRound | taken
    · exact (visits_steps round inRound).imp (.once ∘ .next (run_discard tested))
        (.once ∘ .next (run_discard tested))
    obtain ⟨once, rounded, taken⟩ := mem_onward.mp taken
    rcases List.mem_append.mp taken with inTest | taken
    · exact (visits_steps test inTest).imp (.twice tested rounded ∘ .first ∘ .discard)
        (.twice tested rounded ∘ .first ∘ .discard)
    obtain ⟨retested, testedAgain, inRound⟩ := mem_onward.mp taken
    exact (visits_steps round inRound).imp (.twice tested rounded ∘ .next (run_discard testedAgain))
      (.twice tested rounded ∘ .next (run_discard testedAgain))

theorem Code.visits_stepsArms {x : Machine × Step × Machine} {start : Machine} : ∀ (arms : List Code)
    {front : List Code} {m : Machine} {ends : List Flow},
    runArms ctx front start.ledger.flow { start with found := [] } = .ok (m, ends) →
    x ∈ stepsArms ctx arms start.ledger.flow m →
    (Code.choice (front ++ arms)).Visits ctx start x.1 ∧ (Code.choice (front ++ arms)).Visits ctx start x.2.2
  | [], _, _, _, _, taken => by simp [stepsArms] at taken
  | arm :: rest, front, m, ends, earlier, taken => by
    rcases List.mem_append.mp taken with here | others
    · exact (visits_steps arm here).imp (.arm earlier) (.arm earlier)
    · obtain ⟨after, ran, later⟩ := mem_onward.mp others
      have further := runArms_snoc earlier ran
      rw [List.append_cons]
      exact visits_stepsArms rest further later

end

/-! ### What joins keep -/

/-- A property of ledgers that the steps, the scopes and the joins of a run keep, given that each ledger stands on
some ground. -/
structure Ledger.Persists (ctx : Context) (allowed : Step → Prop) (ground property : Ledger → Prop) : Prop where
  run : ∀ {c : Code} {declares : Bool} {m after : Machine}, c.Tidy declares → c.run ctx m = .ok after →
    ground m.ledger → ground after.ledger
  branch : ∀ {l : Ledger} (flow : Flow), ground l → ground { l with flow }
  enter : ∀ {l : Ledger} (isTemporary : Bool) (span : Span), ground l → ground (l.push isTemporary span)
  step : ∀ {s : Step} {m after : Machine}, allowed s → s.run ctx m = .ok after → ground m.ledger →
    property m.ledger → property after.ledger
  push : ∀ {l : Ledger} (isTemporary : Bool) (span : Span), property l → property (l.push isTemporary span)
  pop : ∀ {l : Ledger}, ground l → property l → property l.pop
  later : ∀ {l now : Ledger}, property l → property now → now.scopes = l.scopes → l.Precedes now →
    property { now with flow := l.flow }
  restore : ∀ {l : Ledger} {flow : Flow} (current : Flow), property { l with flow } →
    property { l with flow := current.restore flow }
  diverge : ∀ {l : Ledger} {flow : Flow} (diverged : Bool), property { l with flow } →
    property { l with flow := { flow with diverged } }
  join : ∀ {l : Ledger} {a b : Flow}, property { l with flow := a } → property { l with flow := b } →
    property { l with flow := a.join b }

namespace Ledger.Persists

variable {allowed : Step → Prop} {ground property : Ledger → Prop} (persists : Persists ctx allowed ground property)
include persists

theorem foldl {l : Ledger} {flow : Flow} (paths : List Flow) (start : property { l with flow })
    (each : ∀ p ∈ paths, property { l with flow := p }) : property { l with flow := paths.foldl Flow.join flow } := by
  induction paths generalizing flow with
  | nil => exact start
  | cons p paths ih =>
    obtain ⟨first, others⟩ := List.forall_mem_cons.mp each
    exact ih (persists.join start first) others

theorem merge {l : Ledger} {paths : List Flow} (holds : property l)
    (each : ∀ p ∈ paths, property { l with flow := p }) : property { l with flow := l.flow.merge paths } := by
  unfold Flow.merge
  split
  · rename_i first rest kept
    have all : ∀ p ∈ first :: rest, property { l with flow := p } :=
      fun p member => each p (List.mem_filter.mp (kept ▸ member)).1
    obtain ⟨start, others⟩ := List.forall_mem_cons.mp all
    exact persists.diverge false (persists.foldl rest (persists.restore l.flow start) others)
  · split
    · exact persists.diverge true (persists.restore l.flow (each _ List.mem_cons_self))
    · exact holds

end Ledger.Persists

/-- What is known behind code that declares nothing. -/
structure Ledger.Behind (ground property : Ledger → Prop) (l after : Ledger) : Prop where
  stands : ground after
  holds : property after
  scopes : after.scopes = l.scopes
  precedes : l.Precedes after

theorem Ledger.Behind.trans {ground property : Ledger → Prop} {l middle after : Ledger}
    (first : Behind ground property l middle) (next : Behind ground property middle after) :
    Behind ground property l after :=
  ⟨next.stands, next.holds, next.scopes.trans first.scopes, first.precedes.trans next.precedes⟩

/-- Whether code leaves what holds before it as it is. -/
def Code.Upholds (ctx : Context) (ground property : Ledger → Prop) (c : Code) : Prop :=
  ∀ ⦃m after : Machine⦄, c.run ctx m = .ok after → ground m.ledger → property m.ledger → property after.ledger

namespace Ledger.Persists

variable {allowed : Step → Prop} {ground property : Ledger → Prop} (persists : Persists ctx allowed ground property)
include persists

theorem behind {c : Code} (tidy : c.Tidy false) (upholds : c.Upholds ctx ground property)
    (ran : c.run ctx m = .ok after) (stands : ground m.ledger) (holds : property m.ledger) :
    Behind ground property m.ledger after.ledger :=
  ⟨persists.run tidy ran stands, upholds ran stands holds, Machine.scopes_run tidy ran,
    (precedes_lasting m.ledger).run c ran (.refl _)⟩

theorem runArms {arms : List Code} {before : Flow} {ends : List Flow} (tidy : ∀ arm ∈ arms, arm.Tidy false)
    (each : ∀ arm ∈ arms, arm.Upholds ctx ground property) (stands : ground m.ledger) (holds : property m.ledger)
    (held : property { m.ledger with flow := before }) (ran : Code.runArms ctx arms before m = .ok (after, ends)) :
    Behind ground property m.ledger after.ledger ∧ ∀ p ∈ ends, property { after.ledger with flow := p } := by
  induction arms generalizing m ends with
  | nil =>
    cases ran
    exact ⟨⟨stands, holds, rfl, .refl _⟩, List.forall_mem_nil _⟩
  | cons arm rest ih =>
    simp only [Code.runArms] at ran
    obtain ⟨last, armRan, others⟩ := bind_ok.mp ran
    obtain ⟨⟨after, later⟩, restRan, ended⟩ := bind_ok.mp others
    cases ended
    obtain ⟨tidyArm, tidyRest⟩ := List.forall_mem_cons.mp tidy
    obtain ⟨upholds, others⟩ := List.forall_mem_cons.mp each
    have atLast : Behind ground property m.ledger last.ledger := by
      have started : ground (m.withFlow (m.ledger.flow.restore before)).ledger := persists.branch _ stands
      obtain ⟨stands, holds, scopes, precedes⟩ :=
        persists.behind tidyArm upholds armRan started (persists.restore _ held)
      exact ⟨stands, holds, scopes, ⟨precedes.vars, precedes.loans⟩⟩
    have heldThere := persists.later held atLast.holds atLast.scopes ⟨atLast.precedes.vars, atLast.precedes.loans⟩
    obtain ⟨behind, all⟩ := ih (m := { last with values := m.values }) tidyRest others atLast.stands atLast.holds
      heldThere restRan
    have here := persists.later atLast.holds behind.holds behind.scopes behind.precedes
    exact ⟨atLast.trans behind, List.forall_mem_cons.mpr ⟨here, all⟩⟩

/-- A loop goes on behind its first round. -/
theorem again {first once : Machine} (holds : property first.ledger)
    (behind : Behind ground property first.ledger once.ledger) :
    Behind ground property once.ledger (first.again once).ledger := by
  have held := persists.later holds behind.holds behind.scopes behind.precedes
  refine ⟨persists.branch _ behind.stands, ?_, rfl, ⟨Nat.le_refl _, List.prefix_rfl⟩⟩
  unfold Machine.again
  split
  · exact persists.restore once.ledger.flow held
  · exact behind.holds

theorem looped {first once twice : Machine} (atFirst : property first.ledger) (atOnce : property once.ledger)
    (fromFirst : Behind ground property first.ledger twice.ledger)
    (fromOnce : Behind ground property once.ledger twice.ledger) : property (m.looped first once twice).ledger := by
  have heldFirst := persists.later atFirst fromFirst.holds fromFirst.scopes fromFirst.precedes
  have heldOnce := persists.later atOnce fromOnce.holds fromOnce.scopes fromOnce.precedes
  have merged := persists.merge fromFirst.holds (List.forall_mem_cons.mpr ⟨heldFirst, List.forall_mem_cons.mpr
    ⟨heldOnce, List.forall_mem_cons.mpr ⟨fromFirst.holds, List.forall_mem_nil _⟩⟩⟩)
  unfold Machine.looped
  split
  · exact persists.diverge true merged
  · exact merged

/-- What persists holds behind a run. -/
theorem upholds {c : Code} {declares : Bool} (tidy : c.Tidy declares) (each : c.Each allowed) :
    c.Upholds ctx ground property := by
  induction tidy with
  | skip =>
    intro m after ran stands holds
    cases ran
    exact holds
  | step =>
    intro m after ran stands holds
    cases each with
    | step fits =>
      rw [Code.run] at ran
      exact persists.step fits ran stands holds
  | seq tidyFirst _ atFirst atNext =>
    intro m after ran stands holds
    cases each with
    | seq first next =>
      obtain ⟨middle, start, rest⟩ := Code.run_seq_ok ran
      exact atNext next rest (persists.run tidyFirst start stands) (atFirst first start stands holds)
  | discard _ ih =>
    intro m after ran stands holds
    cases each with
    | discard inner =>
      obtain ⟨last, innerRan, rfl⟩ := Code.run_discard_ok ran
      have atLast := ih inner innerRan stands holds
      exact atLast
  | @temporary _ span _ tidy ih | @named _ span _ tidy ih =>
    intro m after ran stands holds
    cases each with
    | scope inner =>
      obtain ⟨last, innerRan, rfl⟩ := Code.run_scope_ok ran
      have entered (isTemporary : Bool) := persists.enter isTemporary span stands
      exact persists.pop (persists.run tidy innerRan (entered _))
        (ih inner innerRan (entered _) (persists.push _ span holds))
  | choice tidy ih =>
    intro m after ran stands holds
    cases each with
    | choice each =>
      obtain ⟨last, ends, armsRan, rfl⟩ := Code.run_choice_ok ran
      obtain ⟨behind, all⟩ := persists.runArms (m := { m with found := [] }) tidy
        (fun arm member => ih arm member (each arm member)) stands holds holds armsRan
      exact persists.merge behind.holds all
  | loop condition body atTest atRound =>
    intro m after ran stands holds
    cases each with
    | loop inTest inRound =>
      obtain ⟨first, once, retested, twice, parts, rfl⟩ := Code.run_loop_ok ran
      have toFirst := persists.behind condition (atTest inTest) parts.tested stands holds
      have toOnce : Ledger.Behind ground property first.ledger once.ledger :=
        persists.behind (m := m.resume first) body (atRound inRound) parts.rounded toFirst.stands toFirst.holds
      have toAgain := persists.again toFirst.holds toOnce
      have toRetested : Ledger.Behind ground property (first.again once).ledger retested.ledger :=
        persists.behind (m := m.resume (first.again once)) condition (atTest inTest) parts.testedAgain
          toAgain.stands toAgain.holds
      have toTwice : Ledger.Behind ground property retested.ledger twice.ledger :=
        persists.behind (m := m.resume retested) body (atRound inRound) parts.roundedAgain toRetested.stands
          toRetested.holds
      have fromOnce := toAgain.trans (toRetested.trans toTwice)
      exact persists.looped toFirst.holds toOnce.holds (toOnce.trans fromOnce) fromOnce
  | leave =>
    intro m after ran stands holds
    cases ran
    exact persists.diverge true holds

theorem visits {c : Code} {declares : Bool} (tidy : c.Tidy declares) (each : c.Each allowed)
    (visited : c.Visits ctx m p) (stands : ground m.ledger) (holds : property m.ledger) : property p.ledger := by
  induction visited generalizing declares with
  | start => exact holds
  | stop ran => exact persists.upholds tidy each ran stands holds
  | first _ ih =>
    cases tidy with
    | seq tidy _ =>
      cases each with
      | seq each _ => exact ih tidy each stands holds
  | next ran _ ih =>
    cases tidy with
    | seq tidyFirst tidy =>
      cases each with
      | seq first each =>
        exact ih tidy each (persists.run tidyFirst ran stands)
          (persists.upholds tidyFirst first ran stands holds)
  | discard _ ih =>
    cases tidy with
    | discard tidy =>
      cases each with
      | discard each => exact ih tidy each stands holds
  | scope _ ih =>
    cases each with
    | scope each =>
      obtain ⟨more, tidy⟩ := tidy.inner
      exact ih tidy each (persists.enter _ _ stands) (persists.push _ _ holds)
  | @arm front back arm m middle p ends earlier _ ih =>
    cases tidy with
    | choice tidy =>
      cases each with
      | choice each =>
        have inFront : ∀ arm ∈ front, arm.Tidy false ∧ arm.Each allowed := fun arm member =>
          ⟨tidy arm (List.mem_append_left _ member), each arm (List.mem_append_left _ member)⟩
        obtain ⟨behind, -⟩ := persists.runArms (m := { m with found := [] })
          (fun arm member => (inFront arm member).1)
          (fun arm member => persists.upholds (inFront arm member).1 (inFront arm member).2)
          stands holds holds earlier
        have held := persists.later holds behind.holds behind.scopes behind.precedes
        exact ih (tidy arm (by simp)) (each arm (by simp)) (persists.branch _ behind.stands)
          (persists.restore _ held)
  | once _ ih =>
    cases tidy with
    | loop condition body =>
      cases each with
      | loop inTest inRound =>
        exact ih (.seq (.discard condition) body) (.seq (.discard inTest) inRound) stands holds
  | @twice test round m first once _ tested rounded _ ih =>
    cases tidy with
    | loop condition body =>
      cases each with
      | loop inTest inRound =>
        have toFirst := persists.behind condition (persists.upholds condition inTest) tested stands holds
        have toOnce : Behind ground property first.ledger once.ledger :=
          persists.behind (m := m.resume first) body (persists.upholds body inRound) rounded toFirst.stands
            toFirst.holds
        have toAgain := persists.again toFirst.holds toOnce
        exact ih (.seq (.discard condition) body) (.seq (.discard inTest) inRound) toAgain.stands toAgain.holds

end Ledger.Persists

end TreeCheck.Ownership
