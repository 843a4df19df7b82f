import Mathlib
import TreeCheck.Proofs.Ownership.EscapeSteps
import TreeCheck.Proofs.Ownership.Functions
import TreeCheck.Proofs.Ownership.Lineage

/-!
Lives clauses. What comes from a parameter that is a reference, an accepted run knows to point into what the
parameter points into, or into something lent; so it is returned only if the lives clause names the parameter.
Since marks are only taken away on the way round a loop, the first round of a run speaks for all rounds.
-/

namespace TreeCheck.Ownership

variable {ctx : Context} {parameter : String} {g middle after : Lineage} {m done : Machine} {c : Code}
  {ends declares marked : Bool} {origins : List Origin}

/-- Something marked points into what a parameter points into, or into something lent. -/
def Supplied (parameter : String) (marked : Bool) (origins : List Origin) : Prop :=
  marked = true → ∃ source, (source = some parameter ∨ source = none) ∧ Reaches origins source

namespace Supplied

theorem unmarked : Supplied parameter false origins := nofun

theorem reaches {source : Option String} (descends : source = some parameter ∨ source = none)
    (reaches : Reaches origins source) : Supplied parameter marked origins :=
  fun _ => ⟨source, descends, reaches⟩

theorem below {others : List Origin} (supplied : Supplied parameter marked origins)
    (below : Below origins others) : Supplied parameter marked others := fun isMarked =>
  have ⟨source, descends, reaches⟩ := supplied isMarked
  ⟨source, descends, below source reaches⟩

theorem union {first second : Bool} {a b : List Origin} (left : Supplied parameter first a)
    (right : Supplied parameter second b) : Supplied parameter (first || second) (Origin.union a b) := by
  intro isMarked
  rcases Bool.or_eq_true_iff.mp isMarked with isFirst | isSecond
  · exact left.below (fun source reaches => reaches_union.mpr (.inl reaches)) isFirst
  · exact right.below (fun source reaches => reaches_union.mpr (.inr reaches)) isSecond

theorem getD {marks : List Bool} {values : List (List Origin)}
    (each : List.Forall₂ (Supplied parameter) marks values) (i : Nat) :
    Supplied parameter (marks.getD i false) (values.getD i []) := by
  induction each generalizing i with
  | nil => exact unmarked
  | cons first _ ih =>
    cases i with
    | zero => exact first
    | succ i => simpa using ih i

end Supplied

theorem Context.assigned_part {target : Expr} {type : Ty} {before new : Prop} (part : isWhole target = false)
    (held : before) : ctx.assigned target type before new := by
  simp only [assigned, part, Bool.false_eq_true, if_false]
  split_ifs
  · exact held
  · exact .inl held
  · exact held

/-- A run that knows the lineage of a parameter: it has the same names in scope, and what is marked points into
what the parameter points into, or into something lent. -/
structure Knows (parameter : String) (g : Lineage) (m : Machine) : Prop where
  names : g.names.map Prod.fst = m.ledger.outline.map Prod.fst
  slots : ∀ j, markIn g.names j = true →
    ∃ source, (source = some parameter ∨ source = none) ∧ m.ledger.Shows (HoldsFrom source) j
  values : List.Forall₂ (Supplied parameter) g.values m.values
  found : Supplied parameter g.found m.found

namespace Knows

theorem length (knows : Knows parameter g m) : g.names.length = m.ledger.env.length := by
  simpa [Ledger.length_outline] using congrArg List.length knows.names

theorem top (knows : Knows parameter g m) : Supplied parameter g.top m.top := by
  rw [Lineage.top, Machine.top, List.headD_eq_getD, List.headD_eq_getD]
  exact Supplied.getD knows.values 0

theorem push {l : Ledger} (used : Nat) (knows : Knows parameter g { m with ledger := l })
    (supplied : Supplied parameter marked origins) :
    Knows parameter (g.push used marked) { m with ledger := l, values := origins :: m.values.drop used } :=
  ⟨knows.names, knows.slots, .cons supplied (List.forall₂_drop used knows.values), knows.found⟩

theorem taken (knows : Knows parameter g m) {j : Nat} {slot : Option Nat} (marks : markIn g.names j = true)
    (found : slot = some j) (taken : Taken m.ledger slot origins) : Supplied parameter marked origins := by
  subst found
  obtain ⟨source, descends, shows⟩ := knows.slots j marks
  exact .reaches descends ((taken source).mpr shows)

theorem ofName (knows : Knows parameter g m) {name : String} (marks : g.ofName name = true) :
    ∃ j, position (m.ledger.outline.map Prod.fst) name = some j ∧ markIn g.names j = true :=
  knows.names ▸ exists_markIn marks

theorem ofPlace (knows : Knows parameter g m) {e : Expr} (marks : g.ofPlace e = true) :
    e.root?.isSome = true ∧ ∃ j, slotOf m.ledger.outline e = some j ∧ markIn g.names j = true := by
  unfold Lineage.ofPlace at marks
  split at marks
  · rename_i info name root
    obtain ⟨j, found, marks⟩ := knows.ofName marks
    exact ⟨by simp [root], j, by simp [slotOf, root, found], marks⟩
  · cases marks

/-- A rule that neither declares nor assigns. -/
theorem kept {l : Ledger} {kinds : Diagnostic.Kind → Prop} (knows : Knows parameter g m)
    (keeps : m.ledger.Keeps VarFlow.holds kinds l) : Knows parameter g { m with ledger := l } := by
  have env : l.env = m.ledger.env := by rw [Ledger.env, keeps.scopes, Ledger.env]
  refine ⟨?_, fun j marks => ?_, knows.values, knows.found⟩
  · rw [knows.names, Ledger.outline, Ledger.outline, keeps.vars, env]
  · obtain ⟨source, descends, shows⟩ := knows.slots j marks
    exact ⟨source, descends, (Ledger.shows_congr env fun id _ => keeps.has_holds source id).mpr shows⟩

theorem step {s : Step} (knows : Knows parameter g m) (accepted : Code.Accepted ctx (.step s) m done) :
    Knows parameter (s.descend ctx parameter Ty.isRef g) done := by
  have ran := accepted.ran
  have regular := accepted.regular
  rw [Code.run] at ran
  have names : (s.descend ctx parameter Ty.isRef g).names.map Prod.fst = done.ledger.outline.map Prod.fst := by
    have tidy : Code.Tidy true (.step s) := .step fun _ => rfl
    rw [(Trailed.step s).names, accepted.outline tidy, List.map_append, knows.names]
  cases s with
  | value =>
    cases ran
    exact knows.push 0 .unmarked
  | nip =>
    cases ran
    exact knows.push 2 knows.top
  | union =>
    cases ran
    exact knows.push 2 ((Supplied.getD knows.values 1).union knows.top)
  | collect =>
    cases ran
    refine ⟨knows.names, knows.slots, ?_, knows.found.union knows.top⟩
    simpa [Step.descend] using List.forall₂_drop 1 knows.values
  | gather count | returned signature count =>
    cases ran
    exact knows.push (count + 1) .unmarked
  | typed id | locate e | keep | keepFound =>
    have keeps := Step.run_keeps rfl ran
    obtain ⟨l, -, rfl⟩ := Machine.perform_ok.mp ran
    exact knows.kept keeps
  | escape span =>
    have keeps := Step.run_keeps rfl ran
    obtain ⟨l, -, rfl⟩ := Machine.perform_ok.mp ran
    have kept := knows.kept keeps
    exact ⟨kept.names, kept.slots, kept.values, kept.found⟩
  | carried id =>
    have keeps := Step.run_keeps rfl ran
    obtain ⟨origins, l, carried, rfl⟩ := Machine.yield_ok.mp ran
    refine (knows.kept keeps).push 1 fun marks => ?_
    obtain ⟨isTop, carries⟩ := Bool.and_eq_true_iff.mp marks
    rw [Context.carried_value carried, if_pos carries]
    exact knows.top isTop
  | lend mutable site =>
    have keeps := Step.run_keeps rfl ran
    obtain ⟨origins, l, lends, rfl⟩ := Machine.yield_ok.mp ran
    obtain ⟨loan, _, -, lends⟩ := Own.run_bind_ok.mp lends
    obtain ⟨rfl, -⟩ := Own.run_pure_ok.mp lends
    exact (knows.kept keeps).push 1
      (knows.top.below fun source reaches => reaches_union.mpr (.inl reaches))
  | useName info name use =>
    have keeps := Step.run_keeps rfl ran
    obtain ⟨value, taken, values, found⟩ := Step.useName_taken ran
    obtain ⟨origins, l, -, rfl⟩ := Machine.yield_ok.mp ran
    obtain rfl := (List.cons.inj values).1
    refine (knows.kept keeps).push 0 fun marks => ?_
    obtain ⟨j, slot, marked⟩ := knows.ofName marks
    exact knows.taken marked slot taken marks
  | usePlace e use =>
    have keeps := Step.run_keeps rfl ran
    obtain ⟨value, taken, values, found⟩ := Step.usePlace_taken ran
    obtain ⟨origins, l, -, rfl⟩ := Machine.yield_ok.mp ran
    obtain rfl := (List.cons.inj values).1
    refine (knows.kept keeps).push 0 fun marks => ?_
    obtain ⟨-, j, slot, marked⟩ := knows.ofPlace marks
    exact knows.taken marked slot taken marks
  | borrowPlace operand mutable site =>
    have keeps := Step.run_keeps rfl ran
    have ranAgain := ran
    obtain ⟨origins, l, -, rfl⟩ := Machine.yield_ok.mp ran
    refine (knows.kept keeps).push 0 fun marks => ?_
    obtain ⟨rooted, j, slot, marked⟩ := knows.ofPlace marks
    obtain ⟨value, taken, values, -⟩ := Step.borrowPlace_taken (.inl rooted) accepted.quiet ranAgain
    obtain rfl := (List.cons.inj values).1
    have start : borrowSlot m.ledger.outline operand = some j := by rw [borrowSlot, if_pos rooted, slot]
    split at taken
    · obtain ⟨loan, rfl⟩ := taken
      exact ⟨none, .inr rfl, by simp [Origin.source]⟩
    · exact knows.taken marked start taken marks
  | write target id =>
    have shows := Step.write_shows regular accepted.quiet ran
    obtain ⟨l, -, rfl⟩ := Machine.perform_ok.mp ran
    refine ⟨names, fun j marks => ?_, ?_, ?_⟩
    · cases target with
      | ident info name =>
        obtain ⟨before, elsewhere⟩ := markIn_unmark marks
        obtain ⟨source, descends, held⟩ := knows.slots j before
        refine ⟨source, descends, (shows source j).mpr ?_⟩
        rwa [if_neg (by simpa [slotOf, Expr.root?, ← knows.names] using elsewhere)]
      | _ =>
        obtain ⟨source, descends, held⟩ := knows.slots j marks
        refine ⟨source, descends, (shows source j).mpr ?_⟩
        split
        · exact Context.assigned_part rfl held
        · exact held
    · cases target <;> exact knows.values
    · cases target <;> exact knows.found
  | bind bindings =>
    obtain ⟨l, binds, rfl⟩ := Machine.perform_ok.mp ran
    refine ⟨names, fun j marks => ?_, knows.values, knows.found⟩
    rcases markIn_bind marks with before | ⟨isTop, i, b, found, place, carries⟩
    · obtain ⟨source, descends, held⟩ := knows.slots j before
      exact ⟨source, descends, (Context.bindAll_holds regular binds source j).mpr (.inl held)⟩
    · obtain ⟨source, descends, reaches⟩ := knows.top isTop
      refine ⟨source, descends, (Context.bindAll_holds regular binds source j).mpr (.inr ?_)⟩
      exact ⟨⟨i, b, found, knows.length ▸ place, carries⟩, m.top, rfl, reaches⟩
  | bindLate bindings =>
    obtain ⟨l, binds, rfl⟩ := Machine.perform_ok.mp ran
    refine ⟨names, fun j marks => ?_, knows.values, knows.found⟩
    rcases markIn_bind marks with before | ⟨isTop, -⟩
    · obtain ⟨source, descends, held⟩ := knows.slots j before
      exact ⟨source, descends, (Context.bindAll_holds regular binds source j).mpr (.inl held)⟩
    · cases isTop
  | param name type mutable span =>
    obtain ⟨l, declares, rfl⟩ := Machine.perform_ok.mp ran
    refine ⟨names, fun j marks => ?_, knows.values, knows.found⟩
    simp only [Step.descend, markIn] at marks
    split at marks
    · rename_i last
      obtain ⟨same, isRef⟩ := Bool.and_eq_true_iff.mp marks
      obtain rfl := beq_iff_eq.mp same
      exact ⟨some name, .inl rfl, (declareParam_holds regular declares _ j).mpr
        (.inr ⟨knows.length ▸ last, isRef, rfl⟩)⟩
    · obtain ⟨source, descends, held⟩ := knows.slots j marks
      exact ⟨source, descends, (declareParam_holds regular declares source j).mpr (.inl held)⟩

end Knows

/-! ### Trails -/

/-- An accepted run knows the lineage at the end of a trail, and nothing that comes from the parameter has been
returned on the way unless that is allowed. -/
structure Told (ctx : Context) (parameter : String) (g after : Lineage) (done : Machine) (ends : Bool) : Prop where
  returned : after.returned = true → g.returned = true ∨ ctx.Allowed (some parameter)
  knows : ends = true → Knows parameter after done

/-- The accepted runs of code tell about the trails through it. -/
def Code.Tells (ctx : Context) (parameter : String) (c : Code) : Prop :=
  ∀ ⦃g after : Lineage⦄ ⦃m done : Machine⦄ ⦃ends : Bool⦄, Knows parameter g m → Code.Accepted ctx c m done →
    Trail ctx parameter Ty.isRef c g after ends → Told ctx parameter g after done ends

theorem Told.cut : Told ctx parameter g g done false := ⟨.inl, nofun⟩

theorem Told.andThen {stop : Bool} (first : Told ctx parameter g middle m stop)
    (second : Told ctx parameter middle after done ends) : Told ctx parameter g after done ends :=
  ⟨fun returned => (second.returned returned).elim first.returned .inr, second.knows⟩

theorem Knows.names_eq (knows : Knows parameter g m) (accepted : Code.Accepted ctx c m done)
    (tidy : c.Tidy declares) (trailed : Trailed ctx c g after) :
    after.names.map Prod.fst = done.ledger.outline.map Prod.fst := by
  rw [trailed.names, accepted.outline tidy, List.map_append, knows.names]

namespace Code.Tells

theorem step (carries : ctx.carries ctx.signature.result = true) (s : Step) :
    (Code.step s).Tells ctx parameter := by
  intro g after m done ends knows accepted trail
  cases trail with
  | cut => exact .cut
  | step =>
    refine ⟨fun returned => ?_, fun _ => knows.step accepted⟩
    cases s with
    | escape span =>
      refine (Bool.or_eq_true_iff.mp returned).imp_right fun isTop => ?_
      have ran := accepted.ran
      obtain ⟨l, checked, rfl⟩ := Machine.perform_ok.mp ran
      obtain ⟨source, rfl | rfl, reaches⟩ := knows.top isTop
      · exact Context.checkEscape_quiet carries accepted.quiet checked reaches
      · exact (Context.checkEscape_quiet carries accepted.quiet checked reaches).elim
    | write target id => exact .inl (by cases target <;> exact returned)
    | _ => exact .inl returned

theorem seq {first next : Code} (start : first.Tells ctx parameter) (rest : next.Tells ctx parameter)
    (tidy : Tidy declares (.seq first next)) : (Code.seq first next).Tells ctx parameter := by
  intro g after m done ends knows accepted trail
  obtain ⟨reached, part, remaining⟩ := accepted.seq tidy
  cases trail with
  | cut => exact .cut
  | within inner => exact ⟨(start knows part inner).returned, nofun⟩
  | seq early late =>
    have goesOn := (early.trailed rfl (tidy_seq.mp tidy).1).goesOn
    have told := start knows part early
    exact told.andThen (rest (told.knows rfl) (remaining goesOn) late)

theorem discard {body : Code} (inner : body.Tells ctx parameter) : (Code.discard body).Tells ctx parameter := by
  intro g after m done ends knows accepted trail
  obtain ⟨reached, part, rfl⟩ := accepted.discard
  cases trail with
  | cut => exact .cut
  | discard trail =>
    have told := inner knows part trail
    exact ⟨told.returned, fun ended =>
      ⟨(told.knows ended).names, (told.knows ended).slots, knows.values, knows.found⟩⟩

theorem scope {isTemporary : Bool} {span : Span} {body : Code} (inner : body.Tells ctx parameter)
    (tidy : Tidy declares (.scope isTemporary span body)) :
    (Code.scope isTemporary span body).Tells ctx parameter := by
  intro g after m done ends knows accepted trail
  have whole := accepted
  obtain ⟨reached, part, rfl⟩ := accepted.scope
  cases trail with
  | cut => exact .cut
  | @scope _ _ _ _ stop _ trail =>
    have entered : Knows parameter g (m.enter isTemporary span) := by
      refine ⟨?_, fun j marks => ?_, knows.values, knows.found⟩
      · rw [Machine.enter, Ledger.push_outline, knows.names]
      · obtain ⟨source, descends, shows⟩ := knows.slots j marks
        exact ⟨source, descends, (Ledger.shows_push isTemporary span).mpr shows⟩
    have told := inner entered part trail
    refine ⟨fun returned => told.returned (by cases isTemporary <;> exact returned), fun ended => ?_⟩
    have atStop := told.knows ended
    have names := knows.names_eq whole tidy ((Trail.scope trail).trailed ended tidy)
    refine ⟨names, fun j marks => ?_, ?_, ?_⟩
    · have inside := lt_length_of_markIn marks
      rw [← List.length_map Prod.fst, names, List.length_map, Ledger.length_outline] at inside
      have before : markIn stop.names j = true := by
        cases isTemporary with
        | true => exact marks
        | false => exact markIn_drop marks
      obtain ⟨source, descends, shows⟩ := atStop.slots j before
      exact ⟨source, descends, Ledger.shows_pop.mpr ⟨inside, shows⟩⟩
    · cases isTemporary <;> exact atStop.values
    · cases isTemporary <;> exact atStop.found

theorem choice {arms : List Code} (each : ∀ arm ∈ arms, arm.Tells ctx parameter)
    (tidy : ∀ arm ∈ arms, Tidy false arm) : (Code.choice arms).Tells ctx parameter := by
  intro g after m done ends knows accepted trail
  have tidyChoice : Tidy false (.choice arms) := .choice tidy
  have names {stop : Lineage} (trail : Trail ctx parameter Ty.isRef (.choice arms) g stop true) :=
    knows.names_eq accepted tidyChoice (trail.trailed rfl tidyChoice)
  cases trail with
  | cut => exact .cut
  | without =>
    refine ⟨.inl, fun _ => ⟨names .without, ?_, ?_, ?_⟩⟩
    · intro j marks
      obtain ⟨source, descends, shows⟩ := knows.slots j marks
      exact ⟨source, descends, (accepted.noArm j).mpr shows⟩
    all_goals
      obtain ⟨last, stops, runs, rfl⟩ := run_choice_ok accepted.ran
      cases runs
    · exact .cons .unmarked knows.values
    · exact knows.found
  | @arm _ arm _ stop _ chosen trail =>
    obtain ⟨start, reached, part⟩ := accepted.arm tidy chosen
    have entered : Knows parameter { g with found := false } start := by
      refine ⟨part.outline ▸ knows.names, fun j marks => ?_, part.values ▸ knows.values, .unmarked⟩
      obtain ⟨source, descends, shows⟩ := knows.slots j marks
      exact ⟨source, descends, (part.shows _ j).mpr shows⟩
    have told := each arm chosen entered part.accepted trail
    refine ⟨told.returned, fun ended => ?_⟩
    subst ended
    have atStop := told.knows rfl
    have stays := (trail.trailed rfl (tidy arm chosen)).goesOn
    obtain ⟨collected, values, found, all⟩ := part.gathered
    refine ⟨names (.arm chosen trail), fun j marks => ?_, ?_, ?_⟩
    · obtain ⟨source, descends, shows⟩ := atStop.slots j marks
      exact ⟨source, descends, part.joined stays (joinable_holdsFrom source) j shows⟩
    · rw [values]
      exact .cons (atStop.found.below (.of_subset all)) knows.values
    · rw [found]
      exact knows.found

/-- The first round of a run tells about every round: on the way round nothing from before the loop is marked
that was not marked when the loop was entered. -/
theorem rounds {test round : Code} (condition : Tidy false test) (body : Tidy false round)
    (tests : test.Tells ctx parameter) (goes : round.Tells ctx parameter) {first once : Machine}
    (knows : Knows parameter g m) (tested : Accepted ctx test m first)
    (rounded : test.leaves = false → Accepted ctx round (m.resume first) once)
    (count : Nat) (trail : Trail ctx parameter Ty.isRef (Code.rounds test round count) g after ends) :
    Told ctx parameter g after (m.resume first) ends := by
  induction count generalizing after ends with
  | zero => exact tests.discard knows tested.toDiscard trail
  | succ count ih =>
    have tidyRounds : Tidy false (Code.rounds test round count) := condition.rounds body count
    have tidyRound : Tidy false (.discard round) := .discard body
    cases trail with
    | cut => exact .cut
    | within inner => exact ⟨(ih inner).returned, nofun⟩
    | @seq _ _ _ middle _ _ early late =>
      have before := ih early
      have around := rounded (leaves_rounds (early.trailed rfl tidyRounds).goesOn)
      cases late with
      | cut => exact before.andThen .cut
      | within inner =>
        have told := goes.discard (before.knows rfl) around.toDiscard inner
        have stopped : Told ctx parameter middle after (m.resume first) false := ⟨told.returned, nofun⟩
        exact before.andThen stopped
      | @seq _ _ _ next _ _ between last =>
        have told := goes.discard (before.knows rfl) around.toDiscard between
        have way : Trailed ctx (.seq (Code.rounds test round count) (.discard round)) g next :=
          (early.trailed rfl tidyRounds).seq (between.trailed rfl tidyRound)
        have again : Knows parameter next m := by
          have names : next.names.map Prod.fst = g.names.map Prod.fst := by
            simpa [declared, tidyRounds.declared_eq_nil, body.declared_eq_nil] using way.names
          have lengths : next.names.length = g.names.length := by simpa using congrArg List.length names
          refine ⟨names.trans knows.names, fun j marks => knows.slots j (way.shrinks j ?_ marks),
            (told.knows rfl).values, (told.knows rfl).found⟩
          exact lengths ▸ lt_length_of_markIn marks
        exact (before.andThen told).andThen (tests.discard again tested.toDiscard last)

theorem loop {test round : Code} (condition : Tidy false test) (body : Tidy false round)
    (tests : test.Tells ctx parameter) (goes : round.Tells ctx parameter) :
    (Code.loop test round).Tells ctx parameter := by
  intro g after m done ends knows accepted trail
  have tidy : Tidy false (.loop test round) := .loop condition body
  obtain ⟨start, tested⟩ := accepted.loopTest condition body
  cases trail with
  | cut => exact .cut
  | loop count trail =>
    cases leaving : test.leaves with
    | true =>
      have unreached (stays : test.leaves = false) : Accepted ctx round (m.resume start) start := by
        simp [leaving] at stays
      have told := rounds condition body tests goes knows tested unreached count trail
      refine ⟨told.returned, fun ended => ?_⟩
      have stays := leaves_rounds (trail.trailed ended (condition.rounds body count : Tidy false _)).goesOn
      simp [leaving] at stays
    | false =>
      obtain ⟨first, once, retested, twice, parts⟩ := accepted.loop condition body leaving
      have told := rounds condition body tests goes knows parts.tested (fun _ => parts.rounded) count trail
      have resumed : m.resume done = done := by
        obtain ⟨_, _, _, _, -, rfl⟩ := run_loop_ok accepted.ran
        rfl
      refine ⟨told.returned, fun ended => ?_⟩
      subst ended
      have atStop := told.knows rfl
      refine ⟨knows.names_eq accepted tidy ((Trail.loop count trail).trailed rfl tidy), fun j marks => ?_,
        resumed ▸ atStop.values, resumed ▸ atStop.found⟩
      obtain ⟨source, descends, shows⟩ := atStop.slots j marks
      exact ⟨source, descends, (parts.joined (joinable_holdsFrom source) j).mpr (.inl shows)⟩

end Code.Tells

/-- Accepted runs of tidy code tell about the trails through it. -/
theorem Code.Tidy.tells (tidy : c.Tidy declares) (carries : ctx.carries ctx.signature.result = true) :
    c.Tells ctx parameter := by
  induction tidy with
  | skip =>
    intro g after m done ends knows accepted trail
    obtain rfl : m = done := Except.ok.inj accepted.ran
    cases trail with
    | cut => exact .cut
    | skip => exact ⟨.inl, fun _ => knows⟩
  | step => exact .step carries _
  | seq start rest early late => exact early.seq late (.seq start rest)
  | discard _ ih => exact ih.discard
  | temporary inner ih => exact ih.scope (.temporary inner)
  | named inner ih => exact ih.scope (tidy_named.mpr inner : Tidy false _)
  | choice each ih => exact .choice ih each
  | loop condition body test round => exact .loop condition body test round
  | leave =>
    intro g after m done ends knows accepted trail
    cases trail with
    | cut | leave => exact .cut

/-! ### Functions -/

/-- Lives clauses are complete for references: what a function that is checked without a diagnostic returns does
not come from a parameter that is a reference, on any path and however it is taken apart, borrowed again and
bound on the way, unless the lives clause names the parameter. -/
theorem check_names_parameters {table : Table} {position : Nat} {f : FuncDecl} {notes : Typing.Annotations}
    {signature : Signature} {result : Result} {clause : List String}
    (declared : table.signature? position f = some signature) (lives : signature.lives = some clause)
    (carries : (contextOf table signature f notes).carries signature.result = true)
    (checked : check table position f notes = .ok result) (accepted : result.diagnostics = [])
    (trail : Trail (contextOf table signature f notes) parameter Ty.isRef
      ((contextOf table signature f notes).functionCode f) {} after ends)
    (returned : after.returned = true) : parameter ∈ clause := by
  obtain ⟨inner, run⟩ := check_accepted declared checked accepted
  have own : (contextOf table signature f notes).signature = signature := rfl
  generalize contextOf table signature f notes = ctx at *
  subst own
  have start : Knows parameter {} (({} : Machine).enter false f.span) := ⟨rfl, nofun, .nil, .unmarked⟩
  have told {stop : Lineage} {ends : Bool}
      (trail : Trail ctx parameter Ty.isRef (ctx.insideCode f) {} stop ends) :=
    (tidy_insideCode ctx f).tells carries start run trail
  rw [functionCode_eq] at trail
  cases trail with
  | cut => cases returned
  | scope trail =>
    have allowed := ((told trail).returned returned).resolve_left nofun
    exact List.contains_iff_mem.mp (allowed clause lives)

/-- A function that borrows again what a parameter refers to, binds it to a name and returns it. -/
def relaying : FuncDecl :=
  { (default : FuncDecl) with
    name := "f"
    body := .mk ⟨1, default⟩
      [.bind default (.binding { info := ⟨2, default⟩, name := "r" }) none
        (some (.ref ⟨3, default⟩ false (.deref ⟨4, default⟩ (.ident ⟨5, default⟩ "p"))))]
      (some (.ident ⟨6, default⟩ "r")) }

def relayingSignature : Signature :=
  { name := "f", kind := .function, typeParams := [], result := .ref false .string, origin := some 0
    params := [{ name := "p", type := .ref false .string }, { name := "q", type := .ref false .string }]
    lives := some ["p"] }

def relayingNotes : Typing.Annotations :=
  { types := (4, .string) :: ([1, 2, 3, 5, 6].map fun id => (id, .ref false .string)) }

def relayingTable : Table := { functions := [("f", relayingSignature)] }

def relayingContext : Context := contextOf relayingTable relayingSignature relaying relayingNotes

theorem relaying_trail : ∃ after,
    Trail relayingContext "p" Ty.isRef (relayingContext.functionCode relaying) {} after true ∧
      after.returned = true := by
  apply Exists.intro
  apply And.intro
  · repeat' constructor
  · rfl

theorem check_names_parameters_relaying : ∃ after,
    Trail relayingContext "p" Ty.isRef (relayingContext.functionCode relaying) {} after true ∧
      after.returned = true ∧ "p" ∈ ["p"] := by
  have quiet : (check relayingTable 0 relaying relayingNotes).map Result.diagnostics = .ok [] := by cbv
  obtain ⟨result, checked, accepted⟩ := quiet_of_map quiet
  obtain ⟨after, trail, returned⟩ := relaying_trail
  exact ⟨after, trail, returned, check_names_parameters (show _ = some relayingSignature by cbv) rfl
    (by decide +kernel) checked accepted trail returned⟩

/-- A function that returns a reference held by a parameter that is none itself. -/
def unwrapping : FuncDecl :=
  { (default : FuncDecl) with
    name := "f"
    body := .mk ⟨1, default⟩ [] (some (.field ⟨2, default⟩ (.ident ⟨3, default⟩ "p") "r")) }

/-- The lives clause names the other parameter. -/
def unwrappingSignature : Signature :=
  { name := "f", kind := .function, typeParams := [], result := .ref false .string, origin := some 0
    params := [{ name := "p", type := .struct "W" [] }, { name := "q", type := .ref false .string }]
    lives := some ["q"] }

def unwrappingNotes : Typing.Annotations :=
  { types := [(1, .ref false .string), (2, .ref false .string), (3, .struct "W" [])] }

def unwrappingTable : Table :=
  { decls := { structs := [⟨"W", [], [⟨"r", .ref false .string⟩]⟩] }, functions := [("f", unwrappingSignature)] }

def unwrappingContext : Context := contextOf unwrappingTable unwrappingSignature unwrapping unwrappingNotes

/-- Only parameters that are references themselves are looked at: one that holds a reference may be returned
without being named. -/
theorem check_overlooks_holders :
    (check unwrappingTable 0 unwrapping unwrappingNotes).map Result.diagnostics = .ok [] ∧
    unwrappingContext.carries unwrappingSignature.result = true ∧
    unwrappingContext.carries (.struct "W" []) = true ∧ ∃ after,
      Trail unwrappingContext "p" unwrappingContext.carries (unwrappingContext.functionCode unwrapping) {} after
        true ∧ after.returned = true ∧ unwrappingSignature.lives = some ["q"] := by
  refine ⟨by cbv, by decide +kernel, by decide +kernel, ?_⟩
  apply Exists.intro
  apply And.intro
  · repeat' constructor
  · exact ⟨by decide +kernel, rfl⟩

end TreeCheck.Ownership
