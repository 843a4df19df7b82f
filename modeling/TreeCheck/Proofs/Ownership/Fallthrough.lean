import Mathlib
import TreeCheck.Proofs.Ownership.Attempts

/-!
Matches that fall through. The check starts every arm from before the match, as if no guard had been evaluated;
guards that move nothing from outside their arms make no difference to what is moved on a path.
-/

namespace TreeCheck.Ownership

open Code

variable {ctx : Context} {limit : RoundLimit} {count : Nat} {anchored : Prop} {declares whole : Bool}
  {names : List (String × Option Ty)} {c d before : Code} {runs : Machine → Prop} {p after : Machine}
  {ends : Bool}

/-- A path through code that spares the first slots shows no more of them as moved than before. -/
theorem Path.spared (path : Path ctx limit c p after ends) (tidy : c.Tidy declares)
    (spares : c.Spares ctx count p.ledger.outline) (rooted : c.Each fun s => s.Rooted ∨ anchored)
    (regular : p.ledger.Regular) (anchor : anchored → p.ledger.Anchored) (reaches : ends = true)
    (quiet : after.ledger.Quiet) :
    ∀ j < count, after.ledger.Shows IsMoved j → p.ledger.Shows IsMoved j := by
  induction path generalizing declares with
  | cut | within | leave => cases reaches
  | skip => exact fun _ _ => id
  | step applied =>
    cases rooted with
    | step rooted =>
      intro j inside shows
      have effect := Step.run_effect regular (rooted.imp_right anchor) applied
      rcases (effect.moved quiet j).mp shows with sets | ⟨before, -⟩
      · exact absurd sets (spares j inside)
      · exact before
  | @seq start rest m middle after ends early late first next =>
    obtain ⟨tidyFirst, tidyNext⟩ := tidy_seq.mp tidy
    cases rooted with
    | seq rootedFirst rootedNext =>
      have followed := early.followed tidyFirst fun _ => regular.named
      have middleRegular := early.regular tidyFirst regular
      have reports := (late.followed tidyNext fun _ => middleRegular.named).reports
      have middleSpares : rest.Spares ctx count middle.ledger.outline := by
        rw [(followed.grows rfl).outline regular]
        exact spares.2
      intro j inside shows
      refine first tidyFirst spares.1 rootedFirst regular anchor rfl (quiet.of_reported reports) j
        inside ?_
      exact next tidyNext middleSpares rootedNext middleRegular
        (fun needed => (followed.grows rfl).anchored regular (anchor needed)) reaches quiet j inside shows
  | discard _ ih =>
    cases tidy with
    | discard inner =>
      cases rooted with
      | discard rooted => exact ih inner spares rooted regular anchor reaches quiet
  | @scope isTemporary span body m after ends path ih =>
    obtain ⟨_, inner⟩ := tidy.inner
    cases rooted with
    | scope rooted =>
      intro j inside shows
      have entered : Spares ctx count body (m.enter isTemporary span).ledger.outline := by
        rw [Machine.enter, Ledger.push_outline]
        exact spares
      have atEntry := ih inner entered rooted (Ledger.push_regular regular isTemporary span)
        (fun needed => by
          rw [Ledger.Anchored, Machine.enter, Ledger.push_env]
          exact anchor needed)
        reaches (by simpa [Ledger.Quiet, Machine.exit] using quiet) j inside (Ledger.shows_pop.mp shows).2
      exact (Ledger.shows_push isTemporary span).mp atEntry
  | @arm arms arm _ _ _ chosen _ ih =>
    cases tidy with
    | choice each =>
      cases rooted with
      | choice rooted =>
        exact ih (each arm chosen) (sparesEach_iff.mp spares arm chosen) (rooted arm chosen) regular
          anchor reaches quiet
  | without => exact fun _ _ => id
  | loop times _ _ ih =>
    cases tidy with
    | loop condition body =>
      cases rooted with
      | loop rootedTest rootedRound =>
        exact ih (condition.rounds body times : Tidy false _)
          (.rounds condition body spares.1 spares.2 times) (rootedTest.rounds rootedRound times)
          regular anchor reaches quiet

namespace Code

/-! ### Coverage -/

/-- Runs of code still cover the paths that have gone through other code. -/
def Passes (ctx : Context) (anchored : Prop) (names : List (String × Option Ty)) (c d : Code) : Prop :=
  ∀ ⦃runs : Machine → Prop⦄ ⦃p after : Machine⦄ ⦃ends : Bool⦄, Covered anchored runs p →
    p.ledger.outline = names → (∀ m, runs m → ∃ done, Accepted ctx c m done) → p.ledger.Quiet →
    Path ctx anyRounds d p after ends → Safe runs after ends

namespace Covers

/-- What is reported on the paths through first parts of some code is covered by runs of all of it. -/
theorem start {first next : Code} (inner : first.Covers ctx anchored whole names d)
    (tidy : Tidy declares (.seq first next)) : (Code.seq first next).Covers ctx anchored false names d := by
  intro runs p after ends covered outline accepts quiet path
  have acceptsFirst (m : Machine) (member : runs m) : ∃ done, Accepted ctx first m done := by
    obtain ⟨done, accepted⟩ := accepts m member
    obtain ⟨middle, part, -⟩ := accepted.seq tidy
    exact ⟨middle, part⟩
  exact ⟨(inner covered outline acceptsFirst quiet path).lead, by simp⟩

theorem nothing : c.Covers ctx anchored false names .skip := by
  intro runs p after ends covered _ _ quiet path
  have same : after = p := by
    cases path <;> rfl
  subst same
  exact ⟨by simp [Ledger.lead_of_quiet quiet], by simp⟩

theorem oneOf {others : List Code} (each : ∀ other ∈ others, c.Covers ctx anchored false names other) :
    c.Covers ctx anchored false names (.discard (.choice others)) := by
  intro runs p after ends covered outline accepts quiet path
  have start : p.ledger.lead ≠ some .useAfterMove := by simp [Ledger.lead_of_quiet quiet]
  cases path with
  | cut => exact .cut quiet
  | discard path =>
    cases path with
    | cut | without => exact ⟨start, by simp⟩
    | arm chosen path =>
      have entered : Covered anchored runs { p with found := [] } :=
        ⟨covered.regular, covered.some, covered.alike, covered.moved⟩
      exact ⟨(each _ chosen entered outline accepts quiet path).lead, by simp⟩

/-- Runs of code cover paths through other code behind code they pass. -/
theorem behind (inner : c.Covers ctx anchored whole names d) (passes : c.Passes ctx anchored names before)
    (kept : Tidy false before) (tidy : Tidy declares d) :
    c.Covers ctx anchored whole names (.seq before d) := by
  intro runs p after ends covered outline accepts quiet path
  cases path with
  | cut => exact .cut quiet
  | within early => exact ⟨(passes covered outline accepts quiet early).lead, by simp⟩
  | @seq _ _ _ middle _ _ early late =>
    have safe := passes covered outline accepts quiet early
    have regular := early.regular kept covered.regular
    have scopes := early.kept kept covered.regular
    by_cases middleQuiet : middle.ledger.Quiet
    · obtain ⟨a, inRuns⟩ := covered.some
      have reached : Covered anchored runs middle :=
        covered.goOn regular scopes.1 scopes.2 ⟨a, inRuns⟩ (fun m member => ⟨m, member, rfl, rfl⟩)
          (safe.moved rfl middleQuiet)
      exact inner reached (scopes.1.trans outline) accepts middleQuiet late
    · exact safe.loud middleQuiet (late.followed tidy fun _ => regular.named).reports _

end Covers

namespace Passes

theorem skip : c.Passes ctx anchored names .skip := by
  intro runs p after ends covered _ _ quiet path
  cases path with
  | cut => exact .cut quiet
  | skip => exact ⟨by simp [Ledger.lead_of_quiet quiet], fun _ _ => covered.moved⟩

theorem seq {first next : Code} (start : c.Passes ctx anchored names first)
    (rest : c.Passes ctx anchored names next) (kept : Tidy false first) (tidy : Tidy false next) :
    c.Passes ctx anchored names (.seq first next) := by
  intro runs p after ends covered outline accepts quiet path
  cases path with
  | cut => exact .cut quiet
  | within early => exact ⟨(start covered outline accepts quiet early).lead, by simp⟩
  | @seq _ _ _ middle _ _ early late =>
    have safe := start covered outline accepts quiet early
    have scopes := early.kept kept covered.regular
    by_cases middleQuiet : middle.ledger.Quiet
    · have reached : Covered anchored runs middle :=
        covered.goOn (early.regular kept covered.regular) scopes.1 scopes.2 covered.some
          (fun m member => ⟨m, member, rfl, rfl⟩) (safe.moved rfl middleQuiet)
      exact rest reached (scopes.1.trans outline) accepts middleQuiet late
    · exact safe.loud middleQuiet (late.followed tidy (by simp)).reports ends

/-- Runs pass code that they cover and that moves nothing in scope before it. -/
theorem of_spares (covers : c.Covers ctx anchored false names d) (tidy : Tidy false d)
    (spares : d.Spares ctx names.length names) (rooted : d.Each fun s => s.Rooted ∨ anchored) :
    c.Passes ctx anchored names d := by
  intro runs p after ends covered outline accepts quiet path
  refine ⟨(covers covered outline accepts quiet path).lead, fun reaches quietAfter j shows => ?_⟩
  refine covered.moved j ?_
  obtain ⟨m, inRuns⟩ := covered.some
  have inside : j < names.length := by
    subst reaches
    have scopes := path.kept tidy covered.regular
    rw [← outline, ← scopes.1, Ledger.length_outline]
    exact shows.inside
  exact path.spared tidy (outline.symm ▸ spares) rooted covered.regular (covered.alike m inRuns).otherAnchor
    reaches quietAfter j inside shows

end Passes

/-- How runs of code cover the code with attempts: all of it, and what is reported in its parts and when it is
tried as an arm. -/
structure Withstands (ctx : Context) (anchored : Prop) (names : List (String × Option Ty)) (c : Code) :
    Prop where
  all : c.Covers ctx anchored true names c.falling
  parts : ∀ pre ∈ prefixes c.falling, c.Covers ctx anchored false names pre
  openings : ∀ pre ∈ openings c.falling, c.Covers ctx anchored false names pre
  tried : c.Covers ctx anchored false names c.falling.attempt

namespace Withstands

theorem of_whole (covers : c.Covers ctx anchored true names c.falling)
    (parts : prefixes c.falling = [.skip, c.falling]) (none : Code.openings c.falling = [])
    (tried : c.Covers ctx anchored false names c.falling.attempt) : c.Withstands ctx anchored names := by
  refine ⟨covers, ?_, by simp [none], tried⟩
  rw [parts]
  exact List.forall_mem_cons.mpr ⟨.nothing, List.forall_mem_singleton.mpr covers.leads⟩

theorem seq {first next : Code} (start : first.Withstands ctx anchored names)
    (rest : next.Withstands ctx anchored (first.declared ctx ++ names)) (early : Tidy declares first)
    (late : Tidy declares next) : (Code.seq first next).Withstands ctx anchored names := by
  have tidy : Tidy declares (.seq first next) := .seq early late
  have alike : next.Mirrors ctx true declares next.falling := late.falling
  have after (pre : Code) (tidyPre : Tidy declares pre)
      (covers : next.Covers ctx anchored false (first.declared ctx ++ names) pre) :
      (Code.seq first next).Covers ctx anchored false names (.seq first.falling pre) :=
    start.all.seq covers early.falling late tidyPre
  refine ⟨start.all.seq rest.all early.falling late alike.other, fun pre member => ?_,
    fun pre member => ?_, .nothing⟩
  · rw [falling, prefixes, List.mem_append, List.mem_map] at member
    rcases member with inFirst | ⟨part, inNext, rfl⟩
    · exact (start.parts pre inFirst).start tidy
    · exact after part (byParts_tidy.prefixes _ () alike.other part inNext) (rest.parts part inNext)
  · rw [falling, Code.openings] at member
    split at member
    · rw [List.mem_singleton.mp member]
      exact start.all.start tidy
    · rw [List.mem_append, List.mem_map] at member
      rcases member with inFirst | ⟨part, inNext, rfl⟩
      · exact (start.parts pre inFirst).start tidy
      · exact after part (byParts_tidy.openings _ () alike.other part inNext) (rest.openings part inNext)

/-- Runs of an arm cover what is reported when it is tried. -/
theorem scope {isTemporary : Bool} {span : Span} {body : Code} (inner : body.Withstands ctx anchored names)
    (tidy : Tidy declares (.scope isTemporary span body)) :
    (Code.scope isTemporary span body).Withstands ctx anchored names := by
  refine .of_whole (inner.all.scope tidy.falling) rfl rfl ?_
  rw [falling]
  refine attempt_cases .nothing ?_
  rintro _ _ ⟨⟩
  refine .oneOf ?_
  rw [List.forall_mem_cons]
  refine ⟨.nothing, fun other member => ?_⟩
  obtain ⟨pre, opening, rfl⟩ := List.mem_map.mp member
  obtain ⟨_, tidyBody⟩ := tidy.inner
  have alike : body.Mirrors ctx true _ body.falling := tidyBody.falling
  have tidyPre : Tidy true pre := (byParts_tidy.openings _ () alike.other pre opening).mayDeclare
  exact (inner.openings pre opening).scope ⟨tidy, .named tidyPre, rfl, by simp⟩

end Withstands

/-- Runs of a choice cover its arms after attempts, if their guards move nothing from outside. -/
theorem Covers.choice_falling {arms : List Code} (tidy : ∀ arm ∈ arms, Tidy false arm)
    (rooted : ∀ arm ∈ arms, arm.Each fun s => s.Rooted ∨ anchored)
    (spared : ∀ arm ∈ arms, arm.falling.attempt.Spares ctx names.length names)
    (each : ∀ arm ∈ arms, arm.Covers ctx anchored true names arm.falling)
    (tried : ∀ arm ∈ arms, arm.Covers ctx anchored false names arm.falling.attempt) :
    (Code.choice arms).Covers ctx anchored true names (Code.choice arms).falling := by
  have alike (arm : Code) (inArms : arm ∈ arms) : arm.Mirrors ctx true false arm.falling :=
    (tidy arm inArms).falling
  have keptAttempt (arm : Code) (inArms : arm ∈ arms) : Tidy false arm.falling.attempt :=
    (alike arm inArms).other.attempt
  have passes (arm : Code) (inArms : arm ∈ arms) :
      (Code.choice arms).Passes ctx anchored names arm.falling.attempt := by
    have mirrors : arm.Mirrors ctx false false arm.falling.attempt :=
      ⟨tidy arm inArms, keptAttempt arm inArms, by
        rw [declared_attempt, (tidy arm inArms).declared_eq_nil], by simp⟩
    exact .of_spares (.arm inArms (tried arm inArms) tidy mirrors) (keptAttempt arm inArms)
      (spared arm inArms) (rooted arm inArms).falling.attempt
  refine .choice (fun d member => ?_) fallingArms_eq_nil
  have behind (b arm : Code) (inArms : arm ∈ arms)
      (before : Tidy false b ∧ (Code.choice arms).Passes ctx anchored names b) :
      Tidy false (.seq b arm.falling.attempt) ∧
        (Code.choice arms).Passes ctx anchored names (.seq b arm.falling.attempt) :=
    ⟨.seq before.1 (keptAttempt arm inArms),
      before.2.seq (passes arm inArms) before.1 (keptAttempt arm inArms)⟩
  obtain ⟨arm, inArms, b, ⟨kept, passed⟩, rfl⟩ := mem_fallingArms ⟨.skip, .skip⟩ behind member
  have covers : (Code.choice arms).Covers ctx anchored true names arm.falling :=
    .arm inArms (each arm inArms) tidy (alike arm inArms)
  exact covers.behind passed kept (alike arm inArms).other

/-- Runs of code cover the paths with attempts, if guards move nothing from outside their arms. -/
theorem Tidy.withstands (tidy : Tidy declares c) (rooted : c.Each fun s => s.Rooted ∨ anchored)
    (spared : c.GuardsSpare ctx names) : c.Withstands ctx anchored names := by
  induction tidy generalizing names with
  | skip => exact .of_whole .skip rfl rfl .nothing
  | step =>
    cases rooted with
    | step rooted => exact .of_whole (.step rooted) rfl rfl .nothing
  | seq start rest early late =>
    cases rooted with
    | seq rootedStart rootedRest =>
      exact (early rootedStart spared.1).seq (late rootedRest spared.2) start rest
  | discard _ ih =>
    cases rooted with
    | discard rooted => exact .of_whole (ih rooted spared).all.discard rfl rfl .nothing
  | temporary inner ih =>
    cases rooted with
    | scope rooted =>
      exact (ih rooted spared).scope (.temporary inner)
  | named inner ih =>
    cases rooted with
    | scope rooted =>
      exact (ih rooted spared).scope (tidy_named.mpr inner : Tidy false _)
  | @choice _ arms each ih =>
    cases rooted with
    | choice rooted =>
      have spared := guardsSpareEach_iff.mp spared
      have withstands (arm : Code) (inArms : arm ∈ arms) : arm.Withstands ctx anchored names :=
        ih arm inArms (rooted arm inArms) (spared arm inArms).2
      exact .of_whole (.choice_falling each rooted
        (fun arm inArms => (each arm inArms).spares_attempt (spared arm inArms).1)
        (fun arm inArms => (withstands arm inArms).all)
        (fun arm inArms => (withstands arm inArms).tried)) rfl rfl .nothing
  | loop condition body test round =>
    cases rooted with
    | loop rootedTest rootedRound =>
      have tests := (test rootedTest spared.1).all
      have rounds := (round rootedRound spared.2).all
      exact .of_whole (.loop condition.falling body.falling tests rounds (condition.settles rootedTest)
        (body.settles rootedRound)) rfl rfl .nothing
  | leave => exact .of_whole .leave rfl rfl .nothing

/-! ### Functions -/

theorem falling_all {codes : List Code} (each : ∀ c ∈ codes, c.falling = c) :
    (all codes).falling = all codes := by
  induction codes with
  | nil => rfl
  | cons c rest ih =>
    obtain ⟨first, others⟩ := List.forall_mem_cons.mp each
    cases rest with
    | nil => exact first
    | cons next rest => simpa [all, falling, first] using ih others

end Code

theorem Context.falling_paramsCode (ctx : Context) (f : FuncDecl) :
    (ctx.paramsCode f).falling = ctx.paramsCode f := by
  rw [paramsCode, falling, falling_all]
  · cases ctx.signature.receiverType? <;> rfl
  · intro c member
    obtain ⟨_, -, rfl⟩ := List.mem_map.mp member
    rfl

/-- Also when arms come after failed guards, a function that is checked without a diagnostic has no path on
which the first diagnostic is the use of something moved, as long as its guards move nothing from outside
their arms. -/
theorem check_covers_fallthrough {table : Table} {position : Nat} {f : FuncDecl}
    {notes : Typing.Annotations} {signature : Signature} {result : Result}
    (declared : table.signature? position f = some signature)
    (roots : (contextOf table signature f notes).RootsKnown f)
    (spared : ((contextOf table signature f notes).functionCode f).GuardsSpare
      (contextOf table signature f notes) [])
    (checked : check table position f notes = .ok result) (accepted : result.diagnostics = [])
    {after : Machine} {ends : Bool}
    (path : Path (contextOf table signature f notes) anyRounds
      ((contextOf table signature f notes).functionCode f).falling {} after ends) :
    after.ledger.bag.contents.head?.map Diagnostic.kind ≠ some .useAfterMove := by
  rw [functionCode_eq, falling, falling, Context.falling_paramsCode] at path
  have tidy := tidy_bodyCode (contextOf table signature f notes) f
  have alike : ((contextOf table signature f notes).bodyCode f).Mirrors
      (contextOf table signature f notes) true true _ := tidy.mayDeclare.falling
  refine check_lead declared checked accepted (fun _ _ _ part inside => ?_) path
  exact (inside_safe roots part (fun rooted => (tidy.withstands rooted spared.2).all) alike.other inside).lead

/-- A function with a match of which the first arm has a guard that keeps a text, and answers no; the second
arm keeps the parameter. -/
def guarded (kept : Expr) : FuncDecl :=
  let keep (id : Nat) (name : String) (value : Expr) : Stmt :=
    .bind default (.binding { info := ⟨id, default⟩, name }) none (some value)
  { (default : FuncDecl) with
    name := "f"
    body := .mk ⟨1, default⟩ [.expr default (.select ⟨2, default⟩ (.bool ⟨3, default⟩ true) [
      .mk default (.wildcard ⟨4, default⟩)
        (some (.block (.mk ⟨5, default⟩ [keep 6 "t" kept] (some (.bool ⟨8, default⟩ false)))))
        (.block (.mk ⟨9, default⟩ [] none)),
      .mk default (.wildcard ⟨10, default⟩) none
        (.block (.mk ⟨11, default⟩ [keep 12 "u" (.ident ⟨13, default⟩ "s")] none))])] none }

def guardedSignature : Signature :=
  { name := "f", kind := .function, typeParams := [], result := .unit, origin := some 0
    params := [{ name := "s", type := .string }] }

def guardedNotes : Typing.Annotations :=
  { types := [(1, .unit), (2, .unit), (3, .bool), (4, .bool), (5, .bool), (6, .string), (7, .string),
      (8, .bool), (9, .unit), (10, .bool), (11, .unit), (12, .string), (13, .string)] }

def guardedTable : Table := { functions := [("f", guardedSignature)] }

def guardedContext (kept : Expr) : Context :=
  contextOf guardedTable guardedSignature (guarded kept) guardedNotes

def guardedCode (kept : Expr) : Code := ((guardedContext kept).functionCode (guarded kept)).falling

/-- A text that the guard makes itself. -/
def ownText : Expr := .string ⟨7, default⟩ default

def parameter : Expr := .ident ⟨7, default⟩ "s"

theorem check_covers_fallthrough_sparing : ∃ after,
    Path (guardedContext ownText) anyRounds (guardedCode ownText) {} after true ∧
      after.ledger.bag.contents.head?.map Diagnostic.kind ≠ some .useAfterMove := by
  have quiet : (check guardedTable 0 (guarded ownText) guardedNotes).map Result.diagnostics = .ok [] := by cbv
  obtain ⟨result, checked, accepted⟩ := quiet_of_map quiet
  -- The second arm, after all of the first guard.
  obtain ⟨after, path, -⟩ := exists_followed (show ((guardedCode ownText).follow (guardedContext ownText)
    anyRounds [1, 5] {}).map _ = some (true, none) by decide +kernel)
  exact ⟨after, path, check_covers_fallthrough (show _ = some guardedSignature by cbv)
    (.inl (.inr (by simp [contextOf, guardedSignature]))) (by decide +kernel) checked accepted path⟩

/-- The check starts each arm from before the match, so a guard that moves the parameter and answers no does
not keep the next arm from moving it again. -/
theorem check_misses_guard_move :
    (check guardedTable 0 (guarded parameter) guardedNotes).map Result.diagnostics = .ok [] ∧
      ∃ after, Path (guardedContext parameter) anyRounds (guardedCode parameter) {} after true ∧
        after.ledger.bag.contents.head?.map Diagnostic.kind = some .useAfterMove :=
  ⟨by cbv, exists_followed (show ((guardedCode parameter).follow (guardedContext parameter)
    anyRounds [1, 5] {}).map _ = some (true, some Diagnostic.Kind.useAfterMove) by
    decide +kernel)⟩

end TreeCheck.Ownership
