import Mathlib
import TreeCheck.Proofs.Ownership.Accepted
import TreeCheck.Proofs.Ownership.Code
import TreeCheck.Proofs.Ownership.Functions
import TreeCheck.Proofs.Ownership.MoveSteps

/-!
Moves on paths. What a path shows as moved is shown by one of the runs that cover it, through any number of
rounds of a loop.
-/

namespace TreeCheck.Ownership

/-!
### Runs settle

What a run without a report shows as moved is shown by each other such run of the same code, unless it was so
from the start; hence a second round of a loop shows nothing new.
-/

namespace Code

variable {ctx : Context} {anchored : Prop} {declares : Bool} {c : Code}

theorem Accepted.effect {s : Step} {m after : Machine} (accepted : Accepted ctx (.step s) m after)
    (rooted : s.Rooted ∨ anchored) (anchor : anchored → m.ledger.Anchored) :
    (s.effect ctx m.ledger.outline).Holds (m.ledger.Shows IsMoved) (after.ledger.Shows IsMoved)
      m.ledger after.ledger := by
  have ran := accepted.ran
  rw [run] at ran
  exact s.run_effect accepted.regular (rooted.imp_right anchor) ran

/-- Two runs of the code that report nothing show the same variables as moved, but for those of which one
run has shown it from the start and the other has not. -/
def Settles (ctx : Context) (anchored : Prop) (c : Code) : Prop :=
  ∀ ⦃a b afterA afterB : Machine⦄, a.ledger.Matches anchored b.ledger → Accepted ctx c a afterA →
    Accepted ctx c b afterB → c.leaves = false → ∀ j, afterA.ledger.Shows IsMoved j →
    afterB.ledger.Shows IsMoved j ∨ (a.ledger.Shows IsMoved j ∧ ¬b.ledger.Shows IsMoved j)

theorem Settles.seq {first next : Code} (start : Settles ctx anchored first)
    (rest : Settles ctx anchored next) (tidy : Tidy declares (.seq first next)) :
    Settles ctx anchored (.seq first next) := by
  intro a b afterA afterB same acceptedA acceptedB stays j shows
  obtain ⟨staysFirst, staysNext⟩ := Bool.or_eq_false_iff.mp stays
  obtain ⟨middleA, startA, restA⟩ := acceptedA.seq tidy
  obtain ⟨middleB, startB, restB⟩ := acceptedB.seq tidy
  have matching := startA.matches startB (tidy_seq.mp tidy).1 same
  rcases rest matching (restA staysFirst) (restB staysFirst) staysNext j shows with done | ⟨inA, notB⟩
  · exact .inl done
  · exact .inr ((start same startA startB staysFirst j inA).resolve_left notB)

theorem Settles.scope {isTemporary : Bool} {span : Span} {body : Code}
    (inner : Settles ctx anchored body) (tidy : Tidy declares (.scope isTemporary span body)) :
    Settles ctx anchored (.scope isTemporary span body) := by
  intro a b afterA afterB same acceptedA acceptedB stays j shows
  have outline := (acceptedA.matches acceptedB tidy same).outline
  obtain ⟨innerA, partA, rfl⟩ := acceptedA.scope
  obtain ⟨innerB, partB, rfl⟩ := acceptedB.scope
  obtain ⟨inside, atEnd⟩ := Ledger.shows_pop.mp shows
  rcases inner (same.push isTemporary span) partA partB stays j atEnd with done | ⟨inA, notB⟩
  · refine .inl (Ledger.shows_pop.mpr ⟨?_, done⟩)
    rw [← Ledger.length_outline] at inside ⊢
    exact lt_of_lt_of_eq inside (congrArg List.length outline)
  · rw [Machine.enter, Ledger.shows_push] at inA notB
    exact .inr ⟨inA, notB⟩

theorem Settles.choice {arms : List Code} (each : ∀ arm ∈ arms, Settles ctx anchored arm)
    (tidy : ∀ arm ∈ arms, Tidy false arm) : Settles ctx anchored (.choice arms) := by
  intro a b afterA afterB same acceptedA acceptedB stays j shows
  by_cases empty : arms = []
  · subst empty
    rw [acceptedA.noArm] at shows
    rw [acceptedB.noArm]
    by_cases already : b.ledger.Shows IsMoved j
    · exact .inl already
    · exact .inr ⟨shows, already⟩
  · obtain ⟨arm, inArms, armStays, startA, stopA, partA, atStop⟩ :=
      acceptedA.someArm tidy joinable_moved empty stays shows
    obtain ⟨startB, stopB, partB⟩ := acceptedB.arm tidy inArms
    have matching := same.of_env partA.outline partA.env partB.outline partB.env
    rcases each arm inArms matching partA.accepted partB.accepted armStays j atStop with
      done | ⟨inA, notB⟩
    · exact .inl (partB.joined armStays joinable_moved j done)
    · rw [partA.shows] at inA
      rw [partB.shows] at notB
      exact .inr ⟨inA, notB⟩

section Loops

variable {test round : Code} {m after first once retested twice : Machine}
  (condition : Tidy false test) (body : Tidy false round)
include condition body

theorem LoopAccepted.saturated (parts : LoopAccepted ctx test round m after first once retested twice)
    (tests : Settles ctx anchored test) (rounds : Settles ctx anchored round)
    (anchor : anchored → m.ledger.Anchored) (stays : test.leaves = false)
    (goesOn : round.leaves = false) (j : Nat) (shows : twice.ledger.Shows IsMoved j) :
    once.ledger.Shows IsMoved j := by
  obtain ⟨firstKept, onceKept, retestedKept⟩ := parts.kept condition body goesOn
  have same : m.ledger.Matches anchored m.ledger := ⟨rfl, anchor, anchor⟩
  have atTest : (m.resume once).ledger.Matches anchored m.ledger :=
    same.of_env onceKept.1 onceKept.2 rfl rfl
  have atRound : (m.resume retested).ledger.Matches anchored (m.resume first).ledger :=
    same.of_env retestedKept.1 retestedKept.2 firstKept.1 firstKept.2
  have early := tests atTest (parts.testedAgain goesOn) parts.tested stays j
  have late := rounds atRound (parts.roundedAgain goesOn) parts.rounded goesOn j
  rcases late shows with done | ⟨atRetested, notFirst⟩
  · exact done
  · exact ((early atRetested).resolve_left notFirst).1

theorem Settles.loop (tests : Settles ctx anchored test) (rounds : Settles ctx anchored round) :
    Settles ctx anchored (.loop test round) := by
  intro a b afterA afterB same acceptedA acceptedB stays j shows
  obtain ⟨firstA, onceA, retestedA, twiceA, partsA⟩ := acceptedA.loop condition body stays
  obtain ⟨firstB, onceB, retestedB, twiceB, partsB⟩ := acceptedB.loop condition body stays
  have early := tests same partsA.tested partsB.tested stays j
  have fromFirst (atFirst : firstA.ledger.Shows IsMoved j) : afterB.ledger.Shows IsMoved j ∨
      (a.ledger.Shows IsMoved j ∧ ¬b.ledger.Shows IsMoved j) :=
    (early atFirst).imp_left fun done => (partsB.joined joinable_moved j).mpr (.inl done)
  have fromOnce (goesOn : round.leaves = false) (atOnce : onceA.ledger.Shows IsMoved j) :
      afterB.ledger.Shows IsMoved j ∨ (a.ledger.Shows IsMoved j ∧ ¬b.ledger.Shows IsMoved j) := by
    have tested := partsA.tested.matches partsB.tested condition same
    have matching : (a.resume firstA).ledger.Matches anchored (b.resume firstB).ledger := tested
    rcases rounds matching partsA.rounded partsB.rounded goesOn j atOnce with done | ⟨inA, -⟩
    · exact .inl ((partsB.joined joinable_moved j).mpr (.inr ⟨goesOn, .inl done⟩))
    · exact fromFirst inA
  rcases (partsA.joined joinable_moved j).mp shows with atFirst | ⟨goesOn, atOnce | atTwice⟩
  · exact fromFirst atFirst
  · exact fromOnce goesOn atOnce
  · exact fromOnce goesOn
      (partsA.saturated condition body tests rounds same.anchor stays goesOn j atTwice)

end Loops

/-- Code settles after one run. -/
theorem Tidy.settles (tidy : Tidy declares c) (rooted : c.Each fun s => s.Rooted ∨ anchored) :
    Settles ctx anchored c := by
  induction tidy with
  | skip =>
    intro a b afterA afterB _ acceptedA acceptedB _ j shows
    cases acceptedA.ran
    cases acceptedB.ran
    by_cases already : b.ledger.Shows IsMoved j
    · exact .inl already
    · exact .inr ⟨shows, already⟩
  | @step _ s _ =>
    cases rooted with
    | step rooted =>
      intro a b afterA afterB same acceptedA acceptedB _ j shows
      have effectA := acceptedA.effect rooted same.anchor
      have effectB := acceptedB.effect rooted same.otherAnchor
      rw [same.outline] at effectA
      rcases (effectA.moved acceptedA.quiet j).mp shows with sets | ⟨before, kept⟩
      · exact .inl ((effectB.moved acceptedB.quiet j).mpr (.inl sets))
      · by_cases already : b.ledger.Shows IsMoved j
        · exact .inl ((effectB.moved acceptedB.quiet j).mpr (.inr ⟨already, kept⟩))
        · exact .inr ⟨before, already⟩
  | seq start rest early late =>
    cases rooted with
    | seq rootedStart rootedRest => exact (early rootedStart).seq (late rootedRest) (.seq start rest)
  | discard _ ih =>
    cases rooted with
    | discard rooted =>
      intro a b afterA afterB same acceptedA acceptedB stays j shows
      obtain ⟨innerA, partA, rfl⟩ := acceptedA.discard
      obtain ⟨innerB, partB, rfl⟩ := acceptedB.discard
      exact ih rooted same partA partB stays j shows
  | temporary inner ih =>
    cases rooted with
    | scope rooted => exact (ih rooted).scope (.temporary inner)
  | named inner ih =>
    cases rooted with
    | scope rooted => exact (ih rooted).scope (tidy_named.mpr inner : Tidy false _)
  | choice each ih =>
    cases rooted with
    | choice rooted => exact .choice (fun arm member => ih arm member (rooted arm member)) each
  | loop condition body test round =>
    cases rooted with
    | loop rootedTest rootedRound => exact .loop condition body (test rootedTest) (round rootedRound)
  | leave =>
    intro a b afterA afterB _ _ _ stays
    cases stays

end Code

/-! ### Covers -/

/-- A path covered by runs: they have the same names in scope, and what the path shows as moved is shown
by one of them. -/
structure Covered (anchored : Prop) (runs : Machine → Prop) (p : Machine) : Prop where
  regular : p.ledger.Regular
  some : ∃ m, runs m
  alike : ∀ m, runs m → m.ledger.Matches anchored p.ledger
  moved : ∀ j, p.ledger.Shows IsMoved j → ∃ m, runs m ∧ m.ledger.Shows IsMoved j

def Image (ctx : Context) (c : Code) (runs : Machine → Prop) (after : Machine) : Prop :=
  ∃ m, runs m ∧ Code.Accepted ctx c m after

/-- A path from a machine without a report: it does not report first that something moved is used, and
as long as it reports nothing, runs show what it shows as moved. -/
structure Safe (runs : Machine → Prop) (after : Machine) (ends : Bool) : Prop where
  lead : after.ledger.lead ≠ some .useAfterMove
  moved : ends = true → after.ledger.Quiet → ∀ j, after.ledger.Shows IsMoved j →
    ∃ m, runs m ∧ m.ledger.Shows IsMoved j

/-- Runs of code cover the paths through other code from where some names are in scope: what they report,
and what they show at their ends if the whole of a path counts. -/
def Code.Covers (ctx : Context) (anchored : Prop) (whole : Bool) (names : List (String × Option Ty))
    (c d : Code) : Prop :=
  ∀ ⦃runs : Machine → Prop⦄ ⦃p after : Machine⦄ ⦃ends : Bool⦄, Covered anchored runs p →
    p.ledger.outline = names → (∀ m, runs m → ∃ done, Code.Accepted ctx c m done) → p.ledger.Quiet →
    Path ctx anyRounds d p after ends → Safe (Image ctx c runs) after (ends && whole)

/-- Code and other code in its place, which declares the same names; it also returns likewise if the whole of
a path counts. -/
structure Code.Mirrors (ctx : Context) (whole declares : Bool) (c d : Code) : Prop where
  tidy : Tidy declares c
  other : Tidy declares d
  declared : d.declared ctx = c.declared ctx
  leaves : whole = true → d.leaves = c.leaves

variable {ctx : Context} {anchored : Prop} {runs others : Machine → Prop} {p middle after : Machine}
  {ends declares whole : Bool} {names : List (String × Option Ty)} {c d : Code}

theorem Code.Tidy.mirrors (tidy : c.Tidy declares) : c.Mirrors ctx whole declares c :=
  ⟨tidy, tidy, rfl, fun _ => rfl⟩

theorem Safe.cut (quiet : p.ledger.Quiet) : Safe runs p false :=
  ⟨by simp [Ledger.lead_of_quiet quiet], by simp⟩

theorem Safe.loud (safe : Safe runs middle ends) (loud : ¬middle.ledger.Quiet)
    (reports : middle.ledger.bag.contents <+: after.ledger.bag.contents) (stop : Bool) :
    Safe others after stop := by
  refine ⟨?_, fun _ quiet => absurd (quiet.of_reported reports) loud⟩
  rw [Ledger.lead_of_reported reports loud]
  exact safe.lead

/-- The runs after the code cover a path after it if they show what it shows. -/
theorem Covered.image (covered : Covered anchored runs p)
    (accepts : ∀ m, runs m → ∃ done, Code.Accepted ctx c m done) (path : Path ctx anyRounds d p after true)
    (alike : c.Mirrors ctx whole declares d) (safe : Safe (Image ctx c runs) after true)
    (quiet : after.ledger.Quiet) : Covered anchored (Image ctx c runs) after := by
  refine ⟨path.regular alike.other covered.regular, ?_, ?_, safe.moved rfl quiet⟩
  · obtain ⟨m, member⟩ := covered.some
    obtain ⟨done, accepted⟩ := accepts m member
    exact ⟨done, m, member, accepted⟩
  · rintro done ⟨m, member, accepted⟩
    have grows := (path.followed alike.other fun _ => covered.regular.named).grows rfl
    rw [alike.declared] at grows
    exact (covered.alike m member).grows (accepted.result alike.tidy).grows accepted.regular grows
      covered.regular

/-- Other runs from the same scopes cover a path if they show what it shows. -/
theorem Covered.goOn (covered : Covered anchored runs p) (regular : after.ledger.Regular)
    (outline : after.ledger.outline = p.ledger.outline) (env : after.ledger.env = p.ledger.env)
    (some : ∃ m, others m)
    (each : ∀ m, others m → ∃ a, runs a ∧ m.ledger.outline = a.ledger.outline ∧
      m.ledger.env = a.ledger.env)
    (moved : ∀ j, after.ledger.Shows IsMoved j → ∃ m, others m ∧ m.ledger.Shows IsMoved j) :
    Covered anchored others after := by
  refine ⟨regular, some, fun m member => ?_, moved⟩
  obtain ⟨a, inRuns, outlineA, envA⟩ := each m member
  exact (covered.alike a inRuns).of_env outlineA envA outline env

namespace Code.Covers

theorem leads (covers : c.Covers ctx anchored whole names d) : c.Covers ctx anchored false names d :=
  fun _ _ _ _ covered outline accepts quiet path =>
    ⟨(covers covered outline accepts quiet path).lead, by simp⟩

theorem step {s : Step} (rooted : s.Rooted ∨ anchored) :
    (Code.step s).Covers ctx anchored whole names (.step s) := by
  intro runs p after ends covered _ accepts quiet path
  obtain ⟨m, member⟩ := covered.some
  cases path with
  | cut => exact .cut quiet
  | step applied =>
    have effect := s.run_effect covered.regular
      (rooted.imp_right (covered.alike m member).otherAnchor) applied
    have each (a : Machine) (inRuns : runs a) : ∃ done, Accepted ctx (.step s) a done ∧
        (s.effect ctx p.ledger.outline).Holds (a.ledger.Shows IsMoved) (done.ledger.Shows IsMoved)
          a.ledger done.ledger := by
      obtain ⟨done, accepted⟩ := accepts a inRuns
      have alike := covered.alike a inRuns
      exact ⟨done, accepted, alike.outline ▸ accepted.effect rooted alike.anchor⟩
    refine ⟨fun led => ?_, fun _ quietAfter j shows => ?_⟩
    · obtain ⟨j, used, moved⟩ := effect.blamed quiet led
      obtain ⟨a, inRuns, shows⟩ := covered.moved j moved
      obtain ⟨done, accepted, effectA⟩ := each a inRuns
      exact effectA.spared accepted.quiet j used shows
    · rcases (effect.moved quietAfter j).mp shows with sets | ⟨before, kept⟩
      · obtain ⟨done, accepted, effectA⟩ := each m member
        exact ⟨done, ⟨m, member, accepted⟩, (effectA.moved accepted.quiet j).mpr (.inl sets)⟩
      · obtain ⟨a, inRuns, inA⟩ := covered.moved j before
        obtain ⟨done, accepted, effectA⟩ := each a inRuns
        exact ⟨done, ⟨a, inRuns, accepted⟩,
          (effectA.moved accepted.quiet j).mpr (.inr ⟨inA, kept⟩)⟩

/-- The paths through code that is covered in two parts, of which the second may ask for more. -/
theorem seq_safe {first next firstOther nextOther : Code} {later : Prop}
    (start : first.Covers ctx anchored true names firstOther)
    (rest : next.Covers ctx later whole (first.declared ctx ++ names) nextOther)
    (alike : first.Mirrors ctx true declares firstOther) (tidyNext : Tidy declares next)
    (tidyOther : Tidy declares nextOther) (covered : Covered anchored runs p)
    (outline : p.ledger.outline = names)
    (accepts : ∀ m, runs m → ∃ done, Accepted ctx (.seq first next) m done) (quiet : p.ledger.Quiet)
    (strengthen : ∀ middle, Path ctx anyRounds firstOther p middle true →
      Covered anchored (Image ctx first runs) middle → Covered later (Image ctx first runs) middle)
    (path : Path ctx anyRounds (.seq firstOther nextOther) p after ends) :
    Safe (Image ctx (.seq first next) runs) after (ends && whole) := by
  have tidy : Tidy declares (.seq first next) := .seq alike.tidy tidyNext
  have acceptsFirst (m : Machine) (member : runs m) : ∃ done, Accepted ctx first m done := by
    obtain ⟨done, accepted⟩ := accepts m member
    obtain ⟨middle, part, -⟩ := accepted.seq tidy
    exact ⟨middle, part⟩
  cases path with
  | cut => exact .cut quiet
  | within inner => exact ⟨(start covered outline acceptsFirst quiet inner).lead, by simp⟩
  | @seq _ _ _ middle _ _ early late =>
    have followed := early.followed alike.other fun _ => covered.regular.named
    have stays : first.leaves = false := alike.leaves rfl ▸ followed.goesOn rfl
    have safe : Safe (Image ctx first runs) middle true := start covered outline acceptsFirst quiet early
    have reports := (late.followed tidyOther fun _ =>
      (followed.grows rfl).named covered.regular.named).reports
    by_cases middleQuiet : middle.ledger.Quiet
    · have acceptsNext (m : Machine) (member : Image ctx first runs m) :
          ∃ done, Accepted ctx next m done := by
        obtain ⟨a, inRuns, part⟩ := member
        obtain ⟨done, accepted⟩ := accepts a inRuns
        obtain ⟨other, same, remaining⟩ := accepted.seq tidy
        obtain rfl : other = m := Except.ok.inj (same.ran.symm.trans part.ran)
        exact ⟨done, remaining stays⟩
      have middleCovered := strengthen middle early
        (covered.image acceptsFirst early alike safe middleQuiet)
      have middleOutline : middle.ledger.outline = first.declared ctx ++ names := by
        rw [(followed.grows rfl).outline covered.regular, alike.declared, outline]
      have final := rest middleCovered middleOutline acceptsNext middleQuiet late
      refine ⟨final.lead, fun ended quietAfter j shows => ?_⟩
      obtain ⟨done, ⟨m, ⟨a, inRuns, part⟩, second⟩, atEnd⟩ := final.moved ended quietAfter j shows
      obtain ⟨whole, accepted⟩ := accepts a inRuns
      obtain ⟨other, same, remaining⟩ := accepted.seq tidy
      obtain rfl : other = m := Except.ok.inj (same.ran.symm.trans part.ran)
      obtain rfl : whole = done := Except.ok.inj ((remaining stays).ran.symm.trans second.ran)
      exact ⟨whole, ⟨a, inRuns, accepted⟩, atEnd⟩
    · exact safe.loud middleQuiet reports _

theorem seq {first next firstOther nextOther : Code}
    (start : first.Covers ctx anchored true names firstOther)
    (rest : next.Covers ctx anchored whole (first.declared ctx ++ names) nextOther)
    (alike : first.Mirrors ctx true declares firstOther) (tidyNext : Tidy declares next)
    (tidyOther : Tidy declares nextOther) :
    (Code.seq first next).Covers ctx anchored whole names (.seq firstOther nextOther) :=
  fun _ _ _ _ covered outline accepts quiet path =>
    seq_safe start rest alike tidyNext tidyOther covered outline accepts quiet (fun _ _ covered => covered)
      path

theorem discard {body other : Code} (inner : body.Covers ctx anchored whole names other) :
    (Code.discard body).Covers ctx anchored whole names (.discard other) := by
  intro runs p after ends covered outline accepts quiet path
  have acceptsBody (m : Machine) (member : runs m) : ∃ done, Accepted ctx body m done := by
    obtain ⟨done, accepted⟩ := accepts m member
    obtain ⟨part, ran, -⟩ := accepted.discard
    exact ⟨part, ran⟩
  cases path with
  | cut => exact .cut quiet
  | discard path =>
    have safe := inner covered outline acceptsBody quiet path
    refine ⟨safe.lead, fun ended quietAfter j shows => ?_⟩
    obtain ⟨done, ⟨a, inRuns, part⟩, atEnd⟩ := safe.moved ended quietAfter j shows
    obtain ⟨whole, accepted⟩ := accepts a inRuns
    obtain ⟨other, same, rfl⟩ := accepted.discard
    obtain rfl : other = done := Except.ok.inj (same.ran.symm.trans part.ran)
    exact ⟨_, ⟨a, inRuns, accepted⟩, atEnd⟩

theorem scope {isTemporary : Bool} {span : Span} {body other : Code}
    (inner : body.Covers ctx anchored whole names other)
    (alike : (Code.scope isTemporary span body).Mirrors ctx whole declares (.scope isTemporary span other)) :
    (Code.scope isTemporary span body).Covers ctx anchored whole names (.scope isTemporary span other) := by
  intro runs p after ends covered outline accepts quiet path
  cases path with
  | cut => exact .cut quiet
  | @scope _ _ _ _ stop _ path =>
    have entered : Covered anchored (fun m => ∃ a, runs a ∧ m = a.enter isTemporary span)
        (p.enter isTemporary span) := by
      refine ⟨Ledger.push_regular covered.regular isTemporary span, ?_, ?_, fun j shows => ?_⟩
      · obtain ⟨a, inRuns⟩ := covered.some
        exact ⟨_, a, inRuns, rfl⟩
      · rintro m ⟨a, inRuns, rfl⟩
        exact (covered.alike a inRuns).push isTemporary span
      · obtain ⟨a, inRuns, inA⟩ := covered.moved j (Ledger.shows_push isTemporary span |>.mp shows)
        exact ⟨_, ⟨a, inRuns, rfl⟩, Ledger.shows_push isTemporary span |>.mpr inA⟩
    have acceptsBody (m : Machine) (member : ∃ a, runs a ∧ m = a.enter isTemporary span) :
        ∃ done, Accepted ctx body m done := by
      obtain ⟨a, inRuns, rfl⟩ := member
      obtain ⟨done, accepted⟩ := accepts a inRuns
      obtain ⟨part, ran, -⟩ := accepted.scope
      exact ⟨part, ran⟩
    have enteredOutline : (p.enter isTemporary span).ledger.outline = names :=
      (Ledger.push_outline _ _ _).trans outline
    have safe := inner entered enteredOutline acceptsBody
      (by simpa [Ledger.Quiet, Machine.enter] using quiet) path
    refine ⟨by simpa [Ledger.lead, Machine.exit] using safe.lead, fun ended quietAfter j shows => ?_⟩
    obtain ⟨inside, atStop⟩ := Ledger.shows_pop.mp shows
    obtain ⟨done, ⟨_, ⟨a, inRuns, rfl⟩, part⟩, atEnd⟩ := safe.moved ended
      (by simpa [Ledger.Quiet, Machine.exit] using quietAfter) j atStop
    obtain ⟨whole, accepted⟩ := accepts a inRuns
    have grows := (accepted.result alike.tidy).grows
    obtain ⟨last, same, rfl⟩ := accepted.scope
    obtain rfl : last = done := Except.ok.inj (same.ran.symm.trans part.ran)
    refine ⟨_, ⟨a, inRuns, accepted⟩, Ledger.shows_pop.mpr ⟨?_, atEnd⟩⟩
    have grown := ((Path.scope path).followed alike.other fun _ => covered.regular.named).grows
      (Bool.and_eq_true_iff.mp ended).1
    rw [alike.declared] at grown
    have matching := (covered.alike a inRuns).grows grows accepted.regular grown covered.regular
    rw [← Ledger.length_outline] at inside ⊢
    exact lt_of_lt_of_eq inside (congrArg List.length matching.outline.symm)

/-- Runs of a choice cover the paths through what stands in for one of the arms. -/
theorem arm {arms : List Code} {arm other : Code} (chosen : arm ∈ arms)
    (inner : arm.Covers ctx anchored whole names other) (tidy : ∀ arm ∈ arms, Tidy false arm)
    (alike : arm.Mirrors ctx whole false other) : (Code.choice arms).Covers ctx anchored whole names other := by
  intro runs p after ends covered outline accepts quiet path
  have parts (a : Machine) (inRuns : runs a) : ∃ whole start end_, Accepted ctx (.choice arms) a whole ∧
      ArmAccepted ctx arm a whole start end_ := by
    obtain ⟨whole, accepted⟩ := accepts a inRuns
    obtain ⟨start, end_, part⟩ := accepted.arm tidy chosen
    exact ⟨whole, start, end_, accepted, part⟩
  have entered : Covered anchored (fun start => ∃ a, runs a ∧ ∃ whole end_,
      Accepted ctx (.choice arms) a whole ∧ ArmAccepted ctx arm a whole start end_) p := by
    refine covered.goOn covered.regular rfl rfl ?_ ?_ fun j shows => ?_
    · obtain ⟨a, inRuns⟩ := covered.some
      obtain ⟨whole, start, end_, accepted, part⟩ := parts a inRuns
      exact ⟨start, a, inRuns, whole, end_, accepted, part⟩
    · rintro start ⟨a, inRuns, whole, end_, accepted, part⟩
      exact ⟨a, inRuns, part.outline, part.env⟩
    · obtain ⟨a, inRuns, inA⟩ := covered.moved j shows
      obtain ⟨whole, start, end_, accepted, part⟩ := parts a inRuns
      exact ⟨start, ⟨a, inRuns, whole, end_, accepted, part⟩, (part.shows IsMoved j).mpr inA⟩
  have acceptsArm (start : Machine) (member : ∃ a, runs a ∧ ∃ whole end_,
      Accepted ctx (.choice arms) a whole ∧ ArmAccepted ctx arm a whole start end_) :
      ∃ done, Accepted ctx arm start done := by
    obtain ⟨a, -, whole, end_, -, part⟩ := member
    exact ⟨end_, part.accepted⟩
  have safe := inner entered outline acceptsArm quiet path
  refine ⟨safe.lead, fun ended quietAfter j shows => ?_⟩
  obtain ⟨done, ⟨start, ⟨a, inRuns, whole, end_, accepted, part⟩, ran⟩, atEnd⟩ :=
    safe.moved ended quietAfter j shows
  obtain rfl : end_ = done := Except.ok.inj (part.accepted.ran.symm.trans ran.ran)
  obtain ⟨reached, counts⟩ := Bool.and_eq_true_iff.mp ended
  have stays := (path.followed alike.other (by simp)).goesOn reached
  rw [alike.leaves counts] at stays
  exact ⟨whole, ⟨a, inRuns, accepted⟩, part.joined stays joinable_moved j atEnd⟩

theorem choice {arms others : List Code}
    (each : ∀ other ∈ others, (Code.choice arms).Covers ctx anchored whole names other)
    (none : others = [] → arms = []) :
    (Code.choice arms).Covers ctx anchored whole names (.choice others) := by
  intro runs p after ends covered outline accepts quiet path
  cases path with
  | cut => exact .cut quiet
  | without =>
    refine ⟨?_, fun _ _ j shows => ?_⟩
    · simp [Machine.gathered, Ledger.lead_of_quiet quiet]
    · obtain ⟨a, inRuns, inA⟩ := covered.moved j shows
      obtain ⟨whole, accepted⟩ := accepts a inRuns
      refine ⟨whole, ⟨a, inRuns, accepted⟩, ?_⟩
      rw [none rfl] at accepted
      exact (accepted.noArm j).mpr inA
  | arm chosen path =>
    have entered : Covered anchored runs { p with found := [] } :=
      ⟨covered.regular, covered.some, covered.alike, covered.moved⟩
    have safe := each _ chosen entered outline accepts quiet path
    exact ⟨safe.lead, safe.moved⟩

section Loops

variable {test round testOther roundOther : Code}

/-- The parts of a run of a loop. -/
structure LoopOf (ctx : Context) (test round : Code) (runs : Machine → Prop)
    (m whole first once retested twice : Machine) : Prop where
  member : runs m
  accepted : Accepted ctx (.loop test round) m whole
  parts : LoopAccepted ctx test round m whole first once retested twice

/-- Where runs of a loop stand before a round: after the condition, the first time or the second. -/
def Tested (ctx : Context) (test round : Code) (runs : Machine → Prop) (m : Machine) : Prop :=
  ∃ a whole first once retested twice, LoopOf ctx test round runs a whole first once retested twice ∧
    (m = a.resume first ∨ (round.leaves = false ∧ m = a.resume retested))

/-- Where runs of a loop stand after a round. -/
def Rounded (ctx : Context) (test round : Code) (runs : Machine → Prop) (m : Machine) : Prop :=
  ∃ a whole first once retested twice, LoopOf ctx test round runs a whole first once retested twice ∧
    m = a.resume once

variable (condition : test.Mirrors ctx true false testOther)
  (body : round.Mirrors ctx true false roundOther)
include condition body

theorem tested_covered (covered : Covered anchored runs p)
    (accepts : ∀ m, runs m → ∃ done, Accepted ctx (.loop test round) m done)
    (stays : test.leaves = false) (regular : after.ledger.Regular)
    (outline : after.ledger.outline = p.ledger.outline) (env : after.ledger.env = p.ledger.env)
    (moved : ∀ j, after.ledger.Shows IsMoved j →
      ∃ m, Tested ctx test round runs m ∧ m.ledger.Shows IsMoved j) :
    Covered anchored (Tested ctx test round runs) after := by
  refine covered.goOn regular outline env ?_ ?_ moved
  · obtain ⟨a, inRuns⟩ := covered.some
    obtain ⟨whole, accepted⟩ := accepts a inRuns
    obtain ⟨first, once, retested, twice, parts⟩ := accepted.loop condition.tidy body.tidy stays
    exact ⟨a.resume first, a, whole, first, once, retested, twice, ⟨inRuns, accepted, parts⟩, .inl rfl⟩
  · rintro m ⟨a, whole, first, once, retested, twice, loop, rfl | ⟨goesOn, rfl⟩⟩
    · exact ⟨a, loop.member, loop.parts.tested.kept condition.tidy⟩
    · exact ⟨a, loop.member, (loop.parts.kept condition.tidy body.tidy goesOn).2.2⟩

/-- A round from where the condition has been checked, and the condition after it, are covered again. -/
theorem round_covered (tests : test.Covers ctx anchored true names testOther)
    (rounds : round.Covers ctx anchored true names roundOther)
    (settledTest : Settles ctx anchored test) (settledRound : Settles ctx anchored round)
    (covered : Covered anchored runs p) (start : p.ledger.outline = names)
    (accepts : ∀ m, runs m → ∃ done, Accepted ctx (.loop test round) m done)
    (stays : test.leaves = false) (middleCovered : Covered anchored (Tested ctx test round runs) middle)
    (outline : middle.ledger.outline = p.ledger.outline) (env : middle.ledger.env = p.ledger.env)
    (quiet : middle.ledger.Quiet)
    (path : Path ctx anyRounds (.seq (.discard roundOther) (.discard testOther)) middle after ends) :
    Safe (Tested ctx test round runs) after ends := by
  have acceptsRound (m : Machine) (member : Tested ctx test round runs m) :
      ∃ done, Accepted ctx (.discard round) m done := by
    obtain ⟨a, whole, first, once, retested, twice, loop, rfl | ⟨goesOn, rfl⟩⟩ := member
    · exact ⟨_, loop.parts.rounded.toDiscard⟩
    · exact ⟨_, (loop.parts.roundedAgain goesOn).toDiscard⟩
  have middleOutline : middle.ledger.outline = names := outline.trans start
  cases path with
  | cut => exact .cut quiet
  | within path =>
    exact ⟨(rounds.discard middleCovered middleOutline acceptsRound quiet path).lead, by simp⟩
  | @seq _ _ _ next _ _ early late =>
    have tidyRound : Tidy false (.discard roundOther) := .discard body.other
    have tidyTest : Tidy false (.discard testOther) := .discard condition.other
    have safe : Safe (Image ctx (.discard round) (Tested ctx test round runs)) next true :=
      rounds.discard middleCovered middleOutline acceptsRound quiet early
    have goesOn : round.leaves = false := body.leaves rfl ▸ (early.followed tidyRound (by simp)).goesOn rfl
    by_cases nextQuiet : next.ledger.Quiet
    · have nextKept := early.kept tidyRound middleCovered.regular
      have nextRegular := early.regular tidyRound middleCovered.regular
      have nextCovered : Covered anchored (Rounded ctx test round runs) next := by
        refine covered.goOn nextRegular (nextKept.1.trans outline) (nextKept.2.trans env) ?_ ?_ ?_
        · obtain ⟨a, inRuns⟩ := covered.some
          obtain ⟨whole, accepted⟩ := accepts a inRuns
          obtain ⟨first, once, retested, twice, parts⟩ := accepted.loop condition.tidy body.tidy stays
          exact ⟨_, a, whole, first, once, retested, twice, ⟨inRuns, accepted, parts⟩, rfl⟩
        · rintro m ⟨a, whole, first, once, retested, twice, loop, rfl⟩
          exact ⟨a, loop.member, (loop.parts.kept condition.tidy body.tidy goesOn).2.1⟩
        · intro j shows
          obtain ⟨done, ⟨m, ⟨a, whole, first, once, retested, twice, loop, member⟩, ran⟩, atEnd⟩ :=
            safe.moved rfl nextQuiet j shows
          refine ⟨_, ⟨a, whole, first, once, retested, twice, loop, rfl⟩, ?_⟩
          rcases member with rfl | ⟨-, rfl⟩
          · obtain rfl := Except.ok.inj (loop.parts.rounded.toDiscard.ran.symm.trans ran.ran)
            exact atEnd
          · obtain rfl := Except.ok.inj
              ((loop.parts.roundedAgain goesOn).toDiscard.ran.symm.trans ran.ran)
            exact loop.parts.saturated condition.tidy body.tidy settledTest settledRound
              (covered.alike a loop.member).anchor stays goesOn j atEnd
      have acceptsTest (m : Machine) (member : Rounded ctx test round runs m) :
          ∃ done, Accepted ctx (.discard test) m done := by
        obtain ⟨a, whole, first, once, retested, twice, loop, rfl⟩ := member
        exact ⟨_, (loop.parts.testedAgain goesOn).toDiscard⟩
      have final := tests.discard nextCovered (nextKept.1.trans middleOutline) acceptsTest nextQuiet late
      refine ⟨final.lead, fun ended quietAfter j shows => ?_⟩
      obtain ⟨done, ⟨m, ⟨a, whole, first, once, retested, twice, loop, rfl⟩, ran⟩, atEnd⟩ :=
        final.moved (by simp [ended]) quietAfter j shows
      obtain rfl := Except.ok.inj ((loop.parts.testedAgain goesOn).toDiscard.ran.symm.trans ran.ran)
      exact ⟨_, ⟨a, whole, first, once, retested, twice, loop, .inr ⟨goesOn, rfl⟩⟩, atEnd⟩
    · exact safe.loud nextQuiet (late.followed tidyTest (by simp)).reports _

/-- After the condition and any number of rounds, a path is covered by the runs after the condition. -/
theorem rounds_covered (tests : test.Covers ctx anchored true names testOther)
    (rounds : round.Covers ctx anchored true names roundOther)
    (settledTest : Settles ctx anchored test) (settledRound : Settles ctx anchored round)
    (covered : Covered anchored runs p) (start : p.ledger.outline = names)
    (accepts : ∀ m, runs m → ∃ done, Accepted ctx (.loop test round) m done) (quiet : p.ledger.Quiet)
    (count : Nat) (path : Path ctx anyRounds (Code.rounds testOther roundOther count) p after ends) :
    Safe (Tested ctx test round runs) after ends := by
  induction count generalizing after ends with
  | zero =>
    have acceptsTest (m : Machine) (member : runs m) : ∃ done, Accepted ctx (.discard test) m done := by
      obtain ⟨whole, accepted⟩ := accepts m member
      obtain ⟨first, tested⟩ := accepted.loopTest condition.tidy body.tidy
      exact ⟨_, tested.toDiscard⟩
    have path : Path ctx anyRounds (.discard testOther) p after ends := path
    have safe := tests.discard covered start acceptsTest quiet path
    refine ⟨safe.lead, fun ended quietAfter j shows => ?_⟩
    have stays : test.leaves = false := condition.leaves rfl ▸
      (path.followed (.discard condition.other : Tidy false _) (by simp)).goesOn ended
    obtain ⟨done, ⟨a, inRuns, ran⟩, atEnd⟩ := safe.moved (by simp [ended]) quietAfter j shows
    obtain ⟨whole, accepted⟩ := accepts a inRuns
    obtain ⟨first, once, retested, twice, parts⟩ := accepted.loop condition.tidy body.tidy stays
    obtain rfl := Except.ok.inj (parts.tested.toDiscard.ran.symm.trans ran.ran)
    exact ⟨_, ⟨a, whole, first, once, retested, twice, ⟨inRuns, accepted, parts⟩, .inl rfl⟩, atEnd⟩
  | succ count ih =>
    have tidy : Tidy false (Code.rounds testOther roundOther count) :=
      condition.other.rounds body.other count
    have unrolled : Path ctx anyRounds (.seq (Code.rounds testOther roundOther count)
      (.seq (.discard roundOther) (.discard testOther))) p after ends := path
    cases unrolled with
    | cut => exact .cut quiet
    | within inner => exact ⟨(ih inner).lead, by simp⟩
    | @seq _ _ _ middle _ _ early late =>
      have stays : test.leaves = false :=
        condition.leaves rfl ▸ leaves_rounds ((early.followed tidy (by simp)).goesOn rfl)
      by_cases middleQuiet : middle.ledger.Quiet
      · have kept := early.kept tidy covered.regular
        have middleCovered := tested_covered condition body covered accepts stays
          (early.regular tidy covered.regular) kept.1 kept.2 ((ih early).moved rfl middleQuiet)
        exact round_covered condition body tests rounds settledTest settledRound covered start accepts
          stays middleCovered kept.1 kept.2 middleQuiet late
      · have tidyRound : Tidy false (.seq (.discard roundOther) (.discard testOther)) :=
          .seq (.discard body.other) (.discard condition.other)
        exact (ih early).loud middleQuiet (late.followed tidyRound (by simp)).reports ends

theorem loop (tests : test.Covers ctx anchored true names testOther)
    (rounds : round.Covers ctx anchored true names roundOther)
    (settledTest : Settles ctx anchored test) (settledRound : Settles ctx anchored round) :
    (Code.loop test round).Covers ctx anchored true names (.loop testOther roundOther) := by
  intro runs p after ends covered outline accepts quiet path
  cases path with
  | cut => exact .cut quiet
  | loop count allowed path =>
    have safe := rounds_covered condition body tests rounds settledTest settledRound covered outline
      accepts quiet count path
    refine ⟨safe.lead, fun ended quietAfter j shows => ?_⟩
    have ended : ends = true := (Bool.and_eq_true_iff.mp ended).1
    obtain ⟨m, ⟨a, whole, first, once, retested, twice, loop, member⟩, atEnd⟩ :=
      safe.moved ended quietAfter j shows
    have parts := loop.parts
    refine ⟨whole, ⟨a, loop.member, loop.accepted⟩, (parts.joined joinable_moved j).mpr ?_⟩
    rcases member with rfl | ⟨goesOn, rfl⟩
    · exact .inl atEnd
    · have stays : test.leaves = false := condition.leaves rfl ▸ leaves_rounds
        ((path.followed (condition.other.rounds body.other count : Tidy false _) (by simp)).goesOn ended)
      have same : a.ledger.Matches anchored a.ledger :=
        ⟨rfl, (covered.alike a loop.member).anchor, (covered.alike a loop.member).anchor⟩
      obtain ⟨-, onceKept, -⟩ := parts.kept condition.tidy body.tidy goesOn
      have atTest : (a.resume once).ledger.Matches anchored a.ledger :=
        same.of_env onceKept.1 onceKept.2 rfl rfl
      rcases settledTest atTest (parts.testedAgain goesOn) parts.tested stays j atEnd with
        done | ⟨atOnce, -⟩
      · exact .inl done
      · exact .inr ⟨goesOn, .inl atOnce⟩

end Loops

theorem skip : Code.skip.Covers ctx anchored whole names .skip := by
  intro runs p after ends covered _ accepts quiet path
  cases path with
  | cut => exact .cut quiet
  | skip =>
    refine ⟨by simp [Ledger.lead_of_quiet quiet], fun _ _ j shows => ?_⟩
    obtain ⟨a, inRuns, inA⟩ := covered.moved j shows
    obtain ⟨done, accepted⟩ := accepts a inRuns
    obtain rfl : a = done := Except.ok.inj accepted.ran
    exact ⟨a, ⟨a, inRuns, accepted⟩, inA⟩

theorem leave : Code.leave.Covers ctx anchored whole names .leave := by
  intro runs p after ends covered _ accepts quiet path
  cases path with
  | cut => exact .cut quiet
  | leave =>
    have start : p.ledger.lead ≠ some .useAfterMove := by simp [Ledger.lead_of_quiet quiet]
    exact ⟨start, by simp⟩

end Code.Covers

theorem Code.Tidy.covers (tidy : c.Tidy declares) (rooted : c.Each fun s => s.Rooted ∨ anchored) :
    c.Covers ctx anchored true names c := by
  induction tidy generalizing names with
  | skip => exact .skip
  | step =>
    cases rooted with
    | step rooted => exact .step rooted
  | seq start rest early late =>
    cases rooted with
    | seq rootedStart rootedRest =>
      exact (early rootedStart).seq (late rootedRest) start.mirrors rest rest
  | discard _ ih =>
    cases rooted with
    | discard rooted => exact (ih rooted).discard
  | temporary inner ih =>
    cases rooted with
    | scope rooted => exact (ih rooted).scope (Tidy.temporary inner).mirrors
  | named inner ih =>
    cases rooted with
    | scope rooted => exact (ih rooted).scope (tidy_named.mpr inner : Tidy false _).mirrors
  | choice each ih =>
    cases rooted with
    | choice rooted =>
      exact .choice (fun arm member =>
        .arm member (ih arm member (rooted arm member)) each (each arm member).mirrors) id
  | loop condition body test round =>
    cases rooted with
    | loop rootedTest rootedRound =>
      exact .loop condition.mirrors body.mirrors (test rootedTest) (round rootedRound)
        (condition.settles rootedTest) (body.settles rootedRound)
  | leave => exact .leave

/-! ### Functions -/

/-- The run of a function from the start covers the paths through it, also with other code in the place of
its body. -/
theorem inside_safe {f : FuncDecl} {inner : Machine} {other : Code} (roots : ctx.RootsKnown f)
    (accepted : Code.Accepted ctx (ctx.insideCode f) (({} : Machine).enter false f.span) inner)
    (body : ∀ {anchored : Prop}, ((ctx.bodyCode f).Each fun s => s.Rooted ∨ anchored) →
      (ctx.bodyCode f).Covers ctx anchored true ((ctx.paramsCode f).declared ctx ++ []) other)
    (tidyOther : other.Tidy true)
    (path : Path ctx anyRounds (.seq (ctx.paramsCode f) other) (({} : Machine).enter false f.span) after
      ends) :
    Safe (Image ctx (ctx.insideCode f) (· = ({} : Machine).enter false f.span)) after (ends && true) := by
  have tidyBody : Code.Tidy true (ctx.bodyCode f) := (tidy_bodyCode ctx f).mayDeclare
  have covered : Covered False (· = ({} : Machine).enter false f.span)
      (({} : Machine).enter false f.span) := by
    refine ⟨accepted.regular, ⟨_, rfl⟩, ?_, fun j shows => ⟨_, rfl, shows⟩⟩
    rintro m rfl
    exact ⟨rfl, False.elim, False.elim⟩
  have accepts : ∀ m, m = ({} : Machine).enter false f.span →
      ∃ done, Code.Accepted ctx (ctx.insideCode f) m done := by
    rintro m rfl
    exact ⟨inner, accepted⟩
  have params : (ctx.paramsCode f).Covers ctx False true [] (ctx.paramsCode f) :=
    (tidy_paramsCode ctx f).covers ((Context.rooted_paramsCode ctx f).imp fun _ => .inl)
  have alike : (ctx.paramsCode f).Mirrors ctx true true (ctx.paramsCode f) := (tidy_paramsCode ctx f).mirrors
  rcases roots with parameter | rooted
  · have bodyCovers := body ((tidy_bodyCode ctx f).each fun s => .inr trivial)
    refine Code.Covers.seq_safe params bodyCovers alike tidyBody tidyOther covered rfl accepts rfl
      (fun middle early reached => ?_) path
    have anchors := Context.anchors_paramsCode parameter f
    refine ⟨reached.regular, reached.some, fun m member => ?_, reached.moved⟩
    refine ⟨(reached.alike m member).outline, fun _ => ?_, fun _ => ?_⟩
    · obtain ⟨start, rfl, part⟩ := member
      exact anchors accepted.regular rfl (.inl part.ran)
    · exact anchors accepted.regular rfl (.inr early)
  · have rootedBody : (ctx.bodyCode f).Each fun s => s.Rooted ∨ False := rooted.body.imp fun _ => .inl
    have bodyCovers := body rootedBody
    exact Code.Covers.seq_safe params bodyCovers alike tidyBody tidyOther covered rfl accepts rfl
      (fun _ _ covered => covered) path

/-- Joins and loops over-approximate every path for moves: a function that is checked without a diagnostic
has no path on which the first diagnostic is the use of something moved. -/
theorem check_covers_moves {table : Table} {position : Nat} {f : FuncDecl}
    {notes : Typing.Annotations} {signature : Signature} {result : Result}
    (declared : table.signature? position f = some signature)
    (roots : (contextOf table signature f notes).RootsKnown f)
    (checked : check table position f notes = .ok result) (accepted : result.diagnostics = [])
    {after : Machine} {ends : Bool}
    (path : Path (contextOf table signature f notes) anyRounds
      ((contextOf table signature f notes).functionCode f) {} after ends) :
    after.ledger.bag.contents.head?.map Diagnostic.kind ≠ some .useAfterMove :=
  check_lead declared checked accepted (fun _ _ _ part inside =>
    (inside_safe roots part (tidy_bodyCode _ _).covers (tidy_bodyCode _ _).mayDeclare inside).lead) path

/-- A function that moves its parameter in a loop, and gives it a new value in the same round. -/
def reviving : FuncDecl :=
  { (default : FuncDecl) with
    name := "f"
    body := .mk ⟨1, default⟩ [.loop default (.ident ⟨2, default⟩ "c") (.mk ⟨3, default⟩
      [.bind default (.binding { info := ⟨4, default⟩, name := "t" }) none (some (.ident ⟨5, default⟩ "s")),
        .expr default (.assign ⟨6, default⟩ (.ident ⟨7, default⟩ "s") (.string ⟨8, default⟩ default))]
      none)] none }

def revivingSignature : Signature :=
  { name := "f", kind := .function, typeParams := [], result := .unit, origin := some 0
    params := [{ name := "c", type := .bool }, { name := "s", type := .string, mutable := true }] }

def revivingNotes : Typing.Annotations :=
  { types := [(1, .unit), (2, .bool), (3, .unit), (4, .string), (5, .string), (6, .unit), (7, .string),
      (8, .string)] }

def revivingTable : Table := { functions := [("f", revivingSignature)] }

def revivingContext : Context := contextOf revivingTable revivingSignature reviving revivingNotes

theorem check_covers_moves_reviving : ∃ after,
    Path revivingContext anyRounds (revivingContext.functionCode reviving) {} after true ∧
      after.ledger.bag.contents.head?.map Diagnostic.kind ≠ some .useAfterMove := by
  have quiet : (check revivingTable 0 reviving revivingNotes).map Result.diagnostics = .ok [] := by cbv
  obtain ⟨result, checked, accepted⟩ := quiet_of_map quiet
  -- Three rounds.
  obtain ⟨after, path, -⟩ := exists_path
    (show revivingContext.leadAlong anyRounds reviving [3] = some (true, none) by decide +kernel)
  exact ⟨after, path, check_covers_moves (show _ = some revivingSignature by cbv)
    (.inl (.inr (by simp [contextOf, revivingSignature]))) checked accepted path⟩

/-- A function without parameters that moves a variable in one of two branches, and borrows what a call
returns afterwards. -/
def branching : FuncDecl :=
  let declare (id : Nat) (name : String) (value : Expr) : Stmt :=
    .bind default (.binding { info := ⟨id, default⟩, name }) none (some value)
  let text (id : Nat) : Expr := .string ⟨id, default⟩ default
  { (default : FuncDecl) with
    name := "g"
    body := .mk ⟨1, default⟩ [
      .expr default (.branch ⟨2, default⟩ (.bool ⟨3, default⟩ true)
        (.block (.mk ⟨4, default⟩ [declare 5 "x" (text 6)] none))
        (some (.block (.mk ⟨7, default⟩
          [declare 8 "s" (text 9), declare 10 "t" (.ident ⟨11, default⟩ "s")] none)))),
      declare 12 "r" (.ref ⟨13, default⟩ false (.deref ⟨14, default⟩
        (.call ⟨15, default⟩ (.ident ⟨16, default⟩ "id") [.ref ⟨17, default⟩ false (text 18)])))] none }

def branchingSignature : Signature :=
  { name := "g", kind := .function, typeParams := [], params := [], result := .unit, origin := some 0 }

def branchingNotes : Typing.Annotations :=
  { types := [(1, .unit), (2, .unit), (3, .bool), (4, .unit), (7, .unit)] ++
      ([5, 6, 8, 9, 10, 11, 14, 18].map fun id => (id, .string)) ++
      ([12, 13, 15, 17].map fun id => (id, .ref false .string)) ++
      [(16, .function [.ref false .string] (.ref false .string))] }

def branchingTable : Table := { functions := [("g", branchingSignature)] }

def branchingContext : Context := contextOf branchingTable branchingSignature branching branchingNotes

/-- Without a parameter, a borrow of a temporary value counts as one of whichever variable comes first, and
that may be another one on each path. -/
theorem check_misses_first_variable :
    (check branchingTable 0 branching branchingNotes).map Result.diagnostics = .ok [] ∧
      ∃ after, Path branchingContext anyRounds (branchingContext.functionCode branching) {} after true ∧
        after.ledger.bag.contents.head?.map Diagnostic.kind = some .useAfterMove :=
  -- The second branch.
  ⟨by cbv, exists_path
    (show branchingContext.leadAlong anyRounds branching [1] = _ by decide +kernel)⟩

end TreeCheck.Ownership
