import TreeCheck.Proofs.Ownership.Blame
import TreeCheck.Proofs.Ownership.Runs
import TreeCheck.Proofs.Ownership.Inspection
import TreeCheck.Symbol.Collect
import TreeCheck.Proofs.Typing.Closed

/-!
Every identifier of a function is checked. The check of a function applies a step to each identifier that is not
hidden, when just the names in scope at the identifier are declared; so the step meets the variable that the
identifier stands for, and its use is reported if the variable was moved or has no value so far.
-/

namespace TreeCheck.Ownership

variable {ctx : Context}

/-! ### Steps of a run -/

instance (o : Occurrence) : DecidablePred (Step.Checks o) := fun s =>
  match s with
  | .useName info name _ => inferInstanceAs (Decidable (info = o.info ∧ name = o.name))
  | .usePlace e _ | .borrowPlace e _ _ | .write e _ =>
    inferInstanceAs (Decidable (e.root? = some (o.info, o.name)))
  | .value | .nip | .union | .collect | .typed _ | .carried _ | .locate _ | .lend .. | .gather _ | .returned ..
  | .keep | .keepFound | .bind _ | .bindLate _ | .param .. | .escape _ => inferInstanceAs (Decidable False)

/-- The names in scope, the latest first. -/
def Ledger.names (l : Ledger) : List String := l.outline.map Prod.fst

theorem Ledger.Grows.names {l after : Ledger} {names : List (String × Option Ty)} (grows : l.Grows names after)
    (regular : l.Regular) : after.names = names.map Prod.fst ++ l.names := by
  simp [Ledger.names, grows.outline regular]

theorem Ledger.names_push (l : Ledger) (isTemporary : Bool) (span : Span) :
    (l.push isTemporary span).names = l.names := by
  rw [Ledger.names, Ledger.push_outline, Ledger.names]

namespace Code

/-- Running code from a machine applies a step, in the first round of each loop around the step. -/
inductive Applies (ctx : Context) (s : Step) (start stop : Machine) : Code → Machine → Prop
  | step (ran : s.run ctx start = .ok stop) : Applies ctx s start stop (.step s) start
  | first {first next : Code} {m : Machine} (inner : Applies ctx s start stop first m) :
      Applies ctx s start stop (.seq first next) m
  | next {first next : Code} {m middle : Machine} (ran : first.run ctx m = .ok middle)
      (inner : Applies ctx s start stop next middle) : Applies ctx s start stop (.seq first next) m
  | discard {body : Code} {m : Machine} (inner : Applies ctx s start stop body m) :
      Applies ctx s start stop (.discard body) m
  | scope {isTemporary : Bool} {span : Span} {body : Code} {m : Machine}
      (inner : Applies ctx s start stop body (m.enter isTemporary span)) :
      Applies ctx s start stop (.scope isTemporary span body) m
  | arm {front back : List Code} {arm : Code} {m middle : Machine} {ends : List Flow}
      (ran : runArms ctx front m.ledger.flow { m with found := [] } = .ok (middle, ends))
      (inner : Applies ctx s start stop arm (middle.withFlow (middle.ledger.flow.restore m.ledger.flow))) :
      Applies ctx s start stop (.choice (front ++ arm :: back)) m
  | test {test round : Code} {m : Machine} (inner : Applies ctx s start stop test m) :
      Applies ctx s start stop (.loop test round) m
  | round {test round : Code} {m tested : Machine} (ran : test.run ctx m = .ok tested)
      (inner : Applies ctx s start stop round (m.resume tested)) : Applies ctx s start stop (.loop test round) m

theorem Applies.ran {s : Step} {start stop m : Machine} {c : Code} (applies : Applies ctx s start stop c m) :
    s.run ctx start = .ok stop := by
  induction applies with
  | step ran => exact ran
  | first _ ih | next _ _ ih | discard _ ih | scope _ ih | arm _ _ ih | test _ ih | round _ _ ih => exact ih

theorem Applies.each {property : Step → Prop} {s : Step} {start stop m : Machine} {c : Code}
    (applies : Applies ctx s start stop c m) (each : c.Each property) : property s := by
  induction applies with
  | step =>
    cases each with
    | step holds => exact holds
  | first _ ih =>
    cases each with
    | seq start _ => exact ih start
  | next _ _ ih =>
    cases each with
    | seq _ rest => exact ih rest
  | discard _ ih =>
    cases each with
    | discard inner => exact ih inner
  | scope _ ih =>
    cases each with
    | scope inner => exact ih inner
  | arm _ _ ih =>
    cases each with
    | choice each => exact ih (each _ (by simp))
  | test _ ih =>
    cases each with
    | loop condition _ => exact ih condition
  | round _ _ ih =>
    cases each with
    | loop _ body => exact ih body

/-- Code with a step, reached with some names in scope from others. -/
inductive Reaches (ctx : Context) (s : Step) (scope : List String) : List String → Code → Prop
  | step : Reaches ctx s scope scope (.step s)
  | first {names : List String} {first next : Code} (inner : Reaches ctx s scope names first) :
      Reaches ctx s scope names (.seq first next)
  | next {names : List String} {first next : Code}
      (inner : Reaches ctx s scope ((first.declared ctx).map Prod.fst ++ names) next) :
      Reaches ctx s scope names (.seq first next)
  | discard {names : List String} {body : Code} (inner : Reaches ctx s scope names body) :
      Reaches ctx s scope names (.discard body)
  | scope {names : List String} {isTemporary : Bool} {span : Span} {body : Code}
      (inner : Reaches ctx s scope names body) : Reaches ctx s scope names (.scope isTemporary span body)
  | arm {names : List String} {arms : List Code} {arm : Code} (chosen : arm ∈ arms)
      (inner : Reaches ctx s scope names arm) : Reaches ctx s scope names (.choice arms)
  | test {names : List String} {test round : Code} (inner : Reaches ctx s scope names test) :
      Reaches ctx s scope names (.loop test round)
  | round {names : List String} {test round : Code} (inner : Reaches ctx s scope names round) :
      Reaches ctx s scope names (.loop test round)

theorem Checks.reaches {o : Occurrence} {names : List String} {c : Code} (checks : c.Checks ctx o names) :
    ∃ s, s.Checks o ∧ c.Reaches ctx s o.scope names := by
  induction checks with
  | step checks => exact ⟨_, checks, .step⟩
  | first _ ih => exact ih.imp fun _ found => ⟨found.1, .first found.2⟩
  | next _ ih => exact ih.imp fun _ found => ⟨found.1, .next found.2⟩
  | discard _ ih => exact ih.imp fun _ found => ⟨found.1, .discard found.2⟩
  | scope _ ih => exact ih.imp fun _ found => ⟨found.1, .scope found.2⟩
  | arm chosen _ ih => exact ih.imp fun _ found => ⟨found.1, .arm chosen found.2⟩
  | test _ ih => exact ih.imp fun _ found => ⟨found.1, .test found.2⟩
  | round _ ih => exact ih.imp fun _ found => ⟨found.1, .round found.2⟩

/-- A run applies a step with some names in scope. -/
def Inspects (ctx : Context) (s : Step) (scope : List String) (c : Code) (m after : Machine) : Prop :=
  ∃ start stop, Applies ctx s start stop c m ∧ start.ledger.Regular ∧ start.ledger.names = scope ∧
    stop.ledger.bag.contents <+: after.ledger.bag.contents

theorem LoopGrowth.fromOnce {m first once retested twice : Machine}
    (growth : LoopGrowth m first once retested twice) :
    once.ledger.Grows [] (m.looped first once twice).ledger :=
  growth.toAgain.trans (growth.toRetested.trans (growth.toTwice.trans growth.toEnd))

theorem Inspects.lift {s : Step} {scope : List String} {part c : Code} {m after begin last : Machine}
    (inspects : part.Inspects ctx s scope m after)
    (applies : ∀ {start stop : Machine}, Applies ctx s start stop part m → Applies ctx s start stop c begin)
    (reported : after.ledger.bag.contents <+: last.ledger.bag.contents) : c.Inspects ctx s scope begin last := by
  obtain ⟨start, stop, applied, regular, names, early⟩ := inspects
  exact ⟨start, stop, applies applied, regular, names, early.trans reported⟩

theorem Reaches.inspects {s : Step} {names inner : List String} {c : Code} (reaches : c.Reaches ctx s inner names)
    {declares : Bool} (tidy : c.Tidy declares) {m after : Machine} (regular : m.ledger.Regular)
    (scope : m.ledger.names = names) (ran : c.run ctx m = .ok after) : c.Inspects ctx s inner m after := by
  induction reaches generalizing declares m after with
  | step => exact ⟨m, after, .step ran, regular, scope, List.prefix_rfl⟩
  | first _ ih =>
    cases tidy with
    | seq early late =>
      obtain ⟨middle, started, rest⟩ := run_seq_ok ran
      have result := early.ran (fun _ => regular.named) started
      have later := late.ran (fun _ => result.grows.named regular.named) rest
      exact (ih early regular scope started).lift .first later.grows.reports
  | next _ ih =>
    cases tidy with
    | seq early late =>
      obtain ⟨middle, started, rest⟩ := run_seq_ok ran
      have result := early.ran (fun _ => regular.named) started
      have middleRegular := result.grows.regular regular (result.balanced regular.balanced)
      exact (ih late middleRegular (by rw [result.grows.names regular, scope]) rest).lift (.next started)
        List.prefix_rfl
  | discard _ ih =>
    cases tidy with
    | discard inner =>
      obtain ⟨stopped, innerRan, rfl⟩ := run_discard_ok ran
      exact (ih inner regular scope innerRan).lift .discard List.prefix_rfl
  | scope _ ih =>
    obtain ⟨more, inner⟩ := tidy.inner
    obtain ⟨stopped, innerRan, rfl⟩ := run_scope_ok ran
    exact (ih inner (m := m.enter _ _) (Ledger.push_regular regular _ _)
      ((Ledger.names_push ..).trans scope) innerRan).lift .scope (by simp [Machine.exit])
  | arm chosen _ ih =>
    obtain ⟨front, back, rfl⟩ := List.append_of_mem chosen
    cases tidy with
    | choice each =>
      have runs (arm : Code) (tidy : Tidy false arm) {m after : Machine} (ran : arm.run ctx m = .ok after) :
          Ran ctx arm m after ∧ m.ledger.Grows [] after.ledger :=
        have result := tidy.ran (by simp) ran
        ⟨result, tidy.grows_nil result.grows⟩
      obtain ⟨last, ends, armsRan, rfl⟩ := run_choice_ok ran
      obtain ⟨middle, early, stopped, late, frontRan, armRan, backRan⟩ := runArms_append_ok armsRan
      have earlier := runArms_ran (fun arm member => runs arm (each arm (by simp [member]))) frontRan
      have later := runArms_ran (fun arm member => runs arm (each arm (by simp [member]))) backRan
      have middleBalanced := earlier.balanced regular.balanced (Nat.le_of_eq regular.balanced)
      have shorter : m.ledger.flow.vars.length ≤ middle.ledger.flow.vars.length := by
        rw [regular.balanced, middleBalanced]
        exact earlier.grows.vars.length_le
      -- The arm starts with the flow from before the choice.
      have begun : m.ledger.Grows [] (middle.withFlow (middle.ledger.flow.restore m.ledger.flow)).ledger :=
        earlier.grows.trans (.withFlow _ _)
      have balanced := (Flow.length_restore shorter).trans middleBalanced
      exact (ih (each _ (by simp)) (begun.regular regular balanced)
        ((begun.names regular).trans scope) armRan).lift (.arm frontRan) later.grows.reports
  | test _ ih =>
    cases tidy with
    | loop condition body =>
      obtain ⟨first, once, retested, twice, parts, rfl⟩ := run_loop_ok ran
      have growth := parts.growth
        (fun ran => condition.grows_nil (condition.ran (by simp) ran).grows)
        (fun ran => body.grows_nil (body.ran (by simp) ran).grows)
      exact (ih condition regular scope parts.tested).lift .test
        (growth.toOnce.trans growth.fromOnce).reports
  | round _ ih =>
    cases tidy with
    | loop condition body =>
      obtain ⟨first, once, retested, twice, parts, rfl⟩ := run_loop_ok ran
      have growth := parts.growth
        (fun ran => condition.grows_nil (condition.ran (by simp) ran).grows)
        (fun ran => body.grows_nil (body.ran (by simp) ran).grows)
      have tested := condition.ran (by simp) parts.tested
      have firstRegular := growth.toFirst.regular regular (tested.balanced regular.balanced)
      exact (ih body (m := m.resume first) firstRegular ((growth.toFirst.names regular).trans scope)
        parts.rounded).lift (.round parts.tested) growth.fromOnce.reports

end Code

/-! ### The variable that is checked -/

/-- A step that checks an identifier does so to the variable that the identifier stands for, and reports the use
of the variable if it is moved. -/
theorem Step.Checks.access {s : Step} {o : Occurrence} (checks : s.Checks o) {m after : Machine} {j : Nat}
    (slot : position m.ledger.names o.name = some j) (ran : s.run ctx m = .ok after) :
    ∃ access : Access, s.effect ctx m.ledger.outline = access.on j ∧
      (access ≠ .replace → m.ledger.Shows IsMoved j → after.ledger.Blames) := by
  have slotOf_eq {e : Expr} (start : e.root? = some (o.info, o.name)) : slotOf m.ledger.outline e = some j := by
    rw [slotOf, start]
    exact slot
  have known {e : Expr} {p : Place} (start : e.root? = some (o.info, o.name))
      (reached : ctx.placeIn m.ledger.scopes e = .ok p) :
      ∃ id, slotIn m.ledger.env j = some id ∧ p.root = .var id := by
    rcases place_start reached with ⟨noRoot, -⟩ | ⟨_, -, noSlot, -⟩ |
      ⟨_, _, i, id, -, found, inScope, -, bound⟩
    · cases noRoot.symm.trans start
    · cases noSlot.symm.trans (slotOf_eq start)
    · obtain rfl := Option.some.inj (found.symm.trans (slotOf_eq start))
      exact ⟨id, inScope, bound⟩
  cases s with
  | useName info name use =>
    obtain ⟨rfl, rfl⟩ := checks
    obtain ⟨origins, l, done, rfl⟩ := Machine.yield_ok.mp ran
    refine ⟨_, by rw [effect]; exact congrArg (effectAt · _) slot, fun _ shows => ?_⟩
    rcases lookup?_slot m.ledger o.name with ⟨noSlot, -⟩ | ⟨i, id, found, inScope, looked⟩
    · cases noSlot.symm.trans slot
    · obtain rfl := Option.some.inj (found.symm.trans slot)
      exact Context.useName_blames looked ((Ledger.shows_iff inScope).mp shows) done
  | usePlace e use =>
    obtain ⟨origins, l, done, rfl⟩ := Machine.yield_ok.mp ran
    obtain ⟨p, _, located, done⟩ := Own.run_bind_ok.mp done
    obtain ⟨reached, rfl⟩ := place_ok located
    obtain ⟨id, inScope, root⟩ := known checks reached
    refine ⟨_, by rw [effect]; exact congrArg (effectAt · _) (slotOf_eq checks), fun _ shows => ?_⟩
    exact Context.usePlace_blames root ((Ledger.shows_iff inScope).mp shows) done
  | borrowPlace operand mutable site =>
    obtain ⟨origins, l, done, rfl⟩ := Machine.yield_ok.mp ran
    obtain ⟨p, _, located, done⟩ := Own.run_bind_ok.mp done
    obtain ⟨reached, rfl⟩ := place_ok located
    obtain ⟨id, inScope, root⟩ := known checks reached
    have slot : borrowSlot m.ledger.outline operand = some j := by
      rw [borrowSlot, if_pos (Option.isSome_of_eq_some checks), slotOf_eq checks]
    refine ⟨.use, by rw [effect, slot]; rfl, fun _ shows => ?_⟩
    simp only [root] at done
    exact Context.borrowPlace_blames ((Ledger.shows_iff inScope).mp shows) done
  | write target id =>
    obtain ⟨l, done, rfl⟩ := Machine.perform_ok.mp ran
    obtain ⟨origins, _, carried, done⟩ := Own.run_bind_ok.mp done
    obtain rfl := carried_pure_ok carried
    obtain ⟨p, _, located, done⟩ := Own.run_bind_ok.mp done
    obtain ⟨reached, rfl⟩ := place_ok located
    obtain ⟨id, inScope, root⟩ := known checks reached
    refine ⟨_, by rw [effect]; exact congrArg (effectAt · _) (slotOf_eq checks), fun part shows => ?_⟩
    simp only [root] at done
    exact Context.write_blames (Context.throughRef_eq reached) part ((Ledger.shows_iff inScope).mp shows) done
  | value | nip | union | collect | typed | carried | locate | lend | gather | returned | keep | keepFound
  | bind | bindLate | param | escape => exact checks.elim

/-! ### The check of a function -/

theorem names_start (span : Span) : (({} : Machine).enter false span).ledger.names = [] := by
  simp [Ledger.names, Ledger.outline, Ledger.env, Machine.enter, Ledger.push]

/-- Each identifier in a function that is not hidden is checked when the names in scope are those in scope at the
identifier. If it stands for a variable, that is the one that is read, moved, borrowed or assigned to, and unless
it is assigned to as a whole, its use is reported if it is moved or has no value. -/
theorem check_inspects {table : Table} {position : Nat} {f : FuncDecl} {notes : Typing.Annotations}
    {signature : Signature} {result : Result} (declared : table.signature? position f = some signature)
    (checked : check table position f notes = .ok result) {o : Occurrence}
    (member : o ∈ (contextOf table signature f notes).occurrencesIn f) (seen : o.hidden = false) :
    ∃ s start stop, Code.Applies (contextOf table signature f notes) s start stop
        ((contextOf table signature f notes).functionCode f) {} ∧
      s.Checks o ∧ start.ledger.names = o.scope ∧
      ∀ j, Ownership.position o.scope o.name = some j → ∃ access : Access,
        s.effect (contextOf table signature f notes) start.ledger.outline = access.on j ∧
        (access ≠ .replace → start.ledger.Shows IsMoved j → Blames result.diagnostics) := by
  obtain ⟨l, ran, diagnostics⟩ := check_ok declared checked
  generalize contextOf table signature f notes = ctx at *
  have sorted : result.diagnostics.Perm l.bag.contents := diagnostics ▸ List.mergeSort_perm _ _
  have ran : (ctx.functionCode f).run ctx {} = .ok { ledger := l } := by
    rw [performs_functionCode ctx f, ran]
    rfl
  rw [functionCode_eq] at ran ⊢
  obtain ⟨inner, innerRan, exited⟩ := Code.run_scope_ok ran
  obtain ⟨s, checks, reaches⟩ := (checks_insideCode f o member seen).reaches
  obtain ⟨start, stop, applies, -, same, reported⟩ :=
    reaches.inspects (tidy_insideCode ctx f) (regular_start f.span) (names_start f.span) innerRan
  refine ⟨s, start, stop, .scope applies, checks, same, fun j slot => ?_⟩
  obtain ⟨access, effect, blames⟩ := checks.access (same ▸ slot) applies.ran
  refine ⟨access, effect, fun part shows => ?_⟩
  have closed : inner.exit.ledger = l := by rw [exited]
  obtain ⟨d, member, kind⟩ := (blames part shows).extend reported
  refine ⟨d, sorted.mem_iff.mpr ?_, kind⟩
  rw [← closed]
  simpa [Machine.exit] using member

/-- A function that moves its parameter, and uses it again in a guard of a `let`. -/
def guarding : FuncDecl :=
  { (default : FuncDecl) with
    name := "g"
    params := [⟨"s", ⟨default, .named "String" []⟩, false, default⟩]
    body := .mk ⟨1, default⟩ [
      .bind default (.binding { info := ⟨2, default⟩, name := "t" }) none (some (.ident ⟨3, default⟩ "s")),
      .bind default (.alternatives ⟨4, default⟩
        [.guarded ⟨5, default⟩ (.wildcard ⟨6, default⟩)
          (.binary ⟨7, default⟩ .eq (.ident ⟨8, default⟩ "s") (.string ⟨9, default⟩ default)),
        .wildcard ⟨10, default⟩]) none (some (.bool ⟨11, default⟩ true))] none }

def guardingProgram : Program := ⟨"0.1.0", "t.yaml", [.function guarding]⟩

/-- What the function is checked against once its types are known. -/
def guardingContext (signature : Signature) (typing : Typing.Result) : Context :=
  contextOf guardingProgram.collect.1 signature guarding typing.notes

def parameterMoved : Occurrence := ⟨⟨3, default⟩, "s", ["s"], false⟩

def parameterGuarded : Occurrence := ⟨⟨8, default⟩, "s", ["t", "s"], true⟩

theorem guarding_runs :
    (match Typing.check guardingProgram.collect.1 0 guarding with
      | .ok typing => match guardingProgram.collect.1.signature? 0 guarding with
        | some signature => typing.isOk &&
            (match check guardingProgram.collect.1 0 guarding typing.notes with
              | .ok result => result.diagnostics.isEmpty
              | .error _ => false) &&
            decide ((guardingContext signature typing).occurrencesIn guarding =
              [parameterMoved, parameterGuarded]) &&
            ((guardingContext signature typing).functionCode guarding).every fun s =>
              decide ¬s.Checks parameterGuarded
        | none => false
      | .error _ => false) = true := by cbv

theorem guarding_accepted : ∃ typing signature result,
    Typing.check guardingProgram.collect.1 0 guarding = .ok typing ∧ typing.isOk = true ∧
    guardingProgram.collect.1.signature? 0 guarding = some signature ∧
    check guardingProgram.collect.1 0 guarding typing.notes = .ok result ∧ result.diagnostics = [] ∧
    (guardingContext signature typing).occurrencesIn guarding = [parameterMoved, parameterGuarded] ∧
    ((guardingContext signature typing).functionCode guarding).Each fun s => ¬s.Checks parameterGuarded := by
  have accepted := guarding_runs
  split at accepted
  next typing typed =>
    split at accepted
    next signature own =>
      simp only [Bool.and_eq_true, decide_eq_true_eq] at accepted
      obtain ⟨⟨⟨isOk, quiet⟩, identifiers⟩, unchecked⟩ := accepted
      split at quiet
      next result checked =>
        exact ⟨typing, signature, result, typed, isOk, own, checked, List.isEmpty_iff.mp quiet, identifiers,
          (Code.every_iff _).mp unchecked⟩
      · cases quiet
    · cases accepted
  · cases accepted

theorem check_inspects_guarding : ∃ typing signature result,
    Typing.check guardingProgram.collect.1 0 guarding = .ok typing ∧
    guardingProgram.collect.1.signature? 0 guarding = some signature ∧
    check guardingProgram.collect.1 0 guarding typing.notes = .ok result ∧ ∃ s start stop,
      Code.Applies (guardingContext signature typing) s start stop
        ((guardingContext signature typing).functionCode guarding) {} ∧
      s.Checks parameterMoved ∧ start.ledger.names = ["s"] ∧ ∃ access : Access,
        s.effect (guardingContext signature typing) start.ledger.outline = access.on 0 ∧
        (access ≠ .replace → start.ledger.Shows IsMoved 0 → Blames result.diagnostics) := by
  obtain ⟨typing, signature, result, typed, -, own, checked, -, identifiers, -⟩ := guarding_accepted
  obtain ⟨s, start, stop, applies, checks, same, each⟩ :=
    check_inspects own checked (identifiers ▸ List.mem_cons_self : parameterMoved ∈ _) rfl
  exact ⟨typing, signature, result, typed, own, checked, s, start, stop, applies, checks, same, each 0 rfl⟩

/-- No step checks the parameter in the guard, where it has been moved; nothing is reported. -/
theorem check_overlooks_guard : guardingProgram.collect.2.length = 0 ∧
    (guarding, 0) ∈ guardingProgram.functions.zipIdx ∧ ∃ typing signature,
      Typing.check guardingProgram.collect.1 0 guarding = .ok typing ∧ typing.isOk = true ∧
      guardingProgram.collect.1.signature? 0 guarding = some signature ∧
      (check guardingProgram.collect.1 0 guarding typing.notes).map Result.diagnostics = .ok [] ∧
      ∃ o ∈ (guardingContext signature typing).occurrencesIn guarding,
        position o.scope o.name = some 0 ∧ ∀ s start stop,
          Code.Applies (guardingContext signature typing) s start stop
            ((guardingContext signature typing).functionCode guarding) {} →
          ¬s.Checks o := by
  obtain ⟨typing, signature, result, typed, isOk, own, checked, quiet, identifiers, unchecked⟩ :=
    guarding_accepted
  refine ⟨by decide +kernel, by simp [guardingProgram, Program.functions], typing, signature, typed, isOk, own, ?_,
    parameterGuarded, by simp [identifiers], by decide, fun s start stop applies => applies.each unchecked⟩
  rw [checked]
  exact congrArg _ quiet

end TreeCheck.Ownership
