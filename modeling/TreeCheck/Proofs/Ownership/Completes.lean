import TreeCheck.Proofs.Ownership.Functions
import TreeCheck.Proofs.Ownership.Progress

/-!
Ownership checks that end. The code of a function runs to its end, from one intact machine to the next, if
the types of all nodes are known and every borrowed place starts at a name or comes after a variable.
-/

namespace TreeCheck.Ownership

variable {ctx : Context} {m after : Machine}

namespace Machine

/-- A machine that refers to nothing that is not there. -/
structure Intact (m : Machine) : Prop where
  ledger : m.ledger.Intact
  values : ∀ v ∈ m.values, m.ledger.Has v
  found : m.ledger.Has m.found

def Leads (m : Machine) (run : Except Failure Machine) : Prop :=
  ∃ after, run = .ok after ∧ after.Intact ∧ m.ledger.Precedes after.ledger

theorem Leads.bind {run : Except Failure Machine} {next : Machine → Except Failure Machine}
    (first : m.Leads run)
    (rest : ∀ middle : Machine, middle.Intact → m.ledger.Precedes middle.ledger → middle.Leads (next middle)) :
    m.Leads (run >>= next) := by
  obtain ⟨middle, ran, intact, precedes⟩ := first
  obtain ⟨after, ended, done, later⟩ := rest middle intact precedes
  exact ⟨after, by rw [ran]; exact ended, done, precedes.trans later⟩

theorem Intact.at (intact : m.Intact) (i : Nat) : m.ledger.Has (m.values.getD i []) := by
  rw [List.getD_eq_getElem?_getD]
  cases here : m.values[i]? with
  | none => exact Ledger.has_nil
  | some v => exact intact.values v (List.mem_of_getElem? here)

theorem Intact.top (intact : m.Intact) : m.ledger.Has m.top := by
  unfold Machine.top
  cases values : m.values with
  | nil => exact Ledger.has_nil
  | cons v rest => exact intact.values v (values ▸ List.mem_cons_self)

theorem Intact.args (intact : m.Intact) (count : Nat) : ∀ arg ∈ m.args count, m.ledger.Has arg :=
  fun arg member => intact.values arg (List.mem_of_mem_take (List.mem_reverse.mp member))

theorem Intact.follow (intact : m.Intact) {ledger : Ledger} (next : ledger.Intact)
    (precedes : m.ledger.Precedes ledger) : Intact { m with ledger } :=
  ⟨next, fun v member => precedes.has (intact.values v member), precedes.has intact.found⟩

/-- New values in the place of the latest ones. -/
theorem Intact.replace (intact : m.Intact) {origins : List Origin} (has : m.ledger.Has origins)
    (used : Nat) : m.Leads (.ok { m with values := origins :: m.values.drop used }) :=
  ⟨_, rfl, ⟨intact.ledger, List.forall_mem_cons.mpr ⟨has, fun v member =>
    intact.values v (List.mem_of_mem_drop member)⟩, intact.found⟩, .refl _⟩

theorem Intact.perform (intact : m.Intact) {rule : Own Unit} (ends : rule.Ends m.ledger Own.anything) :
    m.Leads (m.perform rule) := by
  obtain ⟨⟨⟩, ledger, ran, next, precedes, -⟩ := ends
  exact ⟨_, perform_ok.mpr ⟨ledger, ran, rfl⟩, intact.follow next precedes, precedes⟩

theorem Intact.yield (intact : m.Intact) {rule : Own (List Origin)} (used : Nat)
    (ends : rule.Ends m.ledger fun origins after => after.Has origins) : m.Leads (m.yield used rule) := by
  obtain ⟨origins, ledger, ran, next, precedes, has⟩ := ends
  refine ⟨_, yield_ok.mpr ⟨origins, ledger, ran, rfl⟩, ?_, precedes⟩
  have follow := intact.follow next precedes
  exact ⟨next, List.forall_mem_cons.mpr ⟨has, fun v member =>
    follow.values v (List.mem_of_mem_drop member)⟩, follow.found⟩

theorem Intact.resume (intact : m.Intact) (done : after.Intact) (precedes : m.ledger.Precedes after.ledger) :
    (m.resume after).Intact := intact.follow done.ledger precedes

theorem Intact.enter (intact : m.Intact) (isTemporary : Bool) (span : Span) :
    (m.enter isTemporary span).Intact :=
  intact.follow (intact.ledger.push isTemporary span) (.of_eq rfl rfl)

theorem Intact.exit (intact : m.Intact) : m.exit.Intact :=
  intact.follow intact.ledger.pop m.ledger.precedes_pop

theorem Intact.withFlow (intact : m.Intact) {flow : Flow}
    (next : Ledger.Intact { m.ledger with flow }) : (m.withFlow flow).Intact :=
  intact.follow next (.of_eq rfl rfl)

end Machine

/-- A step fails only where it borrows a place that starts at a temporary value, before any variable is
declared. -/
theorem Step.leads (typed : ctx.Typed) (intact : m.Intact) {s : Step}
    (known : s.Rooted ∨ 0 < m.ledger.vars.length) : m.Leads (s.run ctx m) := by
  cases s with
  | value => exact intact.replace Ledger.has_nil 0
  | nip => exact intact.replace intact.top 2
  | union => exact intact.replace ((intact.at 1).union intact.top) 2
  | collect =>
    refine ⟨_, rfl, ⟨intact.ledger, fun v member => ?_, intact.found.union intact.top⟩, .refl _⟩
    exact intact.values v (List.mem_of_mem_tail member)
  | typed id =>
    exact intact.perform ((Context.typeOf_reads typed id).bind fun _ _ => .pure intact.ledger trivial)
  | carried id => exact intact.yield 1 (Context.carried_ends typed (.pure intact.ledger intact.top))
  | useName info name use => exact intact.yield 0 (Context.useName_ends intact.ledger info name use)
  | locate e =>
    exact intact.perform ((Context.place_reads typed intact.ledger e).bind fun _ _ =>
      .pure intact.ledger trivial)
  | usePlace e use =>
    exact intact.yield 0 ((Context.place_reads typed intact.ledger e).bind fun p ⟨inside, _⟩ =>
      Context.usePlace_ends typed intact.ledger inside e use)
  | borrowPlace operand mutable site =>
    exact intact.yield 0 (Context.borrowSite_ends typed intact.ledger known mutable site)
  | lend mutable site =>
    refine intact.yield 1 (.bind (lend_ends intact.ledger (fun _ none => by cases none) mutable site) ?_)
    exact fun _ _ next precedes has => .pure next ((precedes.has intact.top).union has)
  | write target id =>
    refine intact.perform (.bind (Context.carried_ends typed (.pure intact.ledger intact.top)) ?_)
    exact fun _ _ next _ has => Context.writeSite_ends typed next target has
  | gather count => exact intact.replace ((intact.at count).foldl (intact.args count)) (count + 1)
  | returned signature count =>
    exact intact.replace (Context.has_returned signature (intact.at count) (intact.args count)) (count + 1)
  | keep | keepFound => exact intact.perform (keep_ends intact.ledger _)
  | bind bindings =>
    refine intact.perform (Context.bindAll_ends typed intact.ledger (fun given here => ?_) bindings)
    cases here
    exact intact.top
  | bindLate bindings => exact intact.perform (Context.bindAll_ends typed intact.ledger
      (fun _ none => by cases none) bindings)
  | param name type mutable span =>
    exact intact.perform (Context.declareParam_ends intact.ledger name type mutable span)
  | escape span => exact intact.perform (Context.checkEscape_ends intact.ledger intact.top)

namespace Code

variable {anchored : Prop}

/-- Code that ends wherever it starts. -/
def Completes (ctx : Context) (anchored : Prop) (c : Code) : Prop :=
  ∀ ⦃m : Machine⦄, m.Intact → (anchored → 0 < m.ledger.vars.length) → m.Leads (c.run ctx m)

/-- The flows at the ends of all arms are those of the ledger after the last one. -/
theorem runArms_leads {arms : List Code} (each : ∀ arm ∈ arms, arm.Completes ctx anchored) {before : Flow}
    (intact : m.Intact) (start : anchored → 0 < m.ledger.vars.length)
    (follows : m.ledger.Follows before) :
    ∃ last ends, runArms ctx arms before m = .ok (last, ends) ∧ last.Intact ∧
      m.ledger.Precedes last.ledger ∧ ∀ f ∈ ends, last.ledger.Follows f := by
  induction arms generalizing m with
  | nil => exact ⟨m, [], rfl, intact, .refl _, List.forall_mem_nil _⟩
  | cons arm rest ih =>
    obtain ⟨first, others⟩ := List.forall_mem_cons.mp each
    obtain ⟨after, ran, done, precedes⟩ := first (intact.withFlow (intact.ledger.restore follows)) start
    have precedes : m.ledger.Precedes after.ledger := precedes.since rfl rfl
    have next : Machine.Intact { after with values := m.values } :=
      ⟨done.ledger, fun v member => precedes.has (intact.values v member), done.found⟩
    obtain ⟨last, ends, finished, final, later, flows⟩ := ih others next
      (fun anchor => precedes.inside (start anchor)) (precedes.follows follows)
    refine ⟨last, after.ledger.flow :: ends, ?_, final, precedes.trans later,
      List.forall_mem_cons.mpr ⟨later.follows done.ledger.flow, flows⟩⟩
    rw [runArms, ran, ok_bind, finished]
    rfl

theorem choice_completes {arms : List Code} (each : ∀ arm ∈ arms, arm.Completes ctx anchored) :
    (Code.choice arms).Completes ctx anchored := by
  intro m intact start
  have emptied : Machine.Intact { m with found := [] } := ⟨intact.ledger, intact.values, Ledger.has_nil⟩
  obtain ⟨last, ends, ran, done, precedes, flows⟩ := runArms_leads each emptied start intact.ledger.flow
  have precedes : m.ledger.Precedes last.ledger := precedes.since rfl rfl
  have merged := done.withFlow (done.ledger.merge flows)
  refine ⟨m.gathered (last.withFlow (last.ledger.flow.merge ends)), by rw [run, ran]; rfl, ⟨merged.ledger,
    List.forall_mem_cons.mpr ⟨merged.found, fun v member => precedes.has (intact.values v member)⟩,
    precedes.has intact.found⟩, precedes.trans (.of_eq rfl rfl)⟩

theorem loop_completes {test round : Code} (condition : test.Completes ctx anchored)
    (body : round.Completes ctx anchored) : (Code.loop test round).Completes ctx anchored := by
  intro m intact start
  have resumed {after : Machine} (done : after.Intact) (precedes : m.ledger.Precedes after.ledger) :
      (m.resume after).Intact ∧ (anchored → 0 < (m.resume after).ledger.vars.length) :=
    ⟨intact.resume done precedes, fun anchor => precedes.inside (start anchor)⟩
  obtain ⟨first, firstRan, firstDone, toFirst⟩ := condition intact start
  obtain ⟨firstIntact, firstStart⟩ := resumed firstDone toFirst
  obtain ⟨once, onceRan, onceDone, toOnce⟩ := body firstIntact firstStart
  have againDone : (first.again once).Intact := by
    refine onceDone.withFlow ?_
    split
    · exact onceDone.ledger.restore (toOnce.follows firstDone.ledger.flow)
    · exact onceDone.ledger
  have toAgain : m.ledger.Precedes (first.again once).ledger :=
    (toFirst.trans toOnce).trans (.of_eq rfl rfl)
  obtain ⟨againIntact, againStart⟩ := resumed againDone toAgain
  obtain ⟨retested, retestedRan, retestedDone, toRetested⟩ := condition againIntact againStart
  obtain ⟨retestedIntact, retestedStart⟩ := resumed retestedDone (toAgain.trans toRetested)
  obtain ⟨twice, twiceRan, twiceDone, toTwice⟩ := body retestedIntact retestedStart
  have toTwice : once.ledger.Precedes twice.ledger := (toRetested.trans toTwice).since rfl rfl
  have merged : Ledger.Intact { twice.ledger with
      flow := twice.ledger.flow.merge [first.ledger.flow, once.ledger.flow, twice.ledger.flow] } := by
    refine twiceDone.ledger.merge fun p member => ?_
    simp only [List.mem_cons, List.not_mem_nil, or_false] at member
    rcases member with rfl | rfl | rfl
    · exact (toOnce.trans toTwice).follows firstDone.ledger.flow
    · exact toTwice.follows onceDone.ledger.flow
    · exact twiceDone.ledger.flow
  have loopedDone : (m.looped first once twice).Intact := by
    refine twiceDone.withFlow ?_
    split
    · exact merged.withFlow (merged.flow.withDiverged true) merged.full
    · exact merged
  have toLooped : m.ledger.Precedes (m.looped first once twice).ledger :=
    (toFirst.trans toOnce).trans (toTwice.trans (.of_eq rfl rfl))
  refine ⟨m.resume (m.looped first once twice), ?_, intact.resume loopedDone toLooped, toLooped⟩
  rw [run, firstRan, ok_bind, onceRan, ok_bind, retestedRan, ok_bind, twiceRan]
  rfl

/-- Code of which every borrow starts at a name ends, as does code that starts after a variable is
declared. -/
theorem Each.completes {c : Code} (typed : ctx.Typed) (each : c.Each fun s => s.Rooted ∨ anchored) :
    c.Completes ctx anchored := by
  induction each with
  | skip => exact fun m intact _ => ⟨m, rfl, intact, .refl _⟩
  | step holds => exact fun m intact start => Step.leads typed intact (holds.imp_right start)
  | seq _ _ first next =>
    intro m intact start
    refine (first intact start).bind fun middle done precedes => next done fun anchor => ?_
    exact precedes.inside (start anchor)
  | discard _ ih =>
    intro m intact start
    obtain ⟨after, ran, done, precedes⟩ := ih intact start
    exact ⟨m.resume after, by rw [run, ran]; rfl, intact.resume done precedes, precedes⟩
  | scope _ ih =>
    intro m intact start
    obtain ⟨after, ran, done, precedes⟩ := ih (intact.enter _ _) start
    exact ⟨after.exit, by rw [run, ran]; rfl, done.exit,
      (precedes.trans (Ledger.precedes_pop _)).since rfl rfl⟩
  | choice _ ih => exact choice_completes ih
  | loop _ _ test round => exact loop_completes test round
  | leave =>
    refine fun m intact _ => ⟨_, rfl, intact.withFlow ?_, .of_eq rfl rfl⟩
    exact intact.ledger.withFlow (intact.ledger.flow.withDiverged true) intact.ledger.full

end Code

theorem Ledger.Anchored.declared {l : Ledger} (anchored : l.Anchored) (intact : l.Intact) :
    0 < l.vars.length := by
  obtain ⟨x, member, first⟩ := List.mem_map.mp (mem_of_slotIn anchored)
  obtain ⟨s, opened, named⟩ := List.mem_flatMap.mp member
  exact first ▸ intact.names s opened x named

namespace Context

theorem insideCode_leads (typed : ctx.Typed) {f : FuncDecl} (known : ctx.RootsKnown f) :
    (({} : Machine).enter false f.span).Leads
      ((ctx.insideCode f).run ctx (({} : Machine).enter false f.span)) := by
  have intact : (({} : Machine).enter false f.span).Intact := by
    refine Machine.Intact.enter ⟨⟨⟨?_, ?_, ?_⟩, ?_, ?_, ?_⟩, ?_, Ledger.has_nil⟩ false f.span <;>
      simp [Flow.Shared]
  rcases known with parameter | rooted
  · have params := (rooted_paramsCode ctx f).imp fun s holds => (Or.inl holds : s.Rooted ∨ False)
    obtain ⟨middle, ran, done, precedes⟩ := params.completes typed intact nofun
    have anchored := anchors_paramsCode parameter f (regular_start f.span) rfl (.inl ran)
    have body := (tidy_bodyCode ctx f).each fun s => (Or.inr trivial : s.Rooted ∨ True)
    obtain ⟨after, ended, final, later⟩ := body.completes typed done fun _ => anchored.declared done.ledger
    refine ⟨after, ?_, final, precedes.trans later⟩
    rw [insideCode, Code.run, ran, ok_bind, ended]
  · rw [functionCode_eq] at rooted
    cases rooted with
    | scope inside =>
      have each := inside.imp fun s holds => (Or.inl holds : s.Rooted ∨ False)
      exact each.completes typed intact nofun

end Context

theorem check_completes {table : Table} {position : Nat} {f : FuncDecl} {notes : Typing.Annotations}
    (ready : ∀ signature, table.signature? position f = some signature →
      (contextOf table signature f notes).Typed ∧ (contextOf table signature f notes).RootsKnown f) :
    ∃ result, check table position f notes = .ok result := by
  unfold check
  cases declared : table.signature? position f with
  | none => exact ⟨_, rfl⟩
  | some signature =>
    obtain ⟨typed, known⟩ := ready signature declared
    obtain ⟨after, ran, -⟩ := Context.insideCode_leads typed known
    have whole := performs_functionCode (contextOf table signature f notes) f {}
    rw [functionCode_eq, Code.run, ← Context.insideCode, ran] at whole
    obtain ⟨⟨⟨⟩, l⟩, done, -⟩ := bind_ok.mp whole.symm
    exact ⟨_, by rw [contextOf] at done; dsimp only; rw [done]; rfl⟩

end TreeCheck.Ownership
