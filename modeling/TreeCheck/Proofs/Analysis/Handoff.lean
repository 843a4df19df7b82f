import TreeCheck.Bundle
import TreeCheck.Proofs.Analysis.Completion
import TreeCheck.Proofs.Analysis.Transparency
import TreeCheck.Proofs.Match.Verdicts
import TreeCheck.Proofs.Syntax.Documents

/-!
What is handed on to code generation. A run without a cache that is not stopped and reports nothing has checked
every function to the end; so there is a bundle, and it has for every match and for every binding that may fail a
decision that covers all values and reaches all arms, over types without variables and, if all declared types have
names, without faults.
-/

namespace TreeCheck

namespace Match.Scope

variable {scope : Scope} {result : Result} {nodes : List TreeNode}

/-- The node whose number a decision is filed under, and what is decided there. -/
def verdict (scope : Scope) : TreeNode → Except Failure (Decision × List Diagnostic)
  | .expr (.select info scrutinee arms) => scope.checkMatch info scrutinee arms
  | .pattern p => scope.checkBinding p
  | _ => .error (.crash "no decision")

theorem checkNode_owner (nested : Nested nodes) {node : TreeNode} (member : node ∈ nodes) {id : Nat}
    {d : Decision} {ds : List Diagnostic} (checked : scope.checkNode node = .ok (some (id, d, ds))) :
    ∃ owner ∈ nodes, owner.id? = some id ∧ scope.verdict owner = .ok (d, ds) := by
  unfold checkNode at checked
  split at checked
  next info scrutinee arms =>
    simp only [bind, Except.bind] at checked
    split at checked
    · cases checked
    next decided =>
      cases checked
      exact ⟨_, member, rfl, decided⟩
  next span pattern type value =>
    split at checked
    · cases checked
    · simp only [bind, Except.bind] at checked
      split at checked
      · cases checked
      next decided =>
        cases checked
        have below : pattern.nodes ⊆ (Stmt.bind span pattern type (some value)).nodes :=
          List.subset_cons_of_subset _ (List.subset_append_left _ _)
        exact ⟨.pattern pattern, nested _ member (below pattern.mem_nodes), rfl, decided⟩
  · cases checked

/-- Under the number of a node stands what is decided there. -/
theorem checkNodes_get? {start stop : Nat} (nested : Nested nodes) (counted : Counted start nodes stop)
    (done : scope.checkNodes nodes {} = .ok result) {node : TreeNode} (member : node ∈ nodes) {id : Nat}
    {d : Decision} {ds : List Diagnostic} (checked : scope.checkNode node = .ok (some (id, d, ds))) :
    result.decisions.get? id = some d ∧ ds ⊆ result.diagnostics := by
  obtain ⟨present, reported⟩ := (checkNodes_files done node member).filed id d ds checked
  obtain ⟨d', found⟩ := Option.isSome_iff_exists.mp present
  refine ⟨?_, reported⟩
  rcases checkNodes_filed done _ (NodeTable.get?_mem found) with before | ⟨other, inside, ds', filed⟩
  · cases before
  · obtain ⟨owner, held, own, decided⟩ := checkNode_owner nested member checked
    obtain ⟨owner', held', own', decided'⟩ := checkNode_owner nested inside filed
    obtain rfl := counted.unique held held' own own'
    cases decided.symm.trans decided'
    exact found

section

variable {start stop : Nat} (nested : Nested nodes) (counted : Counted start nodes stop)
  (done : scope.checkNodes nodes {} = .ok result) (quiet : result.diagnostics = [])

include nested counted done quiet

theorem select_filed {info : NodeInfo} {scrutinee : Expr} {arms : List MatchArm}
    (member : .expr (.select info scrutinee arms) ∈ nodes) :
    ∃ d, result.decisions.get? info.id = some d ∧
      compile scope.compiler (scope.notes.typeOf scrutinee.id)
        (arms.map fun a => { pattern := a.pattern, guarded := a.guard.isSome }) = .ok d ∧
      d.isExhaustive = true ∧ d.unreachable = [] := by
  obtain ⟨out, checked⟩ := (checkNodes_files done _ member).checked
  cases decided : scope.checkMatch info scrutinee arms with
  | error failure => simp [checkNode, decided, bind, Except.bind] at checked
  | ok verdict =>
    obtain ⟨d, ds⟩ := verdict
    have found : scope.checkNode (.expr (.select info scrutinee arms)) = .ok (some (info.id, d, ds)) := by
      simp [checkNode, decided, bind, Except.bind, pure, Except.pure]
    obtain ⟨filed, reported⟩ := checkNodes_get? nested counted done member found
    rw [quiet, List.subset_nil] at reported
    exact ⟨d, filed, checkMatch_quiet (reported ▸ decided)⟩

theorem bind_filed {span : Span} {pattern : Pattern} {type : Option WrittenType} {value : Expr}
    (member : .stmt (.bind span pattern type (some value)) ∈ nodes) (fallible : pattern.irrefutable = false) :
    ∃ d, result.decisions.get? pattern.id = some d ∧
      compile scope.compiler (scope.notes.typeOf pattern.id) [{ pattern }] = .ok d ∧
      d.isExhaustive = true ∧ d.unreachable = [] := by
  obtain ⟨out, checked⟩ := (checkNodes_files done _ member).checked
  cases decided : scope.checkBinding pattern with
  | error failure => simp [checkNode, fallible, decided, bind, Except.bind] at checked
  | ok verdict =>
    obtain ⟨d, ds⟩ := verdict
    have found : scope.checkNode (.stmt (.bind span pattern type (some value))) =
        .ok (some (pattern.id, d, ds)) := by
      simp [checkNode, fallible, decided, bind, Except.bind, pure, Except.pure]
    obtain ⟨filed, reported⟩ := checkNodes_get? nested counted done member found
    rw [quiet, List.subset_nil] at reported
    exact ⟨d, filed, checkBinding_quiet (reported ▸ decided)⟩

end

end Match.Scope

/-- What is handed on about a function is complete: its types are closed, and each of its matches and each of its
bindings that may fail has under its own number the decision that its arms compile to, and that is complete. -/
structure Bundle.Function.Complete (ctx : Match.Context) (f : FuncDecl) (entry : Bundle.Function) : Prop where
  name : entry.name = f.qualifiedName
  types : ∀ row ∈ entry.types, row.2.Closed
  selects : ∀ info scrutinee arms, .expr (.select info scrutinee arms) ∈ f.body.nodes →
    ∃ type d, entry.types.get? scrutinee.id = some type ∧ entry.decisions.get? info.id = some d ∧
      Match.compile ctx type (arms.map fun a => { pattern := a.pattern, guarded := a.guard.isSome }) = .ok d ∧
      d.Complete
  bindings : ∀ span pattern type value, .stmt (.bind span pattern type (some value)) ∈ f.body.nodes →
    pattern.irrefutable = false →
    ∃ type d, entry.types.get? pattern.id = some type ∧ entry.decisions.get? pattern.id = some d ∧
      Match.compile ctx type [{ pattern }] = .ok d ∧ d.Complete

namespace Analysis

/-! ### One function -/

/-- An analysis that found nothing and was not stopped has gone through all checks. -/
theorem analyzeFunction_clean {table : Table} {position : Nat} {f : FuncDecl} {options : Match.Options}
    (goesOn : (analyzeFunction (some table) position f options).fatal = none)
    (clean : (analyzeFunction (some table) position f options).report.diagnostics = []) :
    ∃ typing ownership matching, Typing.check table position f = .ok typing ∧ typing.diagnostics = [] ∧
      Match.check table.decls options f typing.notes = .ok matching ∧ matching.diagnostics = [] ∧
      (analyzeFunction (some table) position f options).report =
        { name := f.qualifiedName, types := some typing.notes, ownership := some ownership
          decisions := some matching } := by
  have halted {r : FunctionReport} {failure : Failure} (stopped : (r.halt f failure).fatal = none) :
      (r.halt f failure).report.diagnostics ≠ [] := by
    cases failure with
    | defect => cases stopped
    | crash reason => exact List.append_ne_nil_of_right_ne_nil _ (List.cons_ne_nil _ _)
  unfold analyzeFunction at goesOn clean ⊢
  rw [checkTypes_eq] at goesOn clean ⊢
  cases typed : Typing.check table position f with
  | error failure =>
    simp only [typed, Except.map] at goesOn clean
    exact absurd clean (halted goesOn)
  | ok typing =>
    simp only [typed, Except.map] at goesOn clean ⊢
    cases accepted : typing.diagnostics with
    | cons d ds => simp [Typing.Result.isOk, accepted] at clean
    | nil =>
      simp only [Typing.Result.isOk, accepted, List.isEmpty_nil, Bool.not_true, Bool.false_eq_true, if_false,
        List.nil_append] at goesOn clean ⊢
      cases owned : Ownership.check table position f typing.notes with
      | error failure =>
        simp only [owned] at goesOn clean
        exact absurd clean (halted goesOn)
      | ok ownership =>
        simp only [owned] at goesOn clean ⊢
        cases matched : Match.check table.decls options f typing.notes with
        | error failure =>
          simp only [matched] at goesOn clean
          exact absurd clean (halted goesOn)
        | ok matching =>
          simp only [matched] at clean ⊢
          obtain ⟨borrows, decisions⟩ := List.append_eq_nil_iff.mp clean
          exact ⟨typing, ownership, matching, rfl, accepted, matched, decisions, by simp [borrows, decisions]⟩

/-! ### A run without a cache -/

variable {p : Program} {options : Options}

/-- What a function comes to in a run without a cache. -/
def Task.report (t : Task) : Option FunctionReport := some { t.outcome.report with fingerprint := t.key }

/-- Functions one after the other, without a cache and without a stop. -/
theorem foldl_next_none {entries : List (FuncDecl × Nat)} : ∀ {before : Progress}, before.cache = none →
    (entries.foldl (Progress.next p.collect.1 (environment p) options) before).fatal = none →
    before.fatal = none ∧
      (entries.foldl (Progress.next p.collect.1 (environment p) options) before).functions =
        before.functions ++ entries.map (fun entry => Task.report ⟨p, entry.2, entry.1, options.matching⟩) ∧
      ∀ entry ∈ entries, (Task.mk p entry.2 entry.1 options.matching).outcome.fatal = none := by
  induction entries with
  | nil =>
    intro before _ free
    exact ⟨free, by simp, List.forall_mem_nil _⟩
  | cons entry rest ih =>
    intro before uncached free
    obtain ⟨log, alone⟩ := (Task.mk p entry.2 entry.1 options.matching).answer_none options
    have answered : analyzeCached p.collect.1 (environment p) options none entry.2 entry.1 = _ := alone
    rw [List.foldl_cons] at free
    have unstopped := ih (by
      simp only [Progress.next]
      split
      · exact uncached
      · rw [uncached, answered]) free
    rw [List.foldl_cons]
    cases stopped : before.fatal with
    | some fatal => simp [Progress.next, stopped] at unstopped
    | none =>
      simp only [Progress.next, stopped, uncached, answered, Option.isSome_none, Bool.false_eq_true,
        if_false] at unstopped ⊢
      obtain ⟨goesOn, functions, others⟩ := unstopped
      refine ⟨trivial, ?_, List.forall_mem_cons.mpr ⟨goesOn, others⟩⟩
      rw [functions, List.append_assoc]
      rfl

theorem foldl_addAll_eq_nil {lists : List (List Diagnostic)} : ∀ {bag : Bag},
    (lists.foldl Bag.addAll bag).contents = [] ↔ bag.contents = [] ∧ ∀ ds ∈ lists, ds = [] := by
  induction lists with
  | nil => simp
  | cons ds rest ih =>
    intro bag
    rw [List.foldl_cons, ih, Bag.addAll_eq_nil, List.forall_mem_cons, and_assoc]

/-- A clean run without a cache: the declarations are clean, and so is what every function comes to. -/
theorem run_clean (finished : (run p options none).fatal = none) (clean : (run p options none).report.isOk = true) :
    p.collect.2 = [] ∧ (run p options none).report.functions = (tasks p options).map Task.report ∧
      ∀ t ∈ tasks p options, t.outcome.fatal = none ∧ t.outcome.report.diagnostics = [] := by
  rw [run_fatal] at finished
  obtain ⟨-, functions, goesOn⟩ := foldl_next_none rfl finished
  have reported : (Analysis.finished p options none).functions = (tasks p options).map Task.report := by
    rw [tasks, List.map_map]
    exact functions
  have quiet := List.isEmpty_iff.mp clean
  rw [run_diagnostics, Bag.items_eq_nil, foldl_addAll_eq_nil, Bag.addAll_eq_nil, reported, List.map_map] at quiet
  refine ⟨quiet.1.2, reported, fun t member => ⟨?_, quiet.2 _ (List.mem_map_of_mem member)⟩⟩
  obtain ⟨entry, inside, rfl⟩ := List.mem_map.mp member
  exact goesOn entry inside

/-! ### The bundle -/

theorem mapM_ok_filterMap {α β ε : Type} {f : α → Except ε β} {g : α → Option β} {list : List α}
    (each : ∀ a ∈ list, ∃ b, g a = some b ∧ f a = .ok b) : list.mapM f = .ok (list.filterMap g) := by
  induction list with
  | nil => rfl
  | cons a rest ih =>
    obtain ⟨⟨b, kept, done⟩, others⟩ := List.forall_mem_cons.mp each
    rw [List.mapM_cons, done, ih others, List.filterMap_cons_some kept]
    rfl

theorem forall₂_filterMap {α β : Type} {R : α → β → Prop} {g : α → Option β} {list : List α}
    (each : ∀ a ∈ list, ∃ b, g a = some b ∧ R a b) : List.Forall₂ R list (list.filterMap g) := by
  induction list with
  | nil => exact .nil
  | cons a rest ih =>
    obtain ⟨⟨b, kept, related⟩, others⟩ := List.forall_mem_cons.mp each
    rw [List.filterMap_cons_some kept]
    exact .cons related (ih others)

theorem ofReport_eq {r : Report}
    (whole : ∀ report ∈ r.functions, ∃ entry, report.bind Bundle.Function.ofReport? = some entry) :
    Bundle.ofReport r = .ok
      { language := r.language, functions := r.functions.filterMap fun report =>
          report.bind Bundle.Function.ofReport? } := by
  rw [Bundle.ofReport, mapM_ok_filterMap (g := fun report => report.bind Bundle.Function.ofReport?)]
  · rfl
  · intro report member
    obtain ⟨entry, kept⟩ := whole report member
    exact ⟨entry, kept, by rw [kept]⟩

/-- A task whose analysis is clean has an entry in the bundle, and it is complete. -/
theorem Task.complete (decoded : p.Decoded) (named : p.Named) (collected : p.collect.2 = []) {f : FuncDecl}
    {position : Nat} (member : (f, position) ∈ p.functions.zipIdx) {options : Match.Options}
    (goesOn : (Task.mk p position f options).outcome.fatal = none)
    (clean : (Task.mk p position f options).outcome.report.diagnostics = []) :
    ∃ entry, (Task.mk p position f options).report.bind Bundle.Function.ofReport? = some entry ∧
      entry.Complete ⟨p.collect.1.decls, options⟩ f := by
  obtain ⟨typing, ownership, matching, checked, accepted, matched, quiet, report⟩ :=
    analyzeFunction_clean goesOn clean
  obtain ⟨s, same, proper, covered, closed⟩ := Typing.check_proper collected named member checked accepted
  have regular := p.collect_regular decoded
  have declared := (p.collect_proper named collected).decls
  obtain ⟨start, stop, counted⟩ : ∃ start stop, Counted start f.body.nodes stop := by
    obtain ⟨input, read, -, rfl⟩ := decoded
    exact Program.number_counted (List.fst_mem_of_mem_zipIdx member)
  -- a node with a number has a type that is proper over no variables
  have typed (node : TreeNode) (inside : node ∈ f.body.nodes) (id : Nat) (own : node.id? = some id) :
      ∃ type, typing.notes.types.get? id = some type ∧ typing.notes.typeOf id = type ∧ type.Proper [] := by
    obtain ⟨type, found⟩ := Option.isSome_iff_exists.mp (covered node inside id own)
    have entry := NodeTable.get?_mem found
    rw [same]
    exact ⟨type, found, by simp [Typing.Annotations.typeOf, found],
      Ty.Proper.shut (proper.types _ entry) (closed _ entry)⟩
  refine ⟨{ name := f.qualifiedName, types := typing.notes.types, coercions := typing.notes.coercions
            moves := ownership.moves, borrows := ownership.borrows, decisions := matching.decisions }, ?_, ?_⟩
  · simp only [Task.report, Task.outcome, report]
    rfl
  · refine ⟨rfl, fun row inside => ?_, fun info scrutinee arms inside => ?_,
      fun span pattern type value inside fallible => ?_⟩
    · rw [same] at inside
      exact (Ty.Proper.shut (proper.types row inside) (closed row inside)).closed
    · have below : .expr scrutinee ∈ (Expr.select info scrutinee arms).nodes :=
        List.mem_cons_of_mem _ (List.mem_append_left _ scrutinee.mem_nodes)
      obtain ⟨type, found, own, known⟩ := typed _ (f.body.nodes_nested _ inside below) _ rfl
      obtain ⟨d, filed, compiled, exhaustive, reached⟩ :=
        Match.Scope.select_filed f.body.nodes_nested counted matched quiet inside
      rw [own] at compiled
      exact ⟨type, d, found, filed, compiled,
        Match.Decision.complete regular declared known compiled exhaustive reached⟩
    · have below : .pattern pattern ∈ (Stmt.bind span pattern type (some value)).nodes :=
        List.mem_cons_of_mem _ (List.mem_append_left _ pattern.mem_nodes)
      obtain ⟨type, found, own, known⟩ := typed _ (f.body.nodes_nested _ inside below) _ rfl
      obtain ⟨d, filed, compiled, exhaustive, reached⟩ :=
        Match.Scope.bind_filed f.body.nodes_nested counted matched quiet inside fallible
      rw [own] at compiled
      exact ⟨type, d, found, filed, compiled,
        Match.Decision.complete regular declared known compiled exhaustive reached⟩

/-- A run without a cache that is not stopped and reports nothing can be handed on: the bundle has a complete
entry for each function, in source order. -/
theorem run_hands_on (decoded : p.Decoded) (named : p.Named) (finished : (run p options none).fatal = none)
    (clean : (run p options none).report.isOk = true) :
    ∃ b, Bundle.ofReport (run p options none).report = .ok b ∧
      List.Forall₂ (Bundle.Function.Complete ⟨p.collect.1.decls, options.matching⟩) p.functions b.functions := by
  obtain ⟨collected, functions, outcomes⟩ := run_clean finished clean
  have each (entry : FuncDecl × Nat) (member : entry ∈ p.functions.zipIdx) :=
    Task.complete decoded named collected member (outcomes _ (List.mem_map_of_mem member)).1
      (outcomes _ (List.mem_map_of_mem member)).2
  refine ⟨_, ofReport_eq fun report member => ?_, ?_⟩
  · rw [functions, tasks, List.map_map] at member
    obtain ⟨entry, inside, rfl⟩ := List.mem_map.mp member
    obtain ⟨kept, some, -⟩ := each entry inside
    exact ⟨kept, some⟩
  · have related := forall₂_filterMap each
    have listed : p.functions = p.functions.zipIdx.map Prod.fst := by simp
    rw [functions, tasks, List.map_map, List.filterMap_map]
    nth_rewrite 1 [listed]
    exact List.forall₂_map_left_iff.mpr related

/-! ### Documents with one function -/

section

open Syntax

theorem run_single_clean (p : Program) {f : FuncDecl} (only : p.functions = [f]) (sound : p.collect.2 = [])
    (clean : (Task.mk p 0 f {}).found? = some []) :
    (run p {} none).fatal = none ∧ (run p {} none).report.isOk = true := by
  obtain ⟨⟨goesOn, -⟩, quiet⟩ := Task.found?_eq_some.mp clean
  obtain ⟨log, alone⟩ := (Task.mk p 0 f {}).answer_none {}
  obtain ⟨fatal, -, diagnostics⟩ := run_single p only sound none
  rw [alone] at fatal diagnostics
  refine ⟨fatal.trans goesOn, ?_⟩
  rw [Report.isOk, diagnostics, shown_some, quiet, List.isEmpty_iff]
  exact Bag.items_eq_nil.mpr rfl

/-- A function that matches on both truth values. -/
def negating : Syntax.Input :=
  let arm (pattern body : String) := mappingNode [("pattern", truthNode pattern), ("body", truthNode body)]
  documentOf [mappingNode [("fn", textNode "f"), ("params", listNode [mappingNode [("x", textNode "bool")]]),
    ("returns", textNode "bool"),
    ("value", mappingNode [("match", textNode "x"), ("arms", listNode [arm "true" "false", arm "false" "true"])])]]

def negation : FuncDecl :=
  { (default : FuncDecl) with
    name := "f"
    params := [⟨"x", ⟨origin, .named "bool" []⟩, false, origin⟩]
    result := some ⟨origin, .named "bool" []⟩
    body := .mk ⟨0, origin⟩ [] (some (.select ⟨0, origin⟩ (.ident ⟨0, origin⟩ "x")
      [.mk origin (.literal ⟨0, origin⟩ (.bool true)) none (.bool ⟨0, origin⟩ false),
        .mk origin (.literal ⟨0, origin⟩ (.bool false)) none (.bool ⟨0, origin⟩ true)]))
    span := origin }

theorem readProgram_negating : Syntax.readProgram negating = .ok ⟨"", "t.yaml", [.function negation]⟩ := by
  with_unfolding_all rfl

theorem run_hands_on_negation : ∃ p : Program, p.Decoded ∧ p.Named ∧ (run p {} none).fatal = none ∧
    (run p {} none).report.isOk = true ∧ ∃ b, Bundle.ofReport (run p {} none).report = .ok b ∧
      List.Forall₂ (Bundle.Function.Complete ⟨p.collect.1.decls, {}⟩) p.functions b.functions := by
  let p : Program := (Program.number ⟨"", "t.yaml", [.function negation]⟩).1
  have decoded : p.Decoded := ⟨negating, _, readProgram_negating, rfl⟩
  have named : p.Named := List.forall_mem_singleton.mpr nofun
  have sound : p.collect.2 = [] := List.eq_nil_of_length_eq_zero (by decide +kernel)
  have clean : (Task.mk p 0 { negation with body := (negation.body.number 0).1 } {}).found? = some [] := by cbv
  obtain ⟨finished, ok⟩ := run_single_clean p rfl sound clean
  exact ⟨p, decoded, named, finished, ok, run_hands_on decoded named finished ok⟩

/-- A function that calls a method on a struct without a name. -/
def callingUnnamed : Syntax.Input :=
  documentOf [mappingNode [("struct", textNode ""), ("fields", mappingNode [("x", textNode "bool")])],
    mappingNode [("fn", textNode "f"), ("body", listNode [mappingNode [("method", textNode "m"),
      ("on", mappingNode [("fields", mappingNode [("x", truthNode "true")])])]])]]

def unnamedCall : FuncDecl :=
  { (default : FuncDecl) with
    name := "f"
    body := .mk ⟨0, origin⟩ [.expr origin (.methodCall ⟨0, origin⟩
      (.struct ⟨0, origin⟩ "" [.mk "x" origin (.bool ⟨0, origin⟩ true)]) "m" [])] none
    span := origin }

theorem readProgram_callingUnnamed : Syntax.readProgram callingUnnamed =
    .ok ⟨"", "t.yaml", [.struct unnamed, .function unnamedCall]⟩ := by
  with_unfolding_all rfl

/-- The call has no method to stand for and is not reported, so that it is handed on with a fault for a type. -/
theorem run_hands_on_fault : ∃ p : Program, p.Decoded ∧ (run p {} none).fatal = none ∧
    (run p {} none).report.isOk = true ∧ ∃ b, Bundle.ofReport (run p {} none).report = .ok b ∧
      ∃ entry ∈ b.functions, ∃ row ∈ entry.types, .invalid ∈ row.2.parts := by
  let p : Program := (Program.number ⟨"", "t.yaml", [.struct unnamed, .function unnamedCall]⟩).1
  let t : Task := ⟨p, 0, { unnamedCall with body := (unnamedCall.body.number 0).1 }, {}⟩
  have sound : p.collect.2 = [] := List.eq_nil_of_length_eq_zero (by decide +kernel)
  have clean : t.found? = some [] := by cbv
  have faulty : (t.outcome.report.types.bind fun notes => notes.types.get? 2).map Ty.isInvalid = some true := by cbv
  obtain ⟨finished, ok⟩ := run_single_clean p rfl sound clean
  obtain ⟨-, functions, outcomes⟩ := run_clean finished ok
  have sole : tasks p {} = [t] := rfl
  rw [sole, List.map_singleton] at functions
  obtain ⟨typing, ownership, matching, -, -, -, -, report⟩ :=
    analyzeFunction_clean (outcomes t (sole ▸ List.mem_cons_self)).1 (outcomes t (sole ▸ List.mem_cons_self)).2
  let entry : Bundle.Function :=
    { name := t.function.qualifiedName, types := typing.notes.types, coercions := typing.notes.coercions
      moves := ownership.moves, borrows := ownership.borrows, decisions := matching.decisions }
  have bundled : t.report.bind Bundle.Function.ofReport? = some entry := by
    simp only [Task.report, Task.outcome, report]
    rfl
  rw [Task.outcome, report, Option.bind_some] at faulty
  obtain ⟨type, found, fault⟩ := Option.map_eq_some_iff.mp faulty
  refine ⟨p, ⟨callingUnnamed, _, readProgram_callingUnnamed, rfl⟩, finished, ok, _, ofReport_eq ?_, entry, ?_,
    (2, type), NodeTable.get?_mem found, ?_⟩
  · rw [functions]
    exact List.forall_mem_singleton.mpr ⟨_, bundled⟩
  · rw [functions]
    exact List.mem_filterMap.mpr ⟨_, List.mem_cons_self, bundled⟩
  · cases type <;> cases fault
    exact Ty.self_mem_parts _

end

end Analysis

end TreeCheck
