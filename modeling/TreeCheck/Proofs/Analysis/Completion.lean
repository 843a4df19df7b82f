import TreeCheck.Analysis
import TreeCheck.Proofs.Match.Selection
import TreeCheck.Proofs.Match.Untyped
import TreeCheck.Proofs.Ownership.Completes
import TreeCheck.Proofs.Symbol.Regular
import TreeCheck.Proofs.Syntax.Documents
import TreeCheck.Proofs.Typing.Closed

/-!
Analyses that end. Type checking stops only at an infinite type, and what is accepted by it is checked to the end
by the passes that follow, unless a place that starts at a temporary value is borrowed before any variable is
declared.
-/

namespace TreeCheck

namespace Match

variable {scope : Scope}

theorem Scope.checkNode_completes (regular : scope.compiler.decls.Regular) (node : TreeNode) :
    ∃ out, scope.checkNode node = .ok out := by
  -- arms need not fit the type of what they match
  have compiled (type : Ty) (arms : List Arm) : ∃ d, compile scope.compiler type arms = .ok d := by
    obtain ⟨d, done, -⟩ := compile_eq regular type arms (ofArms_fits fun _ _ => .inl rfl)
    exact ⟨d, done⟩
  unfold Scope.checkNode
  split
  next info scrutinee arms =>
    obtain ⟨d, done⟩ := compiled (scope.notes.typeOf scrutinee.id)
      (arms.map fun a => { pattern := a.pattern, guarded := a.guard.isSome })
    exact ⟨_, by rw [Scope.checkMatch, done]; rfl⟩
  next _ pattern _ _ =>
    split
    · exact ⟨_, rfl⟩
    · obtain ⟨d, done⟩ := compiled (scope.notes.typeOf pattern.id) [{ pattern }]
      exact ⟨_, by rw [Scope.checkBinding, done]; rfl⟩
  · exact ⟨_, rfl⟩

theorem Scope.checkNodes_completes (regular : scope.compiler.decls.Regular) (nodes : List TreeNode) :
    ∀ start : Result, ∃ result, scope.checkNodes nodes start = .ok result := by
  induction nodes with
  | nil => exact fun start => ⟨start, rfl⟩
  | cons node nodes ih =>
    intro start
    obtain ⟨out, done⟩ := Scope.checkNode_completes regular node
    rw [Scope.checkNodes, done]
    cases out with
    | none => exact ih start
    | some found => exact ih _

/-- The matches of a function are checked to the end, whatever the types of its nodes. -/
theorem check_completes {decls : Decls} (regular : decls.Regular) (options : Options) (f : FuncDecl)
    (notes : Typing.Annotations) : ∃ result, check decls options f notes = .ok result :=
  Scope.checkNodes_completes regular f.body.nodes {}

end Match

namespace Analysis

theorem checkTypes_eq (table : Table) (position : Nat) (f : FuncDecl) :
    checkTypes (some table) position f = (Typing.check table position f).map fun typing => (table, typing) := by
  show (Typing.check table position f >>= fun typing => pure (table, typing)) = _
  cases Typing.check table position f <;> rfl

/-- A function of a program that was read is analysed to the end, or its types would be infinite, if each place
that is borrowed in it starts at a name or the function has a parameter. -/
theorem analyzeFunction_completes {p : Program} (decoded : p.Decoded) (position : Nat) (f : FuncDecl)
    (rooted : ∀ result signature, Typing.check p.collect.1 position f = .ok result →
      p.collect.1.signature? position f = some signature →
      (Ownership.contextOf p.collect.1 signature f result.notes).RootsKnown f) (options : Match.Options) :
    (analyzeFunction (some p.collect.1) position f options).report.aborted = false ∧
      ∀ fatal ∈ (analyzeFunction (some p.collect.1) position f options).fatal,
        ∃ var type, fatal = .defect (.infiniteType var type) := by
  unfold analyzeFunction
  rw [checkTypes_eq]
  cases typed : Typing.check p.collect.1 position f with
  | error failure =>
    obtain ⟨var, type, rfl⟩ := Typing.check_infinite p.collect_received typed
    exact ⟨rfl, fun fatal stopped => ⟨var, type, (Option.some.inj stopped).symm⟩⟩
  | ok typing =>
    dsimp only [Except.map]
    split
    · exact ⟨rfl, nofun⟩
    next accepted =>
      have accepted : typing.diagnostics = [] := by simpa [Typing.Result.isOk] using accepted
      obtain ⟨ownership, owned⟩ := Ownership.check_completes fun signature own =>
        ⟨Typing.check_typed typed accepted, rooted typing signature typed own⟩
      obtain ⟨decisions, matched⟩ := Match.check_completes (p.collect_regular decoded) options f typing.notes
      rw [owned]
      dsimp only
      rw [matched]
      exact ⟨rfl, nofun⟩

/-- A document with a function that gives back its parameter. -/
def echoing : Syntax.Input :=
  let scalar (text : String) : Document.Node := .scalar default "!!str" text
  let list (items : List Document.Node) : Document.Node := .sequence default "!!seq" items
  let mapping (entries : List (String × Document.Node)) : Document.Node :=
    .mapping default "!!map" (entries.map fun entry => .mk (scalar entry.1) entry.2)
  { file := "t.yaml"
    document := { root := mapping [("items", list [mapping [("fn", scalar "f"),
      ("params", list [mapping [("x", scalar "i32")]]), ("returns", scalar "i32"), ("value", scalar "x")]])] } }

theorem analyzeFunction_completes_echoing : ∃ p f, Program.Decoded p ∧ p.functions[0]? = some f ∧
    (∀ result signature, Typing.check p.collect.1 0 f = .ok result →
      p.collect.1.signature? 0 f = some signature →
      (Ownership.contextOf p.collect.1 signature f result.notes).RootsKnown f) ∧
    (analyzeFunction (some p.collect.1) 0 f {}).report.aborted = false ∧
      ∀ fatal ∈ (analyzeFunction (some p.collect.1) 0 f {}).fatal,
        ∃ var type, fatal = .defect (.infiniteType var type) := by
  have declared : (match Syntax.readProgram echoing with
    | .ok read => read.number.1.functions[0]?.map fun f =>
      (read.number.1.collect.1.signature? 0 f).map fun s => s.params.isEmpty
    | .error _ => none) = some (some false) := by with_unfolding_all rfl
  split at declared
  next read done =>
    obtain ⟨f, first, own⟩ := Option.map_eq_some_iff.mp declared
    obtain ⟨s, found, some⟩ := Option.map_eq_some_iff.mp own
    have decoded : read.number.1.Decoded := ⟨echoing, read, done, rfl⟩
    have rooted : ∀ result signature, Typing.check read.number.1.collect.1 0 f = .ok result →
        read.number.1.collect.1.signature? 0 f = .some signature →
        (Ownership.contextOf read.number.1.collect.1 signature f result.notes).RootsKnown f := by
      intro result signature _ same
      obtain rfl := Option.some.inj (found.symm.trans same)
      exact .inl (.inr (List.isEmpty_eq_false_iff.mp some))
    exact ⟨_, f, decoded, first, rooted, analyzeFunction_completes decoded 0 f rooted {}⟩
  · cases declared

/-- A function that gives back the reference it is given. -/
def lending : FuncDecl :=
  { (default : FuncDecl) with
    name := "id"
    params := [⟨"a", ⟨default, .ref false (.named "bool" [])⟩, false, default⟩]
    result := some ⟨default, .ref false (.named "bool" [])⟩
    body := .mk ⟨1, default⟩ [] (some (.ident ⟨2, default⟩ "a")) }

/-- A function that borrows again what a call gives back, before any variable is declared. -/
def reborrowing : FuncDecl :=
  { (default : FuncDecl) with
    name := "g"
    body := .mk ⟨3, default⟩ [.expr default (.ref ⟨4, default⟩ false (.deref ⟨5, default⟩ (.call ⟨6, default⟩
      (.ident ⟨7, default⟩ "id") [.ref ⟨8, default⟩ false (.bool ⟨9, default⟩ true)])))] none }

theorem analyzeFunction_crashed {table : Table} {position : Nat} {f : FuncDecl} {options : Match.Options}
    {typing : Typing.Result} {reason : String} (typed : Typing.check table position f = .ok typing)
    (accepted : typing.isOk = true)
    (crashed : Ownership.check table position f typing.notes = .error (.crash reason)) :
    (analyzeFunction (some table) position f options).report.aborted = true := by
  unfold analyzeFunction
  rw [checkTypes_eq, typed]
  simp [Except.map, accepted, crashed, FunctionReport.halt]

theorem reborrowing_crashes :
    let p : Program := ⟨"0.1.0", "t.yaml", [.function lending, .function reborrowing]⟩
    (match Typing.check p.collect.1 1 reborrowing with
      | .ok typing => match Ownership.check p.collect.1 1 reborrowing typing.notes with
        | .error (.crash _) => typing.isOk
        | _ => false
      | .error _ => false) = true := by
  intro p
  cbv

/-- The place that is borrowed counts as one that starts at the first variable, which is not there. -/
theorem analyzeFunction_aborts :
    let p : Program := ⟨"0.1.0", "t.yaml", [.function lending, .function reborrowing]⟩
    p.collect.2.length = 0 ∧ (reborrowing, 1) ∈ p.functions.zipIdx ∧
      (analyzeFunction (some p.collect.1) 1 reborrowing {}).report.aborted = true := by
  intro p
  have crashes := reborrowing_crashes
  dsimp only at crashes
  refine ⟨by with_unfolding_all rfl, by simp [p, Program.functions], ?_⟩
  split at crashes
  next typing typed =>
    split at crashes
    next reason crashed => exact analyzeFunction_crashed typed crashes crashed
    · cases crashes
  · cases crashes

end Analysis

/-!
### Functions without a place

That the table has no place for a function is reported once, and neither its types nor its ownership are checked; but
its matches are, and as nothing in it has a type, those are reported in which guards alone do not lead to the last arm.
-/

namespace Match

/-- A function of which no types are known is checked without a report if nothing in it needs them. -/
theorem check_untyped {decls : Decls} (regular : decls.Regular) (options : Options) {f : FuncDecl}
    (legible : Legible f.body.nodes) : ∃ result, check decls options f {} = .ok result ∧
      (∀ d ∈ result.diagnostics, d.kind = .nonExhaustiveMatch ∨ d.kind = .unreachableArm) ∧
      (result.diagnostics = [] ↔ ∀ node ∈ f.body.nodes, node.settled = true) := by
  obtain ⟨result, checked⟩ := check_completes regular options f {}
  have reported := Scope.checkNodes_diagnostics checked
  rw [List.nil_append] at reported
  refine ⟨result, checked, fun d member => ?_, ?_⟩
  · rw [reported] at member
    obtain ⟨node, -, inside⟩ := List.mem_flatMap.mp member
    exact Scope.reports_kind inside
  · rw [reported, List.flatMap_eq_nil_iff]
    refine forall₂_congr fun node member => Scope.reports_eq_nil regular (fun _ => rfl) ?_
    exact fun inner inside => legible inner (f.body.nodes_nested node member inside)

end Match

namespace Analysis

variable {p : Program} {f : FuncDecl} {position : Nat}

/-- That there is no place for a function is reported once. Its types and its ownership are not checked, and nothing
else is reported about it exactly if the last arm of each of its matches, and no other, has an alternative without a
guard, and so has the pattern of each binding. -/
theorem analyzeFunction_rejects (decoded : p.Decoded) (member : (f, position) ∈ p.functions.zipIdx)
    (rejected : p.collect.1.signature? position f = none) (options : Match.Options) :
    (∃ d, p.collect.1.Rejects f d ∧ (p.collect.2.map Diagnostic.key).count d.key = 1) ∧
    (analyzeFunction (some p.collect.1) position f options).fatal = none ∧
    let report := (analyzeFunction (some p.collect.1) position f options).report
    report.aborted = false ∧ report.types = some {} ∧ report.ownership = some {} ∧
      (∀ d ∈ report.diagnostics, d.kind = .nonExhaustiveMatch ∨ d.kind = .unreachableArm) ∧
      (report.diagnostics = [] ↔ ∀ node ∈ f.body.nodes, node.settled = true) := by
  refine ⟨Program.collect_rejects member rejected, ?_⟩
  obtain ⟨matching, matched, kinds, quiet⟩ := Match.check_untyped (p.collect_regular decoded) options
    (decoded.legible (List.fst_mem_of_mem_zipIdx member))
  have typed : Typing.check p.collect.1 position f = .ok {} := by
    unfold Typing.check
    rw [rejected]
    rfl
  have owned : Ownership.check p.collect.1 position f {} = .ok {} := by
    unfold Ownership.check
    rw [rejected]
    rfl
  have outcome : analyzeFunction (some p.collect.1) position f options =
      { report := { name := f.qualifiedName, types := some {}, ownership := some {}, decisions := some matching
                    diagnostics := matching.diagnostics }
        log := [⟨.debug, s!"{f.qualifiedName}: {matching.diagnostics.length} diagnostics"⟩] } := by
    unfold analyzeFunction
    rw [checkTypes_eq, typed]
    simp [Except.map, Typing.Result.isOk, owned, matched]
  rw [outcome]
  exact ⟨rfl, rfl, rfl, rfl, kinds, quiet⟩

/-! ### Two functions of one name -/

section

open Syntax

/-- A document in which the second function of a name matches on a number. -/
def repeating (patterns : List Document.Node) : Input :=
  documentOf [mappingNode [("fn", textNode "f"), ("body", listNode [])],
    mappingNode [("fn", textNode "f"), ("params", listNode [mappingNode [("n", textNode "i32")]]),
      ("returns", textNode "i32"), ("value", mappingNode [("match", textNode "n"),
        ("arms", listNode (patterns.map fun pattern =>
          mappingNode [("pattern", pattern), ("body", numberNode "1")]))])]]

def idle : FuncDecl := { (default : FuncDecl) with name := "f", body := .mk unnumbered [] none, span := origin }

def repeated (patterns : List Pattern) : FuncDecl :=
  { (default : FuncDecl) with
    name := "f"
    params := [⟨"n", ⟨origin, .named "i32" []⟩, false, origin⟩]
    result := some ⟨origin, .named "i32" []⟩
    body := .mk unnumbered [] (some (.select unnumbered (.ident unnumbered "n")
      (patterns.map fun pattern => .mk origin pattern none (.int unnumbered 1 ""))))
    span := origin }

def repeatedProgram (patterns : List Pattern) : Program :=
  (Program.number ⟨"", "t.yaml", [.function idle, .function (repeated patterns)]⟩).1

def numbered (patterns : List Pattern) : FuncDecl :=
  { repeated patterns with body := ((repeated patterns).body.number 1).1 }

theorem numbered_mem (patterns : List Pattern) :
    (numbered patterns, 1) ∈ (repeatedProgram patterns).functions.zipIdx :=
  List.mem_cons_of_mem _ List.mem_cons_self

theorem readProgram_settled : readProgram (repeating [textNode "_"]) =
    .ok ⟨"", "t.yaml", [.function idle, .function (repeated [.wildcard unnumbered])]⟩ := by
  with_unfolding_all rfl

/-- A match with one arm is settled, so that only the second declaration itself is reported. -/
theorem analyzeFunction_rejects_repeated : ∃ p : Program, p.Decoded ∧ ∃ f, (f, 1) ∈ p.functions.zipIdx ∧
    p.collect.1.signature? 1 f = none ∧
    (∃ d, p.collect.1.Rejects f d ∧ (p.collect.2.map Diagnostic.key).count d.key = 1) ∧
    (analyzeFunction (some p.collect.1) 1 f {}).report.diagnostics = [] := by
  have decoded : (repeatedProgram [.wildcard unnumbered]).Decoded := ⟨_, _, readProgram_settled, rfl⟩
  have rejected : (repeatedProgram [.wildcard unnumbered]).collect.1.signature? 1
      (numbered [.wildcard unnumbered]) = none := (by with_unfolding_all rfl)
  obtain ⟨told, -, -, -, -, -, quiet⟩ := analyzeFunction_rejects decoded (numbered_mem _) rejected {}
  exact ⟨_, decoded, _, numbered_mem _, rejected, told, quiet.mpr (by decide)⟩

theorem readProgram_unsettled : readProgram (repeating [numberNode "1", textNode "_"]) =
    .ok ⟨"", "t.yaml", [.function idle,
      .function (repeated [.literal unnumbered (.int 1), .wildcard unnumbered])]⟩ := by
  with_unfolding_all rfl

/-- A number covers what has no type, and so the arm behind it is reported. -/
theorem analyzeFunction_reports_rejected : ∃ p : Program, p.Decoded ∧ ∃ f, (f, 1) ∈ p.functions.zipIdx ∧
    p.collect.1.signature? 1 f = none ∧
    (analyzeFunction (some p.collect.1) 1 f {}).report.diagnostics.map Diagnostic.message =
      ["unreachable pattern: arm 2 is covered by earlier arms"] := by
  let patterns : List Pattern := [.literal unnumbered (.int 1), .wildcard unnumbered]
  refine ⟨repeatedProgram patterns, ⟨_, _, readProgram_unsettled, rfl⟩, numbered patterns, numbered_mem _,
    (by with_unfolding_all rfl), ?_⟩
  cbv

end

end Analysis

end TreeCheck
