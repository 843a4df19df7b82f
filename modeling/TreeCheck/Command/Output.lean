import TreeCheck.Bundle
import TreeCheck.Command.Json

/-!
The outcome of a run as JSON: the report of a check, and the bundle for code generation.
-/

namespace TreeCheck.Command.Json

/-! ### Reports -/

def ofPosition (p : Position) : Json :=
  .object (field "file" (!p.file.isEmpty) (.string p.file)
    ++ [("line", .number p.line), ("column", .number p.column), ("offset", .number p.offset)])

def ofSpan (s : Span) : Json :=
  .object [("start", ofPosition s.start), ("end", ofPosition s.stop)]

def ofLabel (l : Diagnostic.Label) : Json :=
  .object [("span", ofSpan l.span), ("message", .string l.message)]

def ofDiagnostic (d : Diagnostic) : Json :=
  .object ([("kind", .string d.kind.name), ("message", .string d.message), ("span", ofSpan d.span)]
    ++ field "secondary" (!d.secondary.isEmpty) (.array (d.secondary.map ofLabel))
    ++ field "hint" (!d.hint.isEmpty) (.string d.hint)
    ++ field "function" (!d.function.isEmpty) (.string d.function)
    ++ field "detail" (!d.detail.isEmpty) (.string d.detail))

def ofFunction (r : Analysis.FunctionReport) : Json :=
  .object ([("name", .string r.name), ("ok", .bool r.isOk)]
    ++ field "cached" r.cached (.bool true)
    ++ field "aborted" r.aborted (.bool true)
    ++ [("diagnostics", .number r.diagnostics.length)])

/-- The report of the check of a file. Functions that were not reached are left out. -/
def ofReport (run file : String) (r : Analysis.Report) : Json :=
  .object [("run_id", .string run), ("file", .string file), ("ok", .bool r.isOk),
    ("functions", arrayOrNull (r.functions.filterMap fun f => f.map ofFunction)),
    ("diagnostics", .array (r.diagnostics.map ofDiagnostic))]

/-! ### Bundles -/

/-- A table as an object, its keys in the order of their texts. -/
def ofTable {α : Type} (table : NodeTable α) (value : α → Json) : Json :=
  .object ((table.entries.map fun (id, fact) => (toString id, value fact)).mergeSort
    fun a b => !decide (b.1 < a.1))

def ofExtraction (b : Match.Extraction) : Json :=
  .object [("name", .string b.name), ("path", .string b.path.text)]

mutual

def ofTree : Match.Tree → Json
  | .switch path type cases otherwise =>
    .object ([("node", .string "switch"), ("path", .string path.text),
      ("type", .string type.text), ("cases", arrayOrNull (ofCases cases))]
      ++ ofBranch "default" otherwise)
  | .leaf arm bindings next =>
    .object ([("node", .string "leaf"), ("arm", .number arm)]
      ++ field "bindings" (!bindings.isEmpty) (.array (bindings.map ofExtraction))
      ++ field "guarded" next.isSome (.bool true)
      ++ ofBranch "fallthrough" next)
  | .fail witnesses =>
    .object [("node", .string "fail"), ("witnesses", strings (witnesses.map Pattern.text))]

def ofCases : List Match.Case → List Json
  | [] => []
  | .mk test tree :: rest =>
    .object [("ctor", .string test.text), ("tree", ofTree tree)] :: ofCases rest

def ofBranch (key : String) : Option Match.Tree → List (String × Json)
  | none => []
  | some tree => [(key, ofTree tree)]

end

def ofDecision (d : Match.Decision) : Json :=
  .object ([("tree", ofTree d.tree), ("exhaustive", .bool d.isExhaustive)]
    ++ field "witnesses" (!d.witnesses.isEmpty) (strings (d.witnesses.map Pattern.text))
    ++ field "unreachable" (!d.unreachable.isEmpty)
      (.array (d.unreachable.map fun (arm : Nat) => .number arm))
    ++ field "matrix" (!d.matrix.isEmpty) (.string d.matrix))

def ofBundleFunction (f : Bundle.Function) : Json :=
  .object ([("name", .string f.name), ("types", ofTable f.types fun t => .string t.text)]
    ++ field "coercions" (!f.coercions.isEmpty) (ofTable f.coercions fun c => .string c.text)
    ++ field "moves" (!f.moves.isEmpty) (ofTable f.moves .string)
    ++ field "borrows" (!f.borrows.isEmpty)
      (ofTable f.borrows fun exclusive => .string (if exclusive then "&mut" else "&"))
    ++ field "matches" (!f.decisions.isEmpty) (ofTable f.decisions ofDecision))

def ofBundle (run file : String) (b : Bundle) : Json :=
  .object [("run_id", .string run), ("file", .string file), ("language", .string b.language),
    ("functions", arrayOrNull (b.functions.map ofBundleFunction))]

end TreeCheck.Command.Json
