import TreeCheck.Analysis

/-!
What is handed on to code generation: for each function the types of its nodes, the implicit
conversions, the moves and borrows, and the decisions of its matches.
-/

namespace TreeCheck

/-- The facts about one accepted function. -/
structure Bundle.Function where
  name : String
  types : NodeTable Ty
  coercions : NodeTable Coercion
  moves : NodeTable String
  /-- Whether the borrow at a node is an exclusive one. -/
  borrows : NodeTable Bool
  decisions : NodeTable Match.Decision
deriving Inhabited

structure Bundle where
  language : String
  functions : List Bundle.Function
deriving Inhabited

namespace Bundle

/-- The facts of a report in which no check is missing. -/
def Function.ofReport? (r : Analysis.FunctionReport) : Option Function := do
  let notes ← r.types
  let ownership ← r.ownership
  let matching ← r.decisions
  return {
    name := r.name, types := notes.types, coercions := notes.coercions, moves := ownership.moves
    borrows := ownership.borrows, decisions := matching.decisions }

/-- Collects the facts about all functions. A function that was not reached or that lacks one of
the checks stands in the way. -/
def ofReport (r : Analysis.Report) : Except String Bundle := do
  let functions ← r.functions.mapM fun report =>
    match report.bind Function.ofReport? with
    | some f => .ok f
    | none =>
      let name := (report.map Analysis.FunctionReport.name).getD "<unknown>"
      .error s!"function {name} has no complete analysis"
  return { language := r.language, functions }

end Bundle

end TreeCheck
