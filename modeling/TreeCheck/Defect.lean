/-!
Defects: broken assumptions inside the analysis itself, as opposed to faults of the analysed
program, which are diagnostics.
-/

namespace TreeCheck

inductive Defect.Category where
  | inference
  | ownership
  | pattern
  | system
deriving DecidableEq, Repr, Inhabited

def Defect.Category.text : Defect.Category → String
  | .inference => "INFERENCE"
  | .ownership => "OWNERSHIP"
  | .pattern => "PATTERN"
  | .system => "SYSTEM"

/-- A broken assumption: where it belongs, its code, what it says, and named facts about it. -/
structure Defect where
  category : Defect.Category
  code : String
  message : String
  facts : List (String × String) := []
deriving DecidableEq, Repr, Inhabited

namespace Defect

/-- The facts as they are shown: of several with one name the last, sorted by name. -/
def shownFacts (d : Defect) : List (String × String) :=
  let last := d.facts.foldl
    (fun kept fact => kept.filter (fun other => other.1 != fact.1) ++ [fact]) []
  last.mergeSort fun a b => compare a.1 b.1 != .gt

def text (d : Defect) : String :=
  s!"internal invariant violated [{d.category.text}:{d.code}] {d.message}"
    ++ String.join (d.shownFacts.map fun (name, value) => s!" {name}={value}")

def infiniteType (var type : String) : Defect :=
  { category := .inference
    code := "INFINITE_TYPE"
    message := s!"occurs check failed: {var} occurs in {type}"
    facts := [("var", var), ("type", type)] }

def untypedNode (node : Int) (function : String) : Defect :=
  { category := .ownership
    code := "UNRESOLVED_ANNOTATION"
    message := s!"expression node {node} reached ownership checking without a resolved type"
    facts := [("node", toString node), ("function", function)] }

def unknownBinding (id : Int) : Defect :=
  { category := .ownership
    code := "UNKNOWN_BINDING"
    message := s!"binding id {id} is not in the arena"
    facts := [("binding", toString id)] }

def malformedMatrix (details : String) : Defect :=
  { category := .pattern
    code := "MALFORMED_MATRIX"
    message := s!"pattern matrix is malformed: {details}"
    facts := [("details", details)] }

def recovered (function value : String) : Defect :=
  { category := .system
    code := "PANIC"
    message := s!"analysis of {function} panicked: {value}"
    facts := [("function", function)] }

end Defect

/-- Why an analysis stops before its end. -/
inductive Failure where
  /-- A broken assumption that was noticed. -/
  | defect (defect : Defect)
  /-- A step that cannot be taken, such as reading a part that is not there. -/
  | crash (reason : String)
deriving DecidableEq, Repr, Inhabited

end TreeCheck
