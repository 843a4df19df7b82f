import TreeCheck.Document.Node

/-!
Reading mappings into records. A merge key takes over the fields of other mappings, unless the
mapping has them itself. A document must not consist of almost nothing but repetitions, so the
effort of reading is watched.
-/

namespace TreeCheck.Document

/-! ### Effort -/

/-- How many nodes were read, and how many of them behind aliases. -/
structure Effort where
  nodes : Nat := 0
  aliased : Nat := 0
  /-- How many aliases are being followed. -/
  depth : Nat := 0
deriving DecidableEq, Repr, Inhabited

namespace Effort

/-- The share of nodes behind aliases that is allowed, as parts of 360000000. It is 99 percent, and
goes down to 10 percent where more than 400000 nodes are read. -/
def allowance (nodes : Nat) : Nat := 356400000 - 89 * min (nodes - 400000) 3600000

/-- Whether too much stands behind aliases. Small documents are not measured. -/
def isExcessive (effort : Effort) : Bool :=
  100 < effort.aliased && 1000 < effort.nodes
    && effort.nodes * allowance effort.nodes < effort.aliased * 360000000

def count (effort : Effort) : Effort :=
  { effort with
    nodes := effort.nodes + 1
    aliased := if effort.depth == 0 then effort.aliased else effort.aliased + 1 }

end Effort

/-- A step of reading a record; it fails where the document does not fit. -/
abbrev Decode := StateT Effort Option

namespace Decode

def count : Decode Unit := fun effort =>
  if effort.count.isExcessive then none else some ((), effort.count)

def ofOption {α : Type} : Option α → Decode α
  | some a => return a
  | none => failure

/-- The result of reading, if it did not fail. -/
def result? {α : Type} (step : Decode α) : Option α := (step {}).map Prod.fst

end Decode

/-! ### Keys -/

/-- Whether two keys are written alike. -/
def Node.sameKey : Node → Node → Bool
  | .scalar _ _ a, .scalar _ _ b => a == b
  | .alias _ a _, .alias _ b _ => a == b
  | .sequence .., .sequence .. => true
  | .mapping .., .mapping .. => true
  | _, _ => false

/-- Whether a mapping has a key twice. -/
def hasTwin : List Entry → Bool
  | [] => false
  | entry :: rest => rest.any (fun other => entry.key.sameKey other.key) || hasTwin rest

/-- The key under which mappings are merged. -/
def Node.isMerge : Node → Bool
  | .scalar _ tag text => tag == "!!merge" && text == "<<"
  | _ => false

namespace Graph

def visit {α : Type} (graph : Graph) (node : Node) (read : Node → Decode α) : Decode α := do
  Decode.count
  match node with
  | .alias .. =>
    modify fun effort => { effort with depth := effort.depth + 1 }
    Decode.count
    let a ← read (graph.target node)
    modify fun effort => { effort with depth := effort.depth - 1 }
    return a
  | node => read node

/-- Reads a key, which must be a scalar; one that stands for nothing names nothing. -/
def readKey (graph : Graph) (key : Node) : Decode (Option String) :=
  graph.visit key fun key => do
    let name ← Decode.ofOption key.toText?
    return if key.isNull then none else some name.text

end Graph

/-! ### Records -/

/-- The fields of a record, and how the value of one is read. -/
structure Schema (σ : Type) where
  names : List String
  read : String → Node → σ → Decode σ

/-- A record while it is read. -/
structure Filling (σ : Type) where
  record : σ
  /-- The names that merged mappings cannot set any more; none outside of merging. -/
  taken : Option (List String) := none

namespace Graph

variable {σ : Type}

/-- Reads the entries of a mapping other than the merged ones. A known name may be given only
once; unknown names are passed over. -/
def readOwn (graph : Graph) (schema : Schema σ) :
    List Entry → List String → Filling σ → Decode (Filling σ)
  | [], _, filling => return filling
  | .mk key value :: rest, done, filling => do
    if key.isMerge then graph.readOwn schema rest done filling
    else
      match ← graph.readKey key with
      | none => graph.readOwn schema rest done filling
      | some name =>
        if (filling.taken.getD []).contains name then graph.readOwn schema rest done filling
        else
          let taken := filling.taken.map (name :: ·)
          if !schema.names.contains name then
            graph.readOwn schema rest done { filling with taken }
          else
            guard (!done.contains name)
            let record ← schema.read name value filling.record
            graph.readOwn schema rest (name :: done) { record, taken }

/-- Reads a mapping into a record, its own entries before the merged ones. A mapping must not be
merged into itself; the fuel bounds the mappings that are merged into one another. -/
def readMapping (graph : Graph) (schema : Schema σ) :
    Nat → Filling σ → Node → Decode (Filling σ)
  | 0, _, _ => failure
  | fuel + 1, filling, .mapping _ _ entries => do
    guard (!hasTwin entries)
    let filling ← graph.readOwn schema entries [] filling
    match entries.find? fun entry => entry.key.isMerge with
    | none => return filling
    | some entry =>
      let taken ← match filling.taken with
        | some taken => pure taken
        | none => do pure ((← entries.mapM fun entry => graph.readKey entry.key).filterMap id)
      let merged := match entry.value with
        | .sequence _ _ items => items
        | other => [other]
      let result ← merged.foldlM (fun filling node =>
        graph.visit node (graph.readMapping schema fuel filling)) { filling with taken := some taken }
      return { result with taken := if filling.taken.isSome then result.taken else none }
  | _, _, _ => failure

def readRecord (graph : Graph) (schema : Schema σ) (initial : σ) (node : Node) : Decode σ :=
  Filling.record <$> graph.readMapping schema (graph.root.size + 1) { record := initial } node

end Graph

end TreeCheck.Document
