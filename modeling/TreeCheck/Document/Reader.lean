import TreeCheck.Document.Lexer
import TreeCheck.Document.Node

/-!
Reading the first document of a text. Block and flow collections are read by descent over the
tokens; a missing key or value is an empty scalar at the place where it was due.
-/

namespace TreeCheck.Document

/-- The lexer, and the anchors and tag handles met so far. -/
structure Reader where
  lexer : Lexer
  /-- Anchored nodes in order of their anchors. A node that is still being read has its anchor
  already, so that it can hold an alias of itself. -/
  anchors : Array (String × Node) := #[]
  /-- Tag handles that the document declares. -/
  handles : List (String × String) := []

/-- A step of reading; it fails on malformed text. -/
abbrev Read := StateT Reader Option

namespace Read

def peek : Read Token := fun reader =>
  (Lex.peek reader.lexer).map fun (token, lexer) => (token, { reader with lexer })

def skip : Read Unit := fun reader =>
  (Lex.skip reader.lexer).map fun (_, lexer) => ((), { reader with lexer })

/-- The short form of a tag of the common schema. -/
def shortTag (tag : String) : String :=
  let stem := "tag:yaml.org,2002:"
  if tag.startsWith stem then "!!" ++ (tag.drop stem.length).toString else tag

/-- Anchor, tag and place that precede a node. -/
structure Properties where
  anchor : Option String := none
  tag : Option (String × String) := none
  start : Mark

private def readAnchor : Read (Option (String × Mark)) := do
  let token ← peek
  match token.kind with
  | .anchor name => skip; return some (name, token.start)
  | _ => return none

private def readTag : Read (Option (String × String × Mark)) := do
  let token ← peek
  match token.kind with
  | .tag handle suffix => skip; return some (handle, suffix, token.start)
  | _ => return none

/-- Reads an anchor and a tag in either order. -/
def properties : Read Properties := do
  let first ← readAnchor
  let tag ← readTag
  let anchor ← if first.isNone && tag.isSome then readAnchor else pure first
  let token ← peek
  let start := match anchor, tag with
    | some (_, a), some (_, _, t) => if a.index < t.index then a else t
    | some (_, a), none => a
    | none, some (_, _, t) => t
    | none, none => token.start
  return { anchor := anchor.map Prod.fst
           tag := tag.map fun (handle, suffix, _) => (handle, suffix)
           start }

/-- The handles that need no declaration. -/
def commonHandles : List (String × String) := [("!", "!"), ("!!", "tag:yaml.org,2002:")]

/-- The tag written by a handle and a suffix; unknown handles are refused. The tag `!` says nothing
and is absent. -/
def resolveTag : Option (String × String) → Read (Option String)
  | none => return none
  | some (handle, suffix) => do
    let known := (← get).handles ++ commonHandles
    let full ←
      if handle.isEmpty then pure suffix
      else
        let some stem := known.lookup handle | failure
        pure (stem ++ suffix)
    return if full == "!" || full.isEmpty then none else some (shortTag full)

/-- Registers an anchor before its node is read. -/
def openAnchor (start : Mark) : Option String → Read (Option Nat)
  | none => return none
  | some name => do
    let place := (← get).anchors.size
    modify fun reader =>
      { reader with anchors := reader.anchors.push (name, .scalar start "!!null" "") }
    return some place

/-- Completes a registered anchor. -/
def closeAnchor (place : Option Nat) (node : Node) : Read Unit :=
  match place with
  | none => return
  | some i => modify fun reader =>
    { reader with anchors := reader.anchors.modify i fun (name, _) => (name, node) }

def findAnchor (name : String) : Read Nat := do
  let anchors := (← get).anchors
  let some place := (List.range anchors.size).reverse.find? fun i =>
    (anchors[i]?.map Prod.fst) == some name | failure
  return place

def emptyScalar (mark : Mark) : Node := .scalar mark "!!null" ""

/-- A scalar as it was written: plain text without a tag is classified. -/
def scalarNode (start : Mark) (tag : Option String) (text : String) (plain : Bool) : Node :=
  .scalar start (tag.getD (
    if !plain then "!!str"
    else if text == "<<" then "!!merge"
    else (Scalar.ofPlain true text).tag)) text

private def isKind (kinds : List Token.Kind) (token : Token) : Bool := kinds.contains token.kind

/-- Passes over the comma before an entry of a flow collection that is not the first, or over the
end of the collection. -/
def moreAhead (first : Bool) (close : Token.Kind) : Read Bool := do
  let token ← peek
  if token.kind == close then
    skip
    return false
  if !first then
    guard (token.kind == .flowEntry)
    skip
    if (← peek).kind == close then
      skip
      return false
  return true

mutual

/-- Reads a node. `block` admits block collections, `loose` sequences that are not indented deeper
than their key. -/
def readNode : Nat → Bool → Bool → Read Node
  | 0, _, _ => failure
  | fuel + 1, block, loose => do
    let token ← peek
    match token.kind with
    | .alias name =>
      let anchor ← findAnchor name
      skip
      return .alias token.start name anchor
    | _ =>
      let props ← properties
      let tag ← resolveTag props.tag
      let token ← peek
      let place ← openAnchor props.start props.anchor
      let node ← readContent fuel block loose props tag token.kind
      closeAnchor place node
      return node

def readContent : Nat → Bool → Bool → Properties → Option String → Token.Kind → Read Node
  | 0, _, _, _, _, _ => failure
  | fuel + 1, block, loose, props, tag, kind => do
    match kind with
    | .scalar text plain =>
      skip
      return scalarNode props.start tag text plain
    | .flowSequenceStart =>
      skip
      return .sequence props.start (tag.getD "!!seq") (← readFlowItems fuel true)
    | .flowMappingStart =>
      skip
      return .mapping props.start (tag.getD "!!map") (← readFlowEntries fuel true)
    | _ =>
      if loose && kind == .blockEntry then
        return .sequence props.start (tag.getD "!!seq") (← readLooseItems fuel)
      else if block && kind == .blockSequenceStart then
        skip
        return .sequence props.start (tag.getD "!!seq") (← readBlockItems fuel)
      else if block && kind == .blockMappingStart then
        skip
        return .mapping props.start (tag.getD "!!map") (← readBlockEntries fuel)
      else
        guard (props.anchor.isSome || props.tag.isSome)
        return scalarNode props.start tag "" true

def readBlockItems : Nat → Read (List Node)
  | 0 => failure
  | fuel + 1 => do
    let token ← peek
    match token.kind with
    | .blockEntry =>
      skip
      let item ← readItem fuel [.blockEntry, .blockEnd] token.stop
      return item :: (← readBlockItems fuel)
    | .blockEnd => skip; return []
    | _ => failure

/-- The items of a sequence that stands at the indentation of its key. -/
def readLooseItems : Nat → Read (List Node)
  | 0 => failure
  | fuel + 1 => do
    let token ← peek
    match token.kind with
    | .blockEntry =>
      skip
      let item ← readItem fuel [.blockEntry, .key, .value, .blockEnd] token.stop
      return item :: (← readLooseItems fuel)
    | _ => return []

/-- An item of a block sequence after its mark; it is missing before some tokens. -/
def readItem : Nat → List Token.Kind → Mark → Read Node
  | 0, _, _ => failure
  | fuel + 1, missing, stop => do
    if isKind missing (← peek) then return emptyScalar stop
    readNode fuel true false

def readBlockEntries : Nat → Read (List Entry)
  | 0 => failure
  | fuel + 1 => do
    let token ← peek
    match token.kind with
    | .key =>
      skip
      let key ← readBlockPart fuel token.stop
      let mark ← peek
      let value ← match mark.kind with
        | .value => do
          skip
          readBlockPart fuel mark.stop
        | _ => pure (emptyScalar mark.start)
      return .mk key value :: (← readBlockEntries fuel)
    | .blockEnd => skip; return []
    | _ => failure

/-- A key or value of a block mapping after its mark; it may be missing. -/
def readBlockPart : Nat → Mark → Read Node
  | 0, _ => failure
  | fuel + 1, stop => do
    if isKind [.key, .value, .blockEnd] (← peek) then return emptyScalar stop
    readNode fuel true true

/-- The items of a flow sequence, with its end. A key among them makes a mapping of one entry. -/
def readFlowItems : Nat → Bool → Read (List Node)
  | 0, _ => failure
  | fuel + 1, first => do
    if !(← moreAhead first .flowSequenceEnd) then return []
    let token ← peek
    let item ← match token.kind with
      | .key => do
        skip
        let entry ← readFlowPair fuel
        pure (.mapping token.start "!!map" [entry])
      | _ => readNode fuel false false
    return item :: (← readFlowItems fuel false)

/-- A key and a value inside a flow sequence, after the mark of the key. -/
def readFlowPair : Nat → Read Entry
  | 0 => failure
  | fuel + 1 => do
    let next ← peek
    let key ←
      if isKind [.value, .flowEntry, .flowSequenceEnd] next then do
        skip
        pure (emptyScalar next.stop)
      else readNode fuel false false
    let mark ← peek
    if mark.kind != .value then return .mk key (emptyScalar mark.start)
    skip
    if isKind [.flowEntry, .flowSequenceEnd] (← peek) then
      return .mk key (emptyScalar mark.start)
    return .mk key (← readNode fuel false false)

def readFlowEntries : Nat → Bool → Read (List Entry)
  | 0, _ => failure
  | fuel + 1, first => do
    if !(← moreAhead first .flowMappingEnd) then return []
    let entry ← match (← peek).kind with
      | .key => do
        skip
        readFlowEntry fuel
      | _ => do
        let key ← readNode fuel false false
        pure (.mk key (emptyScalar (← peek).start))
    return entry :: (← readFlowEntries fuel false)

def readFlowEntry : Nat → Read Entry
  | 0 => failure
  | fuel + 1 => do
    let next ← peek
    let key ←
      if isKind [.value, .flowEntry, .flowMappingEnd] next then pure (emptyScalar next.start)
      else readNode fuel false false
    let mark ← peek
    if mark.kind != .value then return .mk key (emptyScalar mark.start)
    skip
    let next ← peek
    if isKind [.flowEntry, .flowMappingEnd] next then return .mk key (emptyScalar next.start)
    return .mk key (← readNode fuel false false)

end

/-- Reads the directives before a document: at most one version, which must be 1.1, and tag
handles. -/
def readDirectives : Nat → Bool → Read Unit
  | 0, _ => failure
  | fuel + 1, versioned => do
    match (← peek).kind with
    | .version major minor =>
      guard (!versioned && major == 1 && minor == 1)
      skip
      readDirectives fuel true
    | .tagHandle handle stem =>
      guard (((← get).handles.lookup handle).isNone)
      skip
      modify fun reader => { reader with handles := (handle, stem) :: reader.handles }
      readDirectives fuel versioned
    | _ => return

/-- Reads a document after the mark that starts it; it may be empty. -/
def readMarked (fuel : Nat) : Read Node := do
  readDirectives fuel false
  guard ((← peek).kind == .documentStart)
  skip
  let next ← peek
  match next.kind with
  | .version .. | .tagHandle .. | .documentStart | .documentEnd | .streamEnd =>
    return emptyScalar next.start
  | _ => readNode fuel true false

/-- Reads the first document, if there is one. The token after it is looked at. -/
def readDocument (fuel : Nat) : Read (Option Node) := do
  let _ ← peek
  skip
  let node ← match (← peek).kind with
    | .streamEnd => return none
    | .version .. | .tagHandle .. | .documentStart => readMarked fuel
    | _ => readNode fuel true false
  let _ ← peek
  return some node

end Read

/-- Why a text has no document. -/
inductive Fault where
  | malformed
  | empty
deriving DecidableEq, Repr

/-- Reads the first document of a text. What follows it is looked at only as far as two tokens
ahead. -/
def read (text : String) : Except Fault Graph :=
  let lexer := Lexer.ofText text
  match Read.readDocument (8 * lexer.cursor.bound + 64) { lexer } with
  | none => .error .malformed
  | some (none, _) => .error .empty
  | some (some root, reader) => .ok { root, anchored := reader.anchors.map Prod.snd }

end TreeCheck.Document
