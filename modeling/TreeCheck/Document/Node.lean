import TreeCheck.Document.Scalar
import TreeCheck.Document.Token
import TreeCheck.Text.Octets

/-!
Document nodes: scalars, sequences, mappings, and aliases of nodes that stand elsewhere. A node may
hold an alias of itself, so aliases name their nodes by number.
-/

namespace TreeCheck.Document

mutual

/-- A node and the place it starts at, counted from zero. -/
inductive Node where
  | scalar (start : Mark) (tag text : String)
  | sequence (start : Mark) (tag : String) (items : List Node)
  | mapping (start : Mark) (tag : String) (entries : List Entry)
  /-- The node with an anchor; anchors are numbered in the order they are met. -/
  | alias (start : Mark) (name : String) (anchor : Nat)

/-- A key of a mapping and its value. -/
inductive Entry where
  | mk (key value : Node)

end

instance : Inhabited Node := ⟨.scalar default "!!null" ""⟩

def Entry.key : Entry → Node
  | .mk key _ => key

def Entry.value : Entry → Node
  | .mk _ value => value

namespace Node

def start : Node → Mark
  | .scalar start .. | .sequence start .. | .mapping start .. | .alias start .. => start

def tag : Node → String
  | .scalar _ tag _ | .sequence _ tag _ | .mapping _ tag _ => tag
  | .alias .. => ""

/-- The characters a node shows as a key: the text of a scalar, the name of an alias. -/
def keyText : Node → String
  | .scalar _ _ text => text
  | .alias _ name _ => name
  | .sequence .. | .mapping .. => ""

mutual

/-- The number of nodes of a tree; an alias counts as one. -/
def size : Node → Nat
  | .scalar .. | .alias .. => 1
  | .sequence _ _ items => 1 + sizeAll items
  | .mapping _ _ entries => 1 + sizeEntries entries

def sizeAll : List Node → Nat
  | [] => 0
  | node :: rest => node.size + sizeAll rest

def sizeEntries : List Entry → Nat
  | [] => 0
  | .mk key value :: rest => key.size + value.size + sizeEntries rest

end

/-- Whether a node stands for nothing. -/
def isNull : Node → Bool
  | .scalar _ tag _ => tag == "!!null"
  | _ => false

private def base64Digit? (c : Char) : Option Nat :=
  if 'A' ≤ c && c ≤ 'Z' then some (c.toNat - 65)
  else if 'a' ≤ c && c ≤ 'z' then some (c.toNat - 71)
  else if c.isDigit then some (c.toNat + 4)
  else if c == '+' then some 62
  else if c == '/' then some 63
  else none

private def base64Groups : Nat → List Char → Option (List UInt8)
  | _, [] => some []
  | 0, _ => none
  | fuel + 1, a :: b :: c :: d :: rest => do
    let a ← base64Digit? a
    let b ← base64Digit? b
    let first := (a * 4 + b / 16).toUInt8
    if c == '=' then
      if d == '=' && rest.isEmpty then some [first] else none
    else
      let c ← base64Digit? c
      let second := (b % 16 * 16 + c / 4).toUInt8
      if d == '=' then
        if rest.isEmpty then some [first, second] else none
      else
        let d ← base64Digit? d
        let tail ← base64Groups fuel rest
        return first :: second :: (c % 4 * 64 + d).toUInt8 :: tail
  | _, _ => none

/-- The bytes that a base-64 text encodes; line breaks inside it are ignored. -/
def decodeBase64 (text : String) : Option (List UInt8) :=
  let chars := text.toList.filter fun c => c != '\n' && c != '\r'
  base64Groups (chars.length + 1) chars

/-- Reads a scalar as text. Nothing reads as the empty text; a scalar that does not fit its tag, and
any collection, cannot be read. -/
def toText? : Node → Option Octets
  | .scalar _ tag text =>
    if tag == "!!binary" then (decodeBase64 text).map Octets.mk
    else match Scalar.ofTagged? tag text with
      | none => none
      | some .null => some ""
      | some _ => some text
  | _ => none

/-- Reads a scalar as a truth value; the words for yes and no count as well. Nothing reads as
false. -/
def toBool? : Node → Option Bool
  | .scalar start tag text =>
    match Scalar.ofTagged? tag text with
    | some .null => some false
    | some (.bool value) => some value
    | some .text =>
      let word := (((Node.scalar start tag text).toText?).map Octets.text).getD ""
      if ["y", "Y", "yes", "Yes", "YES", "on", "On", "ON"].contains word then some true
      else if ["n", "N", "no", "No", "NO", "off", "Off", "OFF"].contains word then some false
      else none
    | _ => none
  | _ => none

/-- Reads a scalar as a whole number of 64 bits. A fraction is cut off; numbers below the least one
count as the least one. The inner `none` stands for nothing. -/
def toInt64? : Node → Option (Option Int)
  | .scalar _ tag text =>
    match Scalar.ofTagged? tag text with
    | some .null => some none
    | some (.int value) => if Numeral.fitsInt64 value then some (some value) else none
    | some (.float value) =>
      match value with
      | .nan => none
      | .infinite negative => if negative then some (some Numeral.minInt64) else none
      | value => match value.truncate? with
        | none => none
        | some whole =>
          if Numeral.fitsInt64 whole then some (some whole)
          else if whole ≤ Numeral.maxInt64 + 1 then some (some Numeral.minInt64)
          else none
    | _ => none
  | _ => none

end Node

/-- A document: its root, and the nodes that aliases name. -/
structure Graph where
  root : Node
  /-- The nodes with anchors, by the numbers of their anchors; none of them is an alias. -/
  anchored : Array Node := #[]
deriving Inhabited

namespace Graph

def target (graph : Graph) : Node → Node
  | .alias _ _ anchor => graph.anchored.getD anchor default
  | node => node

/-- Reads a sequence of whole numbers; items that stand for nothing are left out. -/
def toInt64s? (graph : Graph) (node : Node) : Option (List Int) :=
  match graph.target node with
  | .sequence _ _ items =>
    (items.mapM fun item => (graph.target item).toInt64?).map fun found => found.filterMap id
  | _ => none

end Graph

end TreeCheck.Document
