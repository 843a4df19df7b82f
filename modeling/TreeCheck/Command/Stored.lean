import TreeCheck.Command.Output
import TreeCheck.Document.Reader

/-!
Stored results as text. They are written as JSON, which can be read back as a document.
-/

namespace TreeCheck

open Command (Json)

open Document (Node)

namespace Cache

/-! ### Writing -/

def Entry.json (e : Entry) : Json :=
  .object [("key", .string e.key), ("function", .string e.function), ("written", .number e.written),
    ("diagnostics", .array (e.diagnostics.map Json.ofDiagnostic))]

def text (c : Cache) : String :=
  (Json.object [("results", .array (c.entries.map Entry.json))]).text

/-! ### Reading -/

abbrev Fields : Type := List (String × Node)

def readFields? : Node → Option Fields
  | .mapping _ _ entries => some (entries.map fun entry => (entry.key.keyText, entry.value))
  | _ => none

def Fields.text? (fields : Fields) (name : String) : Option String :=
  match List.lookup name fields with
  | none => some ""
  | some node => (node.toText?).map Octets.text

def Fields.number? (fields : Fields) (name : String) : Option Int := do
  (← List.lookup name fields).toInt64?.join

def Fields.items? (fields : Fields) (name : String) : Option (List Node) :=
  match List.lookup name fields with
  | none => some []
  | some (.sequence _ _ items) => some items
  | some _ => none

def Fields.fields? (fields : Fields) (name : String) : Option Fields := do
  readFields? (← List.lookup name fields)

def readPosition? (fields : Fields) : Option Position := do
  return {
    file := ← fields.text? "file", line := ← fields.number? "line"
    column := ← fields.number? "column", offset := ← fields.number? "offset" }

def readSpan? (fields : Fields) : Option Span := do
  return ⟨← readPosition? (← fields.fields? "start"), ← readPosition? (← fields.fields? "end")⟩

def readLabel? (node : Node) : Option Diagnostic.Label := do
  let fields : Fields ← readFields? node
  return ⟨← readSpan? (← fields.fields? "span"), ← fields.text? "message"⟩

def readDiagnostic? (node : Node) : Option Diagnostic := do
  let fields : Fields ← readFields? node
  return {
    kind := ← (Diagnostic.Kind.decode (← fields.text? "kind")).toOption
    message := ← fields.text? "message"
    span := ← readSpan? (← fields.fields? "span")
    secondary := ← (← fields.items? "secondary").mapM readLabel?
    hint := ← fields.text? "hint"
    function := ← fields.text? "function"
    detail := ← fields.text? "detail" }

def readEntry? (node : Node) : Option Entry := do
  let fields : Fields ← readFields? node
  return {
    key := ← fields.text? "key", function := ← fields.text? "function"
    written := ← fields.number? "written"
    diagnostics := ← (← fields.items? "diagnostics").mapM readDiagnostic? }

/-- Reads back what was written. Entries that cannot be read are dropped. -/
def ofText? (path text : String) : Option Cache := do
  let document ← (Document.read text).toOption
  let fields : Fields ← readFields? document.root
  return { path, entries := (← fields.items? "results").filterMap readEntry? }

end Cache

end TreeCheck
