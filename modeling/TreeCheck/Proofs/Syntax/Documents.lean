import TreeCheck.Proofs.Symbol.Collection
import TreeCheck.Proofs.Syntax.Decoded

/-!
Documents of a few nodes, all of which stand at one place, and the programs that are read from them.
-/

namespace TreeCheck.Syntax

def textNode (text : String) : Document.Node := .scalar default "!!str" text

def truthNode (text : String) : Document.Node := .scalar default "!!bool" text

def numberNode (text : String) : Document.Node := .scalar default "!!int" text

def listNode (items : List Document.Node) : Document.Node := .sequence default "!!seq" items

def mappingNode (entries : List (String × Document.Node)) : Document.Node :=
  .mapping default "!!map" (entries.map fun entry => .mk (textNode entry.1) entry.2)

def documentOf (items : List Document.Node) : Input where
  file := "t.yaml"
  document := { root := mappingNode [("items", listNode items)] }

/-- Where everything in these documents stands. -/
def origin : Span := .point "t.yaml" 1 1

/-- What is known about a node before the nodes are numbered. -/
def unnumbered : NodeInfo := ⟨0, origin⟩

def boolean : WrittenType := ⟨origin, .named "bool" []⟩

/-- A struct without a name. -/
def unnamed : StructDecl := ⟨"", [], [⟨"x", boolean, origin⟩], origin⟩

/-! ### A match on an enum -/

/-- An enum with a variant of each kind. -/
def shape : EnumDecl where
  name := "E"
  typeParams := []
  variants := [⟨"A", [some boolean], [], origin⟩,
    ⟨"B", [], [⟨"x", boolean, origin⟩, ⟨"y", boolean, origin⟩], origin⟩]
  span := origin

def matchingOn (patterns : List Document.Node) : Input :=
  documentOf [mappingNode [("enum", textNode "E"), ("variants", mappingNode [("A", listNode [textNode "bool"]),
      ("B", mappingNode [("x", textNode "bool"), ("y", textNode "bool")])])],
    mappingNode [("fn", textNode "f"), ("params", listNode [mappingNode [("e", textNode "E")]]),
      ("returns", textNode "bool"),
      ("value", mappingNode [("match", textNode "e"), ("arms", listNode (patterns.map fun pattern =>
        mappingNode [("pattern", pattern), ("body", truthNode "true")]))])]]

def matchingFunction (patterns : List Pattern) : FuncDecl :=
  { (default : FuncDecl) with
    name := "f"
    params := [⟨"e", ⟨origin, .named "E" []⟩, false, origin⟩]
    result := some boolean
    body := .mk unnumbered [] (some (.select unnumbered (.ident unnumbered "e")
      (patterns.map fun pattern => .mk origin pattern none (.bool unnumbered true))))
    span := origin }

def matchingProgram (patterns : List Pattern) : Program :=
  (Program.number ⟨"", "t.yaml", [.enum shape, .function (matchingFunction patterns)]⟩).1

/-- The function with its nodes numbered. -/
def matching (patterns : List Pattern) : FuncDecl :=
  { matchingFunction patterns with body := ((matchingFunction patterns).body.number 0).1 }

theorem matchingProgram_named (patterns : List Pattern) : (matchingProgram patterns).Named := by
  have items : (matchingProgram patterns).items = [.enum shape, .function (matching patterns)] := rfl
  simp [Program.Named, items, Item.typeName?, shape]

theorem matching_mem (patterns : List Pattern) :
    (matching patterns, 0) ∈ (matchingProgram patterns).functions.zipIdx := List.mem_cons_self

end TreeCheck.Syntax
