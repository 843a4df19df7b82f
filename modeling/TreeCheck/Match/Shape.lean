import TreeCheck.Syntax.Printer
import TreeCheck.Ty.Decls

/-!
Shapes: patterns read against the type they match. Fields stand in the order of their declaration
with the omitted ones filled in, and references are explicit. A pattern that does not fit its type
becomes the shape that admits everything. A shape binds names to parts of the matched value, which
are told apart by the paths that lead to them.
-/

namespace TreeCheck

/-- The number of references around a type, and the type inside. -/
def Ty.strip : Ty → Nat × Ty
  | .ref _ target =>
    let (count, inner) := target.strip
    (count + 1, inner)
  | t => (0, t)

namespace Match

/-- One step into a value. -/
inductive Step where
  /-- An element of a tuple. -/
  | element (index : Nat)
  | field (index : Nat) (name : String)
  /-- A slot of the payload of a variant. -/
  | payload (variant : String) (index : Nat)
  /-- An element of an array. -/
  | item (index : Nat)
  /-- An array without its first elements. -/
  | rest (skipped : Nat)
  /-- What a reference points to. -/
  | target
deriving DecidableEq, Repr, Inhabited

def Step.text : Step → String
  | .element index => s!".{index}"
  | .field _ name => s!".{name}"
  | .payload variant index => s!".({variant}).{index}"
  | .item index => s!"[{index}]"
  | .rest skipped => s!"[{skipped}..]"
  | .target => ".*"

/-- The steps from the matched value down to one of its parts. -/
abbrev Path : Type := List Step

/-- The matched value itself is written `$`. -/
def Path.text (path : Path) : String := "$" ++ String.join (path.map Step.text)

/-- A name bound to the part at a path. -/
structure Extraction where
  name : String
  path : Path
deriving DecidableEq, Repr, Inhabited

inductive Shape where
  | any (bind : Option String)
  | bool (value : Bool)
  | variant (variant : Variant) (args : List Shape)
  | range (low high : Int)
  | string (value : Octets)
  | float (value : Binary64)
  /-- An array by its first elements; an open one may be longer, and the rest may be bound. -/
  | list (front : List Shape) (isOpen : Bool) (rest : Option String)
  /-- A tuple, a struct or unit. -/
  | product (args : List Shape)
  | target (inner : Shape)
  | choice (alternatives : List Shape)
  | guarded (inner : Shape)
deriving Repr, Inhabited

namespace Shape

def wild : Shape := .any none

def wilds (count : Nat) : List Shape := List.replicate count wild

/-- Cuts a list to a length, or fills it up with shapes that admit everything. -/
def fit (args : List Shape) (count : Nat) : List Shape :=
  args.take count ++ wilds (count - args.length)

def isAny : Shape → Bool
  | .any _ => true
  | _ => false

/-- Whether a shape takes a value apart without testing it. -/
def isProduct : Shape → Bool
  | .product _ | .target _ => true
  | _ => false

/-- What a shape binds to the whole value at a path. -/
def bound (path : Path) : Shape → List Extraction
  | .any (some name) => [⟨name, path⟩]
  | _ => []

def bindName (name : String) : Option String := if name.isEmpty then none else some name

def behind : Nat → Shape → Shape
  | 0, s => s
  | count + 1, s => .target (behind count s)

def ofLiteral : Literal → Ty → Shape
  | .bool value, .bool => .bool value
  | .int value, .int _ => .range value value
  | .string value, .string => .string value
  | .float value, .float _ => .float value
  | _, _ => wild

mutual

def ofPattern (decls : Decls) : Pattern → Ty → Shape
  | .wildcard _, _ => wild
  | .binding b, _ => .any (bindName b.name)
  | .alternatives _ choices, t => .choice (ofEach decls choices t)
  | .guarded _ inner _, t => .guarded (ofPattern decls inner t)
  | .literal _ value, t => behind t.strip.1 (ofLiteral value t.strip.2)
  | .range _ low high inclusive, t => behind t.strip.1 <|
    match t.strip.2 with
    | .int _ => .range low (if inclusive then high else high - 1)
    | _ => wild
  | .tuple _ elements, t => behind t.strip.1 <|
    match t.strip.2 with
    | .unit => .product []
    | .tuple types => .product (ofAll decls elements types)
    | _ => wild
  | .record _ _ fields _, t => behind t.strip.1 <|
    match t.strip.2 with
    | .struct name args =>
      let declared := decls.fields name args
      .product (ofFields decls fields declared (wilds declared.length))
    | _ => wild
  | .variant _ _ tag args fields _, t => behind t.strip.1 <|
    match t.strip.2 with
    | .enum name typeArgs =>
      match decls.enum? name with
      | none => wild
      | some d =>
        match d.variant? tag with
        | none => wild
        | some v =>
          let slots := Decls.slots d typeArgs v
          if v.isNamed then
            let declared := (v.fields.zip slots).map fun (f, type) => { f with type }
            .variant v (ofFields decls fields declared (wilds slots.length))
          else .variant v (ofAll decls args slots)
    | _ => wild
  | .list _ front isOpen rest, t => behind t.strip.1 <|
    match t.strip.2 with
    | .array element =>
      .list (ofEach decls front element) isOpen (rest.bind fun b => bindName b.name)
    | _ => wild

/-- Patterns against one type. -/
def ofEach (decls : Decls) : List Pattern → Ty → List Shape
  | [], _ => []
  | p :: rest, t => ofPattern decls p t :: ofEach decls rest t

def ofAll (decls : Decls) : List Pattern → List Ty → List Shape
  | [], types => wilds types.length
  | _ :: _, [] => []
  | p :: rest, t :: types => ofPattern decls p t :: ofAll decls rest types

/-- One shape for each declared field; of several patterns for a field the last counts. -/
def ofFields (decls : Decls) : List FieldPattern → List Field → List Shape → List Shape
  | [], _, shapes => shapes
  | .mk name p :: rest, declared, shapes =>
    ofFields decls rest declared <| (declared.zip shapes).map fun (f, old) =>
      if f.name == name then ofPattern decls p f.type else old

end

mutual

/-- The alternatives of a shape from left to right, and whether a guard decides about them. -/
def heads : Shape → List (Bool × Shape)
  | .choice alternatives => headsAll alternatives
  | .guarded inner => inner.heads.map fun (_, s) => (true, s)
  | .any bind => [(false, .any bind)]
  | .bool value => [(false, .bool value)]
  | .variant v args => [(false, .variant v args)]
  | .range low high => [(false, .range low high)]
  | .string value => [(false, .string value)]
  | .float value => [(false, .float value)]
  | .list front isOpen rest => [(false, .list front isOpen rest)]
  | .product args => [(false, .product args)]
  | .target inner => [(false, .target inner)]

def headsAll : List Shape → List (Bool × Shape)
  | [] => []
  | s :: rest => s.heads ++ headsAll rest

end

/-- The alternatives of a row of shapes; those of the first shape vary last. -/
def spread : List Shape → List (Bool × List Shape)
  | [] => [(false, [])]
  | s :: rest => s.heads.flatMap fun (unsure, head) =>
    (spread rest).map fun (more, tail) => (unsure || more, head :: tail)

/-- The alternatives of a shape that no guard decides about. -/
def sureHeads (s : Shape) : List Shape :=
  s.heads.filterMap fun (unsure, head) => if unsure then none else some head

mutual

/-- The number of shapes without choices that a shape stands for; a choice of nothing counts as one,
so that every shape around it still weighs something. -/
def count : Shape → Nat
  | .choice alternatives => max 1 (countSum alternatives)
  | .guarded inner => inner.count
  | .variant _ args => countProduct args
  | .list front _ _ => countProduct front
  | .product args => countProduct args
  | .target inner => inner.count
  | .any _ | .bool _ | .range .. | .string _ | .float _ => 1

def countSum : List Shape → Nat
  | [] => 0
  | s :: rest => s.count + countSum rest

def countProduct : List Shape → Nat
  | [] => 1
  | s :: rest => s.count * countProduct rest

end

mutual

/-- The number of tests in all shapes without choices that a shape stands for. -/
def weight : Shape → Nat
  | .choice alternatives => weightSum alternatives
  | .guarded inner => inner.weight
  | .variant _ args => weightProduct args + countProduct args
  | .list front _ _ => weightProduct front + countProduct front
  | .product args => weightProduct args + countProduct args
  | .target inner => inner.weight + inner.count
  | .any _ => 0
  | .bool _ | .range .. | .string _ | .float _ => 1

def weightSum : List Shape → Nat
  | [] => 0
  | s :: rest => s.weight + weightSum rest

def weightProduct : List Shape → Nat
  | [] => 0
  | s :: rest => s.weight * countProduct rest + s.count * weightProduct rest

end

mutual

/-- The number of constructors in a shape, `any` not counted. -/
def size : Shape → Nat
  | .choice alternatives => sizeAll alternatives + 1
  | .guarded inner => inner.size + 1
  | .variant _ args => sizeAll args + 1
  | .list front _ _ => sizeAll front + 1
  | .product args => sizeAll args + 1
  | .target inner => inner.size + 1
  | .any _ => 0
  | .bool _ | .range .. | .string _ | .float _ => 1

def sizeAll : List Shape → Nat
  | [] => 0
  | s :: rest => s.size + sizeAll rest

end

/-- A range as it is written; one value stands alone. -/
def rangeText (low high : Int) : String :=
  if low == high then toString low else s!"{low}..={high}"

mutual

def text : Shape → String
  | .any bind => bind.getD "_"
  | .bool value => (Literal.bool value).text
  | .variant v args => v.name ++ "(" ++ joined args ++ ")"
  | .range low high => rangeText low high
  | .string value => (Literal.string value).text
  | .float value => (Literal.float value).text
  | .list front isOpen rest =>
    let tail := if isOpen then rest.getD "" ++ ".." else ""
    let gap := if isOpen && joined front != "" then ", " else ""
    "[" ++ joined front ++ gap ++ tail ++ "]"
  | .product args => "(" ++ joined args ++ ")"
  | .target inner => "&" ++ inner.text
  | .choice alternatives => alternated alternatives
  | .guarded inner => inner.text ++ " if .."

def joined : List Shape → String
  | [] => ""
  | [s] => s.text
  | s :: rest => s.text ++ ", " ++ joined rest

def alternated : List Shape → String
  | [] => ""
  | [s] => s.text
  | s :: rest => s.text ++ " | " ++ alternated rest

end

end Shape

end Match

end TreeCheck
