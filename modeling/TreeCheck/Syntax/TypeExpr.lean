import TreeCheck.Source
import TreeCheck.Text.Octets

/-!
Written types, as they stand in annotations and signatures.
-/

namespace TreeCheck

/-- Type syntax: `Name<A, B>`, `&T`, `&mut T`, `[T]`, `(A, B)` and `fn(A, B) -> R`. -/
inductive TypeForm (Name : Type) where
  | named (name : Name) (args : List (TypeForm Name))
  | ref (mutable : Bool) (target : TypeForm Name)
  | array (element : TypeForm Name)
  | tuple (elements : List (TypeForm Name))
  | function (params : List (TypeForm Name)) (result : Option (TypeForm Name))
deriving Repr, Inhabited

namespace TypeForm

variable {Name Other Spelling : Type}

mutual

/-- The same syntax over other names. -/
def map (rename : Name → Other) : TypeForm Name → TypeForm Other
  | .named name args => .named (rename name) (mapAll rename args)
  | .ref mutable target => .ref mutable (map rename target)
  | .array element => .array (map rename element)
  | .tuple elements => .tuple (mapAll rename elements)
  | .function params none => .function (mapAll rename params) none
  | .function params (some result) => .function (mapAll rename params) (some (map rename result))

def mapAll (rename : Name → Other) : List (TypeForm Name) → List (TypeForm Other)
  | [] => []
  | t :: rest => map rename t :: mapAll rename rest

end

mutual

/-- The spelling of a type, given those of names and marks; an omitted result is spelled as the empty tuple. -/
def spell [Append Spelling] (word : Name → Spelling) (mark : String → Spelling) : TypeForm Name → Spelling
  | .named name [] => word name
  | .named name (arg :: args) => word name ++ mark "<" ++ spellAll word mark (arg :: args) ++ mark ">"
  | .ref true target => mark "&mut " ++ spell word mark target
  | .ref false target => mark "&" ++ spell word mark target
  | .array element => mark "[" ++ spell word mark element ++ mark "]"
  | .tuple elements => mark "(" ++ spellAll word mark elements ++ mark ")"
  | .function params none => mark "fn(" ++ spellAll word mark params ++ mark ") -> ()"
  | .function params (some result) =>
    mark "fn(" ++ spellAll word mark params ++ mark ") -> " ++ spell word mark result

/-- Spellings separated by commas. -/
def spellAll [Append Spelling] (word : Name → Spelling) (mark : String → Spelling) :
    List (TypeForm Name) → Spelling
  | [] => mark ""
  | [last] => spell word mark last
  | first :: rest => spell word mark first ++ mark ", " ++ spellAll word mark rest

end

/-- The spelling of a type whose names are bytes. -/
def octets (t : TypeForm Octets) : Octets := t.spell id Octets.ofText

/-- The spelling of a type whose names are texts. -/
def text (t : TypeForm String) : String := t.spell id id

end TypeForm

/-- A written type over names that are texts. -/
abbrev TypeExpr : Type := TypeForm String

/-- A type as written at a place of the source. -/
structure WrittenType where
  span : Span
  type : TypeExpr
deriving Repr, Inhabited

def WrittenType.text (t : WrittenType) : String := t.type.text

end TreeCheck
