import TreeCheck.Source
import TreeCheck.Text.Quoted

/-!
Diagnostics: what an analysis reports about a program, and the bags that collect them. A bag keeps
the first of several diagnostics that agree in kind, span text and message.
-/

namespace TreeCheck

namespace Diagnostic

/-- The stage that a kind of diagnostic belongs to. -/
inductive Category where
  | typing
  | ownership
  | pattern
  | internal
deriving DecidableEq, Repr, Inhabited

def Category.text : Category → String
  | .typing => "TypeError"
  | .ownership => "OwnershipError"
  | .pattern => "PatternError"
  | .internal => "InternalError"

inductive Kind where
  | typeMismatch
  | unresolvedType
  | ambiguousOverload
  | undefinedName
  | arityMismatch
  | invalidCast
  | duplicateDefinition
  | useAfterMove
  | conflictingBorrow
  | mutateThroughImmutableBinding
  | danglingReference
  | borrowOutlivesOwner
  | nonExhaustiveMatch
  | unreachableArm
  | analysisAborted
  /-- A number that the catalogue does not list. -/
  | unlisted (number : Int)
deriving DecidableEq, Repr, Inhabited

namespace Kind

/-- The listed kinds, in the order of their numbers. -/
def catalogue : List Kind :=
  [.typeMismatch, .unresolvedType, .ambiguousOverload, .undefinedName, .arityMismatch,
    .invalidCast, .duplicateDefinition, .useAfterMove, .conflictingBorrow,
    .mutateThroughImmutableBinding, .danglingReference, .borrowOutlivesOwner,
    .nonExhaustiveMatch, .unreachableArm, .analysisAborted]

def number : Kind → Int
  | .typeMismatch => 0
  | .unresolvedType => 1
  | .ambiguousOverload => 2
  | .undefinedName => 3
  | .arityMismatch => 4
  | .invalidCast => 5
  | .duplicateDefinition => 6
  | .useAfterMove => 7
  | .conflictingBorrow => 8
  | .mutateThroughImmutableBinding => 9
  | .danglingReference => 10
  | .borrowOutlivesOwner => 11
  | .nonExhaustiveMatch => 12
  | .unreachableArm => 13
  | .analysisAborted => 14
  | .unlisted n => n

def ofNumber (n : Int) : Kind :=
  (catalogue.find? fun kind => kind.number == n).getD (.unlisted n)

def name : Kind → String
  | .typeMismatch => "TypeMismatch"
  | .unresolvedType => "UnresolvedType"
  | .ambiguousOverload => "AmbiguousOverload"
  | .undefinedName => "UndefinedName"
  | .arityMismatch => "ArityMismatch"
  | .invalidCast => "InvalidCast"
  | .duplicateDefinition => "DuplicateDefinition"
  | .useAfterMove => "UseAfterMove"
  | .conflictingBorrow => "ConflictingBorrow"
  | .mutateThroughImmutableBinding => "MutateThroughImmutableBinding"
  | .danglingReference => "DanglingReference"
  | .borrowOutlivesOwner => "BorrowOutlivesOwner"
  | .nonExhaustiveMatch => "NonExhaustiveMatch"
  | .unreachableArm => "UnreachableArm"
  | .analysisAborted => "AnalysisAborted"
  | .unlisted _ => "unknown"

def code : Kind → String
  | .typeMismatch => "E0100"
  | .unresolvedType => "E0101"
  | .ambiguousOverload => "E0102"
  | .undefinedName => "E0103"
  | .arityMismatch => "E0104"
  | .invalidCast => "E0105"
  | .duplicateDefinition => "E0106"
  | .useAfterMove => "E0200"
  | .conflictingBorrow => "E0201"
  | .mutateThroughImmutableBinding => "E0202"
  | .danglingReference => "E0203"
  | .borrowOutlivesOwner => "E0204"
  | .nonExhaustiveMatch => "E0300"
  | .unreachableArm => "E0301"
  | .analysisAborted => "E0900"
  | .unlisted _ => "E0000"

def category : Kind → Category
  | .typeMismatch | .unresolvedType | .ambiguousOverload | .undefinedName | .arityMismatch
  | .invalidCast | .duplicateDefinition => .typing
  | .useAfterMove | .conflictingBorrow | .mutateThroughImmutableBinding | .danglingReference
  | .borrowOutlivesOwner => .ownership
  | .nonExhaustiveMatch | .unreachableArm => .pattern
  | .analysisAborted | .unlisted _ => .internal

/-- The name under which a kind is stored; an unlisted number has none. -/
def encode : Kind → Except String String
  | .unlisted n => .error s!"unknown diagnostic kind {n}"
  | kind => .ok kind.name

/-- Reads back the name of a listed kind. -/
def decode (text : String) : Except String Kind :=
  match catalogue.find? fun kind => kind.name == text with
  | some kind => .ok kind
  | none => .error s!"unknown diagnostic kind {Text.quote text}"

end Kind

/-- A remark attached to a second place. -/
structure Label where
  span : Span
  message : String
deriving DecidableEq, Repr, Inhabited

end Diagnostic

/-- One finding about a program. Empty texts stand for absent ones. -/
structure Diagnostic where
  kind : Diagnostic.Kind
  span : Span
  message : String
  secondary : List Diagnostic.Label := []
  hint : String := ""
  function : String := ""
  detail : String := ""
deriving DecidableEq, Repr, Inhabited

namespace Diagnostic

/-- Attaches a remark, unless its span is invalid. -/
def withLabel (d : Diagnostic) (span : Span) (message : String) : Diagnostic :=
  if span.isValid then { d with secondary := d.secondary ++ [⟨span, message⟩] } else d

def withHint (d : Diagnostic) (hint : String) : Diagnostic := { d with hint := hint }

def text (d : Diagnostic) : String :=
  s!"{d.span.text}: error[{d.kind.code}] {d.kind.name}: {d.message}"

def key (d : Diagnostic) : String := s!"{d.kind.number}|{d.span.text}|{d.message}"

/-- Orders by start of the span, then by kind. -/
def order (d e : Diagnostic) : Ordering :=
  (d.span.start.order e.span.start).then (compare d.kind.number e.kind.number)

/-- Sorts by `order`; equal ones keep their places. -/
def sort (ds : List Diagnostic) : List Diagnostic :=
  ds.mergeSort fun d e => d.order e != .gt

/-- The number of diagnostics of each category that occurs. -/
def summary (ds : List Diagnostic) : String :=
  if ds.isEmpty then "no diagnostics"
  else
    let part (category : Category) : Option String :=
      match ds.countP fun d => d.kind.category == category with
      | 0 => none
      | n => some s!"{n} {category.text}"
    ", ".intercalate ([Category.typing, .ownership, .pattern, .internal].filterMap part)

end Diagnostic

/-- Diagnostics without repetitions, in the order of their arrival. -/
structure Bag where
  contents : List Diagnostic := []
deriving Repr, Inhabited

namespace Bag

def holds (bag : Bag) (d : Diagnostic) : Bool := bag.contents.any fun e => e.key == d.key

def add (bag : Bag) (d : Diagnostic) : Bag :=
  if bag.holds d then bag else ⟨bag.contents ++ [d]⟩

def addAll (bag : Bag) (ds : List Diagnostic) : Bag := ds.foldl add bag

def merge (bag other : Bag) : Bag := bag.addAll other.contents

def size (bag : Bag) : Nat := bag.contents.length

def hasErrors (bag : Bag) : Bool := !bag.contents.isEmpty

def count (bag : Bag) (kind : Diagnostic.Kind) : Nat :=
  bag.contents.countP fun d => d.kind == kind

/-- The diagnostics sorted by place and kind. -/
def items (bag : Bag) : List Diagnostic := Diagnostic.sort bag.contents

end Bag

end TreeCheck
