/-!
Changes of a watched file: a set of file operations.
-/

namespace TreeCheck

/-- A set of file operations, one bit each. -/
structure Change where
  bits : UInt32
deriving DecidableEq, Repr

namespace Change

/-- The operations with their bits, in the order in which they are listed. -/
def operations : List (UInt32 × String) :=
  [(1, "create"), (2, "write"), (4, "remove"), (8, "rename")]

def text (change : Change) : String :=
  match operations.filter fun (bit, _) => change.bits &&& bit != 0 with
  | [] => "none"
  | present => "|".intercalate (present.map Prod.snd)

/-- Whether the file may be gone after the change. -/
def mayRemove (change : Change) : Bool := change.bits &&& 12 != 0

end Change

end TreeCheck
