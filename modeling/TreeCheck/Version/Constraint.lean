import TreeCheck.Version.Basic

/-!
Version constraints such as `>= 0.1, < 0.3 || ^1.2`: alternatives of comparisons that must all hold.
-/

namespace TreeCheck.Version

/-- What a comparison demands. -/
inductive Operator where
  | equal
  | notEqual
  | greater
  | less
  | atLeast
  | atMost
  | tilde
  | caret
deriving DecidableEq, Repr

/-- How much of the version in a comparison is written out. -/
inductive Precision where
  | full
  | toMinor
  | toMajor
  | any
deriving DecidableEq, Repr

/-- One comparison with a version. Missing numbers of the bound count as zero. -/
structure Comparison where
  operator : Operator
  bound : Version
  precision : Precision
  /-- The bound as it was written. -/
  written : String
deriving Repr

/-- Alternatives, of which one must hold. -/
structure Constraint where
  alternatives : List (List Comparison)
deriving Repr

namespace Comparison

private def check (holds : Bool) (v : Version) (fault : String) (c : Comparison) :
    Except String Unit :=
  if holds then .ok () else .error (v.text ++ " " ++ fault ++ " " ++ c.written)

/-- Within the written numbers, and not below the bound. -/
def checkTilde (c : Comparison) (v : Version) : Except String Unit := do
  let b := c.bound
  check (v.order b != .lt) v "is less than" c
  let everything := b.major == 0 && b.minor == 0 && b.patch == 0
    && (c.precision == .full || c.precision == .any)
  if !everything then
    check (v.major == b.major) v "does not have same major version as" c
    check (v.minor == b.minor || c.precision == .toMajor) v
      "does not have same major and minor version as" c

/-- Up to the next change of the leftmost number that is not zero, and not below the bound. -/
def checkCaret (c : Comparison) (v : Version) : Except String Unit := do
  let b := c.bound
  check (v.order b != .lt) v "is less than" c
  if 0 < b.major || c.precision == .toMajor then
    check (v.major == b.major) v "does not have same major version as" c
  else do
    check (v.major == 0) v "does not have same major version as" c
    if 0 < b.minor || c.precision == .toMinor then
      if v.minor != b.minor then
        .error (v.text ++ " does not have same minor version as " ++ c.written
          ++ ". Expected minor versions to match when constraint major version is 0")
    else do
      check (v.minor == 0) v "does not have same minor version as" c
      if v.patch != b.patch then
        .error (v.text ++ " does not equal " ++ c.written
          ++ ". Expect version and constraint to equal when major and minor versions are 0")

/-- Above everything that the bound leaves open. -/
def isGreater (c : Comparison) (v : Version) : Bool :=
  let b := c.bound
  match c.precision with
  | .full => v.order b == .gt
  | .toMajor => b.major < v.major
  | .toMinor => b.major < v.major || (v.major == b.major && b.minor < v.minor)
  | .any => b.major < v.major || (v.major == b.major && v.order b == .gt)

/-- Not above everything that the bound leaves open. -/
def isAtMost (c : Comparison) (v : Version) : Bool :=
  let b := c.bound
  match c.precision with
  | .full => v.order b != .gt
  | .toMajor => v.major ≤ b.major
  | .toMinor | .any => v.major < b.major || (v.major == b.major && v.minor ≤ b.minor)

def differs (c : Comparison) (v : Version) : Bool :=
  let b := c.bound
  match c.precision with
  | .full => v.order b != .eq
  | .toMajor => v.major != b.major
  | .toMinor => v.major != b.major || v.minor != b.minor
    || ((!v.prerelease.isEmpty || !b.prerelease.isEmpty)
      && comparePrerelease v.prerelease b.prerelease != .eq)
  | .any => v.major != b.major || v.minor != b.minor || v.patch != b.patch || v.order b != .eq

/-- The reason why a version fails a comparison. -/
def validate (c : Comparison) (v : Version) : Except String Unit :=
  match c.operator with
  | .equal =>
    if c.precision != .full then c.checkTilde v
    else check (v.order c.bound == .eq) v "is not equal to" c
  | .notEqual => check (c.differs v) v "is equal to" c
  | .greater => check (c.isGreater v) v "is less than or equal to" c
  | .less => check (v.order c.bound == .lt) v "is greater than or equal to" c
  | .atLeast => check (v.order c.bound != .lt) v "is less than" c
  | .atMost => check (c.isAtMost v) v "is greater than" c
  | .tilde => c.checkTilde v
  | .caret => c.checkCaret v

end Comparison

private def isWildDigit (c : Char) : Bool :=
  c.isDigit || c == 'x' || c == 'X' || c == '*' || c == '|'

private def isGapChar (c : Char) : Bool :=
  c == ' ' || c == '\t' || c == '\n' || c == '\x0c' || c == '\r'

private def skipGap (text : List Char) : List Char := text.dropWhile isGapChar

private def splitOperator : List Char → Option (Operator × List Char)
  | '>' :: '=' :: rest => some (.atLeast, rest)
  | '=' :: '>' :: rest => some (.atLeast, rest)
  | '<' :: '=' :: rest => some (.atMost, rest)
  | '=' :: '<' :: rest => some (.atMost, rest)
  | '!' :: '=' :: rest => some (.notEqual, rest)
  | '~' :: '>' :: rest => some (.tilde, rest)
  | '~' :: rest => some (.tilde, rest)
  | '^' :: rest => some (.caret, rest)
  | '>' :: rest => some (.greater, rest)
  | '<' :: rest => some (.less, rest)
  | '=' :: rest => some (.equal, rest)
  | '!' :: _ => none
  | rest => some (.equal, rest)

private def boundOf? (written : List Char) (parts : Parts) : Option (Version × Precision) :=
  let isWild (segment : Option (List Char)) : Bool :=
    match segment with
    | none => true
    | some segment => segment == ['x'] || segment == ['X'] || segment == ['*']
  let (text, precision) :=
    if isWild (some parts.major) then ("0.0.0".toList ++ parts.prerelease, Precision.any)
    else if isWild parts.minor then (parts.major ++ ".0.0".toList ++ parts.prerelease, .toMajor)
    else if isWild parts.patch then
      (parts.major ++ '.' :: parts.minor.getD [] ++ ".0".toList ++ parts.prerelease, .toMinor)
    else (written, .full)
  (ofChars text).toOption.map fun bound => (bound, precision)

/-- Why a text is no constraint. -/
inductive Constraint.Fault where
  | improper (segment : String)
  | badVersion
deriving DecidableEq, Repr

def Constraint.Fault.message : Constraint.Fault → String
  | .improper segment => "improper constraint: " ++ segment
  | .badVersion => "constraint Parser Error"

/-- An operator with the text and the parts of its version. -/
private abbrev RawComparison : Type := Operator × List Char × Parts

private def splitComparison? (text : List Char) : Option (RawComparison × List Char) := do
  let (operator, rest) ← splitOperator (skipGap text)
  let start := skipGap rest
  let (parts, rest) ← split? isWildDigit start
  return ((operator, start.take (start.length - rest.length), parts), rest)

/-- Comparisons separated by blanks or commas. -/
private def splitComparisons? : Nat → List Char → Option (List RawComparison)
  | 0, _ => none
  | fuel + 1, text => do
    let (first, rest) ← splitComparison? text
    match rest with
    | [] => return [first]
    | c :: _ =>
      match skipGap rest with
      | [] => return [first]
      | ',' :: rest => return first :: (← splitComparisons? fuel rest)
      | rest => if isGapChar c then return first :: (← splitComparisons? fuel rest) else none

private def readAlternative (segment : String) : Except Constraint.Fault (List Comparison) :=
  match splitComparisons? (segment.length + 1) segment.toList with
  | none => .error (.improper segment)
  | some raw => raw.mapM fun (operator, written, parts) =>
    match boundOf? written parts with
    | some (bound, precision) =>
      .ok { operator, bound, precision, written := String.ofList written }
    | none => .error .badVersion

private def splitRange? (text : List Char) : Option (List Char × List Char × List Char) := do
  let low := skipGap text
  let (_, rest) ← split? isWildDigit low
  guard (isGapChar (rest.headD '-'))
  match skipGap rest with
  | '-' :: afterDash =>
    guard (isGapChar (afterDash.headD '-'))
    let high := skipGap afterDash
    let (_, tail) ← split? isWildDigit high
    return (low.take (low.length - rest.length), high.take (high.length - tail.length), skipGap tail)
  | _ => none

/-- Replaces ranges by a pair of comparisons. -/
private def expandRanges : Nat → List Char → List Char
  | 0, text => text
  | _, [] => []
  | fuel + 1, c :: rest =>
    match splitRange? (c :: rest) with
    | some (low, high, tail) =>
      ">= ".toList ++ low ++ ", <= ".toList ++ high ++ ' ' :: expandRanges fuel tail
    | none => c :: expandRanges fuel rest

namespace Constraint

def ofText (text : String) : Except Fault Constraint := do
  let expanded := String.ofList (expandRanges (text.length + 1) text.toList)
  return ⟨← (expanded.splitOn "||").mapM readAlternative⟩

/-- The faults of one alternative. A prerelease satisfies only comparisons with a prerelease, which
is reported once. -/
private def faultsOf (v : Version) : Bool → List Comparison → List String × Bool × Bool
  | reported, [] => ([], reported, true)
  | reported, c :: rest =>
    if c.bound.prerelease.isEmpty && !v.prerelease.isEmpty then
      let fault := if reported then [] else
        [v.text ++ " is a prerelease version and the constraint is only looking for release versions"]
      let (faults, reported, _) := faultsOf v true rest
      (fault ++ faults, reported, false)
    else
      let (faults, reported, holds) := faultsOf v reported rest
      match c.validate v with
      | .ok () => (faults, reported, holds)
      | .error fault => (fault :: faults, reported, false)

private def faultsFrom (v : Version) : Bool → List (List Comparison) → Option (List String)
  | _, [] => some []
  | reported, alternative :: rest =>
    let (faults, reported, holds) := faultsOf v reported alternative
    if holds then none else (faultsFrom v reported rest).map (faults ++ ·)

/-- The faults of a version against all alternatives; none if one of them holds. -/
def faults? (constraint : Constraint) (v : Version) : Option (List String) :=
  faultsFrom v false constraint.alternatives

end Constraint

end TreeCheck.Version
