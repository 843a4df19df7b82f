import TreeCheck.Text.Quoted

/-!
Semantic versions: three numbers, an optional prerelease and optional build metadata. The minor and
patch numbers may be left out.
-/

namespace TreeCheck

structure Version where
  major : Nat
  minor : Nat
  patch : Nat
  prerelease : String := ""
  build : String := ""
deriving DecidableEq, Repr, Inhabited

namespace Version

def text (v : Version) : String :=
  s!"{v.major}.{v.minor}.{v.patch}"
    ++ (if v.prerelease.isEmpty then "" else "-" ++ v.prerelease)
    ++ (if v.build.isEmpty then "" else "+" ++ v.build)

/-- Why a text is no version. -/
inductive Fault where
  | malformed
  | tooLarge (digits : String)
  | leadingZero
deriving DecidableEq, Repr

def Fault.message : Fault → String
  | .malformed => "Invalid Semantic Version"
  | .tooLarge digits =>
    "Error parsing version segment: strconv.ParseUint: parsing " ++ Text.quote digits
      ++ ": value out of range"
  | .leadingZero => "Version segment starts with 0"

/-- The parts of a version as written. The numbers may be wild cards. -/
structure Parts where
  major : List Char
  minor : Option (List Char)
  patch : Option (List Char)
  /-- The prerelease with its hyphen, or nothing. -/
  prerelease : List Char
  /-- The metadata with its plus sign, or nothing. -/
  build : List Char
deriving Repr

def isLabelChar (c : Char) : Bool := c.isAlphanum || c == '-'

/-- Labels separated by points, after a mark; nothing if no label follows the mark. -/
def splitLabels (mark : Char) (text : List Char) : List Char × List Char :=
  let rec go : Nat → List Char → List Char × List Char
    | 0, text => ([], text)
    | fuel + 1, text =>
      let label := text.takeWhile isLabelChar
      let rest := text.dropWhile isLabelChar
      match rest with
      | '.' :: c :: tail =>
        if isLabelChar c then
          let (more, rest) := go fuel (c :: tail)
          (label ++ '.' :: more, rest)
        else (label, rest)
      | _ => (label, rest)
  match text with
  | c :: d :: tail =>
    if c == mark && isLabelChar d then
      let (labels, rest) := go (tail.length + 2) (d :: tail)
      (c :: labels, rest)
    else ([], text)
  | _ => ([], text)

/-- Splits a version off the front of a text; `isDigit` says what its numbers are made of. -/
def split? (isDigit : Char → Bool) (text : List Char) : Option (Parts × List Char) :=
  let text := match text with
    | 'v' :: rest => rest
    | chars => chars
  let segment (text : List Char) : Option (List Char) × List Char :=
    match text with
    | '.' :: c :: rest =>
      if isDigit c then (some ((c :: rest).takeWhile isDigit), (c :: rest).dropWhile isDigit)
      else (none, text)
    | _ => (none, text)
  let major := text.takeWhile isDigit
  if major.isEmpty then none
  else
    let (minor, rest) := segment (text.dropWhile isDigit)
    let (patch, rest) := if minor.isSome then segment rest else (none, rest)
    let (prerelease, rest) := splitLabels '-' rest
    let (build, rest) := splitLabels '+' rest
    some ({ major, minor, patch, prerelease, build }, rest)

/-- The greatest number that a version can have, of 64 bits. -/
def maxNumber : Nat := 18446744073709551615

private def readSegment (digits : List Char) : Except Fault Nat :=
  let value := digits.foldl (fun n c => n * 10 + (c.toNat - '0'.toNat)) 0
  if value ≤ maxNumber then .ok value else .error (.tooLarge (String.ofList digits))

def labels (prerelease : String) : List String := prerelease.splitOn "."

/-- Reads a whole text as a version. A number among the prerelease labels has no leading zero. -/
def ofChars (text : List Char) : Except Fault Version :=
  match split? Char.isDigit text with
  | some (parts, []) => do
    let major ← readSegment parts.major
    let minor ← readSegment (parts.minor.getD ['0'])
    let patch ← readSegment (parts.patch.getD ['0'])
    let prerelease := String.ofList parts.prerelease.tail
    let zeroLed (label : String) : Bool :=
      label.length > 1 && label.all Char.isDigit && label.startsWith "0"
    if (labels prerelease).any zeroLed then .error .leadingZero
    else return { major, minor, patch, prerelease, build := String.ofList parts.build.tail }
  | _ => .error .malformed

def ofText (text : String) : Except Fault Version := ofChars text.toList

private def labelNumber? (label : String) : Option Nat :=
  if label.isEmpty || !label.all Char.isDigit then none
  else
    let value := label.toList.foldl (fun n c => n * 10 + (c.toNat - '0'.toNat)) 0
    if value ≤ maxNumber then some value else none

/-- Numbers come before words; numbers are ordered by value, words by their characters, and a
missing label comes first. Two spellings of one number count as descending. -/
def compareLabels (a b : String) : Ordering :=
  if a == b then .eq
  else if a.isEmpty then .lt
  else if b.isEmpty then .gt
  else
    match labelNumber? a, labelNumber? b with
    | none, none => if b < a then .gt else .lt
    | some _, none => .lt
    | none, some _ => .gt
    | some m, some n => if n < m then .gt else .lt

private def compareLabelLists : List String → List String → Ordering
  | [], [] => .eq
  | a :: as, [] => (compareLabels a "").then (compareLabelLists as [])
  | [], b :: bs => (compareLabels "" b).then (compareLabelLists [] bs)
  | a :: as, b :: bs => (compareLabels a b).then (compareLabelLists as bs)

def comparePrerelease (a b : String) : Ordering := compareLabelLists (labels a) (labels b)

/-- The precedence of versions: a prerelease precedes its release, and metadata plays no part. -/
def order (v w : Version) : Ordering :=
  (compare v.major w.major).then <| (compare v.minor w.minor).then <|
    (compare v.patch w.patch).then <|
      if v.prerelease.isEmpty && w.prerelease.isEmpty then .eq
      else if v.prerelease.isEmpty then .gt
      else if w.prerelease.isEmpty then .lt
      else comparePrerelease v.prerelease w.prerelease

end Version

end TreeCheck
