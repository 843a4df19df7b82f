/-!
Places in source files. A position is a line and a column of a file; a span runs from one position
up to another.
-/

namespace TreeCheck

/-- A point of a source file. Lines and columns start at one; `offset` is zero when unknown. -/
structure Position where
  file : String := ""
  line : Int := 0
  column : Int := 0
  offset : Int := 0
deriving DecidableEq, Repr, Inhabited

/-- A range of source text, its end excluded. -/
structure Span where
  start : Position
  stop : Position
deriving DecidableEq, Repr, Inhabited

/-- The last component of a slash-separated path, trailing slashes ignored. -/
def baseName (path : String) : String :=
  let chars := path.toList.reverse
  if chars.isEmpty then "."
  else
    let trimmed := chars.dropWhile (· == '/')
    if trimmed.isEmpty then "/" else String.ofList (trimmed.takeWhile (· != '/')).reverse

namespace Position

def isValid (p : Position) : Bool := 0 < p.line && 0 < p.column && 0 ≤ p.offset

/-- Orders positions by file, line and column; the offset plays no part. -/
def order (p q : Position) : Ordering :=
  (compare p.file q.file).then ((compare p.line q.line).then (compare p.column q.column))

def before (p q : Position) : Bool := p.order q == .lt

def after (p q : Position) : Bool := p.order q == .gt

def text (p : Position) : String :=
  let place := s!"{p.line}:{p.column}"
  if p.file.isEmpty then place else s!"{baseName p.file}:{place}"

end Position

namespace Span

def point (file : String) (line column : Int) : Span :=
  let p : Position := { file := file, line := line, column := column }
  ⟨p, p⟩

/-- A span runs forward inside one file. -/
def isValid (s : Span) : Bool :=
  s.start.isValid && s.stop.isValid && s.start.file == s.stop.file && !s.stop.before s.start

def text (s : Span) : String :=
  if !s.isValid then "<unknown>"
  else if s.start == s.stop then s.start.text
  else
    let file := if s.start.file.isEmpty then "" else baseName s.start.file ++ ":"
    let range := s!"{s.start.line}:{s.start.column}-"
    if s.start.line == s.stop.line then s!"{file}{range}{s.stop.column}"
    else s!"{file}{range}{s.stop.line}:{s.stop.column}"

def contains (s : Span) (p : Position) : Bool :=
  s.isValid && p.isValid && s.start.file == p.file && !p.before s.start && p.before s.stop

/-- The least span around two spans of one file; an invalid span adds nothing, and of spans in
different files the first is kept. -/
def union (s other : Span) : Span :=
  if !s.isValid then other
  else if !other.isValid then s
  else if s.start.file != other.start.file then s
  else
    { start := if other.start.before s.start then other.start else s.start
      stop := if other.stop.after s.stop then other.stop else s.stop }

end Span

end TreeCheck
