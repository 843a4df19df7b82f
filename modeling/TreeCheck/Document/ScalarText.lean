import TreeCheck.Document.Cursor

/-!
The texts of scalars: plain, quoted, literal and folded. A single line break inside a plain, quoted
or folded scalar reads as a space.
-/

namespace TreeCheck.Document

open Scan

/-- Blanks between two pieces of a scalar: spaces on one line, or the first break and those after
it. -/
structure Gap where
  spaces : String := ""
  /-- Set once a break was read; spaces after it do not count. -/
  broken : Bool := false
  first : String := ""
  others : String := ""
deriving Repr, Inhabited

namespace Gap

def folded (gap : Gap) : String :=
  if !gap.broken then gap.spaces
  else if gap.first == "\n" then
    if gap.others.isEmpty then " " else gap.others
  else gap.first ++ gap.others

def addSpace (gap : Gap) (c : Char) : Gap :=
  if gap.broken then gap else { gap with spaces := gap.spaces.push c }

def addBreak (gap : Gap) (text : String) : Gap :=
  if gap.broken then { gap with others := gap.others ++ text }
  else { broken := true, first := text }

/-- Reads blanks and breaks. A tab before the given column on a fresh line is refused. -/
def read (tabColumn : Nat) : Nat → Gap → Scan Gap
  | 0, gap => return gap
  | fuel + 1, gap => do
    match ← ahead? with
    | none => return gap
    | some c =>
      if isSpace c then
        guard (!(gap.broken && c == '\t' && (← mark).column < tabColumn))
        skip
        look 1
        read tabColumn fuel (gap.addSpace c)
      else if isBreak c then
        look 2
        let text ← readBreak
        look 1
        read tabColumn fuel (gap.addBreak text)
      else return gap

end Gap

def endsPlain (inFlow : Bool) : List Char → Bool
  | [] => true
  | c :: rest =>
    isSpace c || isBreak c || (c == ':' && blankAhead rest)
      || (inFlow && (c == ',' || c == '?' || c == '[' || c == ']' || c == '\x7b' || c == '\x7d'))

/-- Reads the characters of a plain scalar up to a blank or an indicator that ends it. -/
def plainPiece (inFlow : Bool) : Nat → String → Scan String
  | 0, text => return text
  | fuel + 1, text => do
    match ← rest with
    | [] => return text
    | c :: others =>
      if endsPlain inFlow (c :: others) then return text
      else
        skip
        look 2
        plainPiece inFlow fuel (text.push c)

/-- A plain scalar as read. -/
structure PlainText where
  text : String := ""
  stop : Mark
  /-- Whether a break was read after it. -/
  broken : Bool := false

/-- Reads the pieces of a plain scalar. In block context a piece must be indented to `indent`. -/
def readPlainFrom (inFlow : Bool) (indent : Nat) :
    Nat → String → Gap → Mark → Scan PlainText
  | 0, text, gap, stop => return { text, stop, broken := gap.broken }
  | fuel + 1, text, gap, stop => do
    look 4
    if (← get).documentMarkAhead || (← ahead?) == some '#' then
      return { text, stop, broken := gap.broken }
    let piece ← plainPiece inFlow (← bound) ""
    let here ← mark
    let (text, gap, stop) :=
      if piece.isEmpty then (text, gap, stop) else (text ++ gap.folded ++ piece, {}, here)
    let ahead ← rest
    if !(spaceAhead ahead || breakAhead ahead) then
      return { text, stop, broken := gap.broken }
    let gap ← gap.read indent (← bound)
    if !inFlow && (← mark).column < indent then
      return { text, stop, broken := gap.broken }
    readPlainFrom inFlow indent fuel text gap stop

def readPlain (inFlow : Bool) (indent : Nat) : Scan PlainText := do
  readPlainFrom inFlow indent (← bound) "" {} (← mark)

/-- The character after a backslash, or the number of hexadecimal digits that name one. -/
def escapeOf : Char → Option (Char ⊕ Nat)
  | '0' => some (.inl '\x00')
  | 'a' => some (.inl '\x07')
  | 'b' => some (.inl '\x08')
  | 't' => some (.inl '\t')
  | '\t' => some (.inl '\t')
  | 'n' => some (.inl '\n')
  | 'v' => some (.inl '\x0b')
  | 'f' => some (.inl '\x0c')
  | 'r' => some (.inl '\r')
  | 'e' => some (.inl '\x1b')
  | ' ' => some (.inl ' ')
  | '"' => some (.inl '"')
  | '\'' => some (.inl '\'')
  | '\\' => some (.inl '\\')
  | 'N' => some (.inl '\x85')
  | '_' => some (.inl '\xa0')
  | 'L' => some (.inl '\u2028')
  | 'P' => some (.inl '\u2029')
  | 'x' => some (.inr 2)
  | 'u' => some (.inr 4)
  | 'U' => some (.inr 8)
  | _ => none

def hexValue? (c : Char) : Option Nat :=
  if c.isDigit then some (c.toNat - '0'.toNat)
  else if 'a' ≤ c && c ≤ 'f' then some (c.toNat - 'a'.toNat + 10)
  else if 'A' ≤ c && c ≤ 'F' then some (c.toNat - 'A'.toNat + 10)
  else none

/-- The character with a hexadecimal code; surrogates and codes beyond Unicode are refused. -/
def charOfHex? (digits : List Char) : Option Char := do
  let code ← digits.foldlM (fun total c => (hexValue? c).map fun d => total * 16 + d) 0
  if (0xD800 ≤ code && code < 0xE000) || 0x10FFFF < code then none else some (Char.ofNat code)

/-- What stopped the reading of a piece of a quoted scalar. -/
inductive PieceEnd where
  | blank
  | quote
  | escapedBreak

/-- Reads the code of a character in hexadecimal digits. -/
def readCode (count : Nat) : Scan Char := do
  look count
  let digits := (← rest).take count
  guard (digits.length == count)
  let some c := charOfHex? digits | failure
  count.forM fun _ _ => skip
  return c

/-- Reads an escape after its backslash was seen. -/
def readEscape (e : Char) : Scan Char := do
  match escapeOf e with
  | none => failure
  | some (.inl c) => skip; skip; return c
  | some (.inr count) => skip; skip; readCode count

/-- Reads up to a blank, the closing quote or an escaped line break. -/
def quotedPiece (single : Bool) : Nat → String → Scan (String × PieceEnd)
  | 0, _ => failure
  | fuel + 1, text => do
    match ← rest with
    | [] => return (text, .blank)
    | c :: others =>
      if isSpace c || isBreak c then return (text, .blank)
      else if single && c == '\'' then
        if others.head? == some '\'' then
          skip
          skip
          look 2
          quotedPiece single fuel (text.push c)
        else return (text, .quote)
      else if !single && c == '"' then return (text, .quote)
      else if !single && c == '\\' then
        match others with
        | [] => failure
        | e :: _ =>
          if isBreak e then
            look 3
            skip
            let _ ← readBreak
            return (text, .escapedBreak)
          else
            let c ← readEscape e
            look 2
            quotedPiece single fuel (text.push c)
      else
        skip
        look 2
        quotedPiece single fuel (text.push c)

/-- Reads a quoted scalar after its opening quote, up to and including the closing one. -/
def readQuotedFrom (single : Bool) : Nat → String → Scan String
  | 0, _ => failure
  | fuel + 1, text => do
    look 4
    guard (!(← get).documentMarkAhead && !(← rest).isEmpty)
    let (piece, stop) ← quotedPiece single (← bound) ""
    look 1
    let text := text ++ piece
    if (← ahead?) == some (if single then '\'' else '"') then
      skip
      return text
    -- An escaped break joins its lines without a space.
    let gap : Gap := match stop with
      | .escapedBreak => { broken := true }
      | _ => {}
    let gap ← gap.read 0 (← bound)
    readQuotedFrom single fuel (text ++ gap.folded)

def readQuoted (single : Bool) : Scan String := do
  skip
  readQuotedFrom single (← bound) ""

/-- The breaks before a line of a block scalar, and the deepest column seen among them. -/
structure BlockBreaks where
  deepest : Nat := 0
  breaks : String := ""

/-- Moves over spaces that stand before a column. -/
def skipIndent (indent : Nat) : Nat → Scan Unit
  | 0 => return
  | fuel + 1 => do
    if (indent == 0 || (← mark).column < indent) && (← ahead?) == some ' ' then
      skip
      look 1
      skipIndent indent fuel

/-- Reads the breaks before a line of a block scalar. An indentation of zero is still unknown. -/
def readBlockBreaks (indent : Nat) : Nat → BlockBreaks → Scan BlockBreaks
  | 0, block => return block
  | fuel + 1, block => do
    look 1
    skipIndent indent (← bound)
    let column := (← mark).column
    let deepest := max block.deepest column
    guard (!((indent == 0 || column < indent) && (← ahead?) == some '\t'))
    if breakAhead (← rest) then
      look 2
      let text ← readBreak
      readBlockBreaks indent fuel { deepest, breaks := block.breaks ++ text }
    else return { block with deepest }

/-- What has been read of a block scalar: its text, the break after its last line, the empty lines
after that, and whether its last line began with a blank. -/
structure BlockText where
  text : String := ""
  lineBreak : String := ""
  emptyLines : String := ""
  leadingBlank : Bool := false
deriving Repr, Inhabited

/-- What stands between the lines read so far and the next one. -/
def BlockText.joint (block : BlockText) (literal blank : Bool) : String :=
  if !literal && !block.leadingBlank && !blank && block.lineBreak == "\n" then
    if block.emptyLines.isEmpty then " " else ""
  else block.lineBreak

def readBlockLines (literal : Bool) (indent : Nat) : Nat → BlockText → Scan BlockText
  | 0, block => return block
  | fuel + 1, block => do
    let ahead ← rest
    if (← mark).column != indent || ahead.isEmpty then return block
    let blank := spaceAhead ahead
    let line ← takeWhile fun c => !isBreak c
    look 2
    let lineBreak ← readBreak
    let empty ← readBlockBreaks indent (← bound) {}
    readBlockLines literal indent fuel
      { text := block.text ++ block.joint literal blank ++ block.emptyLines ++ line
        lineBreak, emptyLines := empty.breaks, leadingBlank := blank }

/-- How the breaks after the last line of a block scalar are treated. -/
inductive Chomping where
  | strip
  | clip
  | keep
deriving DecidableEq

private def readChomping : Scan Chomping := do
  look 1
  match ← ahead? with
  | some '+' => skip; return .keep
  | some '-' => skip; return .strip
  | _ => return .clip

/-- A relative indentation of one digit; zero when there is none. -/
private def readIncrement : Scan Nat := do
  look 1
  match ← ahead? with
  | some '0' => failure
  | some c => if c.isDigit then do skip; return c.toNat - '0'.toNat else return 0
  | none => return 0

/-- The indicators after the mark of a block scalar: chomping and a relative indentation, in either
order. -/
def readBlockHeader : Scan (Chomping × Nat) := do
  let chomping ← readChomping
  let increment ← readIncrement
  if chomping != .clip || increment == 0 then return (chomping, increment)
  return (← readChomping, increment)

/-- Reads the lines of a literal or folded scalar after its header; `parent` is the indentation
around it. -/
def readBlockBody (literal : Bool) (parent : Int) (chomping : Chomping) (increment : Nat) :
    Scan String := do
  let given : Nat := if increment == 0 then 0 else (max parent 0).toNat + increment
  let leading ← readBlockBreaks given (← bound) {}
  let indent :=
    if given == 0 then max (max leading.deepest (parent + 1).toNat) 1 else given
  look 1
  let block ← readBlockLines literal indent (← bound) { emptyLines := leading.breaks }
  return block.text ++ match chomping with
    | .strip => ""
    | .clip => block.lineBreak
    | .keep => block.lineBreak ++ block.emptyLines

end TreeCheck.Document
