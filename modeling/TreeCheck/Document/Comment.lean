import TreeCheck.Document.Cursor

/-!
Comments between tokens. A comment has no part in what a document says, but a block collection may
end where a comment at its indentation starts.
-/

namespace TreeCheck.Document

open Scan

/-- How a comment stands to the tokens around it. -/
inductive Comment.Kind where
  /-- Before the token it belongs to. -/
  | head
  /-- On the line of its token. -/
  | line
  /-- After the token it belongs to. -/
  | foot
deriving DecidableEq, Repr

structure Comment where
  kind : Comment.Kind
  /-- Where the token it belongs to starts. -/
  owner : Nat
  /-- Where it starts. The columns of head and foot comments are counted from one. -/
  start : Mark
  /-- Where the blanks and comments before it start. -/
  scanned : Nat := 0
  stop : Nat := 0
deriving Repr

/-- Reads a comment on the line of a token. Blanks beyond a limit are not searched. -/
def readLineComment (owner : Nat) : Scan (Option Comment) := do
  if 0 < (← get).breaks then return none
  let width ← blanks 512
  if width == 512 || ((← rest).drop width).head? != some '#' then return none
  skipWhile isSpace
  let start ← mark
  skipLine
  return some { kind := .line, owner, start }
where
  /-- The number of blanks ahead, up to a limit. -/
  blanks (limit : Nat) : Scan Nat := blanksFrom limit 0
  blanksFrom : Nat → Nat → Scan Nat
    | 0, width => return width
    | fuel + 1, width => do
      look (width + 1)
      if spaceAhead ((← rest).drop width) then blanksFrom fuel (width + 1) else return width

/-- What surrounds a run of comments. -/
structure Comment.Context where
  inFlow : Bool
  /-- The indentation of the innermost block collection; zero outside of all. -/
  indent : Nat
  /-- Whether the token before is a value mark. -/
  afterValue : Bool
  /-- The line on which a comment still belongs to what stands before it. -/
  footLine : Option Nat

/-- A run of comments while it is read. -/
structure Comment.Run where
  found : List Comment := []
  /-- Where the comment that is being read starts. -/
  start : Option Mark := none
  scanned : Nat
  owner : Nat
  /-- The place that is looked at, `peek` characters ahead. -/
  peek : Nat := 0
  line : Nat
  column : Nat
  /-- Whether no empty line was met yet. -/
  firstEmpty : Bool
  /-- Whether the line before was empty. -/
  recentEmpty : Bool := false
  /-- Whether the place is inside a break of several bytes. -/
  inBreak : Bool := false

namespace Comment.Run

/-- Ends the comment that is being read as one that belongs to what stands before it. -/
def addFoot (run : Run) (index owner : Nat) : Run :=
  match run.start with
  | none => run
  | some start =>
    let stop := index + run.peek
    { run with
      found := run.found ++ [{ kind := .foot, owner, start, scanned := run.scanned, stop }]
      start := none
      scanned := stop
      owner := stop }

/-- Ends the run; a comment that is still being read belongs to what follows. -/
def finish (run : Run) (index : Nat) : List Comment :=
  match run.start with
  | none => run.found
  | some start =>
    run.found ++ [{ kind := .head, owner := start.index, start
                    scanned := run.scanned, stop := index + run.peek - 1 }]

/-- Splits a comment off at an empty line, or at the end of a flow collection, if it belongs to what
stands before it. -/
def split (context : Context) (closes : Bool) (index : Nat) (run : Run) : Run :=
  match run.start with
  | none => run
  | some start =>
    let dedented := start.column - 1 < context.indent
    let footed := some start.line == context.footLine && !context.afterValue
    if closes || (!run.recentEmpty && run.firstEmpty && (footed || dedented)) then
      run.addFoot index (if dedented then start.index else run.owner)
    else run

end Comment.Run

/-- Moves on to a place of which all breaks and blanks before it have been looked at. -/
private def skipTo (index : Nat) : Nat → Scan Unit
  | 0 => return
  | fuel + 1 => do
    if (← mark).index < index then
      look 1
      if breakAhead (← rest) then
        look 2
        let _ ← readBreak
      else skip
      skipTo index fuel

/-- A line break of more than one byte. -/
def isWideBreak (c : Char) : Bool := isBreak c && 1 < c.utf8Size

private def readRun (context : Comment.Context) : Nat → Comment.Run → Scan (List Comment)
  | 0, run => return run.finish (← mark).index
  | fuel + 1, run => do
    let index := (← mark).index
    if 512 ≤ run.peek then return run.finish index
    look (run.peek + 1)
    let run := { run with column := run.column + 1 }
    let ahead := (← rest).drop run.peek
    if run.inBreak then return (stray index run).finish index
    match ahead with
    | [] => return (run.split context false index).finish index
    | c :: _ =>
      if isSpace c then readRun context fuel { run with peek := run.peek + 1 }
      else if context.inFlow && (c == ']' || c == '\x7d') then
        return (run.split context true index).finish index
      else if isBreak c then
        let run := run.split context false index
        readRun context fuel
          { run with
            peek := run.peek + 1, line := run.line + 1, column := 0
            firstEmpty := false, recentEmpty := true
            inBreak := isWideBreak c }
      else
        let run := stray index run
        if c != '#' then return run.finish index
        let start := run.start.getD ⟨index + run.peek, run.line, run.column⟩
        skipTo (index + run.peek) (run.peek + 1)
        look 1
        skipLine
        let inBreak := ((← rest).head?.map isWideBreak).getD false
        readRun context fuel
          { run with
            start, peek := 1, line := (← mark).line, column := 0, recentEmpty := false, inBreak }
where
  /-- A comment left of the block collection belongs to what stands before it, unless it goes on in
  the same column. -/
  stray (index : Nat) (run : Comment.Run) : Comment.Run :=
    let elsewhere := (run.start.map Mark.column) != some run.column
    if run.column - 1 < context.indent && elsewhere then run.addFoot index run.owner else run

/-- Reads the comments ahead, each with the rest of its line. `scanned` is where the blanks before
them start, `owner` where the token before them starts. -/
def readComments (inFlow : Bool) (indent : Nat) (afterValue : Bool) (scanned : Mark)
    (owner : Nat) : Scan (List Comment) := do
  let cursor ← get
  let mark := cursor.mark
  let below := if cursor.breaks == 0 && 1 < mark.column then 2 else 1
  let footLine := if scanned.line == 0 then none else some (mark.line + below - cursor.breaks)
  readRun { inFlow, indent, afterValue, footLine } (2 * cursor.bound + 1024)
    { scanned := scanned.index, owner, line := mark.line, column := mark.column
      firstEmpty := cursor.breaks ≤ 1 }

end TreeCheck.Document
