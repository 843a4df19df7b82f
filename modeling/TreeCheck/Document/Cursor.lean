import TreeCheck.Document.Token

/-!
A position inside a text that is being read, with the text still ahead. The text is looked at in
portions, so a character that no document may hold is met only when its portion is due.
-/

namespace TreeCheck.Document

/-- The text ahead and the place it starts at. -/
structure Cursor where
  rest : List Char
  mark : Mark := ⟨0, 0, 0⟩
  /-- How many characters ahead have been looked at; the end of the text counts as often as it was
  looked at. -/
  seen : Nat := 0
  /-- The bytes that fit into the next portion. -/
  room : Nat := 512
  /-- Whether the text ahead began with a byte order mark when a portion was last added. -/
  marked : Bool := false
  /-- The line breaks since the last character other than a space or tab. -/
  breaks : Nat := 0
  /-- More than the number of characters of the text. -/
  bound : Nat := rest.length + 1
deriving Repr, Inhabited

/-- A reading step; it fails on malformed text. -/
abbrev Scan := StateT Cursor Option

/-- A character that a document may hold. -/
def isDocumentChar (c : Char) : Bool :=
  let n := c.toNat
  n == 0x09 || n == 0x0a || n == 0x0d || (0x20 ≤ n && n ≤ 0x7e) || n == 0x85
    || (0xa0 ≤ n && n ≤ 0xd7ff) || (0xe000 ≤ n && n ≤ 0xfffd) || 0x10000 ≤ n

/-- A character that ends a line. -/
def isBreak (c : Char) : Bool :=
  c == '\n' || c == '\r' || c == '\x85' || c == '\u2028' || c == '\u2029'

def isSpace (c : Char) : Bool := c == ' ' || c == '\t'

/-- A character of a word: a letter, a digit, an underscore or a hyphen. -/
def isWordChar (c : Char) : Bool := c.isAlphanum || c == '_' || c == '-'

/-- Whether a text is at its end or starts with a space or a break. -/
def blankAhead : List Char → Bool
  | [] => true
  | c :: _ => isSpace c || isBreak c

def lineEndAhead : List Char → Bool
  | [] => true
  | c :: _ => isBreak c

def breakAhead : List Char → Bool
  | [] => false
  | c :: _ => isBreak c

def spaceAhead : List Char → Bool
  | [] => false
  | c :: _ => isSpace c

namespace Cursor

/-- A cursor at the start of a text. A byte order mark in front of the text is no part of it, but
takes its bytes of the first portion. -/
def ofText (text : String) : Cursor :=
  match text.toList with
  | '\uFEFF' :: rest => { rest, room := 509 }
  | [] => { rest := ['\n'] }
  | rest => { rest }

/-- The number of leading characters that fit into some bytes. -/
def portion : Nat → List Char → Nat
  | _, [] => 0
  | room, c :: rest =>
    if c.utf8Size ≤ room then portion (room - c.utf8Size) rest + 1 else 0

/-- Adds portions until enough characters have been looked at. At the end of the text one more is
counted. -/
def extend (count : Nat) : Nat → Cursor → Option Cursor
  | 0, cursor => some cursor
  | fuel + 1, cursor =>
    if count ≤ cursor.seen then some cursor
    else
      let unseen := cursor.rest.drop cursor.seen
      if unseen.isEmpty then some { cursor with seen := cursor.seen + 1 }
      else
        let added := portion cursor.room unseen
        if (unseen.take added).all isDocumentChar then
          extend count fuel { cursor with seen := cursor.seen + added, room := 512 }
        else none

/-- Whether a line of three equal marks stands ahead at the start of a line. -/
def documentMarkAhead (cursor : Cursor) : Bool :=
  cursor.mark.column == 0 && match cursor.rest with
  | '-' :: '-' :: '-' :: rest => blankAhead rest
  | '.' :: '.' :: '.' :: rest => blankAhead rest
  | _ => false

/-- Moves over a character of a line. -/
def next (cursor : Cursor) : Cursor :=
  { cursor with
    rest := cursor.rest.tail
    mark := ⟨cursor.mark.index + 1, cursor.mark.line, cursor.mark.column + 1⟩
    seen := cursor.seen - 1
    breaks := if spaceAhead cursor.rest then cursor.breaks else 0 }

/-- Moves over a line break of some characters. -/
def nextLine (cursor : Cursor) (width : Nat) : Cursor :=
  { cursor with
    rest := cursor.rest.drop width
    mark := ⟨cursor.mark.index + width, cursor.mark.line + 1, 0⟩
    seen := cursor.seen - width
    breaks := cursor.breaks + 1 }

end Cursor

namespace Scan

/-- Makes sure that a number of characters has been looked at. -/
def look (count : Nat) : Scan Unit := fun cursor =>
  if count ≤ cursor.seen then some ((), cursor)
  else (cursor.extend count count).map fun extended =>
    ((), { extended with marked := cursor.rest.head? == some '\uFEFF' })

def rest : Scan (List Char) := return (← get).rest

def ahead? : Scan (Option Char) := return (← get).rest.head?

def mark : Scan Mark := return (← get).mark

/-- A number of steps that no reading of the text exceeds. -/
def bound : Scan Nat := return (← get).bound

def skip : Scan Unit := modify Cursor.next

/-- Moves over a line break. The break reads as a line feed, the two Unicode separators as
themselves. -/
def readBreak : Scan String := do
  let cursor ← get
  match cursor.rest with
  | '\r' :: '\n' :: _ => set (cursor.nextLine 2); return "\n"
  | c :: _ =>
    if isBreak c then
      set (cursor.nextLine 1)
      return if c == '\u2028' || c == '\u2029' then c.toString else "\n"
    else return ""
  | [] => return ""

private def takeWhileFrom (p : Char → Bool) : Nat → String → Scan String
  | 0, text => return text
  | fuel + 1, text => do
    match ← ahead? with
    | some c => if p c then do skip; look 1; takeWhileFrom p fuel (text.push c) else return text
    | none => return text

/-- Moves over the characters of a line that belong to a class. -/
def takeWhile (p : Char → Bool) : Scan String := do takeWhileFrom p (← bound) ""

def skipWhile (p : Char → Bool) : Scan Unit := do let _ ← takeWhile p

/-- Moves on to the end of the line. -/
def skipLine : Scan Unit := skipWhile fun c => !isBreak c

end Scan

end TreeCheck.Document
