import Std.Data.HashMap
import TreeCheck.Document.Comment
import TreeCheck.Document.ScalarText
import TreeCheck.Text.Utf8

/-!
Splitting a text into tokens, as far as they are asked for. Collections in block style are recognised
by indentation; a key is recognised by the value mark after it, at which point its mark is put in
front of it. A token is given out once it cannot become a key and two more are known.
-/

namespace TreeCheck.Document

/-- A token that may turn out to be a key. -/
structure PossibleKey where
  possible : Bool := false
  /-- Set when the text is malformed unless it is a key. -/
  required : Bool := false
  /-- The number of tokens before it. -/
  token : Nat := 0
  mark : Mark := ⟨0, 0, 0⟩
deriving Repr, Inhabited

/-- The state between two tokens. -/
structure Lexer where
  cursor : Cursor
  tokens : Array Token := #[]
  /-- How many tokens have been given out. -/
  taken : Nat := 0
  /-- The comments that no token given out has claimed. -/
  comments : List Comment := []
  /-- The columns of the open block collections, innermost first. -/
  indents : List Nat := []
  /-- Whether a key may start here. -/
  keyAllowed : Bool := true
  /-- The latest possible key of the block context and of each enclosing flow collection, outermost
  first. -/
  keys : Array PossibleKey := #[{}]
  /-- The tokens that may have to wait for a value mark, with the number of flow collections around
  them. -/
  waiting : Std.HashMap Nat Nat := ∅

/-- A step of the lexer; it fails on malformed text. -/
abbrev Lex := StateT Lexer Option

namespace Lexer

def ofText (text : String) : Lexer := { cursor := Cursor.ofText text }

/-- The indentation of the innermost block collection; -1 outside of all. -/
def indent (lexer : Lexer) : Int := match lexer.indents with
  | [] => -1
  | column :: _ => column

def flowDepth (lexer : Lexer) : Nat := lexer.keys.size - 1

def inFlow (lexer : Lexer) : Bool := 0 < lexer.flowDepth

def mark (lexer : Lexer) : Mark := lexer.cursor.mark

def lastKind? (lexer : Lexer) : Option Token.Kind := lexer.tokens.back?.map Token.kind

/-- A key must be on the line of its value mark, and near. -/
def inReach (lexer : Lexer) (key : PossibleKey) : Bool :=
  lexer.mark.line ≤ key.mark.line && lexer.mark.index ≤ key.mark.index + 1024

/-- Puts a token before the one with a number, or at the end if that one has been given out. -/
def insert (lexer : Lexer) (number : Nat) (token : Token) : Lexer :=
  let place := if number < lexer.taken then lexer.tokens.size else number
  { lexer with tokens := lexer.tokens.insertIdxIfInBounds place token }

/-- The latest possible key of the innermost collection. -/
def innerKey (lexer : Lexer) : PossibleKey := lexer.keys.back?.getD {}

def setInnerKey (lexer : Lexer) (key : PossibleKey) : Lexer :=
  { lexer with keys := lexer.keys.setIfInBounds lexer.flowDepth key }

/-- Notes that a key of the innermost collection is none any more. -/
def withoutKey (lexer : Lexer) (key : PossibleKey) : Lexer :=
  { lexer.setInnerKey { key with possible := false } with
    waiting := lexer.waiting.erase key.token }

/-- Drops the possible key of the innermost collection; a required one must not be dropped. -/
def dropKey (lexer : Lexer) : Option Lexer :=
  let key := lexer.innerKey
  if !key.possible then some lexer
  else if key.required then none
  else some (lexer.withoutKey key)

/-- Notes that a key may start here. -/
def saveKey (lexer : Lexer) : Option Lexer :=
  if !lexer.keyAllowed then some lexer
  else do
    let key : PossibleKey :=
      { possible := true
        required := !lexer.inFlow && lexer.indent == lexer.mark.column
        token := lexer.tokens.size
        mark := lexer.mark }
    let lexer ← lexer.dropKey
    return { lexer.setInnerKey key with
      waiting := lexer.waiting.insert key.token lexer.flowDepth }

/-- Whether the possible key at a depth of flow collections is still one. A stale key that was
required is an error. -/
def checkKey (lexer : Lexer) (depth : Nat) : Option (Bool × Lexer) := do
  let key ← lexer.keys[depth]?
  if !key.possible then return (false, lexer)
  if lexer.inReach key then return (true, lexer)
  if key.required then none
  else
    let keys := lexer.keys.setIfInBounds depth { key with possible := false }
    return (false, { lexer with keys })

/-- Where a block collection of a column ends: at a given place, or at the first of the comments
just read that stand at its indentation. Comments are given last first. -/
def blockEnd (column : Nat) : Nat → Mark → List Comment → Mark
  | _, mark, [] => mark
  | stop, mark, comment :: earlier =>
    if comment.stop < stop then mark
    else
      let mark := if comment.start.column == column + 1 then comment.start else mark
      blockEnd column comment.scanned mark earlier

/-- The ends of block collections, each not after the one before. -/
def blockEnds (comments : List Comment) : Mark → List Nat → List Token
  | _, [] => []
  | mark, column :: outer =>
    let place := blockEnd column mark.index mark comments
    ⟨.blockEnd, place, place⟩ :: blockEnds comments place outer

/-- Closes the block collections that are indented deeper than a column; they end just before a
mark. -/
def unroll (lexer : Lexer) (column : Int) (mark : Mark) : Lexer :=
  if lexer.inFlow then lexer
  else
    let closed := lexer.indents.takeWhile fun (indent : Nat) => column < indent
    let ends := blockEnds lexer.comments.reverse { mark with index := mark.index - 1 } closed
    { lexer with
      indents := lexer.indents.drop closed.length
      tokens := lexer.tokens ++ ends.toArray }

/-- Opens a block collection at a column, unless one is open there; its token goes before the one
with a number. -/
def roll (lexer : Lexer) (column : Nat) (number : Nat) (kind : Token.Kind) (mark : Mark) :
    Option Lexer := do
  if lexer.inFlow || (column : Int) ≤ lexer.indent then return lexer
  guard (lexer.indents.length < 10000)
  return { lexer with indents := column :: lexer.indents }.insert number ⟨kind, mark, mark⟩

/-- Opens a block collection here. -/
def rollHere (lexer : Lexer) (kind : Token.Kind) : Option Lexer :=
  lexer.roll lexer.mark.column lexer.tokens.size kind lexer.mark

/-- Leaves all block collections, for a mark that stands between documents. -/
def leaveBlocks (lexer : Lexer) : Option Lexer := do
  let lexer ← (lexer.unroll (-1) lexer.mark).dropKey
  return { lexer with keyAllowed := false }

/-- The end of the text counts as the start of a new line. -/
def toNewLine (lexer : Lexer) : Lexer :=
  let mark := lexer.mark
  if mark.column == 0 then lexer
  else { lexer with cursor := { lexer.cursor with mark := ⟨mark.index, mark.line + 1, 0⟩ } }

def allowKey (lexer : Lexer) (allowed : Bool) : Lexer := { lexer with keyAllowed := allowed }

/-- A comment after the mark of a sequence item that opens a sequence belongs to what follows. -/
def turnLineComment (lexer : Lexer) : Lexer :=
  let opens := lexer.lastKind? == some .blockEntry
    && (lexer.tokens[lexer.tokens.size - 2]?.map Token.kind) == some .blockSequenceStart
  match lexer.comments.getLast? with
  | none => lexer
  | some comment =>
    if opens && comment.kind == .line && !breakAhead lexer.cursor.rest then
      let owner :=
        if comment.start.line + 1 == lexer.mark.line then lexer.mark.index else comment.owner
      { lexer with comments := lexer.comments.dropLast ++ [{ comment with kind := .head, owner }] }
    else lexer

/-- The token to which a comment ahead belongs if it belongs to what stands before it. -/
def commentOwner? (lexer : Lexer) : Option Token :=
  if lexer.lastKind? == some .flowEntry then lexer.tokens[lexer.tokens.size - 2]?
  else lexer.tokens.back?

/-- Lets the next token claim its comments. A comment before a token does not belong to the end of a
block. -/
def claimComments (lexer : Lexer) (token : Token) : Lexer :=
  { lexer with
    comments := lexer.comments.dropWhile fun comment =>
      comment.owner ≤ token.start.index && !(comment.kind == .head && token.kind == .blockEnd) }

end Lexer

/-- Characters that may stand in a tag after its handle. -/
def isTagChar (c : Char) : Bool :=
  isWordChar c || ";/?:@&=+$,.!~*'()[]%".toList.contains c

/-- The number of bytes of a character by its first byte; zero if none starts so. -/
def leadWidth (byte : Nat) : Nat :=
  if byte < 0x80 then 1
  else if byte < 0xc0 then 0
  else if byte < 0xe0 then 2
  else if byte < 0xf0 then 3
  else if byte < 0xf8 then 4
  else 0

/-- Whether a plain scalar may start with the characters ahead. -/
def plainAhead (inFlow : Bool) : List Char → Bool
  | [] => false
  | c :: rest =>
    if isSpace c || isBreak c then false
    else if c == '-' then match rest with
      | [] => true
      | d :: _ => !isSpace d
    else if c == '?' || c == ':' then !inFlow && !blankAhead rest
    else !(",[]\x7b\x7d#&*!|>'\"%@`".toList.contains c)

namespace Scan

private def escapedByte : Scan Nat := do
  look 3
  match ← rest with
  | '%' :: a :: b :: _ =>
    let some high := hexValue? a | failure
    let some low := hexValue? b | failure
    skip; skip; skip
    return high * 16 + low
  | _ => failure

private def laterBytes : Nat → ByteArray → Scan ByteArray
  | 0, bytes => return bytes
  | count + 1, bytes => do
    let byte ← escapedByte
    guard (0x80 ≤ byte && byte < 0xc0)
    laterBytes count (bytes.push byte.toUInt8)

/-- Reads the percent escapes of a character, each of which stands for one of its bytes. -/
private def escapedBytes (bytes : ByteArray) : Scan ByteArray := do
  let lead ← escapedByte
  let width := leadWidth lead
  guard (0 < width)
  laterBytes (width - 1) (bytes.push lead.toUInt8)

private def tagBytes : Nat → ByteArray → Scan ByteArray
  | 0, bytes => return bytes
  | fuel + 1, bytes => do
    match ← ahead? with
    | none => return bytes
    | some c =>
      if c == '%' then
        let bytes ← escapedBytes bytes
        look 1
        tagBytes fuel bytes
      else if isTagChar c then
        skip
        look 1
        tagBytes fuel (bytes ++ c.toString.toUTF8)
      else return bytes

/-- Reads the rest of a tag; percent escapes stand for bytes. -/
def tagText : Scan String := do
  look 1
  let bytes ← tagBytes (← bound) ByteArray.empty
  return Text.ofBytes bytes.toList

/-- Reads a handle such as `!`, `!!` or `!name!`, as far as it goes. -/
def tagHandle : Scan String := do
  look 1
  guard ((← ahead?) == some '!')
  skip
  look 1
  let word ← takeWhile isWordChar
  if (← ahead?) == some '!' then
    skip
    return "!" ++ word ++ "!"
  return "!" ++ word

/-- Reads a whole number of one or two digits. -/
def versionNumber : Scan Nat := do
  look 1
  let digits ← takeWhile Char.isDigit
  guard (0 < digits.length && digits.length ≤ 2)
  return digits.toList.foldl (fun n c => n * 10 + (c.toNat - '0'.toNat)) 0

def directiveValue (name : String) : Scan Token.Kind := do
  look 1
  skipWhile isSpace
  if name == "YAML" then
    let major ← versionNumber
    guard ((← ahead?) == some '.')
    skip
    return .version major (← versionNumber)
  guard (name == "TAG")
  let handle ← tagHandle
  guard (handle.endsWith "!")
  look 1
  guard (spaceAhead (← rest))
  skipWhile isSpace
  let stem ← tagText
  guard (!stem.isEmpty)
  look 1
  guard (blankAhead (← rest))
  return .tagHandle handle stem

def endLine : Scan Unit := do
  guard (lineEndAhead (← rest))
  if breakAhead (← rest) then
    look 2
    let _ ← readBreak

/-- Reads the name of an anchor after its mark. -/
def anchorName : Scan String := do
  skip
  look 1
  let name ← takeWhile isWordChar
  let ahead ← rest
  guard (!name.isEmpty)
  guard (blankAhead ahead || "?:,]\x7d%@`".toList.contains (ahead.headD ' '))
  return name

/-- Reads a tag as a handle and a suffix. -/
def tag : Scan (String × String) := do
  look 2
  let (handle, suffix) ←
    if ((← rest).drop 1).head? == some '<' then do
      skip
      skip
      let suffix ← tagText
      guard (!suffix.isEmpty && (← ahead?) == some '>')
      skip
      pure ("", suffix)
    else do
      let handle ← tagHandle
      let suffix ← tagText
      if 1 < handle.length && handle.endsWith "!" then do
        guard (!suffix.isEmpty)
        pure (handle, suffix)
      else
        let suffix := (handle.drop 1).toString ++ suffix
        pure (if suffix.isEmpty then ("", "!") else ("!", suffix))
  look 1
  guard (blankAhead (← rest))
  return (handle, suffix)

end Scan

namespace Lex

def ofScan {α : Type} (step : Scan α) : Lex α := fun lexer =>
  (step lexer.cursor).map fun (a, cursor) => (a, { lexer with cursor })

def change (step : Lexer → Option Lexer) : Lex Unit := fun lexer =>
  (step lexer).map fun lexer => ((), lexer)

def push (kind : Token.Kind) (start stop : Mark) : Lex Unit :=
  modify fun lexer => { lexer with tokens := lexer.tokens.push ⟨kind, start, stop⟩ }

/-- Adds the token that a reading step yields. -/
def pushScan (step : Scan Token.Kind) : Lex Unit := do
  let start := (← get).mark
  let kind ← ofScan step
  push kind start (← get).mark

/-- Adds a token made of the next characters. -/
def pushMark (kind : Token.Kind) (width : Nat) : Lex Unit :=
  pushScan do
    width.forM fun _ _ => Scan.skip
    return kind

def lineComment (owner : Nat) : Lex Unit := do
  match ← ofScan (readLineComment owner) with
  | none => return
  | some comment => modify fun lexer => { lexer with comments := lexer.comments ++ [comment] }

/-- Reads the comments ahead. `scanned` is where the blanks before them start. -/
def comments (scanned : Mark) : Lex Unit := do
  let lexer ← get
  let owner := lexer.commentOwner?
  let found ← ofScan (readComments lexer.inFlow lexer.indent.toNat
    ((owner.map Token.kind) == some .value) scanned ((owner.map fun t => t.start.index).getD 0))
  modify fun lexer => { lexer with comments := lexer.comments ++ found }

/-- Skips blanks, comments and line breaks. Tabs do not count as blanks where a block collection may
start. -/
def skipBlanks (scanned : Mark) : Nat → Lex Unit
  | 0 => return
  | fuel + 1 => do
    ofScan (Scan.look 1)
    let cursor := (← get).cursor
    if cursor.mark.column == 0 && cursor.marked then ofScan Scan.skip
    let lexer ← get
    let tabs := lexer.inFlow || !lexer.keyAllowed
    ofScan do
      Scan.look 1
      Scan.skipWhile fun c => c == ' ' || (tabs && c == '\t')
    modify Lexer.turnLineComment
    if (← get).cursor.rest.head? == some '#' then comments scanned
    if breakAhead (← get).cursor.rest then
      ofScan do
        Scan.look 2
        let _ ← Scan.readBreak
      modify fun lexer => lexer.allowKey (lexer.keyAllowed || !lexer.inFlow)
      skipBlanks scanned fuel

def streamEnd : Lex Unit := do
  modify Lexer.toNewLine
  change Lexer.leaveBlocks
  pushMark .streamEnd 0

/-- A line that starts with a percent sign. -/
def directive : Lex Unit := do
  change Lexer.leaveBlocks
  pushScan do
    Scan.skip
    Scan.look 1
    let name ← Scan.takeWhile isWordChar
    guard (!name.isEmpty && blankAhead (← Scan.rest))
    Scan.directiveValue name
  ofScan do
    Scan.look 1
    Scan.skipWhile isSpace
    if (← Scan.ahead?) == some '#' then Scan.skipLine
    Scan.endLine

def documentMark (kind : Token.Kind) : Lex Unit := do
  change Lexer.leaveBlocks
  pushMark kind 3

def flowStart (kind : Token.Kind) : Lex Unit := do
  change Lexer.saveKey
  let lexer ← get
  guard (lexer.flowDepth < 10000)
  let key : PossibleKey := { token := lexer.tokens.size, mark := lexer.mark }
  set { lexer with keys := lexer.keys.push key, keyAllowed := true }
  pushMark kind 1

/-- Leaves a flow collection, and with it the token that waited in it. -/
def flowEnd (kind : Token.Kind) : Lex Unit := do
  change Lexer.dropKey
  modify fun lexer =>
    if lexer.inFlow then
      { lexer with
        keys := lexer.keys.pop
        waiting := lexer.waiting.erase lexer.innerKey.token }
    else lexer
  modify (Lexer.allowKey · false)
  pushMark kind 1

def flowEntry : Lex Unit := do
  change Lexer.dropKey
  modify (Lexer.allowKey · true)
  pushMark .flowEntry 1

/-- Opens a block collection for a mark that stands at the start of its items. -/
def openBlock (kind : Token.Kind) : Lex Unit := do
  let lexer ← get
  guard (lexer.inFlow || lexer.keyAllowed)
  change (Lexer.rollHere · kind)

def blockEntry : Lex Unit := do
  openBlock .blockSequenceStart
  change Lexer.dropKey
  modify (Lexer.allowKey · true)
  pushMark .blockEntry 1

def keyMark : Lex Unit := do
  openBlock .blockMappingStart
  change Lexer.dropKey
  modify fun lexer => lexer.allowKey (!lexer.inFlow)
  pushMark .key 1

/-- A value mark turns the possible key before it into a key. -/
def valueMark : Lex Unit := do
  let valid ← fun lexer => lexer.checkKey lexer.flowDepth
  if valid then
    let key := (← get).innerKey
    modify (Lexer.insert · key.token ⟨.key, key.mark, key.mark⟩)
    change (Lexer.roll · key.mark.column key.token .blockMappingStart key.mark)
    modify fun lexer => (lexer.withoutKey key).allowKey false
  else
    openBlock .blockMappingStart
    modify fun lexer => lexer.allowKey (!lexer.inFlow)
  pushMark .value 1

/-- Starts a token that may be a key itself. -/
def beginNode : Lex Unit := do
  change Lexer.saveKey
  modify (Lexer.allowKey · false)

/-- Adds a token that may be a key. -/
def node (step : Scan Token.Kind) : Lex Unit := do
  beginNode
  pushScan step

def blockScalar (literal : Bool) : Lex Unit := do
  change Lexer.dropKey
  modify (Lexer.allowKey · true)
  let start := (← get).mark
  let indent := (← get).indent
  let (chomping, increment) ← ofScan do
    Scan.skip
    let header ← readBlockHeader
    Scan.look 1
    Scan.skipWhile isSpace
    return header
  if (← get).cursor.rest.head? == some '#' then lineComment start.index
  let text ← ofScan do
    Scan.endLine
    readBlockBody literal indent chomping increment
  push (.scalar text false) start (← get).mark

def plainScalar : Lex Unit := do
  beginNode
  let start := (← get).mark
  let inFlow := (← get).inFlow
  let indent := (← get).indent
  let plain ← ofScan (readPlain inFlow (indent + 1).toNat)
  push (.scalar plain.text true) start plain.stop
  if plain.broken then modify (Lexer.allowKey · true)

/-- Reads a token that starts with a character and stands inside a document. -/
def token (c : Char) (rest : List Char) : Lex Unit := do
  let inFlow := (← get).inFlow
  if c == '[' then flowStart .flowSequenceStart
  else if c == '\x7b' then flowStart .flowMappingStart
  else if c == ']' then flowEnd .flowSequenceEnd
  else if c == '\x7d' then flowEnd .flowMappingEnd
  else if c == ',' then flowEntry
  else if c == '-' && blankAhead rest then blockEntry
  else if c == '?' && (inFlow || blankAhead rest) then keyMark
  else if c == ':' && (inFlow || blankAhead rest) then valueMark
  else if c == '*' then node (return .alias (← Scan.anchorName))
  else if c == '&' then node (return .anchor (← Scan.anchorName))
  else if c == '!' then node do
    let (handle, suffix) ← Scan.tag
    return .tag handle suffix
  else if c == '|' && !inFlow then blockScalar true
  else if c == '>' && !inFlow then blockScalar false
  else if c == '\'' then node (return .scalar (← readQuoted true) false)
  else if c == '"' then node (return .scalar (← readQuoted false) false)
  else if plainAhead inFlow (c :: rest) then plainScalar
  else failure

/-- The token to which a comment on the line of the next token belongs: that token, or the one
before a value mark of a block and before a comma. -/
def lineOwner (c : Char) (lexer : Lexer) : Nat :=
  let mark := if lexer.inFlow then ',' else ':'
  match lexer.tokens.back? with
  | some last => if c == mark then last.start.index else lexer.mark.index
  | none => lexer.mark.index

/-- Reads the next token. -/
def fetch : Lex Unit := do
  ofScan (Scan.look 1)
  if (← get).tokens.isEmpty then pushMark .streamStart 0
  else
    let before := (← get).mark
    skipBlanks before (← get).cursor.bound
    modify fun lexer => lexer.unroll lexer.mark.column before
    ofScan (Scan.look 4)
    let cursor := (← get).cursor
    match cursor.rest with
    | [] => streamEnd
    | c :: rest =>
      if cursor.mark.column == 0 && c == '%' then directive
      else if cursor.documentMarkAhead then
        documentMark (if c == '-' then .documentStart else .documentEnd)
      else
        let owner := lineOwner c (← get)
        token c rest
        -- The mark of a sequence item has no comment of its own.
        if (← get).lastKind? != some .blockEntry then lineComment owner

/-- Whether the next token can be given out. -/
def settled : Lex Bool := do
  let lexer ← get
  if lexer.tokens.size ≤ lexer.taken + 2 then return false
  match lexer.waiting[lexer.taken]? with
  | none => return true
  | some depth => return !(← fun lexer => lexer.checkKey depth)

def settle : Nat → Lex Unit
  | 0 => failure
  | fuel + 1 => do
    if !(← settled) then
      fetch
      settle fuel

def peek : Lex Token := do
  settle ((← get).cursor.bound + 8)
  let lexer ← get
  let some token := lexer.tokens[lexer.taken]? | failure
  set (lexer.claimComments token)
  return token

/-- Passes over the next token. -/
def skip : Lex Unit := modify fun lexer => { lexer with taken := lexer.taken + 1 }

end Lex

end TreeCheck.Document
