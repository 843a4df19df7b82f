import TreeCheck.Syntax.TypeExpr
import TreeCheck.Text.Quoted

/-!
Reading type syntax. The reader works on bytes: a byte belongs to a name if it is an underscore or,
taken as a code point of its own, a letter or a digit. Spaces may stand before any token.
-/

namespace TreeCheck.TypeExpr

/-- Why a text is no type; each fault carries the bytes that were left when it was noticed. -/
inductive Fault where
  /-- A type was due. -/
  | noType (rest : List UInt8)
  /-- The closing token was due. -/
  | missing (token : List UInt8) (rest : List UInt8)
  /-- The type ended before the text did. -/
  | trailing (rest : List UInt8)
deriving DecidableEq, Repr

def Fault.message (source : List UInt8) (fault : Fault) : String :=
  let offset (rest : List UInt8) : Nat := source.length - rest.length
  "type " ++ Text.quoteBytes source ++ ": " ++ match fault with
  | .noType rest => s!"expected a type at offset {offset rest}"
  | .missing token rest => s!"expected {Text.quoteBytes token} at offset {offset rest}"
  | .trailing rest => s!"unexpected {Text.quoteBytes rest}"

/-- An underscore, or a letter or digit among the first 256 code points. -/
def isNameByte (byte : UInt8) : Bool :=
  let n := byte.toNat
  n == 0x5f || (0x30 ≤ n && n ≤ 0x39) || (0x41 ≤ n && n ≤ 0x5a) || (0x61 ≤ n && n ≤ 0x7a)
    || n == 0xaa || n == 0xb5 || n == 0xba || (0xc0 ≤ n && n ≤ 0xff && n != 0xd7 && n != 0xf7)

namespace Token

def ampersand : List UInt8 := [0x26]
def mutable : List UInt8 := [0x6d, 0x75, 0x74]
def openBracket : List UInt8 := [0x5b]
def closeBracket : List UInt8 := [0x5d]
def openParen : List UInt8 := [0x28]
def closeParen : List UInt8 := [0x29]
def openAngle : List UInt8 := [0x3c]
def closeAngle : List UInt8 := [0x3e]
def comma : List UInt8 := [0x2c]
def arrow : List UInt8 := [0x2d, 0x3e]
def fn : List UInt8 := [0x66, 0x6e]

end Token

def skipSpaces (input : List UInt8) : List UInt8 := input.dropWhile (· == 0x20)

/-- What follows a prefix of the input. -/
def afterToken : List UInt8 → List UInt8 → Option (List UInt8)
  | [], input => some input
  | _ :: _, [] => none
  | t :: token, byte :: input => if t == byte then afterToken token input else none

/-- What follows spaces and a token. -/
def accept (token input : List UInt8) : Option (List UInt8) := afterToken token (skipSpaces input)

def expect (token input : List UInt8) : Except Fault (List UInt8) :=
  match accept token input with
  | some rest => .ok rest
  | none => .error (.missing token (skipSpaces input))

/-- Reads `mut` where no name byte follows it; otherwise nothing is read. -/
def acceptMut (input : List UInt8) : Bool × List UInt8 :=
  match accept Token.mutable input with
  | none => (false, input)
  | some rest =>
    match rest with
    | [] => (true, rest)
    | byte :: _ => if isNameByte byte then (false, input) else (true, rest)

mutual

/-- Reads one type; the fuel bounds the depth of nesting and the length of lists. -/
def readType : Nat → List UInt8 → Except Fault (TypeForm Octets × List UInt8)
  | 0, input => .error (.noType input)
  | fuel + 1, input =>
    match accept Token.ampersand input with
    | some rest => do
      let (mutable, rest) := acceptMut rest
      let (target, rest) ← readType fuel rest
      return (.ref mutable target, rest)
    | none =>
    match accept Token.openBracket input with
    | some rest => do
      let (element, rest) ← readType fuel rest
      let rest ← expect Token.closeBracket rest
      return (.array element, rest)
    | none =>
    match accept Token.openParen input with
    | some rest => do
      let (elements, rest) ← readList fuel Token.closeParen rest
      return (.tuple elements, rest)
    | none =>
      let start := skipSpaces input
      let name := start.takeWhile isNameByte
      let rest := start.dropWhile isNameByte
      if name.isEmpty then .error (.noType start)
      else
        match if name == Token.fn then accept Token.openParen rest else none with
        | some rest => do
          let (params, rest) ← readList fuel Token.closeParen rest
          match accept Token.arrow rest with
          | some rest => do
            let (result, rest) ← readType fuel rest
            return (.function params (some result), rest)
          | none => return (.function params none, rest)
        | none =>
          match accept Token.openAngle rest with
          | some rest => do
            let (args, rest) ← readList fuel Token.closeAngle rest
            return (.named ⟨name⟩ args, rest)
          | none => return (.named ⟨name⟩ [], rest)

/-- Reads types separated by commas up to and including a closing token. -/
def readList : Nat → List UInt8 → List UInt8 → Except Fault (List (TypeForm Octets) × List UInt8)
  | 0, _, input => .error (.noType input)
  | fuel + 1, closing, input =>
    match accept closing input with
    | some rest => .ok ([], rest)
    | none => readItems fuel closing input

/-- Reads at least one type; a comma may stand before the closing token. -/
def readItems : Nat → List UInt8 → List UInt8 → Except Fault (List (TypeForm Octets) × List UInt8)
  | 0, _, input => .error (.noType input)
  | fuel + 1, closing, input => do
    let (first, rest) ← readType fuel input
    match accept Token.comma rest with
    | some rest => do
      let (others, rest) ← readList fuel closing rest
      return (first :: others, rest)
    | none => do
      let rest ← expect closing rest
      return ([first], rest)

end

def ofBytes (source : List UInt8) : Except Fault (TypeForm Octets) := do
  let (type, rest) ← readType (3 * source.length + 3) source
  let rest := skipSpaces rest
  if rest.isEmpty then return type else .error (.trailing rest)

def ofText (source : String) : Except String TypeExpr :=
  let input := Text.bytes source
  match ofBytes input with
  | .ok type => .ok (type.map Octets.text)
  | .error fault => .error (fault.message input)

end TreeCheck.TypeExpr
