import TreeCheck.Number.Binary64

/-!
Readers for number literals. Digits may be grouped by single underscores, and a leading zero or a
letter after it chooses the base.
-/

namespace TreeCheck.Numeral

def digitValue? (c : Char) : Option Nat :=
  if '0' ≤ c && c ≤ '9' then some (c.toNat - '0'.toNat)
  else if 'a' ≤ c && c ≤ 'f' then some (c.toNat - 'a'.toNat + 10)
  else if 'A' ≤ c && c ≤ 'F' then some (c.toNat - 'A'.toNat + 10)
  else none

def isDigit (c : Char) : Bool := '0' ≤ c && c ≤ '9'

/-- Splits off a sign; the flag is set for a minus. -/
def splitSign : List Char → Bool × List Char
  | '-' :: rest => (true, rest)
  | '+' :: rest => (false, rest)
  | text => (false, text)

/-- The number written by digits of a base; none if a character is no such digit. -/
def readDigits (base : Nat) (digits : List Char) : Option Nat :=
  digits.foldlM (fun total c => do
    let digit ← digitValue? c
    if digit < base then some (total * base + digit) else none) 0

/-- The base that a prefix chooses, with the text after it. -/
def splitBase : List Char → Nat × List Char
  | '0' :: 'b' :: rest => (2, rest)
  | '0' :: 'B' :: rest => (2, rest)
  | '0' :: 'o' :: rest => (8, rest)
  | '0' :: 'O' :: rest => (8, rest)
  | '0' :: 'x' :: rest => (16, rest)
  | '0' :: 'X' :: rest => (16, rest)
  | '0' :: rest => (8, '0' :: rest)
  | text => (10, text)

/-- What the last character was, while the grouping of digits is checked. -/
private inductive Last where
  | digit
  | underscore
  | other
deriving BEq

private def groupedFrom (hex : Bool) : Last → List Char → Bool
  | last, [] => last != .underscore
  | last, c :: rest =>
    if isDigit c || (hex && (digitValue? c).isSome) then groupedFrom hex .digit rest
    else if c == '_' then last == .digit && groupedFrom hex .underscore rest
    else last != .underscore && groupedFrom hex .other rest

/-- Underscores stand between digits only; a base prefix counts as a digit. -/
def grouped (unsigned : List Char) : Bool :=
  match unsigned with
  | '0' :: c :: rest =>
    if c == 'x' || c == 'X' then groupedFrom true .digit rest
    else if c == 'b' || c == 'B' || c == 'o' || c == 'O' then groupedFrom false .digit rest
    else groupedFrom false .other unsigned
  | _ => groupedFrom false .other unsigned

/-- A whole number in any base, with an optional sign and grouped digits. -/
def readInt? (text : List Char) : Option Int := do
  let (negative, unsigned) := splitSign text
  let (base, digits) := splitBase unsigned
  guard (grouped unsigned)
  let plain := digits.filter (· != '_')
  guard (!plain.isEmpty)
  let value ← readDigits base plain
  return if negative then -(value : Int) else value

/-- A decimal number with an optional minus, as a pattern of digits. -/
def readDecimal? (text : List Char) : Option Int :=
  match text with
  | '-' :: digits => if digits.isEmpty then none else (readDigits 10 digits).map fun n => -(n : Int)
  | digits => if digits.isEmpty then none else (readDigits 10 digits).map Int.ofNat

def minInt64 : Int := -9223372036854775808

def maxInt64 : Int := 9223372036854775807

def fitsInt64 (n : Int) : Bool := minInt64 ≤ n && n ≤ maxInt64

def maxUInt64 : Nat := 18446744073709551615

def fitsUInt64 (n : Int) : Bool := 0 ≤ n && n ≤ maxUInt64

/-- Why a text is no whole number of 64 bits. -/
inductive IntFault where
  | malformed
  | range
deriving DecidableEq, Repr

/-- Reads digits up to the first one that is wrong or that leads beyond 64 bits. -/
def readWord (base : Nat) (digits : List Char) : Except IntFault Nat :=
  digits.foldlM (fun total c =>
    if c == '_' then .ok total
    else match digitValue? c with
      | none => .error .malformed
      | some digit =>
        if base ≤ digit then .error .malformed
        else if maxUInt64 < total * base + digit then .error .range
        else .ok (total * base + digit)) 0

/-- A whole number of 64 bits in any base, with an optional sign and grouped digits. -/
def readInt64 (text : List Char) : Except IntFault Int := do
  let (negative, unsigned) := splitSign text
  let (base, digits) := splitBase unsigned
  if digits.isEmpty then throw .malformed
  let word ← readWord base digits
  if !grouped unsigned then throw .malformed
  let value : Int := if negative then -(word : Int) else word
  if fitsInt64 value then return value else throw .range

/-- Why a text is no floating-point number. -/
inductive FloatFault where
  | malformed
  | tooLarge
deriving DecidableEq, Repr

private def lower (c : Char) : Char := if 'A' ≤ c && c ≤ 'Z' then Char.ofNat (c.toNat + 32) else c

/-- The words for what is not finite, in any case; only an infinity takes a sign. -/
def readSpecial? (text : List Char) : Option Binary64 :=
  let (negative, word) := splitSign text
  let word := word.map lower
  if word == "inf".toList || word == "infinity".toList then some (.infinite negative)
  else if text.map lower == "nan".toList then some .nan
  else none

/-- The digits of a mantissa before and after its point, underscores dropped. -/
private def splitMantissa (isDigit : Char → Bool) (text : List Char) :
    List Char × List Char × List Char :=
  let inPart (c : Char) : Bool := isDigit c || c == '_'
  let whole := text.takeWhile inPart
  let (fraction, rest) := match text.dropWhile inPart with
    | '.' :: rest => (rest.takeWhile inPart, rest.dropWhile inPart)
    | rest => ([], rest)
  (whole.filter (· != '_'), fraction.filter (· != '_'), rest)

/-- The power after an exponent mark; none if the text is no such power. Powers far out of range are
all alike. -/
private def readPower? (text : List Char) : Option Int :=
  let (negative, digits) := splitSign text
  if (digits.headD '_') == '_' then none
  else do
    let value ← readDigits 10 (digits.filter (· != '_'))
    let value := min value 100000
    return if negative then -(value : Int) else value

/-- A floating-point literal: decimal, or hexadecimal with a binary power, or a special word. -/
def readFloat (text : List Char) : Except FloatFault Binary64 :=
  match readSpecial? text with
  | some value => .ok value
  | none =>
    let (negative, unsigned) := splitSign text
    let (hex, body) := match unsigned with
      | '0' :: x :: d :: rest =>
        if x == 'x' || x == 'X' then (true, d :: rest) else (false, unsigned)
      | _ => (false, unsigned)
    let digit (c : Char) : Bool := if hex then (digitValue? c).isSome else isDigit c
    let (whole, fraction, rest) := splitMantissa digit body
    let marked (c : Char) : Bool := lower c == (if hex then 'p' else 'e')
    let power : Option (Option Int) := match rest with
      | [] => some none
      | c :: rest => if marked c then (readPower? rest).map some else none
    let base := if hex then 16 else 10
    match power, readDigits base (whole ++ fraction) with
    | some power, some digits =>
      if (whole ++ fraction).isEmpty || (text.contains '_' && !grouped unsigned)
          || (hex && power.isNone) then .error .malformed
      else
        let power := power.getD 0
        let value :=
          if hex then
            let e := power - 4 * fraction.length
            if digits == 0 || e < -100000 then some (.zero negative)
            else Binary64.ofRatio? negative (digits * Nat.pow 2 (min e 2000).toNat) (Nat.pow 2 (-e).toNat)
          else Binary64.ofDecimal? negative digits (power - fraction.length)
        match value with
        | some value => .ok value
        | none => .error .tooLarge
    | _, _ => .error .malformed

end TreeCheck.Numeral
