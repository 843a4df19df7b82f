import TreeCheck.Number.Numeral

/-!
What a plain scalar stands for: nothing, a truth value, a number, a point in time, or just text.
-/

namespace TreeCheck.Document

/-- The meaning of a scalar. -/
inductive Scalar where
  | null
  | bool (value : Bool)
  | int (value : Int)
  | float (value : Binary64)
  | timestamp
  | text
deriving DecidableEq, Repr

namespace Scalar

def tag : Scalar → String
  | .null => "!!null"
  | .bool _ => "!!bool"
  | .int _ => "!!int"
  | .float _ => "!!float"
  | .timestamp => "!!timestamp"
  | .text => "!!str"

/-- The words with a fixed meaning. -/
def ofWord? (word : String) : Option Scalar :=
  if ["true", "True", "TRUE"].contains word then some (.bool true)
  else if ["false", "False", "FALSE"].contains word then some (.bool false)
  else if ["", "~", "null", "Null", "NULL"].contains word then some .null
  else if [".nan", ".NaN", ".NAN"].contains word then some (.float .nan)
  else if [".inf", ".Inf", ".INF", "+.inf", "+.Inf", "+.INF"].contains word then
    some (.float (.infinite false))
  else if ["-.inf", "-.Inf", "-.INF"].contains word then some (.float (.infinite true))
  else none

private def dropSign : List Char → List Char
  | '-' :: rest => rest
  | '+' :: rest => rest
  | chars => chars

/-- A decimal number with an optional fraction and exponent; a fraction may stand alone. -/
def isDecimal (text : List Char) : Bool :=
  let unsigned := dropSign text
  let whole := unsigned.takeWhile Char.isDigit
  let rest := unsigned.dropWhile Char.isDigit
  let (wellFormed, rest) := match rest with
    | '.' :: fraction =>
      let digits := fraction.takeWhile Char.isDigit
      (!whole.isEmpty || !digits.isEmpty, fraction.dropWhile Char.isDigit)
    | _ => (!whole.isEmpty, rest)
  wellFormed && match rest with
  | [] => true
  | c :: power =>
    let digits := dropSign power
    (c == 'e' || c == 'E') && !digits.isEmpty && digits.all Char.isDigit

private def shortNumber : List Char → Option (Nat × List Char)
  | a :: b :: rest =>
    if !a.isDigit then none
    else if b.isDigit then
      some ((a.toNat - '0'.toNat) * 10 + (b.toNat - '0'.toNat), rest)
    else some (a.toNat - '0'.toNat, b :: rest)
  | [a] => if a.isDigit then some (a.toNat - '0'.toNat, []) else none
  | [] => none

private def after (c : Char) : List Char → Option (List Char)
  | d :: rest => if c == d then some rest else none
  | [] => none

private def daysIn (year month : Nat) : Nat :=
  if month == 2 then
    if year % 4 == 0 && (year % 100 != 0 || year % 400 == 0) then 29 else 28
  else if month == 4 || month == 6 || month == 9 || month == 11 then 30
  else 31

/-- A fraction of a second: a point or comma and digits, or nothing. -/
private def dropFraction : List Char → List Char
  | c :: d :: rest =>
    if (c == '.' || c == ',') && d.isDigit then rest.dropWhile Char.isDigit else c :: d :: rest
  | chars => chars

private def isZone : List Char → Bool
  | ['Z'] => true
  | [sign, h, i, ':', m, n] =>
    (sign == '+' || sign == '-') && h.isDigit && i.isDigit && m.isDigit && n.isDigit
      && (h.toNat - '0'.toNat) * 10 + (i.toNat - '0'.toNat) ≤ 24
      && (m.toNat - '0'.toNat) * 10 + (n.toNat - '0'.toNat) ≤ 60
  | _ => false

/-- A date, alone or with a time of day; a time after `T` has a zone and one after spaces none. -/
def isTimestamp (text : List Char) : Bool :=
  let year := text.takeWhile Char.isDigit
  if year.length != 4 then false
  else
    let number := year.foldl (fun n c => n * 10 + (c.toNat - '0'.toNat)) 0
    let parsed : Option Bool := do
      let rest ← after '-' (text.drop 4)
      let (month, rest) ← shortNumber rest
      let rest ← after '-' rest
      let (day, rest) ← shortNumber rest
      guard (1 ≤ month && month ≤ 12 && 1 ≤ day && day ≤ daysIn number month)
      match rest with
      | [] => return true
      | separator :: rest =>
        guard (separator == 'T' || separator == 't' || separator == ' ')
        let rest := if separator == ' ' then rest.dropWhile (· == ' ') else rest
        let (hour, rest) ← shortNumber rest
        let rest ← after ':' rest
        let (minute, rest) ← shortNumber rest
        let rest ← after ':' rest
        let (second, rest) ← shortNumber rest
        guard (hour < 24 && minute < 60 && second < 60)
        let rest := dropFraction rest
        return if separator == ' ' then rest.isEmpty else isZone rest
    parsed.getD false

/-- Digits of a base after a prefix that the general reader does not know. -/
private def readPrefixed? (text : List Char) : Option Int :=
  let signed (negative : Bool) (base : Nat) (digits : List Char) : Option Int := do
    let (minus, digits) := if negative then (false, digits) else match digits with
      | '-' :: rest => (true, rest)
      | '+' :: rest => (false, rest)
      | digits => (false, digits)
    guard (!digits.isEmpty)
    let value ← Numeral.readDigits base digits
    let value : Int := if negative || minus then -(value : Int) else value
    guard (Numeral.fitsInt64 value || (!negative && !minus && Numeral.fitsUInt64 value))
    return value
  match text with
  | '0' :: 'b' :: rest => signed false 2 rest
  | '-' :: '0' :: 'b' :: rest => signed true 2 rest
  | '0' :: 'o' :: rest => signed false 8 rest
  | '-' :: '0' :: 'o' :: rest => signed true 8 rest
  | _ => none

/-- Reads a text that starts like a number. Underscores are ignored; whole numbers beyond 64 bits
count as floating-point numbers. -/
def ofNumber (timestamps : Bool) (text : List Char) : Scalar :=
  if timestamps && isTimestamp text then .timestamp
  else
    let plain := text.filter (· != '_')
    let whole : Option Int := do
      let value ← Numeral.readInt? plain
      let signed := plain.headD ' ' == '-' || plain.headD ' ' == '+'
      guard (Numeral.fitsInt64 value || (!signed && Numeral.fitsUInt64 value))
      return value
    match whole with
    | some value => .int value
    | none =>
      match if isDecimal plain then (Numeral.readFloat plain).toOption else none with
      | some value => .float value
      | none => match readPrefixed? plain with
        | some value => .int value
        | none => .text

/-- The meaning of a text that carries no tag. `timestamps` admits points in time. -/
def ofPlain (timestamps : Bool) (text : String) : Scalar :=
  match text.toList with
  | [] => .null
  | c :: rest =>
    if "yYnNtTfFoO~".toList.contains c then (ofWord? text).getD .text
    else if c == '.' then
      match ofWord? text with
      | some scalar => scalar
      | none => match Numeral.readFloat (c :: rest) with
        | .ok value => .float value
        | .error _ => .text
    else if c.isDigit || c == '+' || c == '-' then
      match ofWord? text with
      | some scalar => scalar
      | none => ofNumber timestamps (c :: rest)
    else .text

/-- The tags that give a text a meaning of its own. -/
def meaningfulTags : List String := ["!!null", "!!bool", "!!int", "!!float", "!!timestamp"]

/-- The meaning of a text under a tag; none when the text does not fit the tag. Under any other tag
it is just text. -/
def ofTagged? (tag text : String) : Option Scalar :=
  if !meaningfulTags.contains tag then some .text
  else
    let found := ofPlain (tag == "!!timestamp") text
    if found.tag == tag then some found
    else match found with
      | .int value =>
        if tag == "!!float" && Numeral.fitsInt64 value then
          (Binary64.ofRatio? (value < 0) value.natAbs 1).map .float
        else none
      | _ => none

end Scalar

end TreeCheck.Document
