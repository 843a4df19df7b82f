/-!
Binary floating-point numbers of 64 bits, held exactly: a sign, a whole mantissa and a power of
two. A ratio of whole numbers is rounded to the nearest such number, a tie to the even mantissa.
The text of a number has the fewest digits that read back as the same number, and of those the
digits nearest to it.
-/

namespace TreeCheck

/-- `finite negative m e` is `m * 2 ^ e` with its sign. Rounding yields mantissas below `2 ^ 53`
and exponents from -1074 on, with the least exponent possible. -/
inductive Binary64 where
  | nan
  | infinite (negative : Bool)
  | finite (negative : Bool) (mantissa : Nat) (exponent : Int)
deriving DecidableEq, Repr, Inhabited

namespace Binary64

def minExponent : Int := -1074

/-- The least mantissa of a number with full precision, `2 ^ 52`. -/
def leastNormal : Nat := 4503599627370496

def zero (negative : Bool) : Binary64 := .finite negative 0 minExponent

def scale (num den : Nat) (e : Int) : Nat × Nat :=
  (num * Nat.pow 2 (-e).toNat, den * Nat.pow 2 e.toNat)

/-- The quotient rounded to the nearest whole number, a tie to the even one. -/
def roundDiv (num den : Nat) : Nat :=
  let q := num / den
  let twice := 2 * (num % den)
  if twice < den then q
  else if den < twice then q + 1
  else q + q % 2

/-- The number nearest to `num / den`; none when it is too large to be finite. -/
def ofRatio? (negative : Bool) (num den : Nat) : Option Binary64 :=
  if num == 0 || den == 0 then some (zero negative)
  else
    let guess : Int := (Nat.log2 num : Int) - Nat.log2 den - 52
    let (a, b) := scale num den guess
    let fitted := if a / b < leastNormal then guess - 1 else guess
    let e := max minExponent fitted
    let (a, b) := scale num den e
    let m := roundDiv a b
    let (m, e) := if m == 2 * leastNormal then (leastNormal, e + 1) else (m, e)
    if 971 < e then none else some (.finite negative m e)

/-- The number nearest to `digits * 10 ^ e`; none when it is too large to be finite. -/
def ofDecimal? (negative : Bool) (digits : Nat) (e : Int) : Option Binary64 :=
  let magnitude := ((Nat.toDigits 10 digits).length : Int) + e
  if digits == 0 || magnitude < -330 then some (zero negative)
  else if 320 < magnitude then none
  else ofRatio? negative (digits * Nat.pow 10 e.toNat) (Nat.pow 10 (-e).toNat)

/-- Numerical equality: no number equals a NaN, and the two zeros are equal. -/
def same : Binary64 → Binary64 → Bool
  | .nan, _ | _, .nan => false
  | .finite _ 0 _, .finite _ 0 _ => true
  | a, b => a == b

/-- The whole part, rounded toward zero; none for a number that is not finite. -/
def truncate? : Binary64 → Option Int
  | .finite negative m e =>
    let whole : Int := (m * Nat.pow 2 e.toNat / Nat.pow 2 (-e).toNat : Nat)
    some (if negative then -whole else whole)
  | _ => none

/-! ### Text -/

/-- The exponent of the leading decimal digit of `num / den`, for a positive ratio. -/
def leadingPlace (num den : Nat) : Int :=
  if den ≤ num then ((Nat.toDigits 10 (num / den)).length : Int) - 1
  else Int.negOfNat (Nat.toDigits 10 ((den + num - 1) / num - 1)).length

/-- A decimal grid point that reads back as the number: the grid's points around the number are
tried, and the nearer of two wins. Bounds and value are in quarters of the last binary place. -/
private def gridPoint? (low value high : Nat) (closed : Bool) (unit place : Int) : Option Nat :=
  let (a, b) := scale 1 1 (-unit)
  let up := a * Nat.pow 10 (-place).toNat
  let down := b * Nat.pow 10 place.toNat
  let below := value * up / down
  let inside (c : Nat) : Bool :=
    if closed then low * up ≤ c * down && c * down ≤ high * up
    else low * up < c * down && c * down < high * up
  match inside below, inside (below + 1) with
  | false, false => none
  | true, false => some below
  | false, true => some (below + 1)
  | true, true =>
    let twice := 2 * (value * up - below * down)
    if twice < down then some below
    else if down < twice then some (below + 1)
    else some (below + below % 2)

private def shortestFrom (low value high : Nat) (closed : Bool) (unit lead : Int) :
    Nat → Int → Nat × Int
  | 0, place => (value, place)
  | tries + 1, place =>
    match gridPoint? low value high closed unit place with
    | some digits => (digits, place)
    | none => shortestFrom low value high closed unit lead tries (place - 1)

private def dropZeros : Nat → Nat → Int → Nat × Int
  | 0, digits, place => (digits, place)
  | tries + 1, digits, place =>
    if digits != 0 && digits % 10 == 0 then dropZeros tries (digits / 10) (place + 1)
    else (digits, place)

/-- Digits and exponent of the shortest decimal that reads back as `m * 2 ^ e`, for `m` positive. -/
def shortest (m : Nat) (e : Int) : Nat × Int :=
  let low := if m == leastNormal && minExponent < e then 4 * m - 1 else 4 * m - 2
  let (num, den) := scale m 1 (-e)
  let lead := leadingPlace num den
  let (digits, place) := shortestFrom low (4 * m) (4 * m + 2) (m % 2 == 0) (e - 2) lead 18 lead
  dropZeros 20 digits place

/-- The number as text: positional from 0.0001 up to a million, otherwise one leading digit and an
exponent of at least two digits. -/
def text : Binary64 → String
  | .nan => "NaN"
  | .infinite negative => if negative then "-Inf" else "+Inf"
  | .finite negative m e =>
    let sign := if negative then "-" else ""
    if m == 0 then sign ++ "0"
    else
      let (number, place) := shortest m e
      let digits := Nat.toDigits 10 number
      let point : Int := digits.length + place
      if point - 1 < -4 || 6 ≤ point - 1 then
        let exponent := point - 1
        let fraction := if digits.length == 1 then [] else '.' :: digits.drop 1
        let power := Nat.toDigits 10 exponent.natAbs
        let power := if power.length < 2 then '0' :: power else power
        sign ++ String.ofList (digits.take 1 ++ fraction
          ++ ['e', if exponent < 0 then '-' else '+'] ++ power)
      else if point ≤ 0 then
        sign ++ String.ofList ('0' :: '.' :: List.replicate (-point).toNat '0' ++ digits)
      else if digits.length ≤ point then
        sign ++ String.ofList (digits ++ List.replicate (point.toNat - digits.length) '0')
      else sign ++ String.ofList (digits.take point.toNat ++ '.' :: digits.drop point.toNat)

end Binary64

end TreeCheck
