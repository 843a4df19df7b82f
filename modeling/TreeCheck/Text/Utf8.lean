/-!
Text as bytes. A byte sequence splits into units: the characters it encodes and the single bytes
that belong to no character.
-/

namespace TreeCheck.Text

/-- One piece of a byte sequence: a whole character, or a byte that starts none. -/
inductive ByteUnit where
  | char (c : Char)
  | stray (byte : UInt8)
deriving DecidableEq, Repr

def bytes (text : String) : List UInt8 := text.toUTF8.toList

def continuation (byte : UInt8) : Bool := 0x80 ≤ byte && byte < 0xC0

def payload (byte : UInt8) : Nat := byte.toNat % 64

/-- The character that two, three or four leading bytes encode in their shortest form, with the
number of bytes it takes. -/
def leadingChar? : List UInt8 → Option (Char × Nat)
  | [] => none
  | a :: rest =>
    if a < 0x80 then some (Char.ofNat a.toNat, 1)
    else match rest with
      | b :: rest =>
        if !continuation b then none
        else if 0xC2 ≤ a && a < 0xE0 then
          some (Char.ofNat (a.toNat % 32 * 64 + payload b), 2)
        else match rest with
          | c :: rest =>
            if !continuation c then none
            else if 0xE0 ≤ a && a < 0xF0 then
              let code := (a.toNat % 16 * 64 + payload b) * 64 + payload c
              if code < 0x800 || (0xD800 ≤ code && code < 0xE000) then none
              else some (Char.ofNat code, 3)
            else match rest with
              | d :: _ =>
                if !continuation d || a < 0xF0 || 0xF5 ≤ a then none
                else
                  let code := ((a.toNat % 8 * 64 + payload b) * 64 + payload c) * 64 + payload d
                  if code < 0x10000 || 0x110000 ≤ code then none
                  else some (Char.ofNat code, 4)
              | [] => none
          | [] => none
      | [] => none

/-- Splits bytes into units. The first argument bounds the number of units; the number of bytes
always suffices. -/
def unitsWithin : Nat → List UInt8 → List ByteUnit
  | 0, _ => []
  | _, [] => []
  | bound + 1, byte :: rest =>
    match leadingChar? (byte :: rest) with
    | some (c, width) => .char c :: unitsWithin bound ((byte :: rest).drop width)
    | none => .stray byte :: unitsWithin bound rest

def units (input : List UInt8) : List ByteUnit := unitsWithin input.length input

/-- Reads bytes as text; a stray byte becomes U+FFFD. -/
def ofBytes (input : List UInt8) : String :=
  String.ofList ((units input).map fun
    | .char c => c
    | .stray _ => '\uFFFD')

end TreeCheck.Text
