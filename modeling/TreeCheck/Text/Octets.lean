import TreeCheck.Text.Quoted

/-!
Byte sequences that are meant as text. Not every byte needs to belong to a character; two sequences
may encode a character only when they are joined. In addresses a byte may be escaped: a percent sign and
two hexadecimal digits stand for it.
-/

namespace TreeCheck

/-- Bytes that are meant as text. -/
structure Octets where
  bytes : List UInt8
deriving DecidableEq, Repr, Inhabited

namespace Octets

def ofText (text : String) : Octets := ⟨Text.bytes text⟩

instance : Coe String Octets := ⟨ofText⟩

def append (a b : Octets) : Octets := ⟨a.bytes ++ b.bytes⟩

instance : Append Octets := ⟨append⟩

/-- The characters that are encoded; a stray byte shows as U+FFFD. -/
def text (octets : Octets) : String := Text.ofBytes octets.bytes

/-- The characters inside quotes; a stray byte is escaped. -/
def quoted (octets : Octets) : String := Text.quoteBytes octets.bytes

def isEmpty (octets : Octets) : Bool := octets.bytes.isEmpty

/-- Joins sequences with a separator between them. -/
def intercalate (separator : Octets) (all : List Octets) : Octets :=
  ⟨separator.bytes.intercalate (all.map bytes)⟩

/-! ### Percent escapes -/

def hexDigit? (byte : UInt8) : Option UInt8 :=
  if 0x30 ≤ byte && byte ≤ 0x39 then some (byte - 0x30)
  else if 0x41 ≤ byte && byte ≤ 0x46 then some (byte - 0x37)
  else if 0x61 ≤ byte && byte ≤ 0x66 then some (byte - 0x57)
  else none

/-- The byte that two digits name. -/
def hexByte? (high low : UInt8) : Option UInt8 := do
  return (← hexDigit? high) * 16 + (← hexDigit? low)

private def decodeName : List UInt8 → List UInt8
  | [] => []
  | [a] => [a]
  | [a, b] => [a, b]
  | a :: b :: c :: rest =>
    match if a == 0x25 then hexByte? b c else none with
    | some byte => if byte == 0 then [] else byte :: decodeName rest
    | none => a :: decodeName (b :: c :: rest)

/-- Decodes a part of a file address. A percent sign that starts no escape stands for itself; an
escaped zero ends the part. -/
def ofNamePart (text : String) : Octets := ⟨decodeName (Text.bytes text)⟩

private def decodeQuery : List UInt8 → Except Octets (List UInt8)
  | [] => .ok []
  | a :: rest =>
    if a == 0x25 then
      match rest with
      | b :: c :: later =>
        match hexByte? b c with
        | some byte => (decodeQuery later).map (byte :: ·)
        | none => .error ⟨[a, b, c]⟩
      | _ => .error ⟨a :: rest⟩
    else (decodeQuery rest).map ((if a == 0x2b then 0x20 else a) :: ·)

/-- Decodes a part of a query, in which a plus sign stands for a space. What looks like an escape
but is none is the error. -/
def ofQueryPart (text : String) : Except Octets Octets := (decodeQuery (Text.bytes text)).map Octets.mk

end Octets

end TreeCheck
