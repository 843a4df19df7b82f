import TreeCheck.Text.Printable
import TreeCheck.Text.Utf8

/-!
Quoted text: double quotes around a text whose quotes, backslashes and unprintable characters are
escaped, so that any text, and any byte sequence, is shown on one line.
-/

namespace TreeCheck.Text

/-- The lower-case hexadecimal digits of a number, padded with zeros to a width. -/
def hex (width n : Nat) : String :=
  let digits := Nat.toDigits 16 n
  String.ofList (List.replicate (width - digits.length) '0' ++ digits)

/-- A character inside quotes. -/
def quotedChar (c : Char) : String :=
  match c with
  | '"' => "\\\""
  | '\\' => "\\\\"
  | '\x07' => "\\a"
  | '\x08' => "\\b"
  | '\x0c' => "\\f"
  | '\n' => "\\n"
  | '\r' => "\\r"
  | '\t' => "\\t"
  | '\x0b' => "\\v"
  | c =>
    if isPrintable c then c.toString
    else if c.toNat < 0x80 then "\\x" ++ hex 2 c.toNat
    else if c.toNat < 0x10000 then "\\u" ++ hex 4 c.toNat
    else "\\U" ++ hex 8 c.toNat

def ByteUnit.quoted : ByteUnit → String
  | .char c => quotedChar c
  | .stray byte => "\\x" ++ hex 2 byte.toNat

def quote (text : String) : String :=
  "\"" ++ String.join (text.toList.map quotedChar) ++ "\""

def quoteBytes (input : List UInt8) : String :=
  "\"" ++ String.join ((units input).map ByteUnit.quoted) ++ "\""

end TreeCheck.Text
