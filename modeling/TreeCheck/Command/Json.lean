/-!
JSON values and their text, with an indent of two blanks. Characters that have a meaning in HTML are
written as escapes.
-/

namespace TreeCheck.Command

inductive Json where
  | null
  | bool (value : Bool)
  | number (value : Int)
  | string (value : String)
  | array (items : List Json)
  /-- Fields in the order in which they are written. -/
  | object (fields : List (String × Json))

namespace Json

instance : Inhabited Json := ⟨.null⟩

/-- Four hexadecimal digits. -/
def hex4 (n : Nat) : List Char :=
  [n / 4096 % 16, n / 256 % 16, n / 16 % 16, n % 16].map Nat.digitChar

/-- Line breaks outside ASCII are written as escapes as well. -/
def escape (c : Char) : List Char :=
  if c == '"' then ['\\', '"']
  else if c == '\\' then ['\\', '\\']
  else if c == '\n' then ['\\', 'n']
  else if c == '\r' then ['\\', 'r']
  else if c == '\t' then ['\\', 't']
  else if c == '\x08' then ['\\', 'b']
  else if c == '\x0c' then ['\\', 'f']
  else if c.toNat < 0x20 || ['<', '>', '&', '\u2028', '\u2029'].contains c then
    '\\' :: 'u' :: hex4 c.toNat
  else [c]

def quote (text : String) : String :=
  "\"" ++ String.ofList (text.toList.flatMap escape) ++ "\""

mutual

/-- The text of a value whose line starts with a margin. -/
def render (margin : String) : Json → String
  | .null => "null"
  | .bool value => if value then "true" else "false"
  | .number value => toString value
  | .string value => quote value
  | .array [] => "[]"
  | .array (first :: rest) =>
    let deeper := margin ++ "  "
    "[\n" ++ deeper ++ first.render deeper ++ renderItems deeper rest ++ "\n" ++ margin ++ "]"
  | .object [] => "\x7b\x7d"
  | .object ((key, value) :: rest) =>
    let deeper := margin ++ "  "
    "\x7b\n" ++ deeper ++ quote key ++ ": " ++ value.render deeper ++ renderFields deeper rest
      ++ "\n" ++ margin ++ "\x7d"

def renderItems (margin : String) : List Json → String
  | [] => ""
  | item :: rest => ",\n" ++ margin ++ item.render margin ++ renderItems margin rest

def renderFields (margin : String) : List (String × Json) → String
  | [] => ""
  | (key, value) :: rest =>
    ",\n" ++ margin ++ quote key ++ ": " ++ value.render margin ++ renderFields margin rest

end

def text (value : Json) : String := value.render "" ++ "\n"

/-- A field that is left out when there is nothing to say. -/
def field (key : String) (present : Bool) (value : Json) : List (String × Json) :=
  if present then [(key, value)] else []

def arrayOrNull (items : List Json) : Json := if items.isEmpty then .null else .array items

def strings (items : List String) : Json := .array (items.map .string)

end Json

end TreeCheck.Command
