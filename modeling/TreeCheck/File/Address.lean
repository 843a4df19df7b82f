import TreeCheck.Text.Octets

/-!
The names of stored results. A name is a path with an optional query after a question mark, or an
address that starts with `file:`. It tells which file holds the results and how the file may be
used.
-/

namespace TreeCheck.File

/-- How a file of results is opened. -/
inductive Access where
  /-- Only what is there can be read. -/
  | readOnly
  | readWrite
  /-- A missing file is made. -/
  | create
  /-- No file is used. -/
  | memory
deriving DecidableEq, Repr, Inhabited

namespace Access

def ofText? (text : String) : Option Access :=
  [("ro", readOnly), ("rw", readWrite), ("rwc", create), ("memory", memory)].lookup text

/-- How much an access asks for. -/
def demand : Access → Nat
  | .memory => 0
  | .readOnly => 1
  | .readWrite => 2
  | .create => 3

def grant : Access → Nat
  | .memory => 3
  | access => access.demand

end Access

/-- Where results are kept and how they may be used. -/
structure Address where
  /-- The path of their file; an empty one stands for no file. -/
  file : String
  access : Access := .create
  /-- Set if the file is promised not to change. -/
  frozen : Bool := false
  /-- What is wrong with the name, noticed only when the file is open. -/
  refusal : Option String := none
deriving DecidableEq, Repr, Inhabited

namespace Address

/-- Results without a file are lost when they are closed. -/
def isPrivate (address : Address) : Bool :=
  address.file.isEmpty || address.file == ":memory:" || address.access == .memory

def isWritable (address : Address) : Bool := address.access != .readOnly && !address.frozen

/-- Splits a text at the first occurrence of a character. -/
def cut (c : Char) (text : String) : String × Option String :=
  let chars := text.toList
  let before := String.ofList (chars.takeWhile (· != c))
  match chars.dropWhile (· != c) with
  | [] => (before, none)
  | _ :: after => (before, some (String.ofList after))

/-! ### Queries -/

def parameters (query : String) : Except String (List (Octets × Octets)) :=
  let parts := (query.splitOn "&").filter fun part => !part.isEmpty
  if parts.any fun part => part.toList.contains ';' then
    .error "invalid semicolon separator in query"
  else parts.mapM fun part =>
    let (name, value) := cut '=' part
    let decoded := do return (← Octets.ofQueryPart name, ← Octets.ofQueryPart (value.getD ""))
    decoded.mapError fun rest => "invalid URL escape " ++ rest.quoted

def values (parameters : List (Octets × Octets)) (name : String) : List Octets :=
  parameters.filterMap fun (known, value) => if known == Octets.ofText name then some value else none

/-- The file system that a query asks for; it must not ask for several. -/
def systemOf (parameters : List (Octets × Octets)) : Except String (Option Octets) :=
  let named := values parameters "vfs"
  let asked := named.filter fun name => !name.isEmpty
  if asked.eraseDups.length ≤ 1 then .ok asked.head?
  else .error ("conflicting vfs query parameters: ["
    ++ " ".intercalate (named.map Octets.text) ++ "]")

/-- Checks the parameters that take effect on an open file. -/
def refusalOf (parameters : List (Octets × Octets)) : Option String :=
  let first (name : String) : Octets := ((values parameters name).head?).getD ""
  let format := first "_time_format"
  let lock := first "_txlock"
  let locks := ["deferred", "immediate", "exclusive"]
  if !format.isEmpty && format != Octets.ofText "sqlite" then
    some ("unknown _time_format " ++ format.quoted)
  else if !lock.isEmpty && !locks.contains (lock.text.map Char.toLower) then
    some ("unknown _txlock " ++ lock.quoted)
  else none

/-! ### Addresses -/

/-- Why an address cannot be used. -/
def badAddress : String := "SQL logic error: out of memory (1)"

/-- The options of an address; one without a name is passed over. -/
def options (query : String) : List (Octets × Octets) :=
  ((query.splitOn "&").map fun part =>
    let (name, value) := cut '=' part
    (Octets.ofNamePart name, Octets.ofNamePart (value.getD ""))).filter
      fun option => !option.1.isEmpty

def dropAuthority (text : String) : Option String :=
  if text.startsWith "//" then
    let chars := text.toList.drop 2
    let authority := String.ofList (chars.takeWhile (· != '/'))
    if authority.isEmpty || authority == "localhost" then
      some (String.ofList (chars.dropWhile (· != '/')))
    else none
  else some text

/-- A flag is set by a number other than zero or by a word. -/
def isSet (text : String) : Bool :=
  if (text.toList.head?.map Char.isDigit).getD false then
    (text.toList.takeWhile Char.isDigit).foldl (fun n c => n * 10 + (c.toNat - 48)) 0 % 256 != 0
  else ["on", "yes", "true"].contains (text.map Char.toLower)

/-- Takes an option into account. -/
def withOption (address : Address) (option : Octets × Octets) : Except String Address :=
  let name := option.1.text
  let value := option.2.text
  if name == "mode" then
    match Access.ofText? value with
    | none => .error badAddress
    | some access =>
      if address.access.grant < access.demand then
        .error "access permission denied: out of memory (3)"
      else .ok { address with access }
  else if name == "cache" then
    if value == "shared" || value == "private" then .ok address else .error badAddress
  else if name == "immutable" then .ok { address with frozen := isSet value }
  else .ok address

/-- The file systems that can be asked for; one of them keeps everything in memory. -/
def systems : List String := ["unix", "unix-none", "unix-dotfile", "unix-excl", "memdb"]

def ofScheme (text : String) : Except String (Address × List (Octets × Octets)) := do
  let some text := dropAuthority text | throw badAddress
  let (file, query) := cut '?' (cut '#' text).1
  let options := options (query.getD "")
  let address ← options.foldlM withOption { file := (Octets.ofNamePart file).text }
  return (address, options)

/-- Reads the name of stored results. -/
def ofName (name : String) : Except String Address := do
  let isAddress := name.startsWith "file:"
  -- A name that starts with a question mark has no query.
  let (path, query) := if name.startsWith "?" then (name, none) else cut '?' name
  let parameters ← parameters (query.getD "")
  let asked ← systemOf parameters
  let (address, options) ←
    if isAddress then ofScheme (name.drop 5).toString else pure ({ file := path }, [])
  let system := ((values options "vfs").getLast?.or asked).getD "unix"
  if !systems.contains system.text then throw badAddress
  return { address with
    file := if system.text == "memdb" then "" else address.file
    refusal := refusalOf parameters }

end Address

end TreeCheck.File
