import Std.Time.DateTime.Timestamp
import TreeCheck.Command.Session
import TreeCheck.Command.Stored

/-!
The command line. The tool works on the files of the machine; a watched document is looked at
several times a second.
-/

namespace TreeCheck.Command

/-- Why the machine refused to use a file. -/
def causeOf : IO.Error → File.Cause
  | .noFileOrDirectory .. => .missing
  | .inappropriateType .. => .noDirectory
  | e => .other (toString e)

/-- Whether a path leads to a directory; none if it leads nowhere. -/
def isDirectory? (path : String) : IO (Option Bool) := do
  try return some (← (← IO.FS.realPath path).isDir)
  catch _ => return none

/-- Reads a file. One that holds no text reads as a text that is no document. -/
def readText (path : String) : IO (Except File.Failure String) := do
  if (← isDirectory? path) == some true then return .error ⟨"read", path, .isDirectory⟩
  try return .ok ((String.fromUTF8? (← IO.FS.readBinFile path)).getD "\x00")
  catch e => return .error ⟨"open", path, causeOf e⟩

def makeMissing : List String → IO (Except File.Failure Unit)
  | [] => return .ok ()
  | path :: rest => do
    match ← isDirectory? path with
    | some true => makeMissing rest
    | some false => return .error ⟨"mkdir", path, .noDirectory⟩
    | none =>
      try IO.FS.createDir path
      catch e => return .error ⟨"mkdir", path, causeOf e⟩
      makeMissing rest

/-- Reads a file of results. One of at most one byte holds none yet. -/
def readStored (name : String) (address : File.Address) : IO (Except String Cache) := do
  match ← readText address.file with
  | .ok text =>
    match Cache.ofText? name text with
    | some cache => return .ok { cache with isWritable := address.isWritable }
    | none =>
      if 1 < text.utf8ByteSize then return .error "file is not a database (26)"
      else if address.isWritable then return .ok { path := name }
      else return .error Cache.readOnlyFault
  | .error _ =>
    if address.access != .create then return .error File.Tree.openFault
    try
      let cache : Cache := { path := name }
      IO.FS.writeFile address.file cache.text
      return .ok cache
    catch _ => return .error File.Tree.openFault

def openStored (name : String) : IO (Except String Cache) := do
  match File.Address.ofName name with
  | .error message => return .error message
  | .ok address =>
    match address.refusal with
    | some fault => return .error fault
    | none =>
      if !address.isPrivate then readStored name address
      else if address.isWritable then return .ok { path := name }
      else return .error Cache.readOnlyFault

def saveStored (cache : Cache) : IO Unit := do
  if let .ok address := File.Address.ofName cache.path then
    if !address.isPrivate && address.isWritable then IO.FS.writeFile address.file cache.text

def machine : Disk IO where
  read := readText
  isFile path := do return (← isDirectory? path) == some false
  find path := do
    return match ← isDirectory? path with
      | some _ => .ok ()
      | none => .error .missing
  makeDirectories path := makeMissing (File.ancestors path)
  openResults := openStored
  saveResults := saveStored

def twoDigits (n : Int) : String := if n < 10 then s!"0{n}" else toString n

def timeOfDay (second : Int) : String :=
  let today := second % 86400
  ":".intercalate [twoDigits (today / 3600), twoDigits (today / 60 % 60), twoDigits (today % 60)]

/-- Thirty-two hexadecimal digits in five groups. -/
def identifier (bytes : ByteArray) : String :=
  let digits := bytes.toList.flatMap fun b =>
    [Nat.digitChar (b.toNat / 16), Nat.digitChar (b.toNat % 16)]
  let group (first count : Nat) := String.ofList ((digits.drop first).take count)
  "-".intercalate [group 0 8, group 8 4, group 12 4, group 16 4, group 20 12]

def currentEnvironment : IO Environment := do
  let second := (← Std.Time.Timestamp.now).toSecondsSinceUnixEpoch.val
  let colors := ((← IO.getEnv "NO_COLOR").getD "").isEmpty
  return {
    working := (← IO.currentDir).toString
    time := timeOfDay second
    now := second
    run := identifier (← IO.getRandomBytes 16)
    toolchain := "lean4"
    target := "native"
    outTerminal := colors && (← (← IO.getStdout).isTty)
    errTerminal := colors && (← (← IO.getStderr).isTty) }

def Outcome.print (outcome : Outcome) : IO Unit := do
  let err ← IO.getStderr
  err.putStr outcome.err
  err.flush
  let out ← IO.getStdout
  out.putStr outcome.out
  out.flush

/-- When a file was last written; none if it is gone. -/
def lastWritten (path : String) : IO (Option IO.FS.SystemTime) := do
  try return some (← (← IO.FS.realPath path).metadata).modified
  catch _ => return none

/-- Checks a document again whenever it changes. -/
partial def keepWatching (s : Session) (seen : Option IO.FS.SystemTime) : IO Unit := do
  IO.sleep 100
  let current ← lastWritten s.path
  if current == seen then keepWatching s seen
  else
    let change : Change := ⟨if current.isNone then 4 else if seen.isNone then 1 else 2⟩
    let s := { s with env := { ← currentEnvironment with run := s.env.run } }
    let (s, outcome) ← s.changed machine change
    outcome.print
    keepWatching s current

end TreeCheck.Command

open TreeCheck.Command in
def main (arguments : List String) : IO UInt32 := do
  let (goesOn, outcome) ← run machine (← currentEnvironment) arguments
  outcome.print
  if let some s := goesOn then
    keepWatching s (← lastWritten s.path)
  return outcome.exit.code.toUInt32
