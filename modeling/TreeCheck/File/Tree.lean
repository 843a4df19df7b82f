import TreeCheck.Cache
import TreeCheck.File.Address
import TreeCheck.File.Path

/-!
A tree of files as a value. Paths are followed component by component, so a path can go up only
from a directory that is there.
-/

namespace TreeCheck.File

/-- Why a file cannot be used. -/
inductive Cause where
  | missing
  | noDirectory
  | isDirectory
  | other (text : String)
deriving DecidableEq, Repr

def Cause.text : Cause → String
  | .missing => "no such file or directory"
  | .noDirectory => "not a directory"
  | .isDirectory => "is a directory"
  | .other text => text

/-- What went wrong, with which file, and why. -/
structure Failure where
  action : String
  path : String
  cause : Cause
deriving DecidableEq, Repr

def Failure.message (f : Failure) : String := s!"{f.action} {f.path}: {f.cause.text}"

/-- What is found at a place of a tree. -/
inductive Entry where
  | directory
  | file (text : String)
  /-- A file that holds analysis results. -/
  | results (cache : Cache)
deriving Inhabited

/-- A place is the list of the names that lead to it, the last name first. -/
abbrev Place : Type := List String

structure Tree where
  /-- Where relative paths start. -/
  working : String
  entries : List (Place × Entry) := []
deriving Inhabited

namespace Tree

/-- The root is always a directory. -/
def get? (t : Tree) (place : Place) : Option Entry :=
  if place.isEmpty then some .directory else t.entries.lookup place

def insert (t : Tree) (place : Place) (entry : Entry) : Tree :=
  { t with entries := (place, entry) :: t.entries.filter fun other => other.1 != place }

def follow (t : Tree) : Place → List String → Except Cause Place
  | here, [] => .ok here
  | here, name :: rest =>
    match t.get? here with
    | none => .error .missing
    | some .directory =>
      if name.isEmpty || name == "." then t.follow here rest
      else if name == ".." then t.follow here.tail rest
      else t.follow (name :: here) rest
    | some _ => .error .noDirectory

def place (t : Tree) (path : String) : Except Cause Place :=
  if path.isEmpty then .error .missing
  else if isAbsolute path then t.follow [] (path.splitOn "/")
  else t.follow [] ((t.working ++ "/" ++ path).splitOn "/")

def find (t : Tree) (path : String) : Except Cause Entry := do
  match t.get? (← t.place path) with
  | some entry => return entry
  | none => throw .missing

/-- Makes the directories on the way to a place. -/
def withParents (t : Tree) : Place → Tree
  | [] => t
  | name :: above =>
    let t := t.withParents above
    match t.get? (name :: above) with
    | none => t.insert (name :: above) .directory
    | some _ => t

/-- Puts a file at a path below the working directory; a path that ends in a slash is a directory. -/
def put (t : Tree) (path text : String) : Tree :=
  let place := (components (absolute t.working path)).reverse
  if path.toList.getLast? == some '/' then t.withParents place
  else (t.withParents place.tail).insert place (.file text)

/-- An empty tree around a working directory. -/
def ofWorking (working : String) : Tree :=
  ({ working : Tree }).withParents (components working).reverse

/-! ### Operations -/

/-- What the file of stored results starts with. -/
def resultsHeader : String := "SQLite format 3\x00"

def read (t : Tree) (path : String) : Except Failure String :=
  match t.find path with
  | .error cause => .error ⟨"open", path, cause⟩
  | .ok .directory => .error ⟨"read", path, .isDirectory⟩
  | .ok (.file text) => .ok text
  | .ok (.results _) => .ok resultsHeader

def isFile (t : Tree) (path : String) : Bool :=
  match t.find path with
  | .ok (.file _) | .ok (.results _) => true
  | _ => false

def isPresent (t : Tree) (path : String) : Except Cause Unit := (t.find path).map fun _ => ()

def makeDirectories (t : Tree) (path : String) : Except Failure Tree :=
  (ancestors path).foldlM (fun t path =>
    match t.find path with
    | .ok .directory => .ok t
    | .ok _ => .error ⟨"mkdir", path, .noDirectory⟩
    | .error _ =>
      match t.place path with
      | .ok place => .ok (t.insert place .directory)
      | .error cause => .error ⟨"mkdir", path, cause⟩) t

/-! ### Stored results -/

/-- Follows the names of a path by their text: a name is not looked up before it is left again. No
name may stand below a file. -/
def trace (t : Tree) : Place → List String → Option Place
  | here, [] => some here
  | here, name :: rest =>
    if name.isEmpty || name == "." then t.trace here rest
    else if name == ".." then t.trace here.tail rest
    else match t.get? here with
      | some (.file _) | some (.results _) => none
      | _ => t.trace (name :: here) rest

/-- The place of a file of results; the directory it lies in must be there. -/
def resultsPlace? (t : Tree) (path : String) : Option Place := do
  let place ← t.trace [] ((if isAbsolute path then path else t.working ++ "/" ++ path).splitOn "/")
  match t.get? place, t.get? place.tail with
  | some .directory, _ => none
  | _, some .directory => some place
  | _, _ => none

/-- Why a file of results cannot be opened. -/
def openFault : String := "unable to open database file: out of memory (14)"

/-- Starts to use a file of results. An empty one is made into a store, if it may be written. -/
def useResults (t : Tree) (name : String) (address : Address) (stored : Option Cache)
    (place : Place) : Except String Cache × Tree :=
  let isWritable := address.isWritable
  match address.refusal, stored with
  | some fault, _ => (.error fault, t)
  | none, some cache => (.ok { cache with path := name, isOpen := true, isWritable }, t)
  | none, none =>
    if isWritable then (.ok { path := name }, t.insert place (.results { path := name }))
    else (.error Cache.readOnlyFault, t)

/-- Opens stored results by their name, or starts an empty store. -/
def openResults (t : Tree) (name : String) : Except String Cache × Tree :=
  match Address.ofName name with
  | .error message => (.error message, t)
  | .ok address =>
    if address.isPrivate then
      match address.refusal with
      | some fault => (.error fault, t)
      | none =>
        (if address.isWritable then .ok { path := name } else .error Cache.readOnlyFault, t)
    else
      match t.resultsPlace? address.file with
      | none => (.error openFault, t)
      | some place =>
        match t.get? place with
        | some (.results cache) => t.useResults name address (some cache) place
        | some (.file text) =>
          -- A file of one byte counts as empty.
          if text.utf8ByteSize ≤ 1 || address.refusal.isSome then
            t.useResults name address none place
          else (.error "file is not a database (26)", t)
        | _ =>
          if address.access == .create then
            (t.insert place (.file "")).useResults name address none place
          else (.error openFault, t)

/-- Keeps results where they were opened. -/
def saveResults (t : Tree) (cache : Cache) : Tree :=
  match Address.ofName cache.path with
  | .error _ => t
  | .ok address =>
    if address.isPrivate || !address.isWritable then t
    else
      match t.resultsPlace? address.file with
      | some place => t.insert place (.results cache)
      | none => t

end Tree

end TreeCheck.File
