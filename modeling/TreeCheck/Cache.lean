import TreeCheck.Diagnostic

/-!
A store of analysis results. Each entry keeps the diagnostics of one function under the fingerprint
of its analysis, together with the second it was written.
-/

namespace TreeCheck

structure Cache.Entry where
  key : String
  function : String
  diagnostics : List Diagnostic
  written : Int
deriving DecidableEq, Repr, Inhabited

structure Cache where
  path : String := ":memory:"
  entries : List Cache.Entry := []
  isOpen : Bool := true
  /-- Whether entries can be added and removed. -/
  isWritable : Bool := true
deriving DecidableEq, Repr, Inhabited

namespace Cache

/-- Refuses to work with a closed store. -/
def ensureOpen (c : Cache) : Except String Unit :=
  if c.isOpen then .ok () else .error "cache is closed"

/-- Why a store that can only be read refuses a change. -/
def readOnlyFault : String := "attempt to write a readonly database (8)"

def lookup (c : Cache) (key : String) : Except String (Option (List Diagnostic)) := do
  c.ensureOpen
  return (c.entries.find? fun e => e.key == key).map Entry.diagnostics

/-- Stores the diagnostics of a function in place of what was stored under the key. All kinds must
be listed ones. -/
def store (c : Cache) (now : Int) (key function : String) (ds : List Diagnostic) :
    Except String Cache := do
  c.ensureOpen
  for d in ds do
    if let .error e := d.kind.encode then
      throw (s!"failed to encode diagnostics for {function}: "
        ++ s!"json: error calling MarshalText for type *diagnostics.Kind: {e}")
  if !c.isWritable then throw s!"cache store failed: {readOnlyFault}"
  let others := c.entries.filter fun e => e.key != key
  return { c with entries := others ++ [{ key, function, diagnostics := ds, written := now }] }

/-- The number of entries, and of different functions among them. -/
def stats (c : Cache) : Except String (Nat × Nat) := do
  c.ensureOpen
  return (c.entries.length, (c.entries.map Entry.function).eraseDups.length)

/-- Removes the entries written before a second; also tells their number. -/
def prune (c : Cache) (before : Int) : Except String (Nat × Cache) := do
  c.ensureOpen
  if !c.isWritable then throw s!"cache prune failed: {readOnlyFault}"
  let kept := c.entries.filter fun e => before ≤ e.written
  return (c.entries.length - kept.length, { c with entries := kept })

def close (c : Cache) : Cache := { c with isOpen := false }

end Cache

end TreeCheck
