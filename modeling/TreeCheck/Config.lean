import TreeCheck.Document.Fields
import TreeCheck.Document.Reader
import TreeCheck.File.Path
import TreeCheck.Language

/-!
The configuration of a project: how checks are run and shown, where results are kept, and which
language versions are accepted. It is read from a document; single settings can be overridden.
-/

namespace TreeCheck

namespace Config

/-- When diagnostics are coloured. -/
inductive Color where
  | auto
  | always
  | never
deriving DecidableEq, Repr, Inhabited

def Color.text : Color → String
  | .auto => "auto"
  | .always => "always"
  | .never => "never"

/-- Why a configuration is refused. -/
inductive Fault where
  /-- The text is no document, or a setting has a value of the wrong form. -/
  | malformed
  | negativeJobs (jobs : Int)
  | unknownColor (text : Octets)
  | badLanguage (message : String)
  | emptyDomain (low high : Int)
deriving DecidableEq, Repr

def Fault.message : Fault → String
  | .malformed => "yaml: malformed document"
  | .negativeJobs jobs => s!"jobs must not be negative, got {jobs}"
  | .unknownColor text => "color must be auto, always or never, got " ++ text.quoted
  | .badLanguage message => message
  | .emptyDomain low high => s!"domain min {low} exceeds max {high}"

/-- The message about a configuration that comes from a file. -/
def Fault.messageAt (path : String) : Fault → String
  | .malformed => s!"parsing {path}: " ++ Fault.malformed.message
  | fault => s!"{path}: " ++ fault.message

/-- The settings as they are written. -/
structure Settings where
  jobs : Int := 0
  verbose : Bool := false
  debug : Bool := false
  color : Octets := ""
  cache : String := ""
  language : Octets := ""
  domain : Option (Int × Int) := none
deriving DecidableEq, Repr, Inhabited

/-- Reads a whole number; nothing counts as zero. -/
def readInt (document : Document.Graph) (node : Document.Node) : Document.Decode Int :=
  document.visit node fun node => return (← Document.Decode.ofOption node.toInt64?).getD 0

def readFlag (document : Document.Graph) (node : Document.Node) : Document.Decode Bool :=
  document.visit node fun node => Document.Decode.ofOption node.toBool?

def readText (document : Document.Graph) (node : Document.Node) : Document.Decode Octets :=
  document.visit node fun node => Document.Decode.ofOption node.toText?

/-- The least and the greatest integer of a range. -/
def domainSchema (document : Document.Graph) : Document.Schema (Int × Int) where
  names := ["min", "max"]
  read name node domain := do
    let bound ← readInt document node
    return if name == "min" then (bound, domain.2) else (domain.1, bound)

/-- Reads a range of integers; there may be none. -/
def readDomain (document : Document.Graph) (node : Document.Node) :
    Document.Decode (Option (Int × Int)) :=
  document.visit node fun node => do
    if node.isNull then
      let _ ← Document.Decode.ofOption node.toText?
      return none
    else return some (← document.readRecord (domainSchema document) (0, 0) node)

namespace Settings

def schema (document : Document.Graph) : Document.Schema Settings where
  names := ["jobs", "verbose", "debug", "color", "cache", "language", "domain"]
  read name node s := do
    if name == "jobs" then return { s with jobs := ← readInt document node }
    else if name == "verbose" then return { s with verbose := ← readFlag document node }
    else if name == "debug" then return { s with debug := ← readFlag document node }
    else if name == "color" then return { s with color := ← readText document node }
    else if name == "cache" then return { s with cache := (← readText document node).text }
    else if name == "language" then return { s with language := ← readText document node }
    else return { s with domain := ← readDomain document node }

/-- Reads settings from the root of a document; a root that stands for nothing sets none. -/
def ofDocument (document : Document.Graph) : Document.Decode Settings := do
  Document.Decode.count
  document.visit document.root fun root => do
    if root.isNull then
      let _ ← Document.Decode.ofOption root.toText?
      return {}
    else document.readRecord (schema document) {} root

/-- Reads settings from a document; an empty one leaves all as it is by default. -/
def ofText? (text : String) : Option Settings :=
  match Document.read text with
  | .error .malformed => none
  | .error .empty => some {}
  | .ok document => (ofDocument document).result?

end Settings

def readJobs (jobs : Int) : Except Fault Nat :=
  if jobs < 0 then .error (.negativeJobs jobs) else .ok jobs.toNat

/-- Colours are automatic unless said otherwise. -/
def readColor (text : Octets) : Except Fault Color :=
  if text.isEmpty then .ok .auto
  else
    match [Color.auto, .always, .never].find? fun color => Octets.ofText color.text == text with
    | some color => .ok color
    | none => .error (.unknownColor text)

/-- Settings that replace those of a configuration. -/
structure Overrides where
  jobs : Option Int := none
  verbose : Option Bool := none
  debug : Option Bool := none
  color : Option String := none
  cache : Option String := none
deriving DecidableEq, Repr, Inhabited

end Config

/-- A configuration. -/
structure Config where
  /-- How many functions are analysed at a time; zero leaves it to the machine. -/
  jobs : Nat := 0
  verbose : Bool := false
  debug : Bool := false
  color : Config.Color := .auto
  /-- Where results are kept; nowhere if empty. -/
  cache : String := ""
  /-- The accepted language versions; empty for the usual ones. -/
  language : String := ""
  /-- The least and the greatest integer that matches have to cover. -/
  domain : Option (Int × Int) := none
  /-- The file that the configuration comes from; empty if it comes from none. -/
  path : String := ""
deriving DecidableEq, Repr, Inhabited

namespace Config

/-- The place of a cache that a configuration file names. It is relative to the file. -/
def locateCache (path cache : String) : String :=
  if cache.isEmpty || cache == ":memory:" || File.isAbsolute cache || path.isEmpty then cache
  else File.join (File.directory path) cache

/-- Checks settings in the order jobs, colour, language, domain. -/
def ofSettings (path : String) (s : Settings) : Except Fault Config := do
  let jobs ← readJobs s.jobs
  let color ← readColor s.color
  if !s.language.isEmpty then
    if let .error message := Language.readConstraint s.language then
      throw (.badLanguage message)
  if let some (low, high) := s.domain then
    if high < low then throw (.emptyDomain low high)
  return {
    jobs, color, path, verbose := s.verbose, debug := s.debug, language := s.language.text
    domain := s.domain, cache := locateCache path s.cache }

/-- Reads a configuration from the text of a file. -/
def ofText (path text : String) : Except Fault Config :=
  match Settings.ofText? text with
  | none => .error .malformed
  | some settings => ofSettings path settings

def languages (c : Config) : Option Version.Constraint :=
  if c.language.isEmpty then none else (Language.readConstraint c.language).toOption

/-- Replaces settings. What is not replaced stays as it was. -/
def apply (c : Config) (o : Overrides) : Except Fault Config := do
  let jobs ← (o.jobs.map readJobs).getD (.ok c.jobs)
  let color ← (o.color.map fun text => readColor text).getD (.ok c.color)
  return { c with
    jobs, color, verbose := o.verbose.getD c.verbose, debug := o.debug.getD c.debug
    cache := o.cache.getD c.cache }

end Config

end TreeCheck
