import TreeCheck.Change
import TreeCheck.Command.Invocation
import TreeCheck.Command.Output
import TreeCheck.Command.Render
import TreeCheck.File.Tree

/-!
Running the tool. A session is one task with its configuration and its cache; it works on files
through the operations of a disk, which may be a tree of files or the file system of a machine.
-/

namespace TreeCheck.Command

/-- How files are read and results are kept. -/
structure Disk (m : Type → Type) where
  read : String → m (Except File.Failure String)
  /-- Whether a path leads to a file. -/
  isFile : String → m Bool
  /-- Whether a path leads to something. -/
  find : String → m (Except File.Cause Unit)
  makeDirectories : String → m (Except File.Failure Unit)
  /-- Opens the results that are kept under a name. -/
  openResults : String → m (Except String Cache)
  /-- Keeps results under the name that they were opened with. -/
  saveResults : Cache → m Unit

def Disk.tree : Disk (StateM File.Tree) where
  read path := do return (← get).read path
  isFile path := do return (← get).isFile path
  find path := do return (← get).isPresent path
  makeDirectories path := do
    match (← get).makeDirectories path with
    | .ok tree => set tree; return .ok ()
    | .error failure => return .error failure
  openResults name := modifyGet fun tree => tree.openResults name
  saveResults cache := modify fun tree => tree.saveResults cache

/-- What a run knows about the machine it runs on. -/
structure Environment where
  /-- The working directory. -/
  working : String
  /-- The time of day, as log lines show it. -/
  time : String
  /-- The second that results are written with. -/
  now : Int := 0
  /-- What identifies the run. -/
  run : String
  toolchain : String
  target : String
  outTerminal : Bool := false
  errTerminal : Bool := false
deriving Repr, Inhabited

/-- How a run ends. -/
inductive Exit where
  | ok
  | diagnostics
  | usage
  | internal
deriving DecidableEq, Repr, Inhabited

def Exit.code : Exit → Nat
  | .ok => 0
  | .diagnostics => 1
  | .usage => 2
  | .internal => 3

/-- What a run wrote, and how it ended. -/
structure Outcome where
  exit : Exit
  out : String := ""
  err : String := ""
deriving DecidableEq, Repr, Inhabited

structure Session where
  env : Environment
  invocation : Invocation
  config : Config
  cache : Option Cache := none
deriving Inhabited

namespace Session

/-! ### Logging -/

def levelName : LogLine.Level → String
  | .info => "INFO"
  | .debug => "DEBUG"
  | .warn => "WARN"
  | .error => "ERROR"

/-- Progress is logged on request, details only for debugging. -/
def shows (s : Session) : LogLine.Level → Bool
  | .info => s.config.verbose || s.config.debug
  | .debug => s.config.debug
  | .warn | .error => true

/-- A log line; of the name of the run it shows the first eight characters. -/
def logLine (s : Session) (line : LogLine) : String :=
  let run := String.ofList (s.env.run.toList.take 8)
  s!"[{levelName line.level}] {s.env.time} {run}: {line.text}\n"

def log (s : Session) (lines : List LogLine) : String :=
  String.join ((lines.filter fun line => s.shows line.level).map s.logLine)

/-! ### Starting -/

variable {m : Type → Type} [Monad m]

/-- The names of configuration files; an earlier one hides a later one. -/
def configNames : List String := ["yuni.yaml", "yuni.yml"]

/-- Where a configuration is searched: in a directory and in all above it. -/
def configCandidates (directory : String) : List String :=
  ((File.ancestors directory).reverse ++ ["/"]).flatMap fun place =>
    configNames.map (File.join place)

def firstFile (disk : Disk m) : List String → m (Option String)
  | [] => return none
  | path :: rest => do if ← disk.isFile path then return some path else firstFile disk rest

/-- Reads a configuration from a file. -/
def readConfig (disk : Disk m) (path : String) : m (Except String Config) := do
  match ← disk.read path with
  | .error failure => return .error s!"reading config {path}: {failure.message}"
  | .ok text => return (Config.ofText path text).mapError (·.messageAt path)

/-- The configuration that an invocation names, or the nearest one above the document. -/
def findConfig (disk : Disk m) (env : Environment) (inv : Invocation) :
    m (Except String Config) := do
  if !inv.config.isEmpty then readConfig disk inv.config
  else
    let directory := File.absolute env.working (File.directory inv.file)
    match ← firstFile disk (configCandidates directory) with
    | some path => readConfig disk path
    | none => return .ok {}

/-- Opens a cache. The directory it lies in is made if it is missing. -/
def openCache (disk : Disk m) (path : String) : m (Except String Cache) := do
  let directory := File.directory path
  let made ← if directory == "." then pure (.ok ()) else disk.makeDirectories directory
  match made with
  | .error failure => return .error s!"creating cache directory: {failure.message}"
  | .ok () =>
    match ← disk.openResults path with
    | .error message => return .error s!"failed to initialise cache {path}: {message}"
    | .ok cache => return .ok cache

/-- Starts a session; also gives what was logged. Compiling needs more than a cache holds, so it
does without one. -/
def start (disk : Disk m) (env : Environment) (inv : Invocation) :
    m (String × Except String Session) := do
  match ← findConfig disk env inv with
  | .error message => return ("", .error message)
  | .ok config =>
    match config.apply inv.overrides with
    | .error fault => return ("", .error fault.message)
    | .ok config =>
      let s : Session := { env, invocation := inv, config }
      let log := if config.path.isEmpty then "" else
        s.log [⟨.debug, s!"using config {config.path}"⟩]
      if config.cache.isEmpty || inv.task == .compile then return (log, .ok s)
      match ← openCache disk config.cache with
      | .error message => return (log, .error message)
      | .ok cache =>
        return (log ++ s.log [⟨.debug, s!"using cache {config.cache}"⟩],
          .ok { s with cache := some cache })

/-! ### Tasks -/

/-- A document that was analysed as far as possible. -/
structure Analyzed where
  /-- Absent if there is nothing to report. -/
  report : Option Analysis.Report
  exit : Exit
  log : String
deriving Inhabited

def options (s : Session) : Analysis.Options :=
  { matching := { domain := s.config.domain, verbose := s.config.verbose }, now := s.env.now }

def concluded (s : Session) (run : Analysis.Run) : Analyzed :=
  let log := s.log run.log
  match run.fatal with
  | none => { report := some run.report, exit := .ok, log }
  | some .cancelled => { report := none, exit := .usage, log }
  | some (.defect d) =>
    { report := some run.report, exit := .internal
      log := log ++ s.log [⟨.error, s!"internal error, analysis halted: {d.text}"⟩] }
  | some (.cache message) =>
    { report := some run.report, exit := .internal, log := log ++ s.log [⟨.error, message⟩] }

/-- Reads and analyses the document. -/
def analyze (disk : Disk m) (s : Session) : m (Session × Analyzed) := do
  let file := s.invocation.file
  let refuse (message : String) : Session × Analyzed :=
    (s, { report := none, exit := .usage, log := s.log [⟨.error, message⟩] })
  match ← disk.read file with
  | .error failure => return refuse s!"failed to read {file}: {failure.message}"
  | .ok text =>
    match Program.ofText file text s.config.languages with
    | .error e => return refuse e.message
    | .ok program =>
      let run := Analysis.run program s.options s.cache
      if let some cache := run.cache then disk.saveResults cache
      return ({ s with cache := run.cache }, s.concluded run)

/-- How diagnostics are shown where colours are shown or not. -/
def style (s : Session) (terminal : Bool) : Style :=
  { verbose := s.config.verbose
    color := match s.config.color with
      | .always => true
      | .never => false
      | .auto => terminal }

def check (disk : Disk m) (s : Session) : m (Session × Outcome) := do
  let (s, analyzed) ← s.analyze disk
  match analyzed.report with
  | none => return (s, { exit := analyzed.exit, err := analyzed.log })
  | some r =>
    let file := s.invocation.file
    let out := if s.invocation.json then (Json.ofReport s.env.run file r).text
      else (s.style s.env.outTerminal).report file r
    let exit := if analyzed.exit != .ok then analyzed.exit
      else if r.isOk then .ok else .diagnostics
    return (s, { exit, out, err := analyzed.log })

/-- Writes the bundle, unless there are diagnostics. -/
def compile (disk : Disk m) (s : Session) : m (Session × Outcome) := do
  let (s, analyzed) ← s.analyze disk
  let file := s.invocation.file
  match analyzed.report, analyzed.exit with
  | some r, .ok =>
    if !r.isOk then
      let shown := (s.style s.env.errTerminal).report file r
      return (s, { exit := .diagnostics, err := analyzed.log ++ shown })
    match Bundle.ofReport r with
    | .error message =>
      return (s, { exit := .internal, err := analyzed.log ++ s.log [⟨.error, message⟩] })
    | .ok bundle =>
      return (s, { exit := .ok, out := (Json.ofBundle s.env.run file bundle).text
                   err := analyzed.log })
  | _, exit => return (s, { exit, err := analyzed.log })

/-- The document from the root. -/
def path (s : Session) : String := File.absolute s.env.working s.invocation.file

/-- Checks the document for the first time. Without its directory there is nothing to watch. -/
def watch (disk : Disk m) (s : Session) : m (Option Session × Outcome) := do
  let directory := File.directory s.path
  match ← disk.find directory with
  | .error cause =>
    let message := s!"watching {directory}: {cause.text}"
    return (none, { exit := .usage, err := s.log [⟨.error, message⟩] })
  | .ok () =>
    let (s, outcome) ← s.check disk
    let notice := s.log [⟨.info, s!"watching {s.path}"⟩]
    return (some s, { outcome with err := outcome.err ++ notice })

/-- Checks the document again after a change, unless it is gone. -/
def changed (disk : Disk m) (s : Session) (change : Change) : m (Session × Outcome) := do
  let gone ← match ← disk.find s.path with
    | .error _ => pure change.mayRemove
    | .ok () => pure false
  if gone then
    return (s, { exit := .ok, err := s.log [⟨.warn, s!"{s.path} was removed"⟩] })
  let notice := s.log [⟨.info, s!"{s.path} changed ({change.text}), re-checking"⟩]
  let (s, outcome) ← s.check disk
  return (s, { outcome with err := notice ++ outcome.err })

end Session

/-! ### Commands -/

def Environment.version (env : Environment) (json : Bool) : String :=
  if json then
    (Json.object [("tool", .string toolName), ("version", .string toolVersion),
      ("language", .string Language.newest), ("go", .string env.toolchain),
      ("target", .string env.target)]).text
  else
    let build := s!"language {Language.newest}, {env.toolchain} {env.target}"
    s!"{toolName} {toolVersion} ({build})\n"

/-- Explains the tool or one of its commands. -/
def help : List String → Outcome
  | [] => { exit := .ok, out := manual.overview }
  | name :: _ =>
    match manual.find? name with
    | none => { exit := .usage, err := s!"unknown command: {name}\n" }
    | some command => { exit := .ok, out := manual.explain command }

variable {m : Type → Type} [Monad m]

/-- Does what an invocation asks for. A session that watches its document goes on. -/
def perform (disk : Disk m) (env : Environment) (inv : Invocation) :
    m (Option Session × Outcome) := do
  match ← Session.start disk env inv with
  | (log, .error message) => return (none, { exit := .usage, err := log ++ s!"Error: {message}\n" })
  | (log, .ok s) =>
    let (goesOn, outcome) ← match inv.task with
      | .check => pure (none, (← s.check disk).2)
      | .compile => pure (none, (← s.compile disk).2)
      | .watch => s.watch disk
    return (goesOn, { outcome with err := log ++ outcome.err })

/-- Runs the tool with the arguments of a command line. -/
def run (disk : Disk m) (env : Environment) : List String → m (Option Session × Outcome)
  | [] => return (none, { exit := .usage, err := manual.overview })
  | name :: rest =>
    if name == "help" || name == "-h" || name == "--help" then return (none, help rest)
    else if name == "version" || name == "--version" then
      let json := rest.contains "--json" || rest.contains "-json"
      return (none, { exit := .ok, out := env.version json })
    else match manual.find? name with
      | none =>
        let notice := s!"unknown command: {name}\n\n"
        return (none, { exit := .usage, err := notice ++ manual.overview })
      | some command =>
        match Invocation.ofArguments command rest with
        | .error .help => return (none, { exit := .ok, out := manual.explain command })
        | .error (.usage message) =>
          return (none, { exit := .usage, err := s!"Error: {message}\n" })
        | .ok inv => perform disk env inv

end TreeCheck.Command
