import TreeCheck.Cache
import TreeCheck.Match.Check
import TreeCheck.Ownership.Walk
import TreeCheck.Symbol.Collect
import TreeCheck.Text.Digest
import TreeCheck.Typing.Result

/-!
The analysis of a whole program. Declarations are collected once; then every function is checked by
itself: its types, and if these are right its ownership and its matches. A function whose
fingerprint was analysed before is taken from the cache.
-/

namespace TreeCheck

inductive LogLine.Level where
  | info
  | debug
  | warn
  | error
deriving DecidableEq, Repr, Inhabited

/-- A message about the progress of a run. -/
structure LogLine where
  level : LogLine.Level
  text : String
deriving DecidableEq, Repr, Inhabited

namespace Analysis

/-- The outcome for one function. A function from the cache has only diagnostics, one with type
errors has only types. -/
structure FunctionReport where
  name : String
  fingerprint : String := ""
  types : Option Typing.Annotations := none
  ownership : Option Ownership.Result := none
  decisions : Option Match.Result := none
  diagnostics : List Diagnostic := []
  /-- Whether a defect of the analysis itself cut it short. -/
  aborted : Bool := false
  cached : Bool := false
deriving Inhabited

def FunctionReport.isOk (r : FunctionReport) : Bool := r.diagnostics.isEmpty

/-- The outcome of a run; a function that was not reached has no report. -/
structure Report where
  language : String
  functions : List (Option FunctionReport)
  diagnostics : List Diagnostic
deriving Inhabited

def Report.isOk (r : Report) : Bool := r.diagnostics.isEmpty

/-- Why a run stopped. -/
inductive Fatal where
  | defect (defect : Defect)
  | cancelled
  | cache (message : String)
deriving DecidableEq, Repr, Inhabited

def Fatal.message : Fatal → String
  | .defect d => d.text
  | .cancelled => "context canceled"
  | .cache message => message

/-- What came of a function: its report, what stopped the run, and what was logged. -/
structure Outcome where
  report : FunctionReport
  fatal : Option Fatal := none
  log : List LogLine := []
deriving Inhabited

/-- Ends the analysis of a function. A defect stops the run, a crash only the function. -/
def FunctionReport.halt (r : FunctionReport) (f : FuncDecl) : Failure → Outcome
  | .defect d => { report := r, fatal := some (.defect d) }
  | .crash reason =>
    let d : Diagnostic :=
      { kind := .analysisAborted, span := f.span, function := r.name
        message := s!"analysis of `{r.name}` was aborted by an internal error"
        hint := "this is a checker defect; the remaining functions were analysed"
        detail := (Defect.recovered r.name reason).text }
    { report := { r with aborted := true, diagnostics := r.diagnostics ++ [d] }
      log := [⟨.warn, s!"{r.name}: analysis aborted: {reason}"⟩] }

/-- Checks the types of a function. Without declarations nothing can be looked up. -/
def checkTypes (table : Option Table) (position : Nat) (f : FuncDecl) :
    Except Failure (Table × Typing.Result) := do
  let some table := table
    | throw (.crash "runtime error: invalid memory address or nil pointer dereference")
  return (table, ← Typing.check table position f)

def analyzeFunction (table : Option Table) (position : Nat) (f : FuncDecl)
    (options : Match.Options) : Outcome :=
  let name := f.qualifiedName
  let r : FunctionReport := { name }
  match checkTypes table position f with
  | .error e => r.halt f e
  | .ok (table, typing) =>
    let r := { r with types := some typing.notes, diagnostics := typing.diagnostics }
    if !typing.isOk then
      let count := typing.diagnostics.length
      { report := r
        log := [⟨.debug, s!"{name}: {count} type errors, skipping ownership and patterns"⟩] }
    else
      match Ownership.check table position f typing.notes with
      | .error e => r.halt f e
      | .ok ownership =>
        let r := { r with
          ownership := some ownership, diagnostics := r.diagnostics ++ ownership.diagnostics }
        match Match.check table.decls options f typing.notes with
        | .error e => r.halt f e
        | .ok decisions =>
          let r := { r with
            decisions := some decisions, diagnostics := r.diagnostics ++ decisions.diagnostics }
          { report := r, log := [⟨.debug, s!"{name}: {r.diagnostics.length} diagnostics"⟩] }

/-! ### Fingerprints -/

/-- Everything outside a body that can change its analysis: type declarations and signatures. -/
def environment (p : Program) : String :=
  p.language ++ String.join (p.items.map fun item =>
    "\n" ++ match item with
      | .function f =>
        f.text ++ match f.lives with
          | some clause => " lives " ++ ", ".intercalate clause.sources
          | none => ""
      | _ => item.text)

/-- What a fingerprint is the digest of: the environment, the place, signature and body of the
function, and the options. -/
def fingerprintText (env : String) (f : FuncDecl) (options : Match.Options) : Octets :=
  let domain := match options.domain with
    | some (low, high) => s!"domain {low}..={high}\x00"
    | none => ""
  s!"{env}\x00{f.span.text}\x00{f.text}\x00" ++ f.body.spelling
    ++ s!"\x00{domain}verbose {options.verbose}"

def fingerprint (env : String) (f : FuncDecl) (options : Match.Options) : String :=
  Digest.ofBytes (fingerprintText env f options).bytes

/-! ### Runs -/

structure Options where
  matching : Match.Options := {}
  cancelled : Bool := false
  /-- The second that cache entries are written with. -/
  now : Int := 0

/-- Analyses a function, or takes its diagnostics from the cache. -/
def analyzeCached (table : Table) (env : String) (options : Options) (cache : Option Cache)
    (position : Nat) (f : FuncDecl) : Option FunctionReport × Option Fatal × Option Cache ×
      List LogLine :=
  let name := f.qualifiedName
  let key := fingerprint env f options.matching
  let analyzed : Option FunctionReport × Option Fatal × Option Cache × List LogLine :=
    let outcome := analyzeFunction (some table) position f options.matching
    let r := { outcome.report with fingerprint := key }
    match outcome.fatal, cache with
    | none, some store =>
      if r.aborted then (some r, none, cache, outcome.log)
      else match store.store options.now key r.name r.diagnostics with
        | .ok store => (some r, none, some store, outcome.log)
        | .error e =>
          (some r, some (.cache s!"cache store for {r.name}: {e}"), cache, outcome.log)
    | fatal, _ => (some r, fatal, cache, outcome.log)
  match cache with
  | none => analyzed
  | some store =>
    match store.lookup key with
    | .error e => (none, some (.cache s!"cache lookup for {name}: {e}"), cache, [])
    | .ok none => analyzed
    | .ok (some ds) =>
      (some { name, fingerprint := key, diagnostics := ds, cached := true }, none, cache,
        [⟨.debug, s!"{name}: cached ({String.ofList (key.toList.take 12)})"⟩])

/-- What a run has produced so far. -/
structure Progress where
  functions : List (Option FunctionReport) := []
  fatal : Option Fatal := none
  cache : Option Cache := none
  log : List LogLine := []
deriving Inhabited

/-- Goes on with the next function, unless the run was stopped. -/
def Progress.next (table : Table) (env : String) (options : Options) (p : Progress)
    (entry : FuncDecl × Nat) : Progress :=
  if p.fatal.isSome then { p with functions := p.functions ++ [none] }
  else
    let (r, fatal, cache, log) := analyzeCached table env options p.cache entry.2 entry.1
    { functions := p.functions ++ [r], fatal, cache, log := p.log ++ log }

/-- A finished run: its report, what stopped it, the cache after it, and what was logged. -/
structure Run where
  report : Report
  fatal : Option Fatal
  cache : Option Cache
  log : List LogLine
deriving Inhabited

/-- Analyses all functions of a program. -/
def run (p : Program) (options : Options) (cache : Option Cache) : Run :=
  let (table, faults) := p.collect
  let start : Progress :=
    { cache, fatal := if options.cancelled && !p.functions.isEmpty then some .cancelled else none
      log := [⟨.debug, s!"collected {p.items.length} declarations with {faults.length} diagnostics"⟩] }
  let done := p.functions.zipIdx.foldl (Progress.next table (environment p) options) start
  let bag := done.functions.foldl (fun bag r => match r with
    | some r => bag.addAll r.diagnostics
    | none => bag) (Bag.addAll {} faults)
  let summary := Diagnostic.summary bag.items
  { report := { language := p.language, functions := done.functions, diagnostics := bag.items }
    fatal := done.fatal
    cache := done.cache
    log := done.log ++ [⟨.info, s!"analysed {p.functions.length} functions: {summary}"⟩] }

end Analysis

end TreeCheck
