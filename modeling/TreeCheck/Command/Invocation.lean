import TreeCheck.Command.Flags
import TreeCheck.Command.Help
import TreeCheck.Config

/-!
The tool: its commands and flags, and what a command line asks it to do.
-/

namespace TreeCheck.Command

def toolName : String := "yunic"

/-- The release of the tool itself. -/
def toolVersion : String := "0.1.0"

/-- The flags of the commands that analyse a document. -/
def analysisFlags : List Flag :=
  [{ name := "config", argument := "FILE"
     help := "yuni.yaml to use instead of searching from the document's directory" },
   { name := "jobs", short := "j", argument := "N", help := "functions analysed in parallel"
     default := "number of CPUs" },
   { name := "verbose", short := "v"
     help := "log progress and attach pattern matrices to diagnostics" },
   { name := "debug", help := "log per-function details" },
   { name := "color", argument := "WHEN", help := "color diagnostics: auto, always or never"
     default := "auto" },
   { name := "cache", argument := "FILE", help := "SQLite database caching per-function results" },
   { name := "json", help := "print machine-readable JSON" }]

def manual : Manual where
  tool := toolName
  summary := "type, ownership and pattern checking for Yuni syntax trees"
  commands :=
    [{ name := "check", operand := "<file.yaml>", flags := analysisFlags
       summary := "Report every diagnostic of a document."
       examples := ["yunic check main.yaml", "yunic check --json -j 4 main.yaml"] },
     { name := "compile", operand := "<file.yaml>", flags := analysisFlags
       summary :=
        "Write the code generation bundle to stdout, refusing if any diagnostic is found."
       examples := ["yunic compile main.yaml > main.bundle.json"] },
     { name := "watch", operand := "<file.yaml>", flags := analysisFlags
       summary := "Check a document, then check it again whenever it is saved."
       examples := ["yunic watch --cache .yuni/cache.db main.yaml"] },
     { name := "version", summary := "Show the tool and language versions."
       flags := [{ name := "json", help := "print machine-readable JSON" }] }]

/-- The forms of the flags of `analysisFlags`, under their long and short names. -/
def flagForms : List (String × Flags.Form) :=
  [("config", .text), ("jobs", .number), ("j", .number), ("verbose", .switch), ("v", .switch),
    ("debug", .switch), ("color", .text), ("cache", .text), ("json", .switch)]

/-- What is done with a document. -/
inductive Task where
  | check
  | compile
  | watch
deriving DecidableEq, Repr, Inhabited

def Task.ofName (name : String) : Task :=
  if name == "check" then .check else if name == "compile" then .compile else .watch

/-- A task, the document it is about, and the settings made on the command line. -/
structure Invocation where
  task : Task
  file : String
  /-- The configuration to use; empty if it is to be searched. -/
  config : String := ""
  json : Bool := false
  overrides : Config.Overrides := {}
deriving DecidableEq, Repr, Inhabited

/-- Why a command line asks for no task. -/
inductive Refusal where
  | help
  | usage (message : String)
deriving DecidableEq, Repr

namespace Invocation

/-- Reads what follows the name of a command. -/
def ofArguments (command : Description) (arguments : List String) : Except Refusal Invocation :=
  match Flags.readAround flagForms arguments with
  | .error .help => .error .help
  | .error fault => .error (.usage fault.message)
  | .ok (flags, operands) =>
    match command.operandOf toolName operands with
    | .error message => .error (.usage message)
    | .ok file => .ok {
        file
        task := .ofName command.name
        config := (Flags.text? flags ["config"]).getD ""
        json := (Flags.switch? flags ["json"]).getD false
        overrides := {
          jobs := Flags.number? flags ["jobs", "j"]
          verbose := Flags.switch? flags ["verbose", "v"]
          debug := Flags.switch? flags ["debug"]
          color := Flags.text? flags ["color"]
          cache := Flags.text? flags ["cache"] } }

end Invocation

end TreeCheck.Command
