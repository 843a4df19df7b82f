import TreeCheck.Text.Aligned

/-!
The description of a tool with commands, and the texts that explain it. Empty texts stand for
absent ones.
-/

namespace TreeCheck.Command

/-- A flag of a command. A flag without an argument is a switch. -/
structure Flag where
  name : String
  short : String := ""
  argument : String := ""
  help : String := ""
  default : String := ""
deriving DecidableEq, Repr, Inhabited

/-- What is written on the command line. -/
def Flag.form (f : Flag) : String :=
  let name := if f.short.isEmpty then s!"    --{f.name}" else s!"-{f.short}, --{f.name}"
  if f.argument.isEmpty then name else s!"{name} {f.argument}"

def Flag.explanation (f : Flag) : String :=
  if f.default.isEmpty then f.help else s!"{f.help} (default: {f.default})"

/-- One command of a tool; `operand` is what it is applied to. -/
structure Description where
  name : String
  operand : String := ""
  summary : String := ""
  flags : List Flag := []
  examples : List String := []
deriving DecidableEq, Repr, Inhabited

namespace Description

/-- How a command is invoked, in one line. -/
def synopsis (c : Description) (tool : String) : String :=
  " ".intercalate ([tool, c.name] ++ (if c.flags.isEmpty then [] else ["[flags]"])
    ++ (if c.operand.isEmpty then [] else [c.operand]))

def operandOf (c : Description) (tool : String) : List String → Except String String
  | [] => .error s!"{tool} {c.name}: missing {c.operand}\nusage: {c.synopsis tool}"
  | [operand] => .ok operand
  | operand :: others =>
    let surplus := " ".intercalate others
    .error s!"{tool} {c.name}: unexpected arguments after {operand}: {surplus}"

end Description

/-- A tool and its commands. -/
structure Manual where
  tool : String
  summary : String := ""
  commands : List Description := []
deriving DecidableEq, Repr, Inhabited

namespace Manual

/-- The blanks between the columns of a table. -/
def padding : Nat := 3

/-- A table of two columns, indented. -/
def table (rows : List (String × String)) : String :=
  Text.align padding (String.join (rows.map fun (left, right) => s!"  {left}\t{right}\n"))

def find? (m : Manual) (name : String) : Option Description :=
  m.commands.find? fun c => c.name == name

/-- The text that lists all commands. -/
def overview (m : Manual) : String :=
  s!"{m.tool}: {m.summary}\n\nUsage:\n  {m.tool} <command> [flags] <file.yaml>\n\nCommands:\n"
    ++ table (m.commands.map fun c => (c.name, c.summary))
    ++ s!"\nRun '{m.tool} help <command>' for the flags of a command.\n"

/-- The text that explains one command. -/
def explain (m : Manual) (c : Description) : String :=
  s!"Usage: {c.synopsis m.tool}\n\n{c.summary}\n"
    ++ (if c.flags.isEmpty then ""
      else "\nFlags:\n" ++ table (c.flags.map fun f => (f.form, f.explanation)))
    ++ (if c.examples.isEmpty then ""
      else "\nExamples:\n" ++ String.join (c.examples.map fun e => s!"  {e}\n"))

end Manual

end TreeCheck.Command
