import TreeCheck.Number.Numeral
import TreeCheck.Text.Quoted

/-!
Reading flags from a command line. A flag starts with one or two dashes; its value follows an equals
sign or is the next argument. A switch needs no value. Flags end at the first argument that is none,
or after two dashes that stand alone.
-/

namespace TreeCheck.Command

namespace Flags

/-- What kind of value a flag takes. -/
inductive Form where
  | switch
  | number
  | text
deriving DecidableEq, Repr, Inhabited

/-- The value that a flag was given. -/
inductive Value where
  | switch (on : Bool)
  | number (value : Int)
  | text (value : String)
deriving DecidableEq, Repr, Inhabited

/-- Why a command line is refused. -/
inductive Fault where
  /-- No fault: help was asked for. -/
  | help
  | badSyntax (argument : String)
  | unknown (name : String)
  | noValue (name : String)
  | badSwitch (name value : String)
  | badNumber (name value : String) (cause : Numeral.IntFault)
deriving DecidableEq, Repr

def Fault.message : Fault → String
  | .help => "help requested"
  | .badSyntax argument => s!"bad flag syntax: {argument}"
  | .unknown name => s!"flag provided but not defined: -{name}"
  | .noValue name => s!"flag needs an argument: -{name}"
  | .badSwitch name value =>
    let quoted := Text.quote value
    s!"invalid boolean value {quoted} for -{name}: parse error"
  | .badNumber name value cause =>
    let quoted := Text.quote value
    let reason := match cause with
      | .malformed => "parse error"
      | .range => "value out of range"
    s!"invalid value {quoted} for flag -{name}: {reason}"

def readSwitch? (text : String) : Option Bool :=
  if ["1", "t", "T", "TRUE", "true", "True"].contains text then some true
  else if ["0", "f", "F", "FALSE", "false", "False"].contains text then some false
  else none

def readValue (name text : String) : Form → Except Fault Value
  | .switch =>
    match readSwitch? text with
    | some on => .ok (.switch on)
    | none => .error (.badSwitch name text)
  | .number =>
    match Numeral.readInt64 text.toList with
    | .ok value => .ok (.number value)
    | .error cause => .error (.badNumber name text cause)
  | .text => .ok (.text text)

/-- The name of a flag, and the value that follows an equals sign. -/
def splitValue (body : List Char) : String × Option String :=
  match body.dropWhile (· != '=') with
  | [] => (String.ofList body, none)
  | _ :: value => (String.ofList (body.takeWhile (· != '=')), some (String.ofList value))

/-- What an argument is, seen by itself. -/
inductive Shape where
  | operand
  | endOfFlags
  /-- A flag, without its dashes. -/
  | flag (body : List Char)
deriving DecidableEq, Repr

def shapeOf (argument : String) : Shape :=
  match argument.toList with
  | ['-', '-'] => .endOfFlags
  | '-' :: '-' :: body => .flag body
  | ['-'] => .operand
  | '-' :: body => .flag body
  | _ => .operand

/-- Reads flags up to the first operand. Gives the flags in the order of the command line, and the
arguments that are left. -/
def read (forms : List (String × Form)) : List String →
    Except Fault (List (String × Value) × List String)
  | [] => .ok ([], [])
  | argument :: rest =>
    match shapeOf argument with
    | .operand => .ok ([], argument :: rest)
    | .endOfFlags => .ok ([], rest)
    | .flag body =>
      if body.isEmpty || body.head? == some '-' || body.head? == some '=' then
        .error (.badSyntax argument)
      else
        let (name, given) := splitValue body
        match forms.lookup name with
        | none => .error (if name == "help" || name == "h" then .help else .unknown name)
        | some form =>
          match given with
          | some text => do
            let value ← readValue name text form
            let (flags, others) ← read forms rest
            return ((name, value) :: flags, others)
          | none =>
            if form == .switch then do
              let (flags, others) ← read forms rest
              return ((name, .switch true) :: flags, others)
            else
              match rest with
              | [] => .error (.noValue name)
              | text :: rest => do
                let value ← readValue name text form
                let (flags, others) ← read forms rest
                return ((name, value) :: flags, others)

/-- Reads flags before and after the first operand. Gives them all, and the operands. -/
def readAround (forms : List (String × Form)) (arguments : List String) :
    Except Fault (List (String × Value) × List String) := do
  match ← read forms arguments with
  | (flags, operand :: next :: rest) =>
    let (more, others) ← read forms (next :: rest)
    return (flags ++ more, operand :: others)
  | found => return found

def last? (flags : List (String × Value)) (names : List String) : Option Value :=
  (flags.reverse.find? fun flag => names.contains flag.1).map Prod.snd

def switch? (flags : List (String × Value)) (names : List String) : Option Bool :=
  match last? flags names with
  | some (.switch on) => some on
  | _ => none

def number? (flags : List (String × Value)) (names : List String) : Option Int :=
  match last? flags names with
  | some (.number value) => some value
  | _ => none

def text? (flags : List (String × Value)) (names : List String) : Option String :=
  match last? flags names with
  | some (.text value) => some value
  | _ => none

end Flags

end TreeCheck.Command
