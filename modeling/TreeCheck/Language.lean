import TreeCheck.Syntax.Reader
import TreeCheck.Version.Constraint

/-!
The language version of a document, and reading a document as a program.
-/

namespace TreeCheck

namespace Language

def newest : String := "0.1.0"

/-- Without another constraint the versions of the 0.1 line are accepted. -/
def defaultConstraint : Version.Constraint :=
  ⟨[[{ operator := .atLeast, bound := ⟨0, 1, 0, "", ""⟩, precision := .full, written := "0.1.0" },
    { operator := .less, bound := ⟨0, 2, 0, "", ""⟩, precision := .full, written := "0.2.0" }]]⟩

def readConstraint (octets : Octets) : Except String Version.Constraint :=
  match Version.Constraint.ofText octets.text with
  | .ok constraint => .ok constraint
  | .error fault =>
    .error ("invalid language constraint " ++ octets.quoted ++ ": " ++ fault.message)

def check (header : String) (constraint : Option Version.Constraint) : Except String Unit :=
  if header.isEmpty then .error "document has no language header"
  else
    match Version.ofText header with
    | .error fault =>
      .error ("invalid language version " ++ Text.quote header ++ ": " ++ fault.message)
    | .ok version =>
      match (constraint.getD defaultConstraint).faults? version with
      | none => .ok ()
      | some faults =>
        .error ("language " ++ version.text ++ " not supported: " ++ faults.headD "")

end Language

def Program.ofText (file text : String) (languages : Option Version.Constraint) :
    Except Syntax.ReadError Program :=
  match Document.read text with
  | .error .malformed => .error (.malformed file)
  | .error .empty => .error (.emptyDocument file)
  | .ok document => do
    let program ← Syntax.readProgram ⟨file, document⟩
    match Language.check program.language languages with
    | .error message => .error (.language file message)
    | .ok () => return program.number.1

end TreeCheck
