import TreeCheck.Analysis

/-!
Diagnostics as they are shown to a reader at a terminal.
-/

namespace TreeCheck.Command

/-- The colours that are used. -/
inductive Paint where
  | red
  | blue
  | cyan
  | bold
deriving DecidableEq, Repr

/-- The sequence that switches a colour on. -/
def Paint.code : Paint → String
  | .red => "\x1b[1;31m"
  | .blue => "\x1b[1;34m"
  | .cyan => "\x1b[36m"
  | .bold => "\x1b[1m"

/-- How diagnostics are shown. -/
structure Style where
  color : Bool := false
  /-- Whether details are shown. -/
  verbose : Bool := false
deriving DecidableEq, Repr, Inhabited

namespace Style

def paint (style : Style) (paint : Paint) (text : String) : String :=
  if style.color then paint.code ++ text ++ "\x1b[0m" else text

/-- Puts a margin in front of each line; line breaks at the end are dropped. -/
def indent (margin text : String) : String :=
  let trimmed := String.ofList (text.toList.reverse.dropWhile (· == '\n')).reverse
  margin ++ ("\n" ++ margin).intercalate (trimmed.splitOn "\n")

/-- A diagnostic with its labels, its hint and, if asked for, its detail. -/
def diagnostic (style : Style) (d : Diagnostic) : String :=
  let code := style.paint .red s!"error[{d.kind.code}]"
  let title := style.paint .bold s!"{d.kind.name}: {d.message}"
  let arrow := style.paint .blue "-->"
  let place := if d.function.isEmpty then "" else s!" (in `{d.function}`)"
  let bar := style.paint .blue "  |"
  let labels := d.secondary.map fun l => s!"  {bar} {l.span.text}: {l.message}\n"
  let help := style.paint .cyan "= help:"
  let hint := if d.hint.isEmpty then "" else s!"  {help} {d.hint}\n"
  let mark := style.paint .cyan "= detail:"
  let detail := if style.verbose && !d.detail.isEmpty then
      s!"  {mark}\n" ++ indent "      " d.detail ++ "\n"
    else ""
  s!"{code} {title}\n  {arrow} {d.span.text}{place}\n" ++ String.join labels ++ hint ++ detail
    ++ "\n"

/-- All diagnostics of a run, and a line that sums it up. -/
def report (style : Style) (file : String) (r : Analysis.Report) : String :=
  let cached := r.functions.countP fun
    | some f => f.cached
    | none => false
  let note := if cached == 0 then "" else s!" ({cached} cached)"
  let summary := Diagnostic.summary r.diagnostics
  let line := s!"{file}: {r.functions.length} functions checked, {summary}{note}"
  String.join (r.diagnostics.map style.diagnostic)
    ++ style.paint (if r.isOk then .bold else .red) line ++ "\n"

end Style

end TreeCheck.Command
