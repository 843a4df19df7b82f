/-!
Slash-separated paths. A path is a text; cleaning gives the shortest path to the same place as far
as the text alone tells it.
-/

namespace TreeCheck.File

def isAbsolute (path : String) : Bool := path.toList.head? == some '/'

/-- Goes on to the next component, the components so far in reverse. Nothing lies above the root. -/
def descend (rooted : Bool) (above : List String) (part : String) : List String :=
  if part.isEmpty || part == "." then above
  else if part == ".." then
    match above with
    | top :: rest => if top == ".." then ".." :: above else rest
    | [] => if rooted then [] else [".."]
  else part :: above

/-- The components of a path, without the superfluous ones. -/
def components (path : String) : List String :=
  ((path.splitOn "/").foldl (descend (isAbsolute path)) []).reverse

def clean (path : String) : String :=
  let body := "/".intercalate (components path)
  if isAbsolute path then "/" ++ body else if body.isEmpty then "." else body

def directory (path : String) : String :=
  clean (String.ofList (path.toList.reverse.dropWhile (· != '/')).reverse)

/-- A path below another one; an empty path adds nothing. -/
def join (base path : String) : String :=
  match base.isEmpty, path.isEmpty with
  | true, true => ""
  | true, false => clean path
  | false, true => clean base
  | false, false => clean (base ++ "/" ++ path)

/-- The path from the root, seen from a working directory. -/
def absolute (working path : String) : String :=
  if isAbsolute path then clean path else join working path

/-- The paths that lead to a path and to all above it, the shortest first. -/
def ancestors (path : String) : List String :=
  let root := if isAbsolute path then "/" else ""
  let names := components path
  (List.range names.length).map fun n => root ++ "/".intercalate (names.take (n + 1))

end TreeCheck.File
