import TreeCheck.Match.Useful

/-!
Values, and two ways to select an arm for a value: walking a decision tree, and trying the arms one
after the other.
-/

namespace TreeCheck.Match

inductive Value where
  | unit
  | bool (value : Bool)
  | int (value : Int)
  | float (value : Binary64)
  | string (value : Octets)
  | tuple (elements : List Value)
  | array (elements : List Value)
  | struct (names : List String) (values : List Value)
  /-- The payload of a variant; names are given for named fields only. -/
  | variant (name : String) (names : List String) (values : List Value)
deriving Repr, Inhabited

namespace Value

mutual

def text : Value → String
  | .unit => "()"
  | .bool value => toString value
  | .int value => toString value
  | .float value => value.text
  | .string value => value.quoted
  | .tuple elements => "(" ++ joined [] elements ++ ")"
  | .array elements => "[" ++ joined [] elements ++ "]"
  | .struct names values => "\x7b " ++ joined names values ++ " \x7d"
  | .variant name _ [] => name
  | .variant name [] (v :: values) => name ++ "(" ++ joined [] (v :: values) ++ ")"
  | .variant name (n :: names) (v :: values) =>
    name ++ " \x7b " ++ joined (n :: names) (v :: values) ++ " \x7d"

/-- Values separated by commas, with names in front as far as there are any. -/
def joined : List String → List Value → String
  | _, [] => ""
  | [], [v] => v.text
  | name :: _, [v] => name ++ ": " ++ v.text
  | [], v :: rest => v.text ++ ", " ++ joined [] rest
  | name :: names, v :: rest => name ++ ": " ++ v.text ++ ", " ++ joined names rest

end

def parts : Value → List Value
  | .tuple elements => elements
  | .array elements => elements
  | .struct _ values => values
  | .variant _ _ values => values
  | .unit | .bool _ | .int _ | .float _ | .string _ => []

def step? (v : Value) : Step → Option Value
  | .target => some v
  | .payload name index =>
    match v with
    | .variant other _ values => if other == name then values[index]? else none
    | _ => none
  | .rest skipped => if v.parts.length < skipped then none else some (.array (v.parts.drop skipped))
  | .element index | .item index | .field index _ => v.parts[index]?

def at? (v : Value) : Path → Option Value
  | [] => some v
  | s :: rest => (v.step? s).bind fun part => part.at? rest

end Value

def Test.accepts : Test → Value → Bool
  | .bool wanted, .bool value => value == wanted
  | .variant v, .variant name _ _ => name == v.name
  | .range low high, .int value => low ≤ value && value ≤ high
  | .string wanted, .string value => value == wanted
  | .float wanted, .float value => value.same wanted
  | .length count, .array elements => elements.length == count
  | .atLeast count _, .array elements => count ≤ elements.length
  | _, _ => false

/-- Bound values, in the order of binding; of equal names the last counts. -/
abbrev Env : Type := List (String × Value)

def Env.get? (env : Env) (name : String) : Option Value :=
  (List.find? (fun entry => entry.1 == name) env.reverse).map Prod.snd

/-- Decides about a guarded arm by what it binds. -/
abbrev Guard : Type := Nat → Env → Bool

/-- The values at the paths of a leaf. -/
def extract (v : Value) (bindings : List Extraction) : Env :=
  bindings.filterMap fun b => (v.at? b.path).map fun part => (b.name, part)

namespace Tree

mutual

def walk (guard : Guard) (v : Value) : Tree → Option (Nat × Env)
  | .switch path _ cases otherwise =>
    match v.at? path with
    | none => none
    | some part =>
      match walkCases guard v part cases with
      | some outcome => outcome
      | none => walkOption guard v otherwise
  | .leaf arm bindings none => some (arm, extract v bindings)
  | .leaf arm bindings (some next) =>
    let env := extract v bindings
    if guard arm env then some (arm, env) else walk guard v next
  | .fail _ => none

/-- Goes on with the first case whose test the part passes, if there is one. -/
def walkCases (guard : Guard) (v part : Value) : List Case → Option (Option (Nat × Env))
  | [] => none
  | .mk test tree :: rest =>
    if test.accepts part then some (walk guard v tree) else walkCases guard v part rest

def walkOption (guard : Guard) (v : Value) : Option Tree → Option (Nat × Env)
  | none => none
  | some tree => walk guard v tree

end

end Tree

/-- A way in which a pattern matches: what it binds, and whether a guard has still to agree. -/
structure Way where
  env : Env := []
  guarded : Bool := false
deriving Repr, Inhabited

def Way.append (a b : Way) : Way := ⟨a.env ++ b.env, a.guarded || b.guarded⟩

def literalMatches : Literal → Value → Bool
  | .bool wanted, .bool value => value == wanted
  | .int wanted, .int value => value == wanted
  | .float wanted, .float value => value.same wanted
  | .string wanted, .string value => value == wanted
  | _, _ => false

def fieldValue? (name : String) (names : List String) (values : List Value) : Option Value :=
  Env.get? (names.zip values) name

mutual

def ways : Pattern → Value → List Way
  | .wildcard _, _ => [{}]
  | .binding b, v => [{ env := [(b.name, v)] }]
  | .literal _ value, v => if literalMatches value v then [{}] else []
  | .range _ low high inclusive, v =>
    match v with
    | .int n => if low ≤ n && n ≤ (if inclusive then high else high - 1) then [{}] else []
    | _ => []
  | .tuple _ elements, v =>
    match v with
    | .unit => if elements.isEmpty then [{}] else []
    | .tuple values => if elements.length == values.length then waysAll elements values else []
    | _ => []
  | .record _ _ fields _, v =>
    match v with
    | .struct names values => waysFields fields names values
    | _ => []
  | .variant _ _ variant args fields rest, v =>
    match v with
    | .variant name names values =>
      if name != variant then []
      else if !fields.isEmpty || rest then waysFields fields names values
      else if values.length < args.length then []
      else waysAll args values
    | _ => []
  | .list _ front isOpen rest, v =>
    match v with
    | .array values =>
      if values.length < front.length || (!isOpen && values.length != front.length) then []
      else
        let tail : Way := match rest with
          | some b => { env := [(b.name, .array (values.drop front.length))] }
          | none => {}
        (waysAll front values).map tail.append
    | _ => []
  | .alternatives _ choices, v => waysAny choices v
  | .guarded _ inner _, v => (ways inner v).map fun way => { way with guarded := true }

/-- Each pattern with its value, as far as there are patterns; the ways of the first vary last. -/
def waysAll : List Pattern → List Value → List Way
  | [], _ => [{}]
  | _ :: _, [] => []
  | p :: rest, v :: values =>
    (ways p v).flatMap fun way => (waysAll rest values).map way.append

def waysFields : List FieldPattern → List String → List Value → List Way
  | [], _, _ => [{}]
  | .mk name p :: rest, names, values =>
    match fieldValue? name names values with
    | none => []
    | some v => (ways p v).flatMap fun way => (waysFields rest names values).map way.append

def waysAny : List Pattern → Value → List Way
  | [], _ => []
  | p :: rest, v => ways p v ++ waysAny rest v

end

/-- What an arm binds if it is selected: the first way that needs no guard or has its consent. -/
def Arm.select (a : Arm) (guard : Guard) (position : Nat) (v : Value) : Option Env :=
  (ways a.pattern v).findSome? fun way =>
    if (a.guarded || way.guarded) && !guard position way.env then none else some way.env

/-- The first arm that matches a value, tried one after the other. -/
def select (guard : Guard) (arms : List Arm) (v : Value) : Option (Nat × Env) :=
  arms.zipIdx.findSome? fun (a, i) => (a.select guard i v).map fun env => (i, env)

end TreeCheck.Match
