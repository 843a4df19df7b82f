import TreeCheck.Number.Binary64
import TreeCheck.Syntax.Tree
import TreeCheck.Text.Quoted

/-!
The spelling of syntax trees on one line.
-/

namespace TreeCheck

/-- A float literal shows a point or an exponent. -/
def floatText (value : Binary64) : String :=
  let digits := value.text
  if digits.any fun c => c == '.' || c == 'e' || c == 'E' then digits else digits ++ ".0"

def Literal.text : Literal → String
  | .int value => toString value
  | .float value => value.text
  | .string value => value.quoted
  | .bool value => toString value

def Binding.text (b : Binding) : String := if b.mutable then "mut " ++ b.name else b.name

/-- A name with an optional qualifier in front. -/
def qualified (outer inner : String) : String :=
  if outer.isEmpty then inner else outer ++ "::" ++ inner

def braced (body : Octets) : Octets := "\x7b " ++ body ++ " \x7d"

/-- The mark of a pattern that leaves fields out. -/
def others (rest : Bool) : List Octets := if rest then [".."] else []

/-- Type parameters after a declared name. -/
def typeParamText (params : List String) : String :=
  if params.isEmpty then "" else "<" ++ ", ".intercalate params ++ ">"

mutual

def Expr.spelling : Expr → Octets
  | .int _ value suffix => toString value ++ suffix
  | .float _ value suffix => floatText value ++ suffix
  | .string _ value => value.quoted
  | .template _ parts => "`" ++ TemplatePart.spellingAll parts ++ "`"
  | .bool _ value => toString value
  | .ident _ name => name
  | .binary _ op left right => "(" ++ left.spelling ++ " " ++ op.text ++ " " ++ right.spelling ++ ")"
  | .unary _ op operand => op.text ++ operand.spelling
  | .call _ callee args => callee.spelling ++ "(" ++ Octets.intercalate ", " (Expr.spellings args) ++ ")"
  | .methodCall _ receiver method args =>
    receiver.spelling ++ "." ++ method ++ "(" ++ Octets.intercalate ", " (Expr.spellings args) ++ ")"
  | .field _ object name => object.spelling ++ "." ++ name
  | .index _ object index => object.spelling ++ "[" ++ index.spelling ++ "]"
  | .ref _ mutable operand => (if mutable then "&mut " else "&") ++ operand.spelling
  | .deref _ operand => "*" ++ operand.spelling
  | .struct _ name fields =>
    let body := braced (Octets.intercalate ", " (FieldInit.spellings fields))
    if name.isEmpty then body else name ++ " " ++ body
  | .variant _ enum variant args fields =>
    let name := qualified enum variant
    if !fields.isEmpty then name ++ " " ++ braced (Octets.intercalate ", " (FieldInit.spellings fields))
    else if !args.isEmpty then name ++ "(" ++ Octets.intercalate ", " (Expr.spellings args) ++ ")"
    else name
  | .tuple _ elements =>
    match Expr.spellings elements with
    | [only] => "(" ++ only ++ ",)"
    | texts => "(" ++ Octets.intercalate ", " texts ++ ")"
  | .array _ elements => "[" ++ Octets.intercalate ", " (Expr.spellings elements) ++ "]"
  | .cast _ operand target => operand.spelling ++ " as " ++ target.text
  | .assign _ target value => target.spelling ++ " = " ++ value.spelling
  | .select _ scrutinee arms =>
    "match " ++ scrutinee.spelling ++ " " ++ braced (Octets.intercalate ", " (MatchArm.spellings arms))
  | .branch _ condition consequent alternative =>
    "if " ++ condition.spelling ++ " " ++ consequent.spelling ++ Expr.optionSpelling " else " alternative
  | .block body => body.spelling

def Expr.spellings : List Expr → List Octets
  | [] => []
  | e :: rest => e.spelling :: Expr.spellings rest

/-- An optional expression after a lead-in. -/
def Expr.optionSpelling (lead : Octets) : Option Expr → Octets
  | none => ""
  | some e => lead ++ e.spelling

def Block.spelling : Block → Octets
  | .mk _ stmts tail => braced (Octets.intercalate " " (Stmt.spellings stmts ++ Expr.optionSpellings tail))

def Expr.optionSpellings : Option Expr → List Octets
  | none => []
  | some e => [e.spelling]

def TemplatePart.spellingAll : List TemplatePart → Octets
  | [] => ""
  | .text text :: rest => text ++ TemplatePart.spellingAll rest
  | .value e :: rest => "$\x7b" ++ e.spelling ++ "\x7d" ++ TemplatePart.spellingAll rest

def FieldInit.spellings : List FieldInit → List Octets
  | [] => []
  | .mk name _ value :: rest => (name ++ ": " ++ value.spelling) :: FieldInit.spellings rest

def MatchArm.spellings : List MatchArm → List Octets
  | [] => []
  | .mk _ pattern guard body :: rest =>
    (pattern.spelling ++ Expr.optionSpelling " if " guard ++ " => " ++ body.spelling) :: MatchArm.spellings rest

def Stmt.spelling : Stmt → Octets
  | .bind _ pattern type init =>
    let annotated := match type with
      | some type => ": " ++ type.text
      | none => ""
    "let " ++ pattern.spelling ++ annotated ++ Expr.optionSpelling " = " init
  | .expr _ value => value.spelling
  | .ret _ value => "return" ++ Expr.optionSpelling " " value
  | .loop _ condition body => "while " ++ condition.spelling ++ " " ++ body.spelling
  | .counted _ init condition update body =>
    "for " ++ Stmt.optionSpelling init ++ "; " ++ Expr.optionSpelling "" condition ++ "; "
      ++ Expr.optionSpelling "" update ++ " " ++ body.spelling

/-- Statements, each closed by a semicolon. -/
def Stmt.spellings : List Stmt → List Octets
  | [] => []
  | s :: rest => (s.spelling ++ ";") :: Stmt.spellings rest

def Stmt.optionSpelling : Option Stmt → Octets
  | none => ""
  | some s => s.spelling

def Pattern.spelling : Pattern → Octets
  | .wildcard _ => "_"
  | .binding b => b.text
  | .literal _ value => value.text
  | .tuple _ elements => "(" ++ Octets.intercalate ", " (Pattern.spellings elements) ++ ")"
  | .list _ front isOpen rest =>
    let tail := match isOpen, rest with
      | false, _ => []
      | true, some b => [b.name ++ ".."]
      | true, none => [".."]
    "[" ++ Octets.intercalate ", " (Pattern.spellings front ++ tail) ++ "]"
  | .record _ name fields rest =>
    name ++ " " ++ braced (Octets.intercalate ", " (FieldPattern.spellings fields ++ others rest))
  | .variant _ enum variant args fields rest =>
    let name := qualified enum variant
    if !fields.isEmpty || rest then
      name ++ " " ++ braced (Octets.intercalate ", " (FieldPattern.spellings fields ++ others rest))
    else if !args.isEmpty then name ++ "(" ++ Octets.intercalate ", " (Pattern.spellings args) ++ ")"
    else name
  | .alternatives _ choices => Octets.intercalate " | " (Pattern.spellings choices)
  | .range _ low high inclusive =>
    toString low ++ (if inclusive then "..=" else "..") ++ toString high
  | .guarded _ inner condition => inner.spelling ++ " if " ++ condition.spelling

def Pattern.spellings : List Pattern → List Octets
  | [] => []
  | p :: rest => p.spelling :: Pattern.spellings rest

def FieldPattern.spellings : List FieldPattern → List Octets
  | [] => []
  | .mk name pattern :: rest => (name ++ ": " ++ pattern.spelling) :: FieldPattern.spellings rest

end

def Expr.text (e : Expr) : String := e.spelling.text

def Block.text (b : Block) : String := b.spelling.text

def Pattern.text (p : Pattern) : String := p.spelling.text

/-- The parts of a declaration in braces. -/
def listed (parts : List String) : String := "\x7b " ++ ", ".intercalate parts ++ " \x7d"

def FieldDecl.text (f : FieldDecl) : String := f.name ++ ": " ++ f.type.text

def StructDecl.text (d : StructDecl) : String :=
  "struct " ++ d.name ++ typeParamText d.typeParams ++ " "
    ++ listed (d.fields.map FieldDecl.text)

/-- An enum is spelled by the names of its variants alone. -/
def EnumDecl.text (d : EnumDecl) : String :=
  "enum " ++ d.name ++ typeParamText d.typeParams ++ " "
    ++ listed (d.variants.map VariantDecl.name)

def FuncDecl.text (d : FuncDecl) : String :=
  let self := match d.receiver with
    | some receiver => [receiver.mode.text]
    | none => []
  let params := self ++ d.params.map fun p => p.name ++ ": " ++ p.type.text
  let result := match d.result with
    | some type => " -> " ++ type.text
    | none => ""
  "fn " ++ d.qualifiedName ++ typeParamText d.typeParams ++ "(" ++ ", ".intercalate params ++ ")"
    ++ result

def Item.text : Item → String
  | .struct decl => decl.text
  | .enum decl => decl.text
  | .function decl => decl.text

end TreeCheck
