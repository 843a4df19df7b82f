import TreeCheck.Number.Binary64
import TreeCheck.Syntax.TypeExpr
import TreeCheck.Text.Octets

/-!
Syntax trees. Expressions and patterns carry a number that identifies them within their program;
statements and declarations carry only their place.
-/

namespace TreeCheck

/-- Number and place of an expression or pattern. -/
structure NodeInfo where
  id : Nat := 0
  span : Span
deriving DecidableEq, Repr, Inhabited

inductive BinaryOp where
  | add | sub | mul | div | rem
  | lt | gt | le | ge | eq | ne
  | and | or
  | bitAnd | bitOr | bitXor | shl | shr
deriving DecidableEq, Repr, Inhabited

namespace BinaryOp

def text : BinaryOp → String
  | .add => "+"
  | .sub => "-"
  | .mul => "*"
  | .div => "/"
  | .rem => "%"
  | .lt => "<"
  | .gt => ">"
  | .le => "<="
  | .ge => ">="
  | .eq => "=="
  | .ne => "!="
  | .and => "&&"
  | .or => "||"
  | .bitAnd => "&"
  | .bitOr => "|"
  | .bitXor => "^"
  | .shl => "<<"
  | .shr => ">>"

def all : List BinaryOp :=
  [.add, .sub, .mul, .div, .rem, .lt, .gt, .le, .ge, .eq, .ne, .and, .or, .bitAnd, .bitOr,
    .bitXor, .shl, .shr]

def ofText? (text : String) : Option BinaryOp := all.find? fun op => op.text == text

end BinaryOp

inductive UnaryOp where
  | neg | not | bitNot
deriving DecidableEq, Repr, Inhabited

namespace UnaryOp

def text : UnaryOp → String
  | .neg => "-"
  | .not => "!"
  | .bitNot => "~"

def ofText? (text : String) : Option UnaryOp :=
  [UnaryOp.neg, .not, .bitNot].find? fun op => op.text == text

end UnaryOp

/-- A name that a pattern binds. -/
structure Binding where
  info : NodeInfo
  name : String
  mutable : Bool := false
deriving DecidableEq, Repr, Inhabited

/-- A constant that a pattern matches. -/
inductive Literal where
  | int (value : Int)
  | float (value : Binary64)
  | string (value : Octets)
  | bool (value : Bool)
deriving DecidableEq, Repr, Inhabited

mutual

inductive Expr where
  | int (info : NodeInfo) (value : Int) (suffix : String)
  | float (info : NodeInfo) (value : Binary64) (suffix : String)
  | string (info : NodeInfo) (value : Octets)
  | template (info : NodeInfo) (parts : List TemplatePart)
  | bool (info : NodeInfo) (value : Bool)
  | ident (info : NodeInfo) (name : String)
  | binary (info : NodeInfo) (op : BinaryOp) (left right : Expr)
  | unary (info : NodeInfo) (op : UnaryOp) (operand : Expr)
  | call (info : NodeInfo) (callee : Expr) (args : List Expr)
  | methodCall (info : NodeInfo) (receiver : Expr) (method : String) (args : List Expr)
  | field (info : NodeInfo) (object : Expr) (name : String)
  | index (info : NodeInfo) (object index : Expr)
  | ref (info : NodeInfo) (mutable : Bool) (operand : Expr)
  | deref (info : NodeInfo) (operand : Expr)
  /-- An empty name leaves the struct to be inferred from the fields. -/
  | struct (info : NodeInfo) (name : String) (fields : List FieldInit)
  /-- An empty enum name leaves the enum to be inferred from the variant. -/
  | variant (info : NodeInfo) (enum variant : String) (args : List Expr) (fields : List FieldInit)
  | tuple (info : NodeInfo) (elements : List Expr)
  | array (info : NodeInfo) (elements : List Expr)
  | cast (info : NodeInfo) (operand : Expr) (target : WrittenType)
  | assign (info : NodeInfo) (target value : Expr)
  | select (info : NodeInfo) (scrutinee : Expr) (arms : List MatchArm)
  | branch (info : NodeInfo) (condition consequent : Expr) (alternative : Option Expr)
  | block (body : Block)

/-- A scope: statements and an optional value. -/
inductive Block where
  | mk (info : NodeInfo) (stmts : List Stmt) (tail : Option Expr)

/-- A piece of a template: literal text or an interpolated value. -/
inductive TemplatePart where
  | text (text : Octets)
  | value (expr : Expr)

inductive FieldInit where
  | mk (name : String) (span : Span) (value : Expr)

inductive MatchArm where
  | mk (span : Span) (pattern : Pattern) (guard : Option Expr) (body : Expr)

inductive Stmt where
  | bind (span : Span) (pattern : Pattern) (type : Option WrittenType) (init : Option Expr)
  | expr (span : Span) (value : Expr)
  | ret (span : Span) (value : Option Expr)
  | loop (span : Span) (condition : Expr) (body : Block)
  /-- A counted loop; the bindings of `init` live as long as the loop. -/
  | counted (span : Span) (init : Option Stmt) (condition update : Option Expr) (body : Block)

inductive Pattern where
  | wildcard (info : NodeInfo)
  | binding (binding : Binding)
  | literal (info : NodeInfo) (value : Literal)
  | tuple (info : NodeInfo) (elements : List Pattern)
  /-- An array by its first elements; with `open` it may be longer, and the rest may be bound. -/
  | list (info : NodeInfo) (front : List Pattern) (isOpen : Bool) (rest : Option Binding)
  | record (info : NodeInfo) (name : String) (fields : List FieldPattern) (rest : Bool)
  | variant (info : NodeInfo) (enum variant : String) (args : List Pattern)
      (fields : List FieldPattern) (rest : Bool)
  | alternatives (info : NodeInfo) (choices : List Pattern)
  | range (info : NodeInfo) (low high : Int) (inclusive : Bool)
  | guarded (info : NodeInfo) (inner : Pattern) (condition : Expr)

inductive FieldPattern where
  | mk (name : String) (pattern : Pattern)

end

instance : Inhabited Expr := ⟨.bool default false⟩
instance : Inhabited Block := ⟨.mk default [] none⟩
instance : Inhabited Pattern := ⟨.wildcard default⟩

namespace Block

def info : Block → NodeInfo
  | .mk info _ _ => info

def stmts : Block → List Stmt
  | .mk _ stmts _ => stmts

def tail : Block → Option Expr
  | .mk _ _ tail => tail

def id (b : Block) : Nat := b.info.id

def span (b : Block) : Span := b.info.span

end Block

namespace Expr

def info : Expr → NodeInfo
  | .int info .. | .float info .. | .string info _ | .template info _ | .bool info _
  | .ident info _ | .binary info .. | .unary info .. | .call info .. | .methodCall info ..
  | .field info .. | .index info .. | .ref info .. | .deref info _ | .struct info ..
  | .variant info .. | .tuple info _ | .array info _ | .cast info .. | .assign info ..
  | .select info .. | .branch info .. => info
  | .block body => body.info

def id (e : Expr) : Nat := e.info.id

def span (e : Expr) : Span := e.info.span

/-- The name of the form of an expression. -/
def kind : Expr → String
  | .int .. => "IntLit"
  | .float .. => "FloatLit"
  | .string .. => "StringLit"
  | .template .. => "TemplateString"
  | .bool .. => "BoolLit"
  | .ident .. => "Ident"
  | .binary .. => "Binary"
  | .unary .. => "Unary"
  | .call .. => "Call"
  | .methodCall .. => "MethodCall"
  | .field .. => "Field"
  | .index .. => "Index"
  | .ref .. => "Ref"
  | .deref .. => "Deref"
  | .struct .. => "StructLit"
  | .variant .. => "VariantLit"
  | .tuple .. => "TupleLit"
  | .array .. => "ArrayLit"
  | .cast .. => "Cast"
  | .assign .. => "Assign"
  | .select .. => "Match"
  | .branch .. => "If"
  | .block .. => "Block"

/-- Whether an expression denotes a location: a variable, a dereference, or a part of one. -/
def isPlace : Expr → Bool
  | .ident .. | .deref .. => true
  | .field _ object _ => object.isPlace
  | .index _ object _ => object.isPlace
  | _ => false

/-- Number and name of the variable at the root of a place. -/
def root? : Expr → Option (NodeInfo × String)
  | .ident info name => some (info, name)
  | .field _ object _ => object.root?
  | .index _ object _ => object.root?
  | .deref _ operand => operand.root?
  | _ => none

end Expr

namespace FieldInit

def name : FieldInit → String
  | .mk name _ _ => name

def span : FieldInit → Span
  | .mk _ span _ => span

def value : FieldInit → Expr
  | .mk _ _ value => value

end FieldInit

namespace MatchArm

def span : MatchArm → Span
  | .mk span _ _ _ => span

def pattern : MatchArm → Pattern
  | .mk _ pattern _ _ => pattern

def guard : MatchArm → Option Expr
  | .mk _ _ guard _ => guard

def body : MatchArm → Expr
  | .mk _ _ _ body => body

end MatchArm

namespace Stmt

def span : Stmt → Span
  | .bind span .. | .expr span _ | .ret span _ | .loop span .. | .counted span .. => span

/-- The name of the form of a statement. -/
def kind : Stmt → String
  | .bind .. => "LetStmt"
  | .expr .. => "ExprStmt"
  | .ret .. => "ReturnStmt"
  | .loop .. => "WhileStmt"
  | .counted .. => "ForStmt"

end Stmt

namespace FieldPattern

def name : FieldPattern → String
  | .mk name _ => name

def pattern : FieldPattern → Pattern
  | .mk _ pattern => pattern

end FieldPattern

namespace Pattern

def info : Pattern → NodeInfo
  | .wildcard info | .literal info _ | .tuple info _ | .list info .. | .record info ..
  | .variant info .. | .alternatives info _ | .range info .. | .guarded info .. => info
  | .binding b => b.info

def id (p : Pattern) : Nat := p.info.id

def span (p : Pattern) : Span := p.info.span

/-- The name of the form of a pattern. -/
def kind : Pattern → String
  | .wildcard .. => "wildcard"
  | .binding .. => "binding"
  | .literal .. => "literal"
  | .tuple .. => "tuple"
  | .list .. => "list"
  | .record .. => "record"
  | .variant .. => "variant"
  | .alternatives .. => "or"
  | .range .. => "range"
  | .guarded .. => "guard"

mutual

/-- Whether the form of a pattern alone shows that it matches every value of its type. -/
def irrefutable : Pattern → Bool
  | .wildcard _ | .binding _ => true
  | .tuple _ elements => irrefutableAll elements
  | .record _ _ fields _ => irrefutableFields fields
  | .alternatives _ choices => irrefutableAny choices
  | .literal .. | .list .. | .variant .. | .range .. | .guarded .. => false

def irrefutableAll : List Pattern → Bool
  | [] => true
  | p :: rest => p.irrefutable && irrefutableAll rest

def irrefutableAny : List Pattern → Bool
  | [] => false
  | p :: rest => p.irrefutable || irrefutableAny rest

def irrefutableFields : List FieldPattern → Bool
  | [] => true
  | .mk _ p :: rest => p.irrefutable && irrefutableFields rest

end

mutual

/-- The names a pattern binds, from left to right; of alternatives, those of the first. -/
def bindings : Pattern → List Binding
  | .binding b => [b]
  | .tuple _ elements => bindingsAll elements
  | .list _ front _ rest => bindingsAll front ++ rest.toList
  | .record _ _ fields _ => bindingsFields fields
  | .variant _ _ _ args fields _ => bindingsAll args ++ bindingsFields fields
  | .alternatives _ choices => bindingsFirst choices
  | .guarded _ inner _ => inner.bindings
  | .wildcard _ | .literal .. | .range .. => []

def bindingsAll : List Pattern → List Binding
  | [] => []
  | p :: rest => p.bindings ++ bindingsAll rest

def bindingsFirst : List Pattern → List Binding
  | [] => []
  | p :: _ => p.bindings

def bindingsFields : List FieldPattern → List Binding
  | [] => []
  | .mk _ p :: rest => p.bindings ++ bindingsFields rest

end

end Pattern

/-- A named field of a struct or of a variant. -/
structure FieldDecl where
  name : String
  type : WrittenType
  span : Span
deriving Repr, Inhabited

structure StructDecl where
  name : String
  typeParams : List String
  fields : List FieldDecl
  span : Span
deriving Repr, Inhabited

/-- A variant with positional payload types or named fields. A payload slot may lack its type. -/
structure VariantDecl where
  name : String
  payload : List (Option WrittenType)
  fields : List FieldDecl
  span : Span
deriving Repr, Inhabited

structure EnumDecl where
  name : String
  typeParams : List String
  variants : List VariantDecl
  span : Span
deriving Repr, Inhabited

structure Param where
  name : String
  type : WrittenType
  mutable : Bool
  span : Span
deriving Repr, Inhabited

/-- How a method takes the value it is called on. -/
inductive SelfMode where
  | value
  | shared
  | exclusive
deriving DecidableEq, Repr, Inhabited

def SelfMode.text : SelfMode → String
  | .value => "self"
  | .shared => "&self"
  | .exclusive => "&mut self"

/-- What makes a function a method of a type. -/
structure Receiver where
  typeName : String
  mode : SelfMode
  span : Span
deriving Repr, Inhabited

/-- The parameters that a returned reference may point into. -/
structure LivesClause where
  sources : List String
  span : Span
deriving Repr, Inhabited

structure FuncDecl where
  name : String
  typeParams : List String
  receiver : Option Receiver
  params : List Param
  result : Option WrittenType
  lives : Option LivesClause
  body : Block
  span : Span
deriving Inhabited

/-- The name of a function, with its type in front for a method. -/
def FuncDecl.qualifiedName (f : FuncDecl) : String :=
  match f.receiver with
  | some receiver => receiver.typeName ++ "." ++ f.name
  | none => f.name

inductive Item where
  | struct (decl : StructDecl)
  | enum (decl : EnumDecl)
  | function (decl : FuncDecl)
deriving Inhabited

namespace Item

def span : Item → Span
  | .struct decl => decl.span
  | .enum decl => decl.span
  | .function decl => decl.span

def kind : Item → String
  | .struct _ => "StructDecl"
  | .enum _ => "EnumDecl"
  | .function _ => "FuncDecl"

end Item

/-- A whole unit of source. -/
structure Program where
  language : String
  file : String
  items : List Item
deriving Inhabited

namespace Program

def span (p : Program) : Span := .point p.file 1 1

/-- The functions and methods in source order. -/
def functions (p : Program) : List FuncDecl :=
  p.items.filterMap fun
    | .function decl => some decl
    | _ => none

end Program

end TreeCheck
