import TreeCheck.Syntax.Tree

/-!
The nodes of a tree in reading order, and their numbering. Numbering gives the expressions and
patterns of a program the numbers from one on, in that order.
-/

namespace TreeCheck

/-- A node of a function body. -/
inductive TreeNode where
  | expr (expr : Expr)
  | stmt (stmt : Stmt)
  | pattern (pattern : Pattern)

mutual

/-- An expression and all nodes below it, parents first. -/
def Expr.nodes : Expr → List TreeNode
  | .template info parts => .expr (.template info parts) :: TemplatePart.nodesAll parts
  | .binary info op left right => .expr (.binary info op left right) :: (left.nodes ++ right.nodes)
  | .unary info op operand => .expr (.unary info op operand) :: operand.nodes
  | .call info callee args => .expr (.call info callee args) :: (callee.nodes ++ Expr.nodesAll args)
  | .methodCall info receiver method args =>
    .expr (.methodCall info receiver method args) :: (receiver.nodes ++ Expr.nodesAll args)
  | .field info object name => .expr (.field info object name) :: object.nodes
  | .index info object index => .expr (.index info object index) :: (object.nodes ++ index.nodes)
  | .ref info mutable operand => .expr (.ref info mutable operand) :: operand.nodes
  | .deref info operand => .expr (.deref info operand) :: operand.nodes
  | .struct info name fields => .expr (.struct info name fields) :: FieldInit.nodesAll fields
  | .variant info enum variant args fields =>
    .expr (.variant info enum variant args fields)
      :: (Expr.nodesAll args ++ FieldInit.nodesAll fields)
  | .tuple info elements => .expr (.tuple info elements) :: Expr.nodesAll elements
  | .array info elements => .expr (.array info elements) :: Expr.nodesAll elements
  | .cast info operand target => .expr (.cast info operand target) :: operand.nodes
  | .assign info target value => .expr (.assign info target value) :: (target.nodes ++ value.nodes)
  | .select info scrutinee arms =>
    .expr (.select info scrutinee arms) :: (scrutinee.nodes ++ MatchArm.nodesAll arms)
  | .branch info condition consequent alternative =>
    .expr (.branch info condition consequent alternative)
      :: (condition.nodes ++ consequent.nodes ++ Expr.nodesOption alternative)
  | .block body => body.nodes
  | .int info value suffix => [.expr (.int info value suffix)]
  | .float info value suffix => [.expr (.float info value suffix)]
  | .string info value => [.expr (.string info value)]
  | .bool info value => [.expr (.bool info value)]
  | .ident info name => [.expr (.ident info name)]

def Expr.nodesAll : List Expr → List TreeNode
  | [] => []
  | e :: rest => e.nodes ++ Expr.nodesAll rest

def Expr.nodesOption : Option Expr → List TreeNode
  | none => []
  | some e => e.nodes

def Block.nodes : Block → List TreeNode
  | .mk info stmts tail =>
    .expr (.block (.mk info stmts tail)) :: (Stmt.nodesAll stmts ++ Expr.nodesOption tail)

def TemplatePart.nodesAll : List TemplatePart → List TreeNode
  | [] => []
  | .text _ :: rest => TemplatePart.nodesAll rest
  | .value e :: rest => e.nodes ++ TemplatePart.nodesAll rest

def FieldInit.nodesAll : List FieldInit → List TreeNode
  | [] => []
  | .mk _ _ value :: rest => value.nodes ++ FieldInit.nodesAll rest

def MatchArm.nodesAll : List MatchArm → List TreeNode
  | [] => []
  | .mk _ pattern guard body :: rest =>
    pattern.nodes ++ Expr.nodesOption guard ++ body.nodes ++ MatchArm.nodesAll rest

/-- A statement and all nodes below it. A counted loop lists its update after its body. -/
def Stmt.nodes : Stmt → List TreeNode
  | .bind span pattern type init =>
    .stmt (.bind span pattern type init) :: (pattern.nodes ++ Expr.nodesOption init)
  | .expr span value => .stmt (.expr span value) :: value.nodes
  | .ret span value => .stmt (.ret span value) :: Expr.nodesOption value
  | .loop span condition body => .stmt (.loop span condition body) :: (condition.nodes ++ body.nodes)
  | .counted span init condition update body =>
    .stmt (.counted span init condition update body)
      :: (Stmt.nodesOption init ++ Expr.nodesOption condition ++ body.nodes
        ++ Expr.nodesOption update)

def Stmt.nodesAll : List Stmt → List TreeNode
  | [] => []
  | s :: rest => s.nodes ++ Stmt.nodesAll rest

def Stmt.nodesOption : Option Stmt → List TreeNode
  | none => []
  | some s => s.nodes

def Pattern.nodes : Pattern → List TreeNode
  | .tuple info elements => .pattern (.tuple info elements) :: Pattern.nodesAll elements
  | .list info front isOpen rest =>
    .pattern (.list info front isOpen rest)
      :: (Pattern.nodesAll front ++ rest.toList.map fun b => .pattern (.binding b))
  | .record info name fields rest =>
    .pattern (.record info name fields rest) :: FieldPattern.nodesAll fields
  | .variant info enum variant args fields rest =>
    .pattern (.variant info enum variant args fields rest)
      :: (Pattern.nodesAll args ++ FieldPattern.nodesAll fields)
  | .alternatives info choices => .pattern (.alternatives info choices) :: Pattern.nodesAll choices
  | .guarded info inner condition =>
    .pattern (.guarded info inner condition) :: (inner.nodes ++ condition.nodes)
  | .wildcard info => [.pattern (.wildcard info)]
  | .binding b => [.pattern (.binding b)]
  | .literal info value => [.pattern (.literal info value)]
  | .range info low high inclusive => [.pattern (.range info low high inclusive)]

def Pattern.nodesAll : List Pattern → List TreeNode
  | [] => []
  | p :: rest => p.nodes ++ Pattern.nodesAll rest

def FieldPattern.nodesAll : List FieldPattern → List TreeNode
  | [] => []
  | .mk _ pattern :: rest => pattern.nodes ++ FieldPattern.nodesAll rest

end

/-- The nodes of all function bodies in source order. -/
def Program.nodes (p : Program) : List TreeNode := p.functions.flatMap fun f => f.body.nodes

/-- Hands out the next number: it is one above the count of numbers handed out so far. -/
def NodeInfo.number (info : NodeInfo) (count : Nat) : NodeInfo × Nat :=
  ({ info with id := count + 1 }, count + 1)

def Binding.number (b : Binding) (count : Nat) : Binding × Nat :=
  ({ b with info := { b.info with id := count + 1 } }, count + 1)

mutual

/-- Numbers an expression and all nodes below it, given how many numbers are in use. -/
def Expr.number : Expr → Nat → Expr × Nat
  | .int info value suffix, n => let (info, n) := info.number n; (.int info value suffix, n)
  | .float info value suffix, n => let (info, n) := info.number n; (.float info value suffix, n)
  | .string info value, n => let (info, n) := info.number n; (.string info value, n)
  | .bool info value, n => let (info, n) := info.number n; (.bool info value, n)
  | .ident info name, n => let (info, n) := info.number n; (.ident info name, n)
  | .template info parts, n =>
    let (info, n) := info.number n
    let (parts, n) := TemplatePart.numberAll parts n
    (.template info parts, n)
  | .binary info op left right, n =>
    let (info, n) := info.number n
    let (left, n) := left.number n
    let (right, n) := right.number n
    (.binary info op left right, n)
  | .unary info op operand, n =>
    let (info, n) := info.number n
    let (operand, n) := operand.number n
    (.unary info op operand, n)
  | .call info callee args, n =>
    let (info, n) := info.number n
    let (callee, n) := callee.number n
    let (args, n) := Expr.numberAll args n
    (.call info callee args, n)
  | .methodCall info receiver method args, n =>
    let (info, n) := info.number n
    let (receiver, n) := receiver.number n
    let (args, n) := Expr.numberAll args n
    (.methodCall info receiver method args, n)
  | .field info object name, n =>
    let (info, n) := info.number n
    let (object, n) := object.number n
    (.field info object name, n)
  | .index info object index, n =>
    let (info, n) := info.number n
    let (object, n) := object.number n
    let (index, n) := index.number n
    (.index info object index, n)
  | .ref info mutable operand, n =>
    let (info, n) := info.number n
    let (operand, n) := operand.number n
    (.ref info mutable operand, n)
  | .deref info operand, n =>
    let (info, n) := info.number n
    let (operand, n) := operand.number n
    (.deref info operand, n)
  | .struct info name fields, n =>
    let (info, n) := info.number n
    let (fields, n) := FieldInit.numberAll fields n
    (.struct info name fields, n)
  | .variant info enum variant args fields, n =>
    let (info, n) := info.number n
    let (args, n) := Expr.numberAll args n
    let (fields, n) := FieldInit.numberAll fields n
    (.variant info enum variant args fields, n)
  | .tuple info elements, n =>
    let (info, n) := info.number n
    let (elements, n) := Expr.numberAll elements n
    (.tuple info elements, n)
  | .array info elements, n =>
    let (info, n) := info.number n
    let (elements, n) := Expr.numberAll elements n
    (.array info elements, n)
  | .cast info operand target, n =>
    let (info, n) := info.number n
    let (operand, n) := operand.number n
    (.cast info operand target, n)
  | .assign info target value, n =>
    let (info, n) := info.number n
    let (target, n) := target.number n
    let (value, n) := value.number n
    (.assign info target value, n)
  | .select info scrutinee arms, n =>
    let (info, n) := info.number n
    let (scrutinee, n) := scrutinee.number n
    let (arms, n) := MatchArm.numberAll arms n
    (.select info scrutinee arms, n)
  | .branch info condition consequent alternative, n =>
    let (info, n) := info.number n
    let (condition, n) := condition.number n
    let (consequent, n) := consequent.number n
    let (alternative, n) := Expr.numberOption alternative n
    (.branch info condition consequent alternative, n)
  | .block body, n =>
    let (body, n) := body.number n
    (.block body, n)

def Expr.numberAll : List Expr → Nat → List Expr × Nat
  | [], n => ([], n)
  | e :: rest, n =>
    let (e, n) := e.number n
    let (rest, n) := Expr.numberAll rest n
    (e :: rest, n)

def Expr.numberOption : Option Expr → Nat → Option Expr × Nat
  | none, n => (none, n)
  | some e, n =>
    let (e, n) := e.number n
    (some e, n)

def Block.number : Block → Nat → Block × Nat
  | .mk info stmts tail, n =>
    let (info, n) := info.number n
    let (stmts, n) := Stmt.numberAll stmts n
    let (tail, n) := Expr.numberOption tail n
    (.mk info stmts tail, n)

def TemplatePart.numberAll : List TemplatePart → Nat → List TemplatePart × Nat
  | [], n => ([], n)
  | .text text :: rest, n =>
    let (rest, n) := TemplatePart.numberAll rest n
    (.text text :: rest, n)
  | .value e :: rest, n =>
    let (e, n) := e.number n
    let (rest, n) := TemplatePart.numberAll rest n
    (.value e :: rest, n)

def FieldInit.numberAll : List FieldInit → Nat → List FieldInit × Nat
  | [], n => ([], n)
  | .mk name span value :: rest, n =>
    let (value, n) := value.number n
    let (rest, n) := FieldInit.numberAll rest n
    (.mk name span value :: rest, n)

def MatchArm.numberAll : List MatchArm → Nat → List MatchArm × Nat
  | [], n => ([], n)
  | .mk span pattern guard body :: rest, n =>
    let (pattern, n) := pattern.number n
    let (guard, n) := Expr.numberOption guard n
    let (body, n) := body.number n
    let (rest, n) := MatchArm.numberAll rest n
    (.mk span pattern guard body :: rest, n)

def Stmt.number : Stmt → Nat → Stmt × Nat
  | .bind span pattern type init, n =>
    let (pattern, n) := pattern.number n
    let (init, n) := Expr.numberOption init n
    (.bind span pattern type init, n)
  | .expr span value, n =>
    let (value, n) := value.number n
    (.expr span value, n)
  | .ret span value, n =>
    let (value, n) := Expr.numberOption value n
    (.ret span value, n)
  | .loop span condition body, n =>
    let (condition, n) := condition.number n
    let (body, n) := body.number n
    (.loop span condition body, n)
  | .counted span init condition update body, n =>
    let (init, n) := Stmt.numberOption init n
    let (condition, n) := Expr.numberOption condition n
    let (body, n) := body.number n
    let (update, n) := Expr.numberOption update n
    (.counted span init condition update body, n)

def Stmt.numberAll : List Stmt → Nat → List Stmt × Nat
  | [], n => ([], n)
  | s :: rest, n =>
    let (s, n) := s.number n
    let (rest, n) := Stmt.numberAll rest n
    (s :: rest, n)

def Stmt.numberOption : Option Stmt → Nat → Option Stmt × Nat
  | none, n => (none, n)
  | some s, n =>
    let (s, n) := s.number n
    (some s, n)

def Pattern.number : Pattern → Nat → Pattern × Nat
  | .wildcard info, n => let (info, n) := info.number n; (.wildcard info, n)
  | .binding b, n => let (b, n) := b.number n; (.binding b, n)
  | .literal info value, n => let (info, n) := info.number n; (.literal info value, n)
  | .range info low high inclusive, n =>
    let (info, n) := info.number n
    (.range info low high inclusive, n)
  | .tuple info elements, n =>
    let (info, n) := info.number n
    let (elements, n) := Pattern.numberAll elements n
    (.tuple info elements, n)
  | .list info front isOpen rest, n =>
    let (info, n) := info.number n
    let (front, n) := Pattern.numberAll front n
    match rest with
    | none => (.list info front isOpen none, n)
    | some b =>
      let (b, n) := b.number n
      (.list info front isOpen (some b), n)
  | .record info name fields rest, n =>
    let (info, n) := info.number n
    let (fields, n) := FieldPattern.numberAll fields n
    (.record info name fields rest, n)
  | .variant info enum variant args fields rest, n =>
    let (info, n) := info.number n
    let (args, n) := Pattern.numberAll args n
    let (fields, n) := FieldPattern.numberAll fields n
    (.variant info enum variant args fields rest, n)
  | .alternatives info choices, n =>
    let (info, n) := info.number n
    let (choices, n) := Pattern.numberAll choices n
    (.alternatives info choices, n)
  | .guarded info inner condition, n =>
    let (info, n) := info.number n
    let (inner, n) := inner.number n
    let (condition, n) := condition.number n
    (.guarded info inner condition, n)

def Pattern.numberAll : List Pattern → Nat → List Pattern × Nat
  | [], n => ([], n)
  | p :: rest, n =>
    let (p, n) := p.number n
    let (rest, n) := Pattern.numberAll rest n
    (p :: rest, n)

def FieldPattern.numberAll : List FieldPattern → Nat → List FieldPattern × Nat
  | [], n => ([], n)
  | .mk name pattern :: rest, n =>
    let (pattern, n) := pattern.number n
    let (rest, n) := FieldPattern.numberAll rest n
    (.mk name pattern :: rest, n)

end

def Item.numberAll : List Item → Nat → List Item × Nat
  | [], n => ([], n)
  | .function decl :: rest, n =>
    let (body, n) := decl.body.number n
    let (rest, n) := Item.numberAll rest n
    (.function { decl with body } :: rest, n)
  | item :: rest, n =>
    let (rest, n) := Item.numberAll rest n
    (item :: rest, n)

/-- Numbers every expression and pattern of a program from one on; also tells how many there are. -/
def Program.number (p : Program) : Program × Nat :=
  let (items, n) := Item.numberAll p.items 0
  ({ p with items }, n)

end TreeCheck
