import TreeCheck.Proofs.Syntax.Numbering
import TreeCheck.Syntax.Printer

/-!
Trees whose numbers are all higher by a constant. Numbering from a higher count gives such a tree, and apart from
the numbers the trees are alike: they stand in the same places, are spelled alike and bind
the same names.
-/

namespace TreeCheck

variable {n k : Nat}

def NodeInfo.shift (k : Nat) (info : NodeInfo) : NodeInfo := { info with id := info.id + k }

def Binding.shift (k : Nat) (b : Binding) : Binding := { b with info := b.info.shift k }

mutual

/-- An expression with all numbers higher by a constant. -/
def Expr.shift (k : Nat) : Expr → Expr
  | .int info value suffix => .int (info.shift k) value suffix
  | .float info value suffix => .float (info.shift k) value suffix
  | .string info value => .string (info.shift k) value
  | .template info parts => .template (info.shift k) (TemplatePart.shiftAll k parts)
  | .bool info value => .bool (info.shift k) value
  | .ident info name => .ident (info.shift k) name
  | .binary info op left right => .binary (info.shift k) op (left.shift k) (right.shift k)
  | .unary info op operand => .unary (info.shift k) op (operand.shift k)
  | .call info callee args => .call (info.shift k) (callee.shift k) (Expr.shiftAll k args)
  | .methodCall info receiver method args =>
    .methodCall (info.shift k) (receiver.shift k) method (Expr.shiftAll k args)
  | .field info object name => .field (info.shift k) (object.shift k) name
  | .index info object index => .index (info.shift k) (object.shift k) (index.shift k)
  | .ref info mutable operand => .ref (info.shift k) mutable (operand.shift k)
  | .deref info operand => .deref (info.shift k) (operand.shift k)
  | .struct info name fields => .struct (info.shift k) name (FieldInit.shiftAll k fields)
  | .variant info enum variant args fields =>
    .variant (info.shift k) enum variant (Expr.shiftAll k args) (FieldInit.shiftAll k fields)
  | .tuple info elements => .tuple (info.shift k) (Expr.shiftAll k elements)
  | .array info elements => .array (info.shift k) (Expr.shiftAll k elements)
  | .cast info operand target => .cast (info.shift k) (operand.shift k) target
  | .assign info target value => .assign (info.shift k) (target.shift k) (value.shift k)
  | .select info scrutinee arms => .select (info.shift k) (scrutinee.shift k) (MatchArm.shiftAll k arms)
  | .branch info condition consequent alternative =>
    .branch (info.shift k) (condition.shift k) (consequent.shift k) (Expr.shiftOption k alternative)
  | .block body => .block (body.shift k)

def Expr.shiftAll (k : Nat) : List Expr → List Expr
  | [] => []
  | e :: rest => e.shift k :: Expr.shiftAll k rest

def Expr.shiftOption (k : Nat) : Option Expr → Option Expr
  | none => none
  | some e => some (e.shift k)

def Block.shift (k : Nat) : Block → Block
  | .mk info stmts tail => .mk (info.shift k) (Stmt.shiftAll k stmts) (Expr.shiftOption k tail)

def TemplatePart.shiftAll (k : Nat) : List TemplatePart → List TemplatePart
  | [] => []
  | .text text :: rest => .text text :: TemplatePart.shiftAll k rest
  | .value e :: rest => .value (e.shift k) :: TemplatePart.shiftAll k rest

def FieldInit.shiftAll (k : Nat) : List FieldInit → List FieldInit
  | [] => []
  | .mk name span value :: rest => .mk name span (value.shift k) :: FieldInit.shiftAll k rest

def MatchArm.shiftAll (k : Nat) : List MatchArm → List MatchArm
  | [] => []
  | .mk span pattern guard body :: rest =>
    .mk span (pattern.shift k) (Expr.shiftOption k guard) (body.shift k) :: MatchArm.shiftAll k rest

def Stmt.shift (k : Nat) : Stmt → Stmt
  | .bind span pattern type init => .bind span (pattern.shift k) type (Expr.shiftOption k init)
  | .expr span value => .expr span (value.shift k)
  | .ret span value => .ret span (Expr.shiftOption k value)
  | .loop span condition body => .loop span (condition.shift k) (body.shift k)
  | .counted span init condition update body =>
    .counted span (Stmt.shiftOption k init) (Expr.shiftOption k condition) (Expr.shiftOption k update)
      (body.shift k)

def Stmt.shiftAll (k : Nat) : List Stmt → List Stmt
  | [] => []
  | s :: rest => s.shift k :: Stmt.shiftAll k rest

def Stmt.shiftOption (k : Nat) : Option Stmt → Option Stmt
  | none => none
  | some s => some (s.shift k)

def Pattern.shift (k : Nat) : Pattern → Pattern
  | .wildcard info => .wildcard (info.shift k)
  | .binding b => .binding (b.shift k)
  | .literal info value => .literal (info.shift k) value
  | .tuple info elements => .tuple (info.shift k) (Pattern.shiftAll k elements)
  | .list info front isOpen rest =>
    .list (info.shift k) (Pattern.shiftAll k front) isOpen (rest.map (Binding.shift k))
  | .record info name fields rest => .record (info.shift k) name (FieldPattern.shiftAll k fields) rest
  | .variant info enum variant args fields rest =>
    .variant (info.shift k) enum variant (Pattern.shiftAll k args) (FieldPattern.shiftAll k fields) rest
  | .alternatives info choices => .alternatives (info.shift k) (Pattern.shiftAll k choices)
  | .range info low high inclusive => .range (info.shift k) low high inclusive
  | .guarded info inner condition => .guarded (info.shift k) (inner.shift k) (condition.shift k)

def Pattern.shiftAll (k : Nat) : List Pattern → List Pattern
  | [] => []
  | p :: rest => p.shift k :: Pattern.shiftAll k rest

def FieldPattern.shiftAll (k : Nat) : List FieldPattern → List FieldPattern
  | [] => []
  | .mk name pattern :: rest => .mk name (pattern.shift k) :: FieldPattern.shiftAll k rest

end

def MatchArm.shift (k : Nat) : MatchArm → MatchArm
  | .mk span pattern guard body => .mk span (pattern.shift k) (Expr.shiftOption k guard) (body.shift k)

def TreeNode.shift (k : Nat) : TreeNode → TreeNode
  | .expr e => .expr (e.shift k)
  | .stmt s => .stmt (s.shift k)
  | .pattern p => .pattern (p.shift k)

/-- A function whose nodes have higher numbers. -/
def FuncDecl.shift (k : Nat) (f : FuncDecl) : FuncDecl := { f with body := f.body.shift k }

/-! ### Parts -/

@[simp] theorem Block.info_shift (b : Block) : (b.shift k).info = b.info.shift k := by
  cases b
  rfl

@[simp] theorem Expr.info_shift (e : Expr) : (e.shift k).info = e.info.shift k := by
  cases e <;> first | rfl | exact Block.info_shift _

@[simp] theorem Expr.id_shift (e : Expr) : (e.shift k).id = e.id + k := by
  rw [Expr.id, Expr.info_shift]
  rfl

@[simp] theorem Expr.span_shift (e : Expr) : (e.shift k).span = e.span := by
  rw [Expr.span, Expr.info_shift]
  rfl

@[simp] theorem Block.id_shift (b : Block) : (b.shift k).id = b.id + k := by
  cases b
  rfl

@[simp] theorem Pattern.id_shift (p : Pattern) : (p.shift k).id = p.id + k := by
  cases p <;> rfl

@[simp] theorem Pattern.span_shift (p : Pattern) : (p.shift k).span = p.span := by
  cases p <;> rfl

theorem Expr.shiftAll_eq (list : List Expr) : Expr.shiftAll k list = list.map (Expr.shift k) := by
  induction list with
  | nil => rfl
  | cons e rest ih => rw [Expr.shiftAll, ih, List.map_cons]

theorem Pattern.shiftAll_eq (list : List Pattern) : Pattern.shiftAll k list = list.map (Pattern.shift k) := by
  induction list with
  | nil => rfl
  | cons p rest ih => rw [Pattern.shiftAll, ih, List.map_cons]

theorem MatchArm.shiftAll_eq (arms : List MatchArm) : MatchArm.shiftAll k arms = arms.map (MatchArm.shift k) := by
  induction arms with
  | nil => rfl
  | cons a rest ih =>
    cases a
    rw [MatchArm.shiftAll, ih, List.map_cons, MatchArm.shift]

@[simp] theorem Expr.length_shiftAll (list : List Expr) : (Expr.shiftAll k list).length = list.length := by
  rw [Expr.shiftAll_eq, List.length_map]

@[simp] theorem Pattern.length_shiftAll (list : List Pattern) :
    (Pattern.shiftAll k list).length = list.length := by
  rw [Pattern.shiftAll_eq, List.length_map]

@[simp] theorem Expr.isEmpty_shiftAll (list : List Expr) : (Expr.shiftAll k list).isEmpty = list.isEmpty := by
  cases list <;> rfl

@[simp] theorem Pattern.isEmpty_shiftAll (list : List Pattern) :
    (Pattern.shiftAll k list).isEmpty = list.isEmpty := by
  cases list <;> rfl

@[simp] theorem MatchArm.isEmpty_shiftAll (arms : List MatchArm) :
    (MatchArm.shiftAll k arms).isEmpty = arms.isEmpty := by
  rcases arms with _ | ⟨⟨_, _, _, _⟩, _⟩ <;> rfl

@[simp] theorem FieldInit.isEmpty_shiftAll (fields : List FieldInit) :
    (FieldInit.shiftAll k fields).isEmpty = fields.isEmpty := by
  rcases fields with _ | ⟨⟨_, _, _⟩, _⟩ <;> rfl

@[simp] theorem FieldPattern.isEmpty_shiftAll (fields : List FieldPattern) :
    (FieldPattern.shiftAll k fields).isEmpty = fields.isEmpty := by
  rcases fields with _ | ⟨⟨_, _⟩, _⟩ <;> rfl

@[simp] theorem FieldInit.names_shiftAll (fields : List FieldInit) :
    (FieldInit.shiftAll k fields).map FieldInit.name = fields.map FieldInit.name := by
  induction fields with
  | nil => rfl
  | cons field rest ih =>
    cases field
    simp only [FieldInit.shiftAll, List.map_cons, ih]
    rfl

@[simp] theorem FieldPattern.names_shiftAll (fields : List FieldPattern) :
    (FieldPattern.shiftAll k fields).map FieldPattern.name = fields.map FieldPattern.name := by
  induction fields with
  | nil => rfl
  | cons field rest ih =>
    cases field
    simp only [FieldPattern.shiftAll, List.map_cons, ih]
    rfl

@[simp] theorem Expr.isPlace_shift : ∀ e : Expr, (e.shift k).isPlace = e.isPlace
  | .field _ object _ | .index _ object _ => by
    simp only [Expr.shift, Expr.isPlace]
    exact object.isPlace_shift
  | .ident .. | .deref .. | .int .. | .float .. | .string .. | .template .. | .bool .. | .binary .. | .unary ..
  | .call .. | .methodCall .. | .ref .. | .struct .. | .variant .. | .tuple .. | .array .. | .cast ..
  | .assign .. | .select .. | .branch .. | .block .. => rfl

/-! ### Numbering -/

theorem NodeInfo.number_shift (info : NodeInfo) (n : Nat) :
    info.number (n + k) = ((info.number n).1.shift k, (info.number n).2 + k) := by
  simp only [NodeInfo.number, NodeInfo.shift, Nat.add_right_comm n k 1]

theorem Binding.number_shift (b : Binding) (n : Nat) :
    b.number (n + k) = ((b.number n).1.shift k, (b.number n).2 + k) := by
  simp only [Binding.number, Binding.shift, NodeInfo.shift, Nat.add_right_comm n k 1]

mutual

theorem Expr.number_shift : ∀ (e : Expr) (n : Nat),
    e.number (n + k) = ((e.number n).1.shift k, (e.number n).2 + k)
  | .int .., _ | .float .., _ | .string .., _ | .bool .., _ | .ident .., _ => by
    simp only [Expr.number, Expr.shift, NodeInfo.number_shift]
  | .template _ parts, _ => by
    simp only [Expr.number, Expr.shift, NodeInfo.number_shift, TemplatePart.numberAll_shift parts]
  | .binary _ _ left right, _ => by
    simp only [Expr.number, Expr.shift, NodeInfo.number_shift, left.number_shift, right.number_shift]
  | .unary _ _ operand, _ | .ref _ _ operand, _ | .deref _ operand, _ | .cast _ operand _, _
  | .field _ operand _, _ => by
    simp only [Expr.number, Expr.shift, NodeInfo.number_shift, operand.number_shift]
  | .call _ callee args, _ => by
    simp only [Expr.number, Expr.shift, NodeInfo.number_shift, callee.number_shift, Expr.numberAll_shift args]
  | .methodCall _ receiver _ args, _ => by
    simp only [Expr.number, Expr.shift, NodeInfo.number_shift, receiver.number_shift, Expr.numberAll_shift args]
  | .index _ object index, _ => by
    simp only [Expr.number, Expr.shift, NodeInfo.number_shift, object.number_shift, index.number_shift]
  | .struct _ _ fields, _ => by
    simp only [Expr.number, Expr.shift, NodeInfo.number_shift, FieldInit.numberAll_shift fields]
  | .variant _ _ _ args fields, _ => by
    simp only [Expr.number, Expr.shift, NodeInfo.number_shift, Expr.numberAll_shift args,
      FieldInit.numberAll_shift fields]
  | .tuple _ elements, _ | .array _ elements, _ => by
    simp only [Expr.number, Expr.shift, NodeInfo.number_shift, Expr.numberAll_shift elements]
  | .assign _ target value, _ => by
    simp only [Expr.number, Expr.shift, NodeInfo.number_shift, target.number_shift, value.number_shift]
  | .select _ scrutinee arms, _ => by
    simp only [Expr.number, Expr.shift, NodeInfo.number_shift, scrutinee.number_shift,
      MatchArm.numberAll_shift arms]
  | .branch _ condition consequent alternative, _ => by
    simp only [Expr.number, Expr.shift, NodeInfo.number_shift, condition.number_shift, consequent.number_shift,
      Expr.numberOption_shift alternative]
  | .block body, _ => by simp only [Expr.number, Expr.shift, body.number_shift]

theorem Expr.numberAll_shift : ∀ (list : List Expr) (n : Nat), Expr.numberAll list (n + k) =
    (Expr.shiftAll k (Expr.numberAll list n).1, (Expr.numberAll list n).2 + k)
  | [], _ => rfl
  | e :: rest, _ => by
    simp only [Expr.numberAll, Expr.shiftAll, e.number_shift, Expr.numberAll_shift rest]

theorem Expr.numberOption_shift : ∀ (e : Option Expr) (n : Nat), Expr.numberOption e (n + k) =
    (Expr.shiftOption k (Expr.numberOption e n).1, (Expr.numberOption e n).2 + k)
  | none, _ => rfl
  | some e, _ => by simp only [Expr.numberOption, Expr.shiftOption, e.number_shift]

theorem Block.number_shift : ∀ (b : Block) (n : Nat),
    b.number (n + k) = ((b.number n).1.shift k, (b.number n).2 + k)
  | .mk _ stmts tail, _ => by
    simp only [Block.number, Block.shift, NodeInfo.number_shift, Stmt.numberAll_shift stmts,
      Expr.numberOption_shift tail]

theorem TemplatePart.numberAll_shift : ∀ (parts : List TemplatePart) (n : Nat),
    TemplatePart.numberAll parts (n + k) =
      (TemplatePart.shiftAll k (TemplatePart.numberAll parts n).1, (TemplatePart.numberAll parts n).2 + k)
  | [], _ => rfl
  | .text _ :: rest, _ => by
    simp only [TemplatePart.numberAll, TemplatePart.shiftAll, TemplatePart.numberAll_shift rest]
  | .value e :: rest, _ => by
    simp only [TemplatePart.numberAll, TemplatePart.shiftAll, e.number_shift, TemplatePart.numberAll_shift rest]

theorem FieldInit.numberAll_shift : ∀ (fields : List FieldInit) (n : Nat), FieldInit.numberAll fields (n + k) =
    (FieldInit.shiftAll k (FieldInit.numberAll fields n).1, (FieldInit.numberAll fields n).2 + k)
  | [], _ => rfl
  | .mk _ _ value :: rest, _ => by
    simp only [FieldInit.numberAll, FieldInit.shiftAll, value.number_shift, FieldInit.numberAll_shift rest]

theorem MatchArm.numberAll_shift : ∀ (arms : List MatchArm) (n : Nat), MatchArm.numberAll arms (n + k) =
    (MatchArm.shiftAll k (MatchArm.numberAll arms n).1, (MatchArm.numberAll arms n).2 + k)
  | [], _ => rfl
  | .mk _ pattern guard body :: rest, _ => by
    simp only [MatchArm.numberAll, MatchArm.shiftAll, pattern.number_shift, Expr.numberOption_shift guard,
      body.number_shift, MatchArm.numberAll_shift rest]

theorem Stmt.number_shift : ∀ (s : Stmt) (n : Nat),
    s.number (n + k) = ((s.number n).1.shift k, (s.number n).2 + k)
  | .bind _ pattern _ init, _ => by
    simp only [Stmt.number, Stmt.shift, pattern.number_shift, Expr.numberOption_shift init]
  | .expr _ value, _ => by simp only [Stmt.number, Stmt.shift, value.number_shift]
  | .ret _ value, _ => by simp only [Stmt.number, Stmt.shift, Expr.numberOption_shift value]
  | .loop _ condition body, _ => by
    simp only [Stmt.number, Stmt.shift, condition.number_shift, body.number_shift]
  | .counted _ init condition update body, _ => by
    simp only [Stmt.number, Stmt.shift, Stmt.numberOption_shift init, Expr.numberOption_shift condition,
      body.number_shift, Expr.numberOption_shift update]

theorem Stmt.numberAll_shift : ∀ (stmts : List Stmt) (n : Nat), Stmt.numberAll stmts (n + k) =
    (Stmt.shiftAll k (Stmt.numberAll stmts n).1, (Stmt.numberAll stmts n).2 + k)
  | [], _ => rfl
  | s :: rest, _ => by
    simp only [Stmt.numberAll, Stmt.shiftAll, s.number_shift, Stmt.numberAll_shift rest]

theorem Stmt.numberOption_shift : ∀ (s : Option Stmt) (n : Nat), Stmt.numberOption s (n + k) =
    (Stmt.shiftOption k (Stmt.numberOption s n).1, (Stmt.numberOption s n).2 + k)
  | none, _ => rfl
  | some s, _ => by simp only [Stmt.numberOption, Stmt.shiftOption, s.number_shift]

theorem Pattern.number_shift : ∀ (p : Pattern) (n : Nat),
    p.number (n + k) = ((p.number n).1.shift k, (p.number n).2 + k)
  | .wildcard _, _ | .literal .., _ | .range .., _ => by
    simp only [Pattern.number, Pattern.shift, NodeInfo.number_shift]
  | .binding b, _ => by simp only [Pattern.number, Pattern.shift, b.number_shift]
  | .tuple _ elements, _ | .alternatives _ elements, _ => by
    simp only [Pattern.number, Pattern.shift, NodeInfo.number_shift, Pattern.numberAll_shift elements]
  | .list _ front _ none, _ => by
    simp only [Pattern.number, Pattern.shift, NodeInfo.number_shift, Pattern.numberAll_shift front,
      Option.map_none]
  | .list _ front _ (some b), _ => by
    simp only [Pattern.number, Pattern.shift, NodeInfo.number_shift, Pattern.numberAll_shift front,
      b.number_shift, Option.map_some]
  | .record _ _ fields _, _ => by
    simp only [Pattern.number, Pattern.shift, NodeInfo.number_shift, FieldPattern.numberAll_shift fields]
  | .variant _ _ _ args fields _, _ => by
    simp only [Pattern.number, Pattern.shift, NodeInfo.number_shift, Pattern.numberAll_shift args,
      FieldPattern.numberAll_shift fields]
  | .guarded _ inner condition, _ => by
    simp only [Pattern.number, Pattern.shift, NodeInfo.number_shift, inner.number_shift, condition.number_shift]

theorem Pattern.numberAll_shift : ∀ (patterns : List Pattern) (n : Nat), Pattern.numberAll patterns (n + k) =
    (Pattern.shiftAll k (Pattern.numberAll patterns n).1, (Pattern.numberAll patterns n).2 + k)
  | [], _ => rfl
  | p :: rest, _ => by
    simp only [Pattern.numberAll, Pattern.shiftAll, p.number_shift, Pattern.numberAll_shift rest]

theorem FieldPattern.numberAll_shift : ∀ (fields : List FieldPattern) (n : Nat),
    FieldPattern.numberAll fields (n + k) =
      (FieldPattern.shiftAll k (FieldPattern.numberAll fields n).1, (FieldPattern.numberAll fields n).2 + k)
  | [], _ => rfl
  | .mk _ pattern :: rest, _ => by
    simp only [FieldPattern.numberAll, FieldPattern.shiftAll, pattern.number_shift,
      FieldPattern.numberAll_shift rest]

end

/-! ### Nodes -/

mutual

theorem Expr.nodes_shift : ∀ e : Expr, (e.shift k).nodes = e.nodes.map (TreeNode.shift k)
  | .int .. | .float .. | .string .. | .bool .. | .ident .. => rfl
  | .template _ parts => congrArg (_ :: ·) (TemplatePart.nodesAll_shift parts)
  | .binary _ _ left right => by
    simp only [Expr.shift, Expr.nodes, List.map_cons, List.map_append, TreeNode.shift, left.nodes_shift,
      right.nodes_shift]
  | .unary _ _ operand | .ref _ _ operand | .deref _ operand | .cast _ operand _ | .field _ operand _ =>
    congrArg (_ :: ·) operand.nodes_shift
  | .call _ callee args => by
    simp only [Expr.shift, Expr.nodes, List.map_cons, List.map_append, TreeNode.shift, callee.nodes_shift,
      Expr.nodesAll_shift args]
  | .methodCall _ receiver _ args => by
    simp only [Expr.shift, Expr.nodes, List.map_cons, List.map_append, TreeNode.shift, receiver.nodes_shift,
      Expr.nodesAll_shift args]
  | .index _ object index => by
    simp only [Expr.shift, Expr.nodes, List.map_cons, List.map_append, TreeNode.shift, object.nodes_shift,
      index.nodes_shift]
  | .struct _ _ fields => congrArg (_ :: ·) (FieldInit.nodesAll_shift fields)
  | .variant _ _ _ args fields => by
    simp only [Expr.shift, Expr.nodes, List.map_cons, List.map_append, TreeNode.shift,
      Expr.nodesAll_shift args, FieldInit.nodesAll_shift fields]
  | .tuple _ elements | .array _ elements => congrArg (_ :: ·) (Expr.nodesAll_shift elements)
  | .assign _ target value => by
    simp only [Expr.shift, Expr.nodes, List.map_cons, List.map_append, TreeNode.shift, target.nodes_shift,
      value.nodes_shift]
  | .select _ scrutinee arms => by
    simp only [Expr.shift, Expr.nodes, List.map_cons, List.map_append, TreeNode.shift, scrutinee.nodes_shift,
      MatchArm.nodesAll_shift arms]
  | .branch _ condition consequent alternative => by
    simp only [Expr.shift, Expr.nodes, List.map_cons, List.map_append, TreeNode.shift, condition.nodes_shift,
      consequent.nodes_shift, Expr.nodesOption_shift alternative]
  | .block body => body.nodes_shift

theorem Expr.nodesAll_shift : ∀ list : List Expr,
    Expr.nodesAll (Expr.shiftAll k list) = (Expr.nodesAll list).map (TreeNode.shift k)
  | [] => rfl
  | e :: rest => by
    simp only [Expr.shiftAll, Expr.nodesAll, List.map_append, e.nodes_shift, Expr.nodesAll_shift rest]

theorem Expr.nodesOption_shift : ∀ e : Option Expr,
    Expr.nodesOption (Expr.shiftOption k e) = (Expr.nodesOption e).map (TreeNode.shift k)
  | none => rfl
  | some e => e.nodes_shift

theorem Block.nodes_shift : ∀ b : Block, (b.shift k).nodes = b.nodes.map (TreeNode.shift k)
  | .mk _ stmts tail => by
    simp only [Block.shift, Block.nodes, List.map_cons, List.map_append, TreeNode.shift, Expr.shift,
      Stmt.nodesAll_shift stmts, Expr.nodesOption_shift tail]

theorem TemplatePart.nodesAll_shift : ∀ parts : List TemplatePart,
    TemplatePart.nodesAll (TemplatePart.shiftAll k parts) = (TemplatePart.nodesAll parts).map (TreeNode.shift k)
  | [] => rfl
  | .text _ :: rest => TemplatePart.nodesAll_shift rest
  | .value e :: rest => by
    simp only [TemplatePart.shiftAll, TemplatePart.nodesAll, List.map_append, e.nodes_shift,
      TemplatePart.nodesAll_shift rest]

theorem FieldInit.nodesAll_shift : ∀ fields : List FieldInit,
    FieldInit.nodesAll (FieldInit.shiftAll k fields) = (FieldInit.nodesAll fields).map (TreeNode.shift k)
  | [] => rfl
  | .mk _ _ value :: rest => by
    simp only [FieldInit.shiftAll, FieldInit.nodesAll, List.map_append, value.nodes_shift,
      FieldInit.nodesAll_shift rest]

theorem MatchArm.nodesAll_shift : ∀ arms : List MatchArm,
    MatchArm.nodesAll (MatchArm.shiftAll k arms) = (MatchArm.nodesAll arms).map (TreeNode.shift k)
  | [] => rfl
  | .mk _ pattern guard body :: rest => by
    simp only [MatchArm.shiftAll, MatchArm.nodesAll, List.map_append, pattern.nodes_shift,
      Expr.nodesOption_shift guard, body.nodes_shift, MatchArm.nodesAll_shift rest]

theorem Stmt.nodes_shift : ∀ s : Stmt, (s.shift k).nodes = s.nodes.map (TreeNode.shift k)
  | .bind _ pattern _ init => by
    simp only [Stmt.shift, Stmt.nodes, List.map_cons, List.map_append, TreeNode.shift, pattern.nodes_shift,
      Expr.nodesOption_shift init]
  | .expr _ value => congrArg (_ :: ·) value.nodes_shift
  | .ret _ value => congrArg (_ :: ·) (Expr.nodesOption_shift value)
  | .loop _ condition body => by
    simp only [Stmt.shift, Stmt.nodes, List.map_cons, List.map_append, TreeNode.shift, condition.nodes_shift,
      body.nodes_shift]
  | .counted _ init condition update body => by
    simp only [Stmt.shift, Stmt.nodes, List.map_cons, List.map_append, TreeNode.shift,
      Stmt.nodesOption_shift init, Expr.nodesOption_shift condition, body.nodes_shift,
      Expr.nodesOption_shift update]

theorem Stmt.nodesAll_shift : ∀ stmts : List Stmt,
    Stmt.nodesAll (Stmt.shiftAll k stmts) = (Stmt.nodesAll stmts).map (TreeNode.shift k)
  | [] => rfl
  | s :: rest => by
    simp only [Stmt.shiftAll, Stmt.nodesAll, List.map_append, s.nodes_shift, Stmt.nodesAll_shift rest]

theorem Stmt.nodesOption_shift : ∀ s : Option Stmt,
    Stmt.nodesOption (Stmt.shiftOption k s) = (Stmt.nodesOption s).map (TreeNode.shift k)
  | none => rfl
  | some s => s.nodes_shift

theorem Pattern.nodes_shift : ∀ p : Pattern, (p.shift k).nodes = p.nodes.map (TreeNode.shift k)
  | .wildcard _ | .binding _ | .literal .. | .range .. => rfl
  | .tuple _ elements | .alternatives _ elements => congrArg (_ :: ·) (Pattern.nodesAll_shift elements)
  | .list _ front _ none | .list _ front _ (some _) => by
    simp only [Pattern.shift, Pattern.nodes, List.map_cons, List.map_append, TreeNode.shift,
      Pattern.nodesAll_shift front, Option.map_none, Option.map_some, Option.toList_none, Option.toList_some,
      List.map_nil]
  | .record _ _ fields _ => congrArg (_ :: ·) (FieldPattern.nodesAll_shift fields)
  | .variant _ _ _ args fields _ => by
    simp only [Pattern.shift, Pattern.nodes, List.map_cons, List.map_append, TreeNode.shift,
      Pattern.nodesAll_shift args, FieldPattern.nodesAll_shift fields]
  | .guarded _ inner condition => by
    simp only [Pattern.shift, Pattern.nodes, List.map_cons, List.map_append, TreeNode.shift, inner.nodes_shift,
      condition.nodes_shift]

theorem Pattern.nodesAll_shift : ∀ patterns : List Pattern,
    Pattern.nodesAll (Pattern.shiftAll k patterns) = (Pattern.nodesAll patterns).map (TreeNode.shift k)
  | [] => rfl
  | p :: rest => by
    simp only [Pattern.shiftAll, Pattern.nodesAll, List.map_append, p.nodes_shift, Pattern.nodesAll_shift rest]

theorem FieldPattern.nodesAll_shift : ∀ fields : List FieldPattern,
    FieldPattern.nodesAll (FieldPattern.shiftAll k fields) =
      (FieldPattern.nodesAll fields).map (TreeNode.shift k)
  | [] => rfl
  | .mk _ pattern :: rest => by
    simp only [FieldPattern.shiftAll, FieldPattern.nodesAll, List.map_append, pattern.nodes_shift,
      FieldPattern.nodesAll_shift rest]

end

/-! ### Spelling -/

mutual

theorem Expr.spelling_shift : ∀ e : Expr, (e.shift k).spelling = e.spelling
  | .int .. | .float .. | .string .. | .bool .. | .ident .. => rfl
  | .template _ parts => by simp only [Expr.shift, Expr.spelling, TemplatePart.spellingAll_shift parts]
  | .binary _ _ left right => by
    simp only [Expr.shift, Expr.spelling, left.spelling_shift, right.spelling_shift]
  | .unary _ _ operand | .ref _ _ operand | .deref _ operand | .cast _ operand _ | .field _ operand _ => by
    simp only [Expr.shift, Expr.spelling, operand.spelling_shift]
  | .call _ callee args => by
    simp only [Expr.shift, Expr.spelling, callee.spelling_shift, Expr.spellings_shift args]
  | .methodCall _ receiver _ args => by
    simp only [Expr.shift, Expr.spelling, receiver.spelling_shift, Expr.spellings_shift args]
  | .index _ object index => by
    simp only [Expr.shift, Expr.spelling, object.spelling_shift, index.spelling_shift]
  | .struct _ _ fields => by simp only [Expr.shift, Expr.spelling, FieldInit.spellings_shift fields]
  | .variant _ _ _ args fields => by
    simp only [Expr.shift, Expr.spelling, Expr.spellings_shift args, FieldInit.spellings_shift fields,
      FieldInit.isEmpty_shiftAll, Expr.isEmpty_shiftAll]
  | .tuple _ elements | .array _ elements => by
    simp only [Expr.shift, Expr.spelling, Expr.spellings_shift elements]
  | .assign _ target value => by
    simp only [Expr.shift, Expr.spelling, target.spelling_shift, value.spelling_shift]
  | .select _ scrutinee arms => by
    simp only [Expr.shift, Expr.spelling, scrutinee.spelling_shift, MatchArm.spellings_shift arms]
  | .branch _ condition consequent alternative => by
    simp only [Expr.shift, Expr.spelling, condition.spelling_shift, consequent.spelling_shift,
      Expr.optionSpelling_shift _ alternative]
  | .block body => by simp only [Expr.shift, Expr.spelling, body.spelling_shift]

theorem Expr.spellings_shift : ∀ list : List Expr, Expr.spellings (Expr.shiftAll k list) = Expr.spellings list
  | [] => rfl
  | e :: rest => by simp only [Expr.shiftAll, Expr.spellings, e.spelling_shift, Expr.spellings_shift rest]

theorem Expr.optionSpelling_shift (lead : Octets) : ∀ e : Option Expr,
    Expr.optionSpelling lead (Expr.shiftOption k e) = Expr.optionSpelling lead e
  | none => rfl
  | some e => by simp only [Expr.shiftOption, Expr.optionSpelling, e.spelling_shift]

theorem Block.spelling_shift : ∀ b : Block, (b.shift k).spelling = b.spelling
  | .mk _ stmts tail => by
    simp only [Block.shift, Block.spelling, Stmt.spellings_shift stmts, Expr.optionSpellings_shift tail]

theorem Expr.optionSpellings_shift : ∀ e : Option Expr,
    Expr.optionSpellings (Expr.shiftOption k e) = Expr.optionSpellings e
  | none => rfl
  | some e => by simp only [Expr.shiftOption, Expr.optionSpellings, e.spelling_shift]

theorem TemplatePart.spellingAll_shift : ∀ parts : List TemplatePart,
    TemplatePart.spellingAll (TemplatePart.shiftAll k parts) = TemplatePart.spellingAll parts
  | [] => rfl
  | .text _ :: rest => by
    simp only [TemplatePart.shiftAll, TemplatePart.spellingAll, TemplatePart.spellingAll_shift rest]
  | .value e :: rest => by
    simp only [TemplatePart.shiftAll, TemplatePart.spellingAll, e.spelling_shift,
      TemplatePart.spellingAll_shift rest]

theorem FieldInit.spellings_shift : ∀ fields : List FieldInit,
    FieldInit.spellings (FieldInit.shiftAll k fields) = FieldInit.spellings fields
  | [] => rfl
  | .mk _ _ value :: rest => by
    simp only [FieldInit.shiftAll, FieldInit.spellings, value.spelling_shift, FieldInit.spellings_shift rest]

theorem MatchArm.spellings_shift : ∀ arms : List MatchArm,
    MatchArm.spellings (MatchArm.shiftAll k arms) = MatchArm.spellings arms
  | [] => rfl
  | .mk _ pattern guard body :: rest => by
    simp only [MatchArm.shiftAll, MatchArm.spellings, pattern.spelling_shift, Expr.optionSpelling_shift _ guard,
      body.spelling_shift, MatchArm.spellings_shift rest]

theorem Stmt.spelling_shift : ∀ s : Stmt, (s.shift k).spelling = s.spelling
  | .bind _ pattern _ init => by
    simp only [Stmt.shift, Stmt.spelling, pattern.spelling_shift, Expr.optionSpelling_shift _ init]
  | .expr _ value => by simp only [Stmt.shift, Stmt.spelling, value.spelling_shift]
  | .ret _ value => by simp only [Stmt.shift, Stmt.spelling, Expr.optionSpelling_shift _ value]
  | .loop _ condition body => by
    simp only [Stmt.shift, Stmt.spelling, condition.spelling_shift, body.spelling_shift]
  | .counted _ init condition update body => by
    simp only [Stmt.shift, Stmt.spelling, Stmt.optionSpelling_shift init, Expr.optionSpelling_shift _ condition,
      Expr.optionSpelling_shift _ update, body.spelling_shift]

theorem Stmt.spellings_shift : ∀ stmts : List Stmt, Stmt.spellings (Stmt.shiftAll k stmts) = Stmt.spellings stmts
  | [] => rfl
  | s :: rest => by simp only [Stmt.shiftAll, Stmt.spellings, s.spelling_shift, Stmt.spellings_shift rest]

theorem Stmt.optionSpelling_shift : ∀ s : Option Stmt,
    Stmt.optionSpelling (Stmt.shiftOption k s) = Stmt.optionSpelling s
  | none => rfl
  | some s => by simp only [Stmt.shiftOption, Stmt.optionSpelling, s.spelling_shift]

theorem Pattern.spelling_shift : ∀ p : Pattern, (p.shift k).spelling = p.spelling
  | .wildcard _ | .binding _ | .literal .. | .range .. => rfl
  | .tuple _ elements | .alternatives _ elements => by
    simp only [Pattern.shift, Pattern.spelling, Pattern.spellings_shift elements]
  | .list _ front false _ => by simp only [Pattern.shift, Pattern.spelling, Pattern.spellings_shift front]
  | .list _ front true none | .list _ front true (some _) => by
    simp only [Pattern.shift, Pattern.spelling, Pattern.spellings_shift front, Option.map_none, Option.map_some,
      Binding.shift]
  | .record _ _ fields _ => by simp only [Pattern.shift, Pattern.spelling, FieldPattern.spellings_shift fields]
  | .variant _ _ _ args fields _ => by
    simp only [Pattern.shift, Pattern.spelling, Pattern.spellings_shift args,
      FieldPattern.spellings_shift fields, FieldPattern.isEmpty_shiftAll, Pattern.isEmpty_shiftAll]
  | .guarded _ inner condition => by
    simp only [Pattern.shift, Pattern.spelling, inner.spelling_shift, condition.spelling_shift]

theorem Pattern.spellings_shift : ∀ patterns : List Pattern,
    Pattern.spellings (Pattern.shiftAll k patterns) = Pattern.spellings patterns
  | [] => rfl
  | p :: rest => by
    simp only [Pattern.shiftAll, Pattern.spellings, p.spelling_shift, Pattern.spellings_shift rest]

theorem FieldPattern.spellings_shift : ∀ fields : List FieldPattern,
    FieldPattern.spellings (FieldPattern.shiftAll k fields) = FieldPattern.spellings fields
  | [] => rfl
  | .mk _ pattern :: rest => by
    simp only [FieldPattern.shiftAll, FieldPattern.spellings, pattern.spelling_shift,
      FieldPattern.spellings_shift rest]

end

@[simp] theorem Expr.text_shift (e : Expr) : (e.shift k).text = e.text := congrArg Octets.text e.spelling_shift

/-! ### Patterns -/

mutual

theorem Pattern.bindings_shift : ∀ p : Pattern, (p.shift k).bindings = p.bindings.map (Binding.shift k)
  | .wildcard _ | .binding _ | .literal .. | .range .. => rfl
  | .tuple _ elements => Pattern.bindingsAll_shift elements
  | .list _ front _ none | .list _ front _ (some _) => by
    simp only [Pattern.shift, Pattern.bindings, List.map_append, Pattern.bindingsAll_shift front,
      Option.map_none, Option.map_some, Option.toList_none, Option.toList_some, List.map_cons, List.map_nil]
  | .record _ _ fields _ => Pattern.bindingsFields_shift fields
  | .variant _ _ _ args fields _ => by
    simp only [Pattern.shift, Pattern.bindings, List.map_append, Pattern.bindingsAll_shift args,
      Pattern.bindingsFields_shift fields]
  | .alternatives _ [] => rfl
  | .alternatives _ (first :: _) => first.bindings_shift
  | .guarded _ inner _ => inner.bindings_shift

theorem Pattern.bindingsAll_shift : ∀ patterns : List Pattern,
    Pattern.bindingsAll (Pattern.shiftAll k patterns) = (Pattern.bindingsAll patterns).map (Binding.shift k)
  | [] => rfl
  | p :: rest => by
    simp only [Pattern.shiftAll, Pattern.bindingsAll, List.map_append, p.bindings_shift,
      Pattern.bindingsAll_shift rest]

theorem Pattern.bindingsFields_shift : ∀ fields : List FieldPattern,
    Pattern.bindingsFields (FieldPattern.shiftAll k fields) =
      (Pattern.bindingsFields fields).map (Binding.shift k)
  | [] => rfl
  | .mk _ p :: rest => by
    simp only [FieldPattern.shiftAll, Pattern.bindingsFields, List.map_append, p.bindings_shift,
      Pattern.bindingsFields_shift rest]

end

mutual

theorem Pattern.irrefutable_shift : ∀ p : Pattern, (p.shift k).irrefutable = p.irrefutable
  | .wildcard _ | .binding _ | .literal .. | .range .. | .list .. | .variant .. | .guarded .. => rfl
  | .tuple _ elements => Pattern.irrefutableAll_shift elements
  | .record _ _ fields _ => Pattern.irrefutableFields_shift fields
  | .alternatives _ choices => Pattern.irrefutableAny_shift choices

theorem Pattern.irrefutableAll_shift : ∀ patterns : List Pattern,
    Pattern.irrefutableAll (Pattern.shiftAll k patterns) = Pattern.irrefutableAll patterns
  | [] => rfl
  | p :: rest => by
    simp only [Pattern.shiftAll, Pattern.irrefutableAll, p.irrefutable_shift, Pattern.irrefutableAll_shift rest]

theorem Pattern.irrefutableAny_shift : ∀ patterns : List Pattern,
    Pattern.irrefutableAny (Pattern.shiftAll k patterns) = Pattern.irrefutableAny patterns
  | [] => rfl
  | p :: rest => by
    simp only [Pattern.shiftAll, Pattern.irrefutableAny, p.irrefutable_shift, Pattern.irrefutableAny_shift rest]

theorem Pattern.irrefutableFields_shift : ∀ fields : List FieldPattern,
    Pattern.irrefutableFields (FieldPattern.shiftAll k fields) = Pattern.irrefutableFields fields
  | [] => rfl
  | .mk _ p :: rest => by
    simp only [FieldPattern.shiftAll, Pattern.irrefutableFields, p.irrefutable_shift,
      Pattern.irrefutableFields_shift rest]

end

end TreeCheck
