import Mathlib.Data.List.Nodup
import Mathlib.Data.List.Forall2
import Mathlib.Data.Set.Function
import Mathlib.Order.Interval.Set.Basic
import TreeCheck.Proofs.Syntax.Numbering

/-!
Addresses of nodes: which child to take, and of that which child, and so on. After numbering the numbers of a program
identify the addresses of its expressions and patterns: each of the numbers handed out is found at one address, and
nothing that has an address is left without a number.
-/

namespace TreeCheck

/-! ### Children -/

def TemplatePart.children : TemplatePart → List TreeNode
  | .text _ => []
  | .value e => [.expr e]

def MatchArm.children : MatchArm → List TreeNode
  | .mk _ pattern guard body => .pattern pattern :: (guard.toList.map .expr ++ [.expr body])

/-- What stands in the fields of an expression, in their order. -/
def Expr.children : Expr → List TreeNode
  | .int .. | .float .. | .string .. | .bool .. | .ident .. => []
  | .template _ parts => parts.flatMap TemplatePart.children
  | .unary _ _ operand | .ref _ _ operand | .deref _ operand | .cast _ operand _ | .field _ operand _ =>
    [.expr operand]
  | .binary _ _ left right | .index _ left right | .assign _ left right => [.expr left, .expr right]
  | .call _ first args | .methodCall _ first _ args => .expr first :: args.map .expr
  | .struct _ _ fields => fields.map fun field => .expr field.value
  | .variant _ _ _ args fields => args.map .expr ++ fields.map fun field => .expr field.value
  | .tuple _ elements | .array _ elements => elements.map .expr
  | .select _ scrutinee arms => .expr scrutinee :: arms.flatMap MatchArm.children
  | .branch _ condition consequent alternative =>
    .expr condition :: .expr consequent :: alternative.toList.map .expr
  | .block (.mk _ stmts tail) => stmts.map .stmt ++ tail.toList.map .expr

def Stmt.children : Stmt → List TreeNode
  | .bind _ pattern _ init => .pattern pattern :: init.toList.map .expr
  | .expr _ value => [.expr value]
  | .ret _ value => value.toList.map .expr
  | .loop _ condition body => [.expr condition, .expr (.block body)]
  | .counted _ init condition update body =>
    init.toList.map .stmt ++ condition.toList.map .expr ++ update.toList.map .expr ++ [.expr (.block body)]

def Pattern.children : Pattern → List TreeNode
  | .wildcard _ | .binding _ | .literal .. | .range .. => []
  | .tuple _ elements | .alternatives _ elements => elements.map .pattern
  | .list _ front _ rest => front.map .pattern ++ rest.toList.map fun b => .pattern (.binding b)
  | .record _ _ fields _ => fields.map fun field => .pattern field.pattern
  | .variant _ _ _ args fields _ => args.map .pattern ++ fields.map fun field => .pattern field.pattern
  | .guarded _ inner condition => [.pattern inner, .expr condition]

def Item.children : Item → List TreeNode
  | .function f => [.expr (.block f.body)]
  | .struct _ | .enum _ => []

def TreeNode.children : TreeNode → List TreeNode
  | .expr e => e.children
  | .stmt s => s.children
  | .pattern p => p.children

/-- What stands in the fields of the items of a program. -/
def Program.roots (p : Program) : List TreeNode := p.items.flatMap Item.children

/-! ### Addresses -/

/-- The node at an address below another. -/
def TreeNode.at? : TreeNode → List Nat → Option TreeNode
  | node, [] => some node
  | node, k :: path => node.children[k]?.bind fun child => child.at? path

def Program.at? (p : Program) : List Nat → Option TreeNode
  | [] => none
  | k :: path => p.roots[k]?.bind fun root => root.at? path

/-! ### Nodes and children -/

def TreeNode.nodesAll (forest : List TreeNode) : List TreeNode := forest.flatMap TreeNode.nodes

@[simp] theorem Expr.nodesAll_toList (e : Option Expr) : Expr.nodesAll e.toList = Expr.nodesOption e := by
  cases e with
  | none => rfl
  | some e => exact List.append_nil _

@[simp] theorem Stmt.nodesAll_toList (s : Option Stmt) : Stmt.nodesAll s.toList = Stmt.nodesOption s := by
  cases s with
  | none => rfl
  | some s => exact List.append_nil _

namespace TreeNode

@[simp] theorem nodesAll_nil : nodesAll [] = [] := rfl

@[simp] theorem nodesAll_cons (node : TreeNode) (forest : List TreeNode) :
    nodesAll (node :: forest) = node.nodes ++ nodesAll forest := rfl

@[simp] theorem nodesAll_append (forest more : List TreeNode) :
    nodesAll (forest ++ more) = nodesAll forest ++ nodesAll more := List.flatMap_append

@[simp] theorem nodes_expr (e : Expr) : (TreeNode.expr e).nodes = e.nodes := rfl

@[simp] theorem nodes_stmt (s : Stmt) : (TreeNode.stmt s).nodes = s.nodes := rfl

@[simp] theorem nodes_pattern (p : Pattern) : (TreeNode.pattern p).nodes = p.nodes := rfl

@[simp] theorem nodesAll_exprs (list : List Expr) : nodesAll (list.map .expr) = Expr.nodesAll list := by
  induction list with
  | nil => rfl
  | cons e rest ih => exact congrArg (e.nodes ++ ·) ih

@[simp] theorem nodesAll_stmts (stmts : List Stmt) : nodesAll (stmts.map .stmt) = Stmt.nodesAll stmts := by
  induction stmts with
  | nil => rfl
  | cons s rest ih => exact congrArg (s.nodes ++ ·) ih

@[simp] theorem nodesAll_patterns (patterns : List Pattern) :
    nodesAll (patterns.map .pattern) = Pattern.nodesAll patterns := by
  induction patterns with
  | nil => rfl
  | cons p rest ih => exact congrArg (p.nodes ++ ·) ih

@[simp] theorem nodesAll_values (fields : List FieldInit) :
    nodesAll (fields.map fun field => .expr field.value) = FieldInit.nodesAll fields := by
  induction fields with
  | nil => rfl
  | cons field rest ih =>
    cases field with
    | mk name span value => exact congrArg (value.nodes ++ ·) ih

@[simp] theorem nodesAll_parts (parts : List TemplatePart) :
    nodesAll (parts.flatMap TemplatePart.children) = TemplatePart.nodesAll parts := by
  induction parts with
  | nil => rfl
  | cons part rest ih =>
    cases part with
    | text text => exact ih
    | value e => exact congrArg (e.nodes ++ ·) ih

@[simp] theorem nodesAll_arms (arms : List MatchArm) :
    nodesAll (arms.flatMap MatchArm.children) = MatchArm.nodesAll arms := by
  induction arms with
  | nil => rfl
  | cons arm rest ih =>
    cases arm with
    | mk span pattern guard body =>
      rw [List.flatMap_cons, nodesAll_append, ih]
      simp [MatchArm.children, MatchArm.nodesAll]

@[simp] theorem nodesAll_fieldPatterns (fields : List FieldPattern) :
    nodesAll (fields.map fun field => .pattern field.pattern) = FieldPattern.nodesAll fields := by
  induction fields with
  | nil => rfl
  | cons field rest ih =>
    cases field with
    | mk name pattern => exact congrArg (pattern.nodes ++ ·) ih

@[simp] theorem nodesAll_rest (rest : Option Binding) :
    nodesAll (rest.toList.map fun b => .pattern (.binding b)) = rest.toList.map fun b => .pattern (.binding b) := by
  cases rest <;> rfl

end TreeNode

theorem Expr.nodes_eq (e : Expr) : e.nodes = .expr e :: TreeNode.nodesAll e.children := by
  cases e with
  | block body =>
    cases body
    simp [nodes, children, Block.nodes]
  | _ => simp [nodes, children]

theorem Pattern.nodes_eq (p : Pattern) : p.nodes = .pattern p :: TreeNode.nodesAll p.children := by
  cases p <;> simp [nodes, children]

/-- A counted loop lists its update after its body, whatever the order of its fields. -/
theorem Stmt.nodes_perm (s : Stmt) : s.nodes.Perm (.stmt s :: TreeNode.nodesAll s.children) := by
  cases s with
  | counted span init condition update body =>
    have listed : TreeNode.nodesAll (Stmt.counted span init condition update body).children =
        Stmt.nodesOption init ++ (Expr.nodesOption condition ++ (Expr.nodesOption update ++ body.nodes)) := by
      simp [children, Expr.nodes]
    rw [listed, nodes, List.append_assoc, List.append_assoc]
    exact .cons _ ((List.perm_append_comm.append_left _).append_left _)
  | _ => simp [nodes, children, Expr.nodes]

theorem Program.nodes_eq (p : Program) : p.nodes = TreeNode.nodesAll p.roots := by
  unfold nodes functions roots
  induction p.items with
  | nil => rfl
  | cons item items ih =>
    rw [List.flatMap_cons, TreeNode.nodesAll_append, ← ih]
    cases item with
    | function f =>
      have own : TreeNode.nodesAll (Item.function f).children = f.body.nodes := List.append_nil _
      rw [own]
      rfl
    | struct | enum => rfl

/-! ### Addresses and numbers -/

/-- Where the lists made of the members have nothing twice, what is in one of them tells the place of the member. -/
theorem place_unique {α β : Type} {f : α → List β} {list : List α} (apart : (list.flatMap f).Nodup) {k l : Nat}
    {a b : α} (first : list[k]? = some a) (second : list[l]? = some b) {x : β} (inside : x ∈ f a)
    (inside' : x ∈ f b) : k = l := by
  obtain ⟨bound, rfl⟩ := List.getElem?_eq_some_iff.mp first
  obtain ⟨bound', rfl⟩ := List.getElem?_eq_some_iff.mp second
  have disjoint := List.pairwise_iff_getElem.mp (List.nodup_flatMap.mp apart).2
  rcases Nat.lt_trichotomy k l with before | same | after
  · exact (disjoint k l bound bound' before inside inside').elim
  · exact same
  · exact (disjoint l k bound' bound after inside' inside).elim

namespace TreeNode

variable {node a b : TreeNode} {path path' : List Nat} {id : Nat}

def idsBelow (node : TreeNode) : List Nat := node.nodes.filterMap id?

theorem nodes_perm (node : TreeNode) : node.nodes.Perm (node :: nodesAll node.children) := by
  cases node with
  | expr e => exact .of_eq e.nodes_eq
  | pattern p => exact .of_eq p.nodes_eq
  | stmt s => exact s.nodes_perm

theorem idsBelow_perm (node : TreeNode) : node.idsBelow.Perm (node.id?.toList ++ node.children.flatMap idsBelow) := by
  have below : (nodesAll node.children).filterMap id? = node.children.flatMap idsBelow := List.filterMap_flatMap
  refine (node.nodes_perm.filterMap id?).trans (.of_eq ?_)
  cases own : node.id? with
  | none => rw [List.filterMap_cons_none own, below, Option.toList_none, List.nil_append]
  | some id => rw [List.filterMap_cons_some own, below, Option.toList_some, List.singleton_append]

theorem mem_nodes_child {child : TreeNode} (member : child ∈ node.children) (inside : a ∈ child.nodes) :
    a ∈ node.nodes :=
  node.nodes_perm.mem_iff.mpr (List.mem_cons_of_mem _ (List.mem_flatMap.mpr ⟨child, member, inside⟩))

theorem mem_nodes_of_at? (found : node.at? path = some a) : a ∈ node.nodes := by
  induction path generalizing node with
  | nil =>
    cases found
    exact a.nodes_perm.mem_iff.mpr List.mem_cons_self
  | cons k path ih =>
    obtain ⟨child, present, found⟩ := Option.bind_eq_some_iff.mp found
    exact mem_nodes_child (List.mem_of_getElem? present) (ih found)

theorem mem_idsBelow (found : node.at? path = some a) (own : a.id? = some id) : id ∈ node.idsBelow :=
  List.mem_filterMap.mpr ⟨a, mem_nodes_of_at? found, own⟩

/-- All nodes below one have an address there. -/
theorem exists_at? (member : a ∈ node.nodes) : ∃ path, node.at? path = some a := by
  induction size : node.nodes.length using Nat.strong_induction_on generalizing node with
  | _ n ih =>
    rcases List.mem_cons.mp (node.nodes_perm.mem_iff.mp member) with rfl | below
    · exact ⟨[], rfl⟩
    · obtain ⟨child, among, inside⟩ := List.mem_flatMap.mp below
      have smaller : child.nodes.length < n := by
        have parts : (nodesAll node.children).length + 1 = n := size ▸ node.nodes_perm.length_eq.symm
        have part : child.nodes.length ≤ (nodesAll node.children).length :=
          (List.sublist_flatten_of_mem (List.mem_map_of_mem among)).length_le
        omega
      obtain ⟨path, found⟩ := ih _ smaller inside rfl
      obtain ⟨k, present⟩ := List.getElem?_of_mem among
      exact ⟨k :: path, Option.bind_eq_some_iff.mpr ⟨child, present, found⟩⟩

theorem id?_ne_below (apart : node.idsBelow.Nodup) (own : node.id? = some id) {k : Nat}
    (found : node.at? (k :: path) = some a) : a.id? ≠ some id := by
  intro same
  obtain ⟨child, present, found⟩ := Option.bind_eq_some_iff.mp found
  have split := node.idsBelow_perm.nodup_iff.mp apart
  rw [own, Option.toList_some, List.singleton_append, List.nodup_cons] at split
  exact split.1 (List.mem_flatMap.mpr ⟨child, List.mem_of_getElem? present, mem_idsBelow found same⟩)

theorem children_apart (apart : node.idsBelow.Nodup) : (node.children.flatMap idsBelow).Nodup :=
  (List.nodup_append.mp (node.idsBelow_perm.nodup_iff.mp apart)).2.1

/-- Where no number comes twice, a number is found at one address. -/
theorem at?_unique (apart : node.idsBelow.Nodup) (first : node.at? path = some a) (second : node.at? path' = some b)
    (own : a.id? = some id) (own' : b.id? = some id) : path = path' := by
  induction path generalizing node path' with
  | nil =>
    cases first
    cases path' with
    | nil => rfl
    | cons k path' => exact absurd own' (id?_ne_below apart own second)
  | cons k path ih =>
    cases path' with
    | nil =>
      cases second
      exact absurd own (id?_ne_below apart own' first)
    | cons l path' =>
      obtain ⟨child, present, first⟩ := Option.bind_eq_some_iff.mp first
      obtain ⟨child', present', second⟩ := Option.bind_eq_some_iff.mp second
      obtain rfl : k = l := place_unique (children_apart apart) present present'
        (mem_idsBelow first own) (mem_idsBelow second own')
      obtain rfl : child = child' := Option.some.inj (present.symm.trans present')
      have within : child.idsBelow.Nodup :=
        (List.nodup_flatMap.mp (children_apart apart)).1 child (List.mem_of_getElem? present)
      rw [ih within first second]

end TreeNode

namespace Program

variable {p : Program} {a b : TreeNode} {path path' : List Nat} {id : Nat}

theorem mem_nodes_of_at? (found : p.at? path = some a) : a ∈ p.nodes := by
  rw [p.nodes_eq]
  cases path with
  | nil => cases found
  | cons k path =>
    obtain ⟨root, present, found⟩ := Option.bind_eq_some_iff.mp found
    exact List.mem_flatMap.mpr ⟨root, List.mem_of_getElem? present, TreeNode.mem_nodes_of_at? found⟩

theorem exists_at? (member : a ∈ p.nodes) : ∃ path, p.at? path = some a := by
  rw [p.nodes_eq] at member
  obtain ⟨root, among, inside⟩ := List.mem_flatMap.mp member
  obtain ⟨path, found⟩ := TreeNode.exists_at? inside
  obtain ⟨k, present⟩ := List.getElem?_of_mem among
  exact ⟨k :: path, Option.bind_eq_some_iff.mpr ⟨root, present, found⟩⟩

theorem at?_unique (apart : (p.nodes.filterMap TreeNode.id?).Nodup) (first : p.at? path = some a)
    (second : p.at? path' = some b) (own : a.id? = some id) (own' : b.id? = some id) : path = path' := by
  have roots : (p.roots.flatMap TreeNode.idsBelow).Nodup := by
    rwa [p.nodes_eq, TreeNode.nodesAll, List.filterMap_flatMap] at apart
  cases path with
  | nil => cases first
  | cons k path =>
    cases path' with
    | nil => cases second
    | cons l path' =>
      obtain ⟨root, present, first⟩ := Option.bind_eq_some_iff.mp first
      obtain ⟨root', present', second⟩ := Option.bind_eq_some_iff.mp second
      obtain rfl : k = l := place_unique roots present present'
        (TreeNode.mem_idsBelow first own) (TreeNode.mem_idsBelow second own')
      obtain rfl : root = root' := Option.some.inj (present.symm.trans present')
      have within : root.idsBelow.Nodup := (List.nodup_flatMap.mp roots).1 root (List.mem_of_getElem? present)
      rw [TreeNode.at?_unique within first second own own']

end Program

theorem Item.numberAll_roots (items : List Item) (n : Nat) :
    Counted n (TreeNode.nodesAll ((Item.numberAll items n).1.flatMap Item.children)) (Item.numberAll items n).2 := by
  induction items generalizing n with
  | nil => exact .nil
  | cons item items ih =>
    cases item with
    | function f => exact (f.body.number_counted n).append (ih _)
    | struct | enum => exact ih n

/-! ### Numbering keeps the tree -/

/-- What a node is, and where in the source it stands. -/
def TreeNode.form : TreeNode → String × Span
  | .expr e => (e.kind, e.span)
  | .stmt s => (s.kind, s.span)
  | .pattern p => (p.kind, p.span)

/-- A node after numbering, given how many numbers are in use. -/
def TreeNode.numbered (n : Nat) : TreeNode → TreeNode
  | .expr e => .expr (e.number n).1
  | .stmt s => .stmt (s.number n).1
  | .pattern p => .pattern (p.number n).1

/-- The second node is the first after numbering. -/
def TreeNode.Numbers (node node' : TreeNode) : Prop := ∃ n, node' = node.numbered n

open List (Forall₂ rel_append)
open TreeNode (Numbers)

theorem Expr.numberAll_numbers (list : List Expr) (n : Nat) :
    Forall₂ Numbers (list.map .expr) ((Expr.numberAll list n).1.map .expr) := by
  induction list generalizing n with
  | nil => exact .nil
  | cons e rest ih => exact .cons ⟨n, rfl⟩ (ih _)

theorem Expr.numberOption_numbers (e : Option Expr) (n : Nat) :
    Forall₂ Numbers (e.toList.map .expr) ((Expr.numberOption e n).1.toList.map .expr) := by
  cases e with
  | none => exact .nil
  | some e => exact .cons ⟨n, rfl⟩ .nil

theorem Stmt.numberAll_numbers (stmts : List Stmt) (n : Nat) :
    Forall₂ Numbers (stmts.map .stmt) ((Stmt.numberAll stmts n).1.map .stmt) := by
  induction stmts generalizing n with
  | nil => exact .nil
  | cons s rest ih => exact .cons ⟨n, rfl⟩ (ih _)

theorem Stmt.numberOption_numbers (s : Option Stmt) (n : Nat) :
    Forall₂ Numbers (s.toList.map .stmt) ((Stmt.numberOption s n).1.toList.map .stmt) := by
  cases s with
  | none => exact .nil
  | some s => exact .cons ⟨n, rfl⟩ .nil

theorem Pattern.numberAll_numbers (patterns : List Pattern) (n : Nat) :
    Forall₂ Numbers (patterns.map .pattern) ((Pattern.numberAll patterns n).1.map .pattern) := by
  induction patterns generalizing n with
  | nil => exact .nil
  | cons p rest ih => exact .cons ⟨n, rfl⟩ (ih _)

theorem FieldInit.numberAll_numbers (fields : List FieldInit) (n : Nat) :
    Forall₂ Numbers (fields.map fun field => .expr field.value)
      ((FieldInit.numberAll fields n).1.map fun field => .expr field.value) := by
  induction fields generalizing n with
  | nil => exact .nil
  | cons field rest ih =>
    cases field
    exact .cons ⟨n, rfl⟩ (ih _)

theorem TemplatePart.numberAll_numbers (parts : List TemplatePart) (n : Nat) :
    Forall₂ Numbers (parts.flatMap children) ((TemplatePart.numberAll parts n).1.flatMap children) := by
  induction parts generalizing n with
  | nil => exact .nil
  | cons part rest ih =>
    cases part with
    | text => exact ih n
    | value => exact .cons ⟨n, rfl⟩ (ih _)

theorem MatchArm.numberAll_numbers (arms : List MatchArm) (n : Nat) :
    Forall₂ Numbers (arms.flatMap children) ((MatchArm.numberAll arms n).1.flatMap children) := by
  induction arms generalizing n with
  | nil => exact .nil
  | cons arm rest ih =>
    cases arm with
    | mk span pattern guard body =>
      exact .cons ⟨n, rfl⟩ (rel_append (rel_append (Expr.numberOption_numbers guard _) (.cons ⟨_, rfl⟩ .nil))
        (ih _))

theorem FieldPattern.numberAll_numbers (fields : List FieldPattern) (n : Nat) :
    Forall₂ Numbers (fields.map fun field => .pattern field.pattern)
      ((FieldPattern.numberAll fields n).1.map fun field => .pattern field.pattern) := by
  induction fields generalizing n with
  | nil => exact .nil
  | cons field rest ih =>
    cases field
    exact .cons ⟨n, rfl⟩ (ih _)

theorem Expr.children_number (e : Expr) (n : Nat) : Forall₂ Numbers e.children (e.number n).1.children := by
  cases e with
  | int | float | string | bool | ident => exact .nil
  | template _ parts => exact TemplatePart.numberAll_numbers parts (n + 1)
  | unary | ref | deref | cast | field => exact .cons ⟨n + 1, rfl⟩ .nil
  | binary | index | assign => exact .cons ⟨n + 1, rfl⟩ (.cons ⟨_, rfl⟩ .nil)
  | call _ _ args | methodCall _ _ _ args => exact .cons ⟨n + 1, rfl⟩ (Expr.numberAll_numbers args _)
  | struct _ _ fields => exact FieldInit.numberAll_numbers fields (n + 1)
  | variant _ _ _ args fields =>
    exact rel_append (Expr.numberAll_numbers args (n + 1)) (FieldInit.numberAll_numbers fields _)
  | tuple _ elements | array _ elements => exact Expr.numberAll_numbers elements (n + 1)
  | select _ _ arms => exact .cons ⟨n + 1, rfl⟩ (MatchArm.numberAll_numbers arms _)
  | branch _ _ _ alternative =>
    exact .cons ⟨n + 1, rfl⟩ (.cons ⟨_, rfl⟩ (Expr.numberOption_numbers alternative _))
  | block body =>
    cases body with
    | mk _ stmts tail =>
      exact rel_append (Stmt.numberAll_numbers stmts (n + 1)) (Expr.numberOption_numbers tail _)

theorem Stmt.children_number (s : Stmt) (n : Nat) : Forall₂ Numbers s.children (s.number n).1.children := by
  cases s with
  | bind _ _ _ init => exact .cons ⟨n, rfl⟩ (Expr.numberOption_numbers init _)
  | expr => exact .cons ⟨n, rfl⟩ .nil
  | ret _ value => exact Expr.numberOption_numbers value n
  | loop => exact .cons ⟨n, rfl⟩ (.cons ⟨_, rfl⟩ .nil)
  | counted _ init condition update _ =>
    exact rel_append (rel_append (rel_append (Stmt.numberOption_numbers init n)
      (Expr.numberOption_numbers condition _)) (Expr.numberOption_numbers update _)) (.cons ⟨_, rfl⟩ .nil)

theorem Pattern.children_number (p : Pattern) (n : Nat) : Forall₂ Numbers p.children (p.number n).1.children := by
  cases p with
  | wildcard | binding | literal | range => exact .nil
  | tuple _ elements | alternatives _ elements => exact Pattern.numberAll_numbers elements (n + 1)
  | list _ front _ rest =>
    cases rest with
    | none => exact rel_append (Pattern.numberAll_numbers front (n + 1)) .nil
    | some b => exact rel_append (Pattern.numberAll_numbers front (n + 1)) (.cons ⟨_, rfl⟩ .nil)
  | record _ _ fields => exact FieldPattern.numberAll_numbers fields (n + 1)
  | variant _ _ _ args fields =>
    exact rel_append (Pattern.numberAll_numbers args (n + 1)) (FieldPattern.numberAll_numbers fields _)
  | guarded => exact .cons ⟨n + 1, rfl⟩ (.cons ⟨_, rfl⟩ .nil)

theorem Item.numberAll_numbers (items : List Item) (n : Nat) :
    Forall₂ Numbers (items.flatMap children) ((Item.numberAll items n).1.flatMap children) := by
  induction items generalizing n with
  | nil => exact .nil
  | cons item items ih =>
    cases item with
    | function => exact .cons ⟨n, rfl⟩ (ih _)
    | struct | enum => exact ih n

namespace TreeNode

theorem children_numbered (node : TreeNode) (n : Nat) : Forall₂ Numbers node.children (node.numbered n).children := by
  cases node with
  | expr e => exact e.children_number n
  | stmt s => exact s.children_number n
  | pattern p => exact p.children_number n

theorem form_numbered (node : TreeNode) (n : Nat) : (node.numbered n).form = node.form := by
  cases node with
  | expr e =>
    cases e with
    | block body => cases body; rfl
    | _ => rfl
  | stmt s => cases s <;> rfl
  | pattern p =>
    cases p with
    | list info front isOpen rest => cases rest <;> rfl
    | _ => rfl

/-- One place of two lists that are related. -/
theorem getElem?_numbers {forest forest' : List TreeNode} (numbers : Forall₂ Numbers forest forest') (k : Nat) :
    forest'[k]? = none ∧ forest[k]? = none ∨
      ∃ node n, forest[k]? = some node ∧ forest'[k]? = some (node.numbered n) := by
  induction numbers generalizing k with
  | nil => exact .inl ⟨rfl, rfl⟩
  | cons first rest ih =>
    cases k with
    | zero =>
      obtain ⟨n, rfl⟩ := first
      exact .inr ⟨_, n, rfl, rfl⟩
    | succ k => exact ih k

/-- At each address below related nodes stands what stood there before numbering. -/
theorem form_at? {forest forest' : List TreeNode} (numbers : Forall₂ Numbers forest forest') (k : Nat)
    (path : List Nat) :
    (forest'[k]?.bind fun node => node.at? path).map form = (forest[k]?.bind fun node => node.at? path).map form := by
  induction path generalizing forest forest' k with
  | nil =>
    rcases getElem?_numbers numbers k with ⟨missing, missing'⟩ | ⟨node, n, present, present'⟩
    · rw [missing, missing']
    · rw [present, present']
      exact congrArg some (node.form_numbered n)
  | cons l path ih =>
    rcases getElem?_numbers numbers k with ⟨missing, missing'⟩ | ⟨node, n, present, present'⟩
    · rw [missing, missing']
    · rw [present, present']
      exact ih (node.children_numbered n) l

end TreeNode

/-! ### Numbered programs -/

/-- The number at an address; a statement has none. -/
def Program.idAt? (p : Program) (path : List Nat) : Option Nat := (p.at? path).bind TreeNode.id?

/-- A program whose expressions and patterns are identified by the numbers from one to a count. -/
structure Program.Numbered (p : Program) (count : Nat) : Prop where
  /-- In reading order the numbers are those from one on. -/
  consecutive : p.nodes.filterMap TreeNode.id? = List.range' 1 count
  /-- Whatever expression or pattern stands in a field is read exactly once. -/
  listed : ∀ path node, p.at? path = some node → node.id? ≠ none → ∃! place : Nat, p.nodes[place]? = some node
  /-- Addresses of expressions and patterns correspond to numbers. -/
  identified : Set.BijOn p.idAt? {path | p.idAt? path ≠ none} (some '' Set.Icc 1 count)
  contiguous : ∀ f ∈ p.functions, ∃ first length,
    f.body.nodes.filterMap TreeNode.id? = List.range' first length

theorem Program.number_counted_nodes (p : Program) : Counted 0 p.number.1.nodes p.number.2 := by
  rw [Program.nodes_eq]
  exact Item.numberAll_roots p.items 0

namespace Counted

variable {p : Program} {count : Nat}

theorem exists_unique_place {start stop : Nat} {list : List TreeNode} (counted : Counted start list stop)
    {node : TreeNode} (member : node ∈ list) (own : node.id? ≠ none) : ∃! place : Nat, list[place]? = some node := by
  obtain ⟨place, present⟩ := List.getElem?_of_mem member
  obtain ⟨id, own⟩ := Option.ne_none_iff_exists'.mp own
  have apart := counted.nodup
  rw [List.filterMap_eq_flatMap_toList] at apart
  have inside : id ∈ node.id?.toList := Option.mem_toList.mpr own
  exact ⟨place, present, fun other present' => place_unique apart present' present inside inside⟩

/-- The addresses of a program with consecutive numbers correspond to these. -/
theorem bijOn (counted : Counted 0 p.nodes count) :
    Set.BijOn p.idAt? {path | p.idAt? path ≠ none} (some '' Set.Icc 1 count) := by
  have range (id : Nat) : id ∈ p.nodes.filterMap TreeNode.id? ↔ id ∈ Set.Icc 1 count := by
    rw [counted.ids, List.mem_range'_1, Set.mem_Icc]
    omega
  have found {path : List Nat} {id : Nat} (own : p.idAt? path = some id) :
      ∃ node, p.at? path = some node ∧ node.id? = some id := Option.bind_eq_some_iff.mp own
  refine ⟨?_, ?_, ?_⟩
  · intro path numbered
    obtain ⟨id, own⟩ := Option.ne_none_iff_exists'.mp numbered
    obtain ⟨node, reached, number⟩ := found own
    exact ⟨id, (range id).mp (List.mem_filterMap.mpr ⟨node, Program.mem_nodes_of_at? reached, number⟩), own.symm⟩
  · intro path numbered path' _ same
    obtain ⟨id, own⟩ := Option.ne_none_iff_exists'.mp numbered
    obtain ⟨node, reached, number⟩ := found own
    obtain ⟨node', reached', number'⟩ := found (same ▸ own)
    exact Program.at?_unique counted.nodup reached reached' number number'
  · rintro _ ⟨id, inside, rfl⟩
    obtain ⟨node, member, number⟩ := List.mem_filterMap.mp ((range id).mpr inside)
    obtain ⟨path, reached⟩ := Program.exists_at? member
    have own : p.idAt? path = some id := Option.bind_eq_some_iff.mpr ⟨node, reached, number⟩
    exact ⟨path, Option.ne_none_iff_exists'.mpr ⟨id, own⟩, own⟩

end Counted

/-- Numbering changes nothing in a program but the numbers, and these identify the expressions and patterns of the whole
program, wherever they stand; those of a function are consecutive. -/
theorem Program.number_identifies (p : Program) :
    p.number.1.Numbered p.number.2 ∧
      ∀ path, (p.number.1.at? path).map TreeNode.form = (p.at? path).map TreeNode.form := by
  have counted := p.number_counted_nodes
  refine ⟨⟨counted.ids, ?_, counted.bijOn, ?_⟩, ?_⟩
  · exact fun path node reached own => counted.exists_unique_place (mem_nodes_of_at? reached) own
  · intro f member
    obtain ⟨start, stop, body⟩ := number_counted member
    exact ⟨_, _, body.ids⟩
  · intro path
    cases path with
    | nil => rfl
    | cons k path => exact TreeNode.form_at? (Item.numberAll_numbers p.items 0) k path

end TreeCheck
