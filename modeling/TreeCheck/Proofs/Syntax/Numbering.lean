import Mathlib.Data.List.Range
import TreeCheck.Syntax.Nodes

/-!
The nodes of a tree: with every node all nodes below it are listed, and numbering gives the expressions and
patterns of a tree consecutive numbers in reading order, so that no two of them share one.
-/

namespace TreeCheck

/-- The number by which notes about a node are kept. -/
def TreeNode.id? : TreeNode → Option Nat
  | .expr e => some e.id
  | .pattern p => some p.id
  | .stmt _ => none

def TreeNode.nodes : TreeNode → List TreeNode
  | .expr e => e.nodes
  | .pattern p => p.nodes
  | .stmt s => s.nodes

def Nested (list : List TreeNode) : Prop := ∀ node ∈ list, node.nodes ⊆ list

namespace Nested

variable {list more : List TreeNode}

theorem nil : Nested [] := List.forall_mem_nil _

theorem append (first : Nested list) (second : Nested more) : Nested (list ++ more) := by
  intro node member
  rcases List.mem_append.mp member with before | after
  · exact List.subset_append_of_subset_left _ (first node before)
  · exact List.subset_append_of_subset_right _ (second node after)

theorem cons {node : TreeNode} (below : Nested list) (own : node.nodes = node :: list) : Nested (node :: list) := by
  intro other member
  rcases List.mem_cons.mp member with rfl | inside
  · exact own ▸ List.Subset.refl _
  · exact List.subset_cons_of_subset _ (below other inside)

end Nested

theorem Expr.mem_nodes (e : Expr) : .expr e ∈ e.nodes := by
  cases e with
  | block body =>
    cases body
    exact List.mem_cons_self
  | _ => exact List.mem_cons_self

theorem Pattern.mem_nodes (p : Pattern) : .pattern p ∈ p.nodes := by
  cases p <;> exact List.mem_cons_self

mutual

theorem Expr.nodes_nested : ∀ e : Expr, Nested e.nodes
  | .int .. | .float .. | .string .. | .bool .. | .ident .. => .cons .nil rfl
  | .template _ parts => .cons (TemplatePart.nodesAll_nested parts) rfl
  | .binary _ _ left right => .cons (left.nodes_nested.append right.nodes_nested) rfl
  | .unary _ _ operand | .ref _ _ operand | .deref _ operand | .cast _ operand _ | .field _ operand _ =>
    .cons operand.nodes_nested rfl
  | .call _ callee args => .cons (callee.nodes_nested.append (Expr.nodesAll_nested args)) rfl
  | .methodCall _ receiver _ args => .cons (receiver.nodes_nested.append (Expr.nodesAll_nested args)) rfl
  | .index _ object index => .cons (object.nodes_nested.append index.nodes_nested) rfl
  | .struct _ _ fields => .cons (FieldInit.nodesAll_nested fields) rfl
  | .variant _ _ _ args fields =>
    .cons ((Expr.nodesAll_nested args).append (FieldInit.nodesAll_nested fields)) rfl
  | .tuple _ elements | .array _ elements => .cons (Expr.nodesAll_nested elements) rfl
  | .assign _ target value => .cons (target.nodes_nested.append value.nodes_nested) rfl
  | .select _ scrutinee arms => .cons (scrutinee.nodes_nested.append (MatchArm.nodesAll_nested arms)) rfl
  | .branch _ condition consequent alternative =>
    .cons ((condition.nodes_nested.append consequent.nodes_nested).append
      (Expr.nodesOption_nested alternative)) rfl
  | .block body => body.nodes_nested

theorem Expr.nodesAll_nested : ∀ list : List Expr, Nested (Expr.nodesAll list)
  | [] => .nil
  | e :: rest => e.nodes_nested.append (Expr.nodesAll_nested rest)

theorem Expr.nodesOption_nested : ∀ e : Option Expr, Nested (Expr.nodesOption e)
  | none => .nil
  | some e => e.nodes_nested

theorem Block.nodes_nested : ∀ b : Block, Nested b.nodes
  | .mk _ stmts tail => .cons ((Stmt.nodesAll_nested stmts).append (Expr.nodesOption_nested tail)) rfl

theorem TemplatePart.nodesAll_nested : ∀ parts : List TemplatePart, Nested (TemplatePart.nodesAll parts)
  | [] => .nil
  | .text _ :: rest => TemplatePart.nodesAll_nested rest
  | .value e :: rest => e.nodes_nested.append (TemplatePart.nodesAll_nested rest)

theorem FieldInit.nodesAll_nested : ∀ fields : List FieldInit, Nested (FieldInit.nodesAll fields)
  | [] => .nil
  | .mk _ _ value :: rest => value.nodes_nested.append (FieldInit.nodesAll_nested rest)

theorem MatchArm.nodesAll_nested : ∀ arms : List MatchArm, Nested (MatchArm.nodesAll arms)
  | [] => .nil
  | .mk _ pattern guard body :: rest =>
    ((pattern.nodes_nested.append (Expr.nodesOption_nested guard)).append body.nodes_nested).append
      (MatchArm.nodesAll_nested rest)

theorem Stmt.nodes_nested : ∀ s : Stmt, Nested s.nodes
  | .bind _ pattern _ init => .cons (pattern.nodes_nested.append (Expr.nodesOption_nested init)) rfl
  | .expr _ value => .cons value.nodes_nested rfl
  | .ret _ value => .cons (Expr.nodesOption_nested value) rfl
  | .loop _ condition body => .cons (condition.nodes_nested.append body.nodes_nested) rfl
  | .counted _ init condition update body =>
    .cons ((((Stmt.nodesOption_nested init).append (Expr.nodesOption_nested condition)).append
      body.nodes_nested).append (Expr.nodesOption_nested update)) rfl

theorem Stmt.nodesAll_nested : ∀ stmts : List Stmt, Nested (Stmt.nodesAll stmts)
  | [] => .nil
  | s :: rest => s.nodes_nested.append (Stmt.nodesAll_nested rest)

theorem Stmt.nodesOption_nested : ∀ s : Option Stmt, Nested (Stmt.nodesOption s)
  | none => .nil
  | some s => s.nodes_nested

theorem Pattern.nodes_nested : ∀ p : Pattern, Nested p.nodes
  | .wildcard _ | .binding _ | .literal .. | .range .. => .cons .nil rfl
  | .tuple _ elements | .alternatives _ elements => .cons (Pattern.nodesAll_nested elements) rfl
  | .list _ front _ none => .cons ((Pattern.nodesAll_nested front).append .nil) rfl
  | .list _ front _ (some _) => .cons ((Pattern.nodesAll_nested front).append (.cons .nil rfl)) rfl
  | .record _ _ fields _ => .cons (FieldPattern.nodesAll_nested fields) rfl
  | .variant _ _ _ args fields _ =>
    .cons ((Pattern.nodesAll_nested args).append (FieldPattern.nodesAll_nested fields)) rfl
  | .guarded _ inner condition => .cons (inner.nodes_nested.append condition.nodes_nested) rfl

theorem Pattern.nodesAll_nested : ∀ patterns : List Pattern, Nested (Pattern.nodesAll patterns)
  | [] => .nil
  | p :: rest => p.nodes_nested.append (Pattern.nodesAll_nested rest)

theorem FieldPattern.nodesAll_nested : ∀ fields : List FieldPattern, Nested (FieldPattern.nodesAll fields)
  | [] => .nil
  | .mk _ pattern :: rest => pattern.nodes_nested.append (FieldPattern.nodesAll_nested rest)

end

/-! ### Numbers -/

/-- Nodes that have the numbers handed out from one count to another, in order. -/
structure Counted (start : Nat) (list : List TreeNode) (stop : Nat) : Prop where
  le : start ≤ stop
  ids : list.filterMap TreeNode.id? = List.range' (start + 1) (stop - start)

namespace Counted

variable {start middle stop : Nat} {list more : List TreeNode}

theorem nil : Counted start [] start := ⟨Nat.le_refl _, by simp⟩

theorem append (first : Counted start list middle) (second : Counted middle more stop) :
    Counted start (list ++ more) stop := by
  have sizes : stop - start = (middle - start) + (stop - middle) := by
    have := first.le
    have := second.le
    omega
  have next : start + 1 + (middle - start) = middle + 1 := by
    have := first.le
    omega
  refine ⟨Nat.le_trans first.le second.le, ?_⟩
  rw [List.filterMap_append, first.ids, second.ids, sizes, ← List.range'_append_1, next]

theorem numbered {node : TreeNode} (own : node.id? = some (start + 1)) (below : Counted (start + 1) list stop) :
    Counted start (node :: list) stop := by
  have sizes : stop - start = stop - (start + 1) + 1 := by
    have := below.le
    omega
  refine ⟨Nat.le_of_succ_le below.le, ?_⟩
  rw [List.filterMap_cons_some own, below.ids, sizes, List.range'_succ]

theorem stmt {s : Stmt} (below : Counted start list stop) : Counted start (.stmt s :: list) stop :=
  ⟨below.le, below.ids⟩

theorem nodup (counted : Counted start list stop) : (list.filterMap TreeNode.id?).Nodup :=
  counted.ids ▸ List.nodup_range'

/-- A number belongs to one node. -/
theorem unique (counted : Counted start list stop) {a b : TreeNode} (first : a ∈ list) (second : b ∈ list)
    {id : Nat} (own : a.id? = some id) (same : b.id? = some id) : a = b := by
  have distinct := List.pairwise_filterMap.mp counted.nodup
  have : Std.Symm fun x y : TreeNode => ∀ i, x.id? = some i → ∀ j, y.id? = some j → i ≠ j :=
    ⟨fun _ _ apart i right j left => (apart j left i right).symm⟩
  by_contra apart
  exact distinct.forall first second apart id own id same rfl

end Counted

mutual

theorem Expr.number_counted : ∀ (e : Expr) (n : Nat), Counted n (e.number n).1.nodes (e.number n).2
  | .int .., _ | .float .., _ | .string .., _ | .bool .., _ | .ident .., _ => .numbered rfl .nil
  | .template _ parts, n => .numbered rfl (TemplatePart.numberAll_counted parts (n + 1))
  | .binary _ _ left right, n =>
    .numbered rfl ((left.number_counted (n + 1)).append (right.number_counted _))
  | .unary _ _ operand, n | .ref _ _ operand, n | .deref _ operand, n | .cast _ operand _, n
  | .field _ operand _, n => .numbered rfl (operand.number_counted (n + 1))
  | .call _ callee args, n =>
    .numbered rfl ((callee.number_counted (n + 1)).append (Expr.numberAll_counted args _))
  | .methodCall _ receiver _ args, n =>
    .numbered rfl ((receiver.number_counted (n + 1)).append (Expr.numberAll_counted args _))
  | .index _ object index, n =>
    .numbered rfl ((object.number_counted (n + 1)).append (index.number_counted _))
  | .struct _ _ fields, n => .numbered rfl (FieldInit.numberAll_counted fields (n + 1))
  | .variant _ _ _ args fields, n =>
    .numbered rfl ((Expr.numberAll_counted args (n + 1)).append (FieldInit.numberAll_counted fields _))
  | .tuple _ elements, n | .array _ elements, n => .numbered rfl (Expr.numberAll_counted elements (n + 1))
  | .assign _ target value, n =>
    .numbered rfl ((target.number_counted (n + 1)).append (value.number_counted _))
  | .select _ scrutinee arms, n =>
    .numbered rfl ((scrutinee.number_counted (n + 1)).append (MatchArm.numberAll_counted arms _))
  | .branch _ condition consequent alternative, n =>
    .numbered rfl (((condition.number_counted (n + 1)).append (consequent.number_counted _)).append
      (Expr.numberOption_counted alternative _))
  | .block body, n => body.number_counted n

theorem Expr.numberAll_counted : ∀ (list : List Expr) (n : Nat),
    Counted n (Expr.nodesAll (Expr.numberAll list n).1) (Expr.numberAll list n).2
  | [], _ => .nil
  | e :: rest, n => (e.number_counted n).append (Expr.numberAll_counted rest _)

theorem Expr.numberOption_counted : ∀ (e : Option Expr) (n : Nat),
    Counted n (Expr.nodesOption (Expr.numberOption e n).1) (Expr.numberOption e n).2
  | none, _ => .nil
  | some e, n => e.number_counted n

theorem Block.number_counted : ∀ (b : Block) (n : Nat), Counted n (b.number n).1.nodes (b.number n).2
  | .mk _ stmts tail, n =>
    .numbered rfl ((Stmt.numberAll_counted stmts (n + 1)).append (Expr.numberOption_counted tail _))

theorem TemplatePart.numberAll_counted : ∀ (parts : List TemplatePart) (n : Nat),
    Counted n (TemplatePart.nodesAll (TemplatePart.numberAll parts n).1) (TemplatePart.numberAll parts n).2
  | [], _ => .nil
  | .text _ :: rest, n => TemplatePart.numberAll_counted rest n
  | .value e :: rest, n => (e.number_counted n).append (TemplatePart.numberAll_counted rest _)

theorem FieldInit.numberAll_counted : ∀ (fields : List FieldInit) (n : Nat),
    Counted n (FieldInit.nodesAll (FieldInit.numberAll fields n).1) (FieldInit.numberAll fields n).2
  | [], _ => .nil
  | .mk _ _ value :: rest, n => (value.number_counted n).append (FieldInit.numberAll_counted rest _)

theorem MatchArm.numberAll_counted : ∀ (arms : List MatchArm) (n : Nat),
    Counted n (MatchArm.nodesAll (MatchArm.numberAll arms n).1) (MatchArm.numberAll arms n).2
  | [], _ => .nil
  | .mk _ pattern guard body :: rest, n =>
    (((pattern.number_counted n).append (Expr.numberOption_counted guard _)).append
      (body.number_counted _)).append (MatchArm.numberAll_counted rest _)

theorem Stmt.number_counted : ∀ (s : Stmt) (n : Nat), Counted n (s.number n).1.nodes (s.number n).2
  | .bind _ pattern _ init, n =>
    .stmt ((pattern.number_counted n).append (Expr.numberOption_counted init _))
  | .expr _ value, n => .stmt (value.number_counted n)
  | .ret _ value, n => .stmt (Expr.numberOption_counted value n)
  | .loop _ condition body, n => .stmt ((condition.number_counted n).append (body.number_counted _))
  | .counted _ init condition update body, n =>
    .stmt ((((Stmt.numberOption_counted init n).append (Expr.numberOption_counted condition _)).append
      (body.number_counted _)).append (Expr.numberOption_counted update _))

theorem Stmt.numberAll_counted : ∀ (stmts : List Stmt) (n : Nat),
    Counted n (Stmt.nodesAll (Stmt.numberAll stmts n).1) (Stmt.numberAll stmts n).2
  | [], _ => .nil
  | s :: rest, n => (s.number_counted n).append (Stmt.numberAll_counted rest _)

theorem Stmt.numberOption_counted : ∀ (s : Option Stmt) (n : Nat),
    Counted n (Stmt.nodesOption (Stmt.numberOption s n).1) (Stmt.numberOption s n).2
  | none, _ => .nil
  | some s, n => s.number_counted n

theorem Pattern.number_counted : ∀ (p : Pattern) (n : Nat), Counted n (p.number n).1.nodes (p.number n).2
  | .wildcard _, _ | .binding _, _ | .literal .., _ | .range .., _ => .numbered rfl .nil
  | .tuple _ elements, n | .alternatives _ elements, n =>
    .numbered rfl (Pattern.numberAll_counted elements (n + 1))
  | .list _ front _ none, n => .numbered rfl ((Pattern.numberAll_counted front (n + 1)).append .nil)
  | .list _ front _ (some _), n =>
    .numbered rfl ((Pattern.numberAll_counted front (n + 1)).append (.numbered rfl .nil))
  | .record _ _ fields _, n => .numbered rfl (FieldPattern.numberAll_counted fields (n + 1))
  | .variant _ _ _ args fields _, n =>
    .numbered rfl ((Pattern.numberAll_counted args (n + 1)).append (FieldPattern.numberAll_counted fields _))
  | .guarded _ inner condition, n =>
    .numbered rfl ((inner.number_counted (n + 1)).append (condition.number_counted _))

theorem Pattern.numberAll_counted : ∀ (patterns : List Pattern) (n : Nat),
    Counted n (Pattern.nodesAll (Pattern.numberAll patterns n).1) (Pattern.numberAll patterns n).2
  | [], _ => .nil
  | p :: rest, n => (p.number_counted n).append (Pattern.numberAll_counted rest _)

theorem FieldPattern.numberAll_counted : ∀ (fields : List FieldPattern) (n : Nat),
    Counted n (FieldPattern.nodesAll (FieldPattern.numberAll fields n).1) (FieldPattern.numberAll fields n).2
  | [], _ => .nil
  | .mk _ pattern :: rest, n => (pattern.number_counted n).append (FieldPattern.numberAll_counted rest _)

end

theorem Item.numberAll_counted {items : List Item} (count : Nat) : ∀ f, .function f ∈ (Item.numberAll items count).1 →
    ∃ start stop, Counted start f.body.nodes stop := by
  induction items generalizing count with
  | nil => exact fun _ => nofun
  | cons first rest ih =>
    intro f member
    cases first with
    | function decl =>
      rcases List.mem_cons.mp member with same | later
      · cases same
        exact ⟨_, _, decl.body.number_counted count⟩
      · exact ih _ f later
    | struct d | enum d =>
      rcases List.mem_cons.mp member with same | later
      · cases same
      · exact ih count f later

/-- In a program whose nodes are numbered the numbers of a function are consecutive. -/
theorem Program.number_counted {p : Program} {f : FuncDecl} (member : f ∈ p.number.1.functions) :
    ∃ start stop, Counted start f.body.nodes stop := by
  obtain ⟨item, inside, own⟩ := List.mem_filterMap.mp member
  cases item <;> cases own
  exact Item.numberAll_counted 0 f inside

end TreeCheck
