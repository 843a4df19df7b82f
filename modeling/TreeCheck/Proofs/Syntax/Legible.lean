import Mathlib.Data.Option.Basic
import TreeCheck.Proofs.Syntax.Decoded
import TreeCheck.Proofs.Syntax.Numbering
import TreeCheck.Ty.Basic

/-!
What documents can say. In a program that was read each type behind an integer literal is an integer type and each
or-pattern has alternatives, wherever they stand.
-/

namespace TreeCheck

/-- What is written behind an integer literal is an integer type, if it is a type, and an or-pattern has
alternatives. -/
def TreeNode.legible : TreeNode → Bool
  | .expr (.int _ _ suffix) => (Ty.ofName? suffix).all Ty.isInteger
  | .pattern (.alternatives _ choices) => !choices.isEmpty
  | _ => true

/-- Nodes as they can be written down. -/
def Legible (nodes : List TreeNode) : Prop := ∀ node ∈ nodes, node.legible = true

namespace Legible

variable {nodes more : List TreeNode}

@[simp] theorem nil : Legible [] := List.forall_mem_nil _

@[simp] theorem append : Legible (nodes ++ more) ↔ Legible nodes ∧ Legible more := List.forall_mem_append

@[simp] theorem cons {node : TreeNode} : Legible (node :: nodes) ↔ node.legible = true ∧ Legible nodes :=
  List.forall_mem_cons

@[simp] theorem exprs {list : List Expr} : Legible (Expr.nodesAll list) ↔ ∀ e ∈ list, Legible e.nodes := by
  induction list <;> simp [Expr.nodesAll, *]

@[simp] theorem option {e : Option Expr} : Legible (Expr.nodesOption e) ↔ ∀ value ∈ e, Legible value.nodes := by
  cases e <;> simp [Expr.nodesOption]

@[simp] theorem stmts {list : List Stmt} : Legible (Stmt.nodesAll list) ↔ ∀ s ∈ list, Legible s.nodes := by
  induction list <;> simp [Stmt.nodesAll, *]

@[simp] theorem patterns {list : List Pattern} : Legible (Pattern.nodesAll list) ↔ ∀ p ∈ list, Legible p.nodes := by
  induction list <;> simp [Pattern.nodesAll, *]

theorem parts {list : List TemplatePart} :
    Legible (TemplatePart.nodesAll list) ↔ ∀ part ∈ list, Legible (TemplatePart.nodesAll [part]) := by
  induction list with
  | nil => simp [TemplatePart.nodesAll]
  | cons part rest ih => cases part <;> simp [TemplatePart.nodesAll, ih]

theorem inits {list : List FieldInit} :
    Legible (FieldInit.nodesAll list) ↔ ∀ init ∈ list, Legible (FieldInit.nodesAll [init]) := by
  induction list with
  | nil => simp [FieldInit.nodesAll]
  | cons init rest ih => cases init; simp [FieldInit.nodesAll, ih]

theorem arms {list : List MatchArm} :
    Legible (MatchArm.nodesAll list) ↔ ∀ arm ∈ list, Legible (MatchArm.nodesAll [arm]) := by
  induction list with
  | nil => simp [MatchArm.nodesAll]
  | cons arm rest ih => cases arm; simp [MatchArm.nodesAll, ih, and_assoc]

theorem fieldPatterns {list : List FieldPattern} :
    Legible (FieldPattern.nodesAll list) ↔ ∀ field ∈ list, Legible (FieldPattern.nodesAll [field]) := by
  induction list with
  | nil => simp [FieldPattern.nodesAll]
  | cons field rest ih => cases field; simp [FieldPattern.nodesAll, ih]

end Legible

/-! ### Reading -/

namespace Syntax

variable {input : Input}

theorem suffixedInt?_integer {text suffix : String} {value : Int} (read : suffixedInt? text = some (value, suffix)) :
    (Ty.ofName? suffix).all Ty.isInteger = true := by
  have types : ∀ suffix ∈ intSuffixes, (Ty.ofName? suffix).all Ty.isInteger = true := by decide +kernel
  simp only [suffixedInt?, Option.bind_eq_bind, Option.bind_eq_some_iff] at read
  obtain ⟨_, allowed, number, -, same⟩ := read
  cases same
  rw [guard] at allowed
  split at allowed
  next listed => exact types _ (by simpa using (Bool.and_eq_true_iff.mp listed).2)
  · cases allowed

theorem readScalarExpr_legible {node : Document.Node} {tag raw : String} {e : Expr}
    (done : readScalarExpr input node tag raw = .ok e) : Legible e.nodes := by
  simp only [readScalarExpr, refuse] at done
  split at done
  · split at done <;> cases done
    simp [Expr.nodes, TreeNode.legible]
    decide
  split at done
  · split at done <;> cases done
    simp [Expr.nodes, TreeNode.legible]
  split at done
  · split at done <;> cases done
    simp [Expr.nodes, TreeNode.legible]
  split at done
  · cases done
    simp [Expr.nodes, TreeNode.legible]
  split at done
  next value suffix integer =>
    cases done
    simpa [Expr.nodes, TreeNode.legible] using suffixedInt?_integer integer
  · split at done <;> cases done
    simp [Expr.nodes, TreeNode.legible]
  · split at done
    · cases done
      simp [Expr.nodes, TreeNode.legible, FieldInit.nodesAll]
    · split at done <;> cases done
      simp [Expr.nodes, TreeNode.legible]

theorem readScalarPattern_legible {node : Document.Node} {tag raw : String} {p : Pattern}
    (done : readScalarPattern input node tag raw = .ok p) : Legible p.nodes := by
  simp only [readScalarPattern, refuse] at done
  repeat' split at done
  all_goals first
    | cases done
      simp [Pattern.nodes, TreeNode.legible, Pattern.nodesAll, FieldPattern.nodesAll]
    | cases done

/-- One of two ways to read was taken. -/
theorem read_either {α : Type} {wanted : Prop} [Decidable wanted] {yes no : Read α} {a : α}
    (done : (if wanted then yes else no) = .ok a) : yes = .ok a ∨ no = .ok a := by
  split at done
  · exact .inl done
  · exact .inr done

theorem read_optional {α β γ : Type} (node : Option α) {read : α → Read β} {next : Option β → Read γ}
    {whole : Read γ} {c : γ} (done : whole = .ok c)
    (there : ∀ a, node = some a → whole = (do
      let value ← read a
      let found ← pure (some value)
      next found))
    (absent : node = none → whole = (do
      let found ← pure none
      next found)) : ∃ found, (∀ value ∈ found, ∃ a, read a = .ok value) ∧ next found = .ok c := by
  cases own : node with
  | none =>
    rw [absent own] at done
    exact ⟨none, by simp, done⟩
  | some a =>
    rw [there a own] at done
    obtain ⟨value, found, done⟩ := bind_ok.mp done
    exact ⟨some value, by simpa using ⟨a, found⟩, done⟩

/-- What is read with so much fuel is legible. -/
structure LegibleBelow (input : Input) (fuel : Nat) : Prop where
  expr : ∀ node e, readExpr input fuel node = .ok e → Legible e.nodes
  exprFields : ∀ node e, readExprFields input fuel node = .ok e → Legible e.nodes
  exprs : ∀ node list, readExprs input fuel node = .ok list → Legible (Expr.nodesAll list)
  inits : ∀ node list, readInits input fuel node = .ok list → Legible (FieldInit.nodesAll list)
  arm : ∀ node arm, readArm input fuel node = .ok arm → Legible (MatchArm.nodesAll [arm])
  template : ∀ node list, readTemplate input fuel node = .ok list → Legible (TemplatePart.nodesAll list)
  block : ∀ stmts tail place b, readBlock input fuel stmts tail place = .ok b → Legible b.nodes
  stmt : ∀ node s, readStmt input fuel node = .ok s → Legible s.nodes
  loop : ∀ fields s, readFor input fuel fields = .ok s → Legible s.nodes
  bind : ∀ fields s, readLet input fuel fields = .ok s → Legible s.nodes
  pattern : ∀ node p, readPattern input fuel node = .ok p → Legible p.nodes
  patternFields : ∀ node p, readPatternFields input fuel node = .ok p → Legible p.nodes
  patterns : ∀ node list, readPatterns input fuel node = .ok list → Legible (Pattern.nodesAll list)
  fieldPatterns : ∀ node list, readFieldPatterns input fuel node = .ok list → Legible (FieldPattern.nodesAll list)

namespace LegibleBelow

variable {fuel : Nat} (below : LegibleBelow input fuel)

include below

theorem readExpr {node : Option Document.Node} {e : Expr} (done : Syntax.readExpr input (fuel + 1) node = .ok e) :
    Legible e.nodes := by
  cases node with
  | none => cases done
  | some node =>
    simp only [Syntax.readExpr] at done
    split at done
    · exact readScalarExpr_legible done
    · obtain ⟨body, read, done⟩ := bind_ok.mp done
      cases done
      exact below.block _ _ _ _ read
    · exact below.exprFields _ _ done

theorem readExprs {node : Option Document.Node} {list : List Expr}
    (done : Syntax.readExprs input (fuel + 1) node = .ok list) : Legible (Expr.nodesAll list) := by
  simp only [Syntax.readExprs, refuse] at done
  split at done
  · cases done
    simp
  · split at done
    · refine Legible.exprs.mpr fun e member => ?_
      obtain ⟨item, -, read⟩ := mem_of_mapM done member
      exact below.expr _ _ read
    · cases done

theorem readInits {node : Option Document.Node} {list : List FieldInit}
    (done : Syntax.readInits input (fuel + 1) node = .ok list) : Legible (FieldInit.nodesAll list) := by
  simp only [Syntax.readInits] at done
  split at done
  · cases done
    simp [FieldInit.nodesAll]
  · obtain ⟨fields, -, done⟩ := bind_ok.mp done
    refine Legible.inits.mpr fun init member => ?_
    obtain ⟨entry, -, read⟩ := mem_of_mapM done member
    obtain ⟨e, own, same⟩ := bind_ok.mp read
    cases same
    simpa [FieldInit.nodesAll] using below.expr _ _ own

/-- An expression that need not be there. -/
theorem option {e : Option Expr} {node : Document.Node → Option Document.Node}
    (found : ∀ value ∈ e, ∃ n, Syntax.readExpr input fuel (node n) = .ok value) : Legible (Expr.nodesOption e) := by
  refine Legible.option.mpr fun value member => ?_
  obtain ⟨n, read⟩ := found value member
  exact below.expr _ _ read

theorem readArm {node : Document.Node} {arm : MatchArm} (done : Syntax.readArm input (fuel + 1) node = .ok arm) :
    Legible (MatchArm.nodesAll [arm]) := by
  simp only [Syntax.readArm] at done
  obtain ⟨fields, -, done⟩ := bind_ok.mp done
  obtain ⟨pattern, matched, done⟩ := bind_ok.mp done
  obtain ⟨guard, tested, done⟩ := read_optional (present input (fields.get? "guard")) done
    (fun a own => by rw [own]) fun own => by rw [own]
  obtain ⟨body, readBody, done⟩ := bind_ok.mp done
  cases done
  rw [MatchArm.nodesAll, MatchArm.nodesAll, List.append_nil, Legible.append, Legible.append]
  exact ⟨⟨below.pattern _ _ matched, below.option tested⟩, below.expr _ _ readBody⟩

theorem readTemplate {node : Document.Node} {list : List TemplatePart}
    (done : Syntax.readTemplate input (fuel + 1) node = .ok list) : Legible (TemplatePart.nodesAll list) := by
  simp only [Syntax.readTemplate, refuse, pure_bind] at done
  split at done
  · refine Legible.parts.mpr fun part member => ?_
    obtain ⟨item, -, read⟩ := mem_of_mapM done member
    have value (read : (do return TemplatePart.value (← Syntax.readExpr input fuel (some item))) = .ok part) :
        Legible (TemplatePart.nodesAll [part]) := by
      obtain ⟨e, own, same⟩ := bind_ok.mp read
      cases same
      simpa [TemplatePart.nodesAll] using below.expr _ _ own
    split at read
    · obtain ⟨fields, -, read⟩ := bind_ok.mp read
      split at read
      · split at read <;> cases read
        simp [TemplatePart.nodesAll]
      · exact value read
    · exact value read
  · cases done

/-- The end of a block, behind its statements. -/
theorem readTail {tail : Option Document.Node} {span : Span} {list : List Stmt} {b : Block}
    (inside : Legible (Stmt.nodesAll list)) (done : (do
      let tail ← match present input tail with
        | some tail => do pure (some (← Syntax.readExpr input fuel (some tail)))
        | none => pure none
      return Block.mk { span } list tail) = .ok b) : Legible b.nodes := by
  obtain ⟨value, last, done⟩ := read_optional (present input tail) done
    (fun a own => by rw [own]) fun own => by rw [own]
  cases done
  rw [Block.nodes, Legible.cons, Legible.append]
  exact ⟨rfl, inside, below.option last⟩

theorem readBlock {stmts tail : Option Document.Node} {place : Document.Node} {b : Block}
    (done : Syntax.readBlock input (fuel + 1) stmts tail place = .ok b) : Legible b.nodes := by
  simp only [Syntax.readBlock, refuse] at done
  split at done
  · exact below.readTail (Legible.stmts.mpr (List.forall_mem_nil _)) done
  · split at done
    · obtain ⟨list, listed, done⟩ := bind_ok.mp done
      refine below.readTail (Legible.stmts.mpr fun s member => ?_) done
      obtain ⟨item, -, read⟩ := mem_of_mapM listed member
      exact below.stmt _ _ read
    · cases done

theorem readFor {fields : Fields} {s : Stmt} (done : Syntax.readFor input (fuel + 1) fields = .ok s) :
    Legible s.nodes := by
  simp only [Syntax.readFor] at done
  -- with and without a header the rest is read alike
  split at done
  all_goals
    obtain ⟨header, -, done⟩ := bind_ok.mp done
    obtain ⟨init, start, done⟩ := read_optional (present input (header.get? "init")) done
      (fun a own => by rw [own]) fun own => by rw [own]
    obtain ⟨condition, tested, done⟩ := read_optional (present input (header.get? "cond")) done
      (fun a own => by rw [own]) fun own => by rw [own]
    obtain ⟨update, updated, done⟩ := read_optional (present input (header.get? "update")) done
      (fun a own => by rw [own]) fun own => by rw [own]
    obtain ⟨body, readBody, done⟩ := bind_ok.mp done
    cases done
    simp only [Stmt.nodes, Legible.cons, Legible.append]
    refine ⟨rfl, ⟨⟨?_, below.option tested⟩, below.block _ _ _ _ readBody⟩, below.option updated⟩
    cases init with
    | none => exact .nil
    | some s =>
      obtain ⟨node, read⟩ := start s rfl
      exact below.stmt _ _ read

theorem readBound {fields : Fields} {p : Pattern} {s : Stmt} (bound : Legible p.nodes) (done : (do
      let type ← readType input (fields.get? "type")
      let init ← match present input (fields.get? "value") with
        | some value => do pure (some (← Syntax.readExpr input fuel (some value)))
        | none => pure none
      return Stmt.bind (spanOf input fields.node) p type init) = .ok s) : Legible s.nodes := by
  obtain ⟨type, -, done⟩ := bind_ok.mp done
  obtain ⟨init, found, done⟩ := read_optional (present input (fields.get? "value")) done
    (fun a own => by rw [own]) fun own => by rw [own]
  cases done
  rw [Stmt.nodes, Legible.cons, Legible.append]
  exact ⟨rfl, bound, below.option found⟩

theorem readLet {fields : Fields} {s : Stmt} (done : Syntax.readLet input (fuel + 1) fields = .ok s) :
    Legible s.nodes := by
  simp only [Syntax.readLet, refuse] at done
  obtain ⟨pattern, matched, done⟩ := bind_ok.mp done
  obtain ⟨mutable, -, done⟩ := bind_ok.mp done
  split at done
  · exact below.readBound (below.pattern _ _ matched) done
  · split at done
    · exact below.readBound (by simp [Pattern.nodes, TreeNode.legible]) done
    · cases done

theorem readStmt {node : Document.Node} {s : Stmt} (done : Syntax.readStmt input (fuel + 1) node = .ok s) :
    Legible s.nodes := by
  simp only [Syntax.readStmt] at done
  -- a mapping and what is read as if it had no entries are read alike
  split at done
  all_goals
    obtain ⟨fields, -, done⟩ := bind_ok.mp done
    split at done
    · exact below.bind _ _ done
    split at done
    · obtain ⟨value, found, done⟩ := read_optional (present input (fields.get? "return")) done
        (fun a own => by rw [own]) fun own => by rw [own]
      cases done
      exact Legible.cons.mpr ⟨rfl, below.option found⟩
    split at done
    · obtain ⟨condition, tested, done⟩ := bind_ok.mp done
      obtain ⟨body, readBody, done⟩ := bind_ok.mp done
      cases done
      rw [Stmt.nodes, Legible.cons, Legible.append]
      exact ⟨rfl, below.expr _ _ tested, below.block _ _ _ _ readBody⟩
    split at done
    · exact below.loop _ _ done
    · obtain ⟨value, found, done⟩ := bind_ok.mp done
      cases done
      exact Legible.cons.mpr ⟨rfl, below.expr _ _ found⟩

theorem readPattern {node : Option Document.Node} {p : Pattern}
    (done : Syntax.readPattern input (fuel + 1) node = .ok p) : Legible p.nodes := by
  cases node with
  | none => cases done
  | some node =>
    simp only [Syntax.readPattern, refuse] at done
    split at done
    · exact readScalarPattern_legible done
    · exact below.patternFields _ _ done
    · cases done

theorem readPatterns {node : Option Document.Node} {list : List Pattern}
    (done : Syntax.readPatterns input (fuel + 1) node = .ok list) : Legible (Pattern.nodesAll list) := by
  simp only [Syntax.readPatterns, refuse] at done
  split at done
  · cases done
    simp
  · split at done
    · refine Legible.patterns.mpr fun p member => ?_
      obtain ⟨item, -, read⟩ := mem_of_mapM done member
      exact below.pattern _ _ read
    · cases done

theorem readFieldPatterns {node : Option Document.Node} {list : List FieldPattern}
    (done : Syntax.readFieldPatterns input (fuel + 1) node = .ok list) : Legible (FieldPattern.nodesAll list) := by
  simp only [Syntax.readFieldPatterns] at done
  split at done
  · cases done
    simp [FieldPattern.nodesAll]
  · obtain ⟨fields, -, done⟩ := bind_ok.mp done
    refine Legible.fieldPatterns.mpr fun field member => ?_
    obtain ⟨entry, -, read⟩ := mem_of_mapM done member
    obtain ⟨p, own, same⟩ := bind_ok.mp read
    cases same
    simpa [FieldPattern.nodesAll] using below.pattern _ _ own

theorem readPatternFields {node : Document.Node} {p : Pattern}
    (done : Syntax.readPatternFields input (fuel + 1) node = .ok p) : Legible p.nodes := by
  simp only [Syntax.readPatternFields, refuse] at done
  obtain ⟨fields, -, done⟩ := bind_ok.mp done
  split at done
  · split at done <;> cases done
    simp [Pattern.nodes, TreeNode.legible]
  split at done
  · obtain ⟨elements, read, done⟩ := bind_ok.mp done
    cases done
    exact Legible.cons.mpr ⟨rfl, below.patterns _ _ read⟩
  split at done
  · obtain ⟨front, read, done⟩ := bind_ok.mp done
    have listed (info : NodeInfo) (isOpen : Bool) (b : Option Binding) :
        Legible (Pattern.list info front isOpen b).nodes := by
      rw [Pattern.nodes, Legible.cons, Legible.append]
      refine ⟨rfl, below.patterns _ _ read, ?_⟩
      cases b <;> simp [TreeNode.legible]
    split at done
    · cases done
      exact listed _ _ _
    · split at done
      · obtain ⟨flag, -, done⟩ := bind_ok.mp done
        cases done
        exact listed _ _ _
      · split at done
        · cases done
          exact listed _ _ _
        · obtain ⟨rest, -, done⟩ := bind_ok.mp done
          split at done <;> cases done
          exact listed _ _ _
  split at done
  · obtain ⟨name, -, done⟩ := bind_ok.mp done
    obtain ⟨parts, read, done⟩ := bind_ok.mp done
    obtain ⟨rest, -, done⟩ := bind_ok.mp done
    cases done
    exact Legible.cons.mpr ⟨rfl, below.fieldPatterns _ _ read⟩
  split at done
  · obtain ⟨path, -, done⟩ := bind_ok.mp done
    obtain ⟨args, readArgs, done⟩ := bind_ok.mp done
    obtain ⟨parts, readParts, done⟩ := bind_ok.mp done
    obtain ⟨rest, -, done⟩ := bind_ok.mp done
    cases done
    rw [Pattern.nodes, Legible.cons, Legible.append]
    exact ⟨rfl, below.patterns _ _ readArgs, below.fieldPatterns _ _ readParts⟩
  split at done
  · obtain ⟨choices, read, done⟩ := bind_ok.mp done
    split at done
    · cases done
    next enough =>
      cases done
      refine Legible.cons.mpr ⟨?_, below.patterns _ _ read⟩
      cases choices with
      | nil => simp at enough
      | cons => rfl
  split at done
  · split at done
    · split at done
      all_goals
        obtain ⟨inclusive, -, done⟩ := bind_ok.mp done
        cases done
        simp [Pattern.nodes, TreeNode.legible]
    · cases done
  split at done
  · obtain ⟨inner, readInner, done⟩ := bind_ok.mp done
    obtain ⟨condition, readCondition, done⟩ := bind_ok.mp done
    cases done
    rw [Pattern.nodes, Legible.cons, Legible.append]
    exact ⟨rfl, below.pattern _ _ readInner, below.expr _ _ readCondition⟩
  · cases done

theorem readExprFields {node : Document.Node} {e : Expr}
    (done : Syntax.readExprFields input (fuel + 1) node = .ok e) : Legible e.nodes := by
  rw [Syntax.readExprFields] at done
  obtain ⟨fields, -, done⟩ := bind_ok.mp done
  split at done
  · split at done <;> cases done
    simp [Expr.nodes, TreeNode.legible]
  split at done
  · obtain ⟨parts, read, done⟩ := bind_ok.mp done
    cases done
    exact Legible.cons.mpr ⟨rfl, below.template _ _ read⟩
  rcases read_either done with done | done
  · obtain ⟨callee, called, done⟩ := bind_ok.mp done
    obtain ⟨args, passed, done⟩ := bind_ok.mp done
    cases done
    rw [Expr.nodes, Legible.cons, Legible.append]
    exact ⟨rfl, below.expr _ _ called, below.exprs _ _ passed⟩
  rcases read_either done with done | done
  · obtain ⟨method, -, done⟩ := bind_ok.mp done
    obtain ⟨receiver, lent, done⟩ := bind_ok.mp done
    obtain ⟨args, passed, done⟩ := bind_ok.mp done
    cases done
    rw [Expr.nodes, Legible.cons, Legible.append]
    exact ⟨rfl, below.expr _ _ lent, below.exprs _ _ passed⟩
  rcases read_either done with done | done
  · obtain ⟨op, -, done⟩ := bind_ok.mp done
    obtain ⟨args, passed, done⟩ := bind_ok.mp done
    have each := Legible.exprs.mp (below.exprs _ _ passed)
    split at done
    · split at done <;> cases done
      exact Legible.cons.mpr ⟨rfl, each _ (by simp)⟩
    · split at done <;> cases done
      rw [Expr.nodes, Legible.cons, Legible.append]
      exact ⟨rfl, each _ (by simp), each _ (by simp)⟩
    · cases done
  rcases read_either done with done | done
  · obtain ⟨operand, read, done⟩ := bind_ok.mp done
    cases done
    exact Legible.cons.mpr ⟨rfl, below.expr _ _ read⟩
  rcases read_either done with done | done
  · obtain ⟨operand, read, done⟩ := bind_ok.mp done
    cases done
    exact Legible.cons.mpr ⟨rfl, below.expr _ _ read⟩
  rcases read_either done with done | done
  · obtain ⟨operand, read, done⟩ := bind_ok.mp done
    cases done
    exact Legible.cons.mpr ⟨rfl, below.expr _ _ read⟩
  rcases read_either done with done | done
  · obtain ⟨name, -, done⟩ := bind_ok.mp done
    obtain ⟨object, read, done⟩ := bind_ok.mp done
    cases done
    exact Legible.cons.mpr ⟨rfl, below.expr _ _ read⟩
  rcases read_either done with done | done
  · obtain ⟨index, found, done⟩ := bind_ok.mp done
    obtain ⟨object, read, done⟩ := bind_ok.mp done
    cases done
    rw [Expr.nodes, Legible.cons, Legible.append]
    exact ⟨rfl, below.expr _ _ read, below.expr _ _ found⟩
  rcases read_either done with done | done
  · obtain ⟨name, -, done⟩ := bind_ok.mp done
    obtain ⟨inits, read, done⟩ := bind_ok.mp done
    cases done
    exact Legible.cons.mpr ⟨rfl, below.inits _ _ read⟩
  rcases read_either done with done | done
  · obtain ⟨path, -, done⟩ := bind_ok.mp done
    obtain ⟨args, passed, done⟩ := bind_ok.mp done
    obtain ⟨inits, read, done⟩ := bind_ok.mp done
    cases done
    rw [Expr.nodes, Legible.cons, Legible.append]
    exact ⟨rfl, below.exprs _ _ passed, below.inits _ _ read⟩
  rcases read_either done with done | done
  · obtain ⟨inits, read, done⟩ := bind_ok.mp done
    cases done
    exact Legible.cons.mpr ⟨rfl, below.inits _ _ read⟩
  rcases read_either done with done | done
  · obtain ⟨elements, read, done⟩ := bind_ok.mp done
    cases done
    exact Legible.cons.mpr ⟨rfl, below.exprs _ _ read⟩
  rcases read_either done with done | done
  · obtain ⟨elements, read, done⟩ := bind_ok.mp done
    cases done
    exact Legible.cons.mpr ⟨rfl, below.exprs _ _ read⟩
  rcases read_either done with done | done
  · obtain ⟨operand, read, done⟩ := bind_ok.mp done
    obtain ⟨target, -, done⟩ := bind_ok.mp done
    split at done <;> cases done
    exact Legible.cons.mpr ⟨rfl, below.expr _ _ read⟩
  rcases read_either done with done | done
  · obtain ⟨target, stored, done⟩ := bind_ok.mp done
    obtain ⟨value, read, done⟩ := bind_ok.mp done
    cases done
    rw [Expr.nodes, Legible.cons, Legible.append]
    exact ⟨rfl, below.expr _ _ stored, below.expr _ _ read⟩
  rcases read_either done with done | done
  · obtain ⟨scrutinee, matched, done⟩ := bind_ok.mp done
    split at done
    · obtain ⟨arms, listed, done⟩ := bind_ok.mp done
      cases done
      rw [Expr.nodes, Legible.cons, Legible.append]
      refine ⟨rfl, below.expr _ _ matched, Legible.arms.mpr fun arm member => ?_⟩
      obtain ⟨item, -, read⟩ := mem_of_mapM listed member
      exact below.arm _ _ read
    · cases done
  rcases read_either done with done | done
  · obtain ⟨condition, tested, done⟩ := bind_ok.mp done
    obtain ⟨consequent, taken, done⟩ := bind_ok.mp done
    obtain ⟨alternative, other, done⟩ := read_optional (present input (fields.get? "else")) done
      (fun a own => by rw [own]) fun own => by rw [own]
    cases done
    rw [Expr.nodes, Legible.cons, Legible.append, Legible.append]
    exact ⟨rfl, ⟨below.expr _ _ tested, below.expr _ _ taken⟩, below.option other⟩
  rcases read_either done with done | done
  · obtain ⟨body, read, done⟩ := bind_ok.mp done
    cases done
    exact below.block _ _ _ _ read
  · cases done

end LegibleBelow

theorem reads_legible (input : Input) (fuel : Nat) : LegibleBelow input fuel := by
  induction fuel with
  | zero => constructor <;> intros <;> contradiction
  | succ fuel below =>
    exact {
      expr := fun _ _ => below.readExpr
      exprFields := fun _ _ => below.readExprFields
      exprs := fun _ _ => below.readExprs
      inits := fun _ _ => below.readInits
      arm := fun _ _ => below.readArm
      template := fun _ _ => below.readTemplate
      block := fun _ _ _ _ => below.readBlock
      stmt := fun _ _ => below.readStmt
      loop := fun _ _ => below.readFor
      bind := fun _ _ => below.readLet
      pattern := fun _ _ => below.readPattern
      patternFields := fun _ _ => below.readPatternFields
      patterns := fun _ _ => below.readPatterns
      fieldPatterns := fun _ _ => below.readFieldPatterns }

/-- The body of a function is read as a block, whatever else is read of it. -/
theorem readFuncDecl_body {fuel : Nat} {fields : Fields} {f : FuncDecl}
    (done : readFuncDecl input fuel fields = .ok f) :
    ∃ stmts tail place, readBlock input fuel stmts tail place = .ok f.body := by
  simp only [readFuncDecl, refuse] at done
  repeat' first
    | split at done
    | obtain ⟨_, _, done⟩ := bind_ok.mp done
  all_goals
    cases done
    exact ⟨_, _, _, by assumption⟩

theorem readItem_legible {fuel : Nat} {node : Document.Node} {f : FuncDecl}
    (done : readItem input fuel node = .ok (.function f)) : Legible f.body.nodes := by
  obtain ⟨fields, -, done⟩ := bind_ok.mp done
  split at done
  · obtain ⟨d, -, done⟩ := bind_ok.mp done
    cases done
  split at done
  · obtain ⟨d, -, done⟩ := bind_ok.mp done
    cases done
  split at done
  · obtain ⟨f, read, done⟩ := bind_ok.mp done
    cases done
    obtain ⟨stmts, tail, place, body⟩ := readFuncDecl_body read
    exact (reads_legible input fuel).block _ _ _ _ body
  · cases done

theorem readProgram_legible {p : Program} (done : readProgram input = .ok p) :
    ∀ f, .function f ∈ p.items → Legible f.body.nodes := by
  intro f member
  obtain ⟨fuel, node, read⟩ := (readProgram_items done).2 _ member
  exact readItem_legible read

end Syntax

/-! ### Numbering -/

def Renumbered (nodes more : List TreeNode) : Prop := nodes.map TreeNode.legible = more.map TreeNode.legible

namespace Renumbered

variable {nodes nodes' more more' : List TreeNode}

theorem nil : Renumbered [] [] := rfl

theorem append (first : Renumbered nodes nodes') (rest : Renumbered more more') :
    Renumbered (nodes ++ more) (nodes' ++ more') := by
  unfold Renumbered at *
  rw [List.map_append, List.map_append, first, rest]

theorem cons {node node' : TreeNode} (same : node.legible = node'.legible) (rest : Renumbered nodes nodes') :
    Renumbered (node :: nodes) (node' :: nodes') := congrArg₂ List.cons same rest

end Renumbered

mutual

theorem Expr.number_renumbered : ∀ (e : Expr) (n : Nat), Renumbered (e.number n).1.nodes e.nodes
  | .int .., _ | .float .., _ | .string .., _ | .bool .., _ | .ident .., _ => .cons rfl .nil
  | .template _ parts, n => .cons rfl (TemplatePart.numberAll_renumbered parts (n + 1))
  | .binary _ _ left right, n =>
    .cons rfl ((left.number_renumbered (n + 1)).append (right.number_renumbered _))
  | .unary _ _ operand, n | .ref _ _ operand, n | .deref _ operand, n | .cast _ operand _, n
  | .field _ operand _, n => .cons rfl (operand.number_renumbered (n + 1))
  | .call _ callee args, n =>
    .cons rfl ((callee.number_renumbered (n + 1)).append (Expr.numberAll_renumbered args _))
  | .methodCall _ receiver _ args, n =>
    .cons rfl ((receiver.number_renumbered (n + 1)).append (Expr.numberAll_renumbered args _))
  | .index _ object index, n =>
    .cons rfl ((object.number_renumbered (n + 1)).append (index.number_renumbered _))
  | .struct _ _ fields, n => .cons rfl (FieldInit.numberAll_renumbered fields (n + 1))
  | .variant _ _ _ args fields, n =>
    .cons rfl ((Expr.numberAll_renumbered args (n + 1)).append (FieldInit.numberAll_renumbered fields _))
  | .tuple _ elements, n | .array _ elements, n => .cons rfl (Expr.numberAll_renumbered elements (n + 1))
  | .assign _ target value, n =>
    .cons rfl ((target.number_renumbered (n + 1)).append (value.number_renumbered _))
  | .select _ scrutinee arms, n =>
    .cons rfl ((scrutinee.number_renumbered (n + 1)).append (MatchArm.numberAll_renumbered arms _))
  | .branch _ condition consequent alternative, n =>
    .cons rfl (((condition.number_renumbered (n + 1)).append (consequent.number_renumbered _)).append
      (Expr.numberOption_renumbered alternative _))
  | .block body, n => body.number_renumbered n

theorem Expr.numberAll_renumbered : ∀ (list : List Expr) (n : Nat),
    Renumbered (Expr.nodesAll (Expr.numberAll list n).1) (Expr.nodesAll list)
  | [], _ => .nil
  | e :: rest, n => (e.number_renumbered n).append (Expr.numberAll_renumbered rest _)

theorem Expr.numberOption_renumbered : ∀ (e : Option Expr) (n : Nat),
    Renumbered (Expr.nodesOption (Expr.numberOption e n).1) (Expr.nodesOption e)
  | none, _ => .nil
  | some e, n => e.number_renumbered n

theorem Block.number_renumbered : ∀ (b : Block) (n : Nat), Renumbered (b.number n).1.nodes b.nodes
  | .mk _ stmts tail, n =>
    .cons rfl ((Stmt.numberAll_renumbered stmts (n + 1)).append (Expr.numberOption_renumbered tail _))

theorem TemplatePart.numberAll_renumbered : ∀ (parts : List TemplatePart) (n : Nat),
    Renumbered (TemplatePart.nodesAll (TemplatePart.numberAll parts n).1) (TemplatePart.nodesAll parts)
  | [], _ => .nil
  | .text _ :: rest, n => TemplatePart.numberAll_renumbered rest n
  | .value e :: rest, n => (e.number_renumbered n).append (TemplatePart.numberAll_renumbered rest _)

theorem FieldInit.numberAll_renumbered : ∀ (fields : List FieldInit) (n : Nat),
    Renumbered (FieldInit.nodesAll (FieldInit.numberAll fields n).1) (FieldInit.nodesAll fields)
  | [], _ => .nil
  | .mk _ _ value :: rest, n => (value.number_renumbered n).append (FieldInit.numberAll_renumbered rest _)

theorem MatchArm.numberAll_renumbered : ∀ (arms : List MatchArm) (n : Nat),
    Renumbered (MatchArm.nodesAll (MatchArm.numberAll arms n).1) (MatchArm.nodesAll arms)
  | [], _ => .nil
  | .mk _ pattern guard body :: rest, n =>
    (((pattern.number_renumbered n).append (Expr.numberOption_renumbered guard _)).append
      (body.number_renumbered _)).append (MatchArm.numberAll_renumbered rest _)

theorem Stmt.number_renumbered : ∀ (s : Stmt) (n : Nat), Renumbered (s.number n).1.nodes s.nodes
  | .bind _ pattern _ init, n =>
    .cons rfl ((pattern.number_renumbered n).append (Expr.numberOption_renumbered init _))
  | .expr _ value, n => .cons rfl (value.number_renumbered n)
  | .ret _ value, n => .cons rfl (Expr.numberOption_renumbered value n)
  | .loop _ condition body, n => .cons rfl ((condition.number_renumbered n).append (body.number_renumbered _))
  | .counted _ init condition update body, n =>
    .cons rfl ((((Stmt.numberOption_renumbered init n).append (Expr.numberOption_renumbered condition _)).append
      (body.number_renumbered _)).append (Expr.numberOption_renumbered update _))

theorem Stmt.numberAll_renumbered : ∀ (stmts : List Stmt) (n : Nat),
    Renumbered (Stmt.nodesAll (Stmt.numberAll stmts n).1) (Stmt.nodesAll stmts)
  | [], _ => .nil
  | s :: rest, n => (s.number_renumbered n).append (Stmt.numberAll_renumbered rest _)

theorem Stmt.numberOption_renumbered : ∀ (s : Option Stmt) (n : Nat),
    Renumbered (Stmt.nodesOption (Stmt.numberOption s n).1) (Stmt.nodesOption s)
  | none, _ => .nil
  | some s, n => s.number_renumbered n

theorem Pattern.number_renumbered : ∀ (p : Pattern) (n : Nat), Renumbered (p.number n).1.nodes p.nodes
  | .wildcard _, _ | .binding _, _ | .literal .., _ | .range .., _ => .cons rfl .nil
  | .tuple _ elements, n => .cons rfl (Pattern.numberAll_renumbered elements (n + 1))
  | .alternatives _ choices, n => by
    refine .cons ?_ (Pattern.numberAll_renumbered choices (n + 1))
    cases choices <;> rfl
  | .list _ front _ none, n => .cons rfl ((Pattern.numberAll_renumbered front (n + 1)).append .nil)
  | .list _ front _ (some _), n =>
    .cons rfl ((Pattern.numberAll_renumbered front (n + 1)).append (.cons rfl .nil))
  | .record _ _ fields _, n => .cons rfl (FieldPattern.numberAll_renumbered fields (n + 1))
  | .variant _ _ _ args fields _, n =>
    .cons rfl ((Pattern.numberAll_renumbered args (n + 1)).append (FieldPattern.numberAll_renumbered fields _))
  | .guarded _ inner condition, n =>
    .cons rfl ((inner.number_renumbered (n + 1)).append (condition.number_renumbered _))

theorem Pattern.numberAll_renumbered : ∀ (patterns : List Pattern) (n : Nat),
    Renumbered (Pattern.nodesAll (Pattern.numberAll patterns n).1) (Pattern.nodesAll patterns)
  | [], _ => .nil
  | p :: rest, n => (p.number_renumbered n).append (Pattern.numberAll_renumbered rest _)

theorem FieldPattern.numberAll_renumbered : ∀ (fields : List FieldPattern) (n : Nat),
    Renumbered (FieldPattern.nodesAll (FieldPattern.numberAll fields n).1) (FieldPattern.nodesAll fields)
  | [], _ => .nil
  | .mk _ pattern :: rest, n => (pattern.number_renumbered n).append (FieldPattern.numberAll_renumbered rest _)

end

/-- Whether nodes are legible does not depend on their numbers. -/
theorem Renumbered.legible {nodes more : List TreeNode} (same : Renumbered nodes more) (before : Legible more) :
    Legible nodes := by
  have each : ∀ b ∈ nodes.map TreeNode.legible, b = true := by
    rw [same]
    exact List.forall_mem_map.mpr before
  exact List.forall_mem_map.mp each

theorem Item.numberAll_legible {items : List Item} (each : ∀ f, .function f ∈ items → Legible f.body.nodes)
    (count : Nat) : ∀ f, .function f ∈ (Item.numberAll items count).1 → Legible f.body.nodes := by
  induction items generalizing count with
  | nil => exact fun _ => nofun
  | cons first rest ih =>
    have others := ih fun f member => each f (List.mem_cons_of_mem _ member)
    intro f member
    cases first with
    | function decl =>
      rcases List.mem_cons.mp member with same | later
      · cases same
        exact (decl.body.number_renumbered count).legible (each decl List.mem_cons_self)
      · exact others _ f later
    | struct d | enum d =>
      rcases List.mem_cons.mp member with same | later
      · cases same
      · exact others count f later

theorem Program.Decoded.legible {p : Program} (decoded : p.Decoded) {f : FuncDecl} (member : f ∈ p.functions) :
    Legible f.body.nodes := by
  obtain ⟨input, read, program, rfl⟩ := decoded
  obtain ⟨item, inside, own⟩ := List.mem_filterMap.mp member
  cases item <;> cases own
  exact Item.numberAll_legible (Syntax.readProgram_legible program) 0 f inside

/-! ### What holds everywhere in a pattern -/

namespace Pattern

mutual

/-- Whether a property holds of a pattern and of all patterns inside it. -/
def every (good : Pattern → Bool) (p : Pattern) : Bool := good p && match p with
  | .tuple _ elements | .list _ elements _ _ | .alternatives _ elements => everyEach good elements
  | .record _ _ fields _ => everyField good fields
  | .variant _ _ _ args fields _ => everyEach good args && everyField good fields
  | .guarded _ inner _ => every good inner
  | .wildcard _ | .binding _ | .literal .. | .range .. => true

def everyEach (good : Pattern → Bool) : List Pattern → Bool
  | [] => true
  | p :: rest => every good p && everyEach good rest

def everyField (good : Pattern → Bool) : List FieldPattern → Bool
  | [] => true
  | .mk _ p :: rest => every good p && everyField good rest

end

def offers : Pattern → Bool
  | .alternatives _ choices => !choices.isEmpty
  | _ => true

def wordless : Pattern → Bool
  | .literal _ (.string _) => false
  | _ => true

end Pattern

/-! ### Patterns that are read -/

mutual

theorem Pattern.every_offers : ∀ {p : Pattern}, Legible p.nodes → p.every Pattern.offers = true
  | .wildcard _, _ | .binding _, _ | .literal .., _ | .range .., _ => rfl
  | .tuple _ elements, legible => Pattern.everyEach_offers (Legible.cons.mp legible).2
  | .list _ front _ _, legible => by
    simp only [Pattern.nodes, Legible.cons, Legible.append] at legible
    exact Pattern.everyEach_offers legible.2.1
  | .alternatives _ choices, legible => by
    obtain ⟨some, inside⟩ := Legible.cons.mp legible
    exact Bool.and_eq_true_iff.mpr ⟨some, Pattern.everyEach_offers inside⟩
  | .record _ _ fields _, legible => Pattern.everyField_offers (Legible.cons.mp legible).2
  | .variant _ _ _ args fields _, legible => by
    simp only [Pattern.nodes, Legible.cons, Legible.append] at legible
    refine Bool.and_eq_true_iff.mpr ⟨rfl, Bool.and_eq_true_iff.mpr ⟨?_, ?_⟩⟩
    · exact Pattern.everyEach_offers legible.2.1
    · exact Pattern.everyField_offers legible.2.2
  | .guarded _ inner _, legible => by
    simp only [Pattern.nodes, Legible.cons, Legible.append] at legible
    exact Bool.and_eq_true_iff.mpr ⟨rfl, Pattern.every_offers legible.2.1⟩

theorem Pattern.everyEach_offers : ∀ {ps : List Pattern}, Legible (Pattern.nodesAll ps) →
    Pattern.everyEach Pattern.offers ps = true
  | [], _ => rfl
  | p :: rest, legible => by
    obtain ⟨first, others⟩ := Legible.append.mp legible
    exact Bool.and_eq_true_iff.mpr ⟨Pattern.every_offers first, Pattern.everyEach_offers others⟩

theorem Pattern.everyField_offers : ∀ {fields : List FieldPattern}, Legible (FieldPattern.nodesAll fields) →
    Pattern.everyField Pattern.offers fields = true
  | [], _ => rfl
  | .mk _ p :: rest, legible => by
    obtain ⟨first, others⟩ := Legible.append.mp legible
    exact Bool.and_eq_true_iff.mpr ⟨Pattern.every_offers first, Pattern.everyField_offers others⟩

end

end TreeCheck
