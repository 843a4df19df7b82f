import TreeCheck.Proofs.Syntax.Numbering
import TreeCheck.Proofs.Typing.Notes
import TreeCheck.Typing.Infer

/-!
What the steps of inference leave behind: about which nodes they note facts, and which names they declare. Nothing is
noted twice about a node, so what is found about it at the end is what its own check has noted.
-/

namespace TreeCheck

def TreeNode.ids (nodes : List TreeNode) : List Nat := nodes.filterMap TreeNode.id?

namespace TreeNode

variable {nodes more : List TreeNode}

@[simp] theorem ids_nil : ids [] = [] := rfl

@[simp] theorem ids_append : ids (nodes ++ more) = ids nodes ++ ids more := List.filterMap_append

@[simp] theorem ids_expr {e : Expr} : ids (.expr e :: nodes) = e.id :: ids nodes := rfl

@[simp] theorem ids_pattern {p : Pattern} : ids (.pattern p :: nodes) = p.id :: ids nodes := rfl

@[simp] theorem ids_stmt {s : Stmt} : ids (.stmt s :: nodes) = ids nodes := rfl

end TreeNode

namespace Typing

/-- A name in the innermost scope. -/
def declareIn (entry : String × Ty) : List (List (String × Ty)) → List (List (String × Ty))
  | [] => [[entry]]
  | scope :: outer => (entry :: scope) :: outer

/-- Names in the innermost scope, the latest first. -/
def declareAll (declared : List (String × Ty)) (scopes : List (List (String × Ty))) : List (List (String × Ty)) :=
  declared.foldr declareIn scopes

theorem declareAll_append (late early : List (String × Ty)) (scopes : List (List (String × Ty))) :
    declareAll (late ++ early) scopes = declareAll late (declareAll early scopes) := List.foldr_append

@[simp] theorem declareAll_cons (declared scope : List (String × Ty)) (outer : List (List (String × Ty))) :
    declareAll declared (scope :: outer) = (declared ++ scope) :: outer := by
  induction declared with
  | nil => rfl
  | cons entry rest ih =>
    show declareIn entry (declareAll rest (scope :: outer)) = _
    rw [ih]
    rfl

/-- The nodes about which facts are noted, and the bindings whose names are declared. -/
structure Footprint where
  types : List Nat := []
  /-- Calls of methods, and variants. -/
  forms : List Nat := []
  coercions : List Nat := []
  bindings : List Binding := []

namespace Footprint

instance : Append Footprint where
  append first later :=
    { types := first.types ++ later.types
      forms := first.forms ++ later.forms
      coercions := first.coercions ++ later.coercions
      bindings := first.bindings ++ later.bindings }

variable {f g h : Footprint}

@[simp] theorem types_append : (f ++ g).types = f.types ++ g.types := rfl

@[simp] theorem forms_append : (f ++ g).forms = f.forms ++ g.forms := rfl

@[simp] theorem coercions_append : (f ++ g).coercions = f.coercions ++ g.coercions := rfl

@[simp] theorem bindings_append : (f ++ g).bindings = f.bindings ++ g.bindings := rfl

/-- One footprint has room in another: no node has more in it. -/
structure Fits (f g : Footprint) : Prop where
  types : ∀ id, f.types.count id ≤ g.types.count id
  forms : ∀ id, f.forms.count id ≤ g.forms.count id
  coercions : ∀ id, f.coercions.count id ≤ g.coercions.count id
  bindings : ∀ b, b ∈ f.bindings ↔ b ∈ g.bindings

def typed (ids : List Nat) : Footprint := { types := ids }

/-- The method or the variant that a node means. -/
def formed (id : Nat) : Footprint := { forms := [id] }

/-- How the value of a node is converted. -/
def coerced (id : Nat) : Footprint := { coercions := [id] }

/-- Everything about some nodes, and the names that they declare. -/
def declaring (nodes : List TreeNode) (bindings : List Binding) : Footprint :=
  { types := TreeNode.ids nodes, forms := TreeNode.ids nodes, coercions := TreeNode.ids nodes, bindings }

/-- Everything about some nodes, which declare nothing for those behind them. -/
def whole (nodes : List TreeNode) : Footprint := declaring nodes []

theorem declaring_append (nodes more : List TreeNode) (bindings others : List Binding) :
    declaring (nodes ++ more) (bindings ++ others) = declaring nodes bindings ++ declaring more others := by
  unfold declaring
  rw [TreeNode.ids_append]
  rfl

theorem whole_append (nodes more : List TreeNode) : whole (nodes ++ more) = whole nodes ++ whole more :=
  declaring_append nodes more [] []

theorem append_empty : f ++ {} = f := by
  show Footprint.mk _ _ _ _ = f
  simp only [List.append_nil]

theorem append_assoc (f g h : Footprint) : f ++ g ++ h = f ++ (g ++ h) := by
  show Footprint.mk _ _ _ _ = Footprint.mk _ _ _ _
  simp only [Footprint.mk.injEq]
  exact ⟨List.append_assoc .., List.append_assoc .., List.append_assoc .., List.append_assoc ..⟩

/-- Everything about an expression and the nodes below it, apart from how its own value is converted. -/
def ofExpr (e : Expr) : Footprint := { whole e.nodes with coercions := (TreeNode.ids e.nodes).tail }

/-- Everything inside a block, apart from how its last value is converted. -/
def inside (b : Block) : Footprint :=
  { whole (Stmt.nodesAll b.stmts ++ Expr.nodesOption b.tail) with
    coercions := TreeNode.ids (Stmt.nodesAll b.stmts) ++ (TreeNode.ids (Expr.nodesOption b.tail)).tail }

/-- A block, which leaves it to others how its value and its last value are converted. -/
def ofBlock (b : Block) : Footprint := inside b ++ typed [b.id]

def ofPattern (p : Pattern) : Footprint := declaring p.nodes p.bindings

def ofPatterns (ps : List Pattern) : Footprint := declaring (Pattern.nodesAll ps) (Pattern.bindingsAll ps)

def ofFields (fields : List FieldPattern) : Footprint :=
  declaring (FieldPattern.nodesAll fields) (Pattern.bindingsFields fields)

/-- What a statement declares for those behind it. -/
def boundBy : Stmt → List Binding
  | .bind _ pattern _ _ => pattern.bindings
  | _ => []

def ofStmt (stmt : Stmt) : Footprint := declaring stmt.nodes (boundBy stmt)

def ofStmts (stmts : List Stmt) : Footprint := declaring (Stmt.nodesAll stmts) (stmts.flatMap boundBy)

theorem ofPatterns_cons (p : Pattern) (rest : List Pattern) : ofPatterns (p :: rest) = ofPattern p ++ ofPatterns rest :=
  declaring_append ..

theorem ofFields_cons (name : String) (p : Pattern) (rest : List FieldPattern) :
    ofFields (.mk name p :: rest) = ofPattern p ++ ofFields rest := declaring_append ..

theorem ofStmts_cons (s : Stmt) (rest : List Stmt) : ofStmts (s :: rest) = ofStmt s ++ ofStmts rest :=
  declaring_append ..

/-- Notes and names that have room in a footprint. Each name is declared with the type that its binding has. -/
structure Bounds (f : Footprint) (noted : Annotations) (declared : List (String × Ty)) : Prop where
  types : ∀ id, noted.types.keys.count id ≤ f.types.count id
  methods : ∀ id, noted.methods.keys.count id ≤ f.forms.count id
  variants : ∀ id, noted.variants.keys.count id ≤ f.forms.count id
  coercions : ∀ id, noted.coercions.keys.count id ≤ f.coercions.count id
  declares : ∀ b ∈ f.bindings, ∃ t, (b.name, t) ∈ declared ∧ (b.info.id, t) ∈ noted.types
  declared : ∀ entry ∈ declared, ∃ b ∈ f.bindings, b.name = entry.1 ∧ (b.info.id, entry.2) ∈ noted.types

theorem Bounds.mono {noted : Annotations} {declared : List (String × Ty)} (bounds : f.Bounds noted declared)
    (fits : f.Fits g) : g.Bounds noted declared where
  types id := (bounds.types id).trans (fits.types id)
  methods id := (bounds.methods id).trans (fits.forms id)
  variants id := (bounds.variants id).trans (fits.forms id)
  coercions id := (bounds.coercions id).trans (fits.coercions id)
  declares b member := bounds.declares b ((fits.bindings b).mpr member)
  declared entry member := by
    obtain ⟨b, inside, same, noted⟩ := bounds.declared entry member
    exact ⟨b, (fits.bindings b).mp inside, same, noted⟩

theorem Bounds.nothing : Bounds {} {} [] := by
  constructor <;> simp

theorem Bounds.append {early late : Annotations} {first later : List (String × Ty)} (start : f.Bounds early first)
    (rest : g.Bounds late later) : (f ++ g).Bounds (late.atop early) (later ++ first) where
  types id := by
    have := start.types id
    have := rest.types id
    simp only [Annotations.atop, NodeTable.keys_append, List.count_append, types_append]
    omega
  methods id := by
    have := start.methods id
    have := rest.methods id
    simp only [Annotations.atop, NodeTable.keys_append, List.count_append, forms_append]
    omega
  variants id := by
    have := start.variants id
    have := rest.variants id
    simp only [Annotations.atop, NodeTable.keys_append, List.count_append, forms_append]
    omega
  coercions id := by
    have := start.coercions id
    have := rest.coercions id
    simp only [Annotations.atop, NodeTable.keys_append, List.count_append, coercions_append]
    omega
  declares b member := by
    rcases List.mem_append.mp member with inFirst | inLater
    · obtain ⟨t, named, noted⟩ := start.declares b inFirst
      exact ⟨t, List.mem_append_right _ named, List.mem_append_right _ noted⟩
    · obtain ⟨t, named, noted⟩ := rest.declares b inLater
      exact ⟨t, List.mem_append_left _ named, List.mem_append_left _ noted⟩
  declared entry member := by
    rcases List.mem_append.mp member with inLater | inFirst
    · obtain ⟨b, bound, same, noted⟩ := rest.declared entry inLater
      exact ⟨b, List.mem_append_right _ bound, same, List.mem_append_left _ noted⟩
    · obtain ⟨b, bound, same, noted⟩ := start.declared entry inFirst
      exact ⟨b, List.mem_append_left _ bound, same, List.mem_append_right _ noted⟩

end Footprint

/-- What a check notes and declares, whatever it starts from. -/
def Leaves {α : Type} (f : Footprint) (check : Check α) : Prop :=
  ∀ s a s', check s = .ok (a, s') → ∃ noted declared,
    s'.notes = Annotations.atop noted s.notes ∧ s'.scopes = declareAll declared s.scopes ∧ f.Bounds noted declared

namespace Leaves

variable {α β : Type} {f g h : Footprint} {check : Check α}

theorem mono (leaves : Leaves f check) (fits : f.Fits g) : Leaves g check := by
  intro s a s' ran
  obtain ⟨noted, declared, notes, scopes, bounds⟩ := leaves s a s' ran
  exact ⟨noted, declared, notes, scopes, bounds.mono fits⟩

theorem silent (same : ∀ s a s', check s = .ok (a, s') → s'.notes = s.notes ∧ s'.scopes = s.scopes) :
    Leaves {} check := by
  intro s a s' ran
  obtain ⟨notes, scopes⟩ := same s a s' ran
  exact ⟨{}, [], notes, scopes, .nothing⟩

theorem pure (a : α) : Leaves {} (pure a) := by
  refine silent fun s _ s' ran => ?_
  cases ran
  exact ⟨rfl, rfl⟩

theorem throw (failure : Failure) : Leaves f (throw failure : Check α) := fun _ _ _ ran => by cases ran

theorem modify {change : State → State} (notes : ∀ s, (change s).notes = s.notes)
    (scopes : ∀ s, (change s).scopes = s.scopes) : Leaves {} (modify change) := by
  refine silent fun s _ s' ran => ?_
  cases ran
  exact ⟨notes s, scopes s⟩

theorem note {change : Annotations → Annotations} (new : Annotations) (added : ∀ a, change a = new.atop a)
    (bounds : f.Bounds new []) : Leaves f (note change) := by
  intro s _ s' ran
  cases ran
  exact ⟨new, [], added s.notes, rfl, bounds⟩

theorem bind {first : Check α} {next : α → Check β} (start : Leaves f first) (rest : ∀ a, Leaves g (next a)) :
    Leaves (f ++ g) (first >>= next) := by
  intro s b s' ran
  obtain ⟨a, middle, begun, ran⟩ := ran_bind ran
  obtain ⟨early, names, notes, scopes, bounds⟩ := start s a middle begun
  obtain ⟨late, more, notes', scopes', bounds'⟩ := rest a middle b s' ran
  refine ⟨late.atop early, more ++ names, ?_, ?_, bounds.append bounds'⟩
  · rw [notes', notes, Annotations.atop_assoc]
  · rw [scopes', scopes, declareAll_append]

/-- A step that leaves nothing, and what follows it. -/
theorem after {first : Check α} {next : α → Check β} (start : Leaves {} first) (rest : ∀ a, Leaves f (next a)) :
    Leaves f (first >>= next) :=
  (start.bind rest).mono ⟨fun _ => Nat.le_refl _, fun _ => Nat.le_refl _, fun _ => Nat.le_refl _, fun _ => .rfl⟩

theorem before {first : Check α} {next : α → Check β} (start : Leaves f first) (rest : ∀ a, Leaves {} (next a)) :
    Leaves f (first >>= next) :=
  (start.bind rest).mono (by constructor <;> simp [List.append_nil])

theorem map {γ : Type} (leaves : Leaves f check) (change : α → γ) : Leaves f (change <$> check) := by
  rw [map_eq_pure_bind]
  exact leaves.before fun _ => .pure _

theorem ite {wanted : Prop} [Decidable wanted] {first other : Check α} (yes : Leaves f first) (no : Leaves f other) :
    Leaves f (if wanted then first else other) := by
  split
  · exact yes
  · exact no

/-- Nothing is left where nothing is declared either. -/
theorem spare (leaves : Leaves {} check) (none : f.bindings = []) : Leaves f check :=
  leaves.mono (by constructor <;> simp [none])

theorem engine {ε : Type} (operation : Engine → Engine × ε) (next : ε → Check α)
    (rest : ∀ answer, Leaves f (next answer)) : Leaves f (do
      let s ← get
      set { s with engine := (operation s.engine).1 }
      next (operation s.engine).2) := by
  intro s a s' ran
  exact rest (operation s.engine).2 { s with engine := (operation s.engine).1 } a s' ran

theorem look {next : State → Check α} (rest : ∀ s, Leaves f (next s)) : Leaves f (do next (← get)) :=
  fun s a s' ran => rest s s a s' ran

theorem forM {items : List β} {each : β → Check PUnit} (leaves : ∀ item, Leaves {} (each item)) :
    Leaves {} (items.forM each) := by
  induction items with
  | nil => exact .pure _
  | cons item items ih => exact (leaves item).after fun _ => ih

/-- Names that are declared in a scope are gone behind it. -/
theorem enclosed {next : α → List (String × Ty) → Check β} (inner : Leaves f check)
    (rest : ∀ a scope, Leaves g (next a scope)) : Leaves ({ f with bindings := [] } ++ g) (do
      push
      let a ← check
      let scope ← pop
      next a scope) := by
  intro s b s' ran
  change Except.bind (check { s with scopes := [] :: s.scopes }) (fun (a, s) =>
    next a (s.scopes.headD []) { s with scopes := s.scopes.tail }) = .ok (b, s') at ran
  cases begun : check { s with scopes := [] :: s.scopes } with
  | error failure =>
    rw [begun] at ran
    cases ran
  | ok out =>
    rw [begun] at ran
    obtain ⟨early, declared, notes, scopes, bounds⟩ := inner _ _ _ begun
    obtain ⟨late, more, notes', scopes', bounds'⟩ := rest _ _ _ _ _ ran
    rw [declareAll_cons] at scopes
    have closed : Footprint.Bounds { f with bindings := [] } early [] :=
      ⟨bounds.types, bounds.methods, bounds.variants, bounds.coercions, by simp, by simp⟩
    refine ⟨late.atop early, more, ?_, ?_, by simpa using closed.append bounds'⟩
    · rw [notes', Annotations.atop_assoc]
      exact congrArg late.atop notes
    · rw [scopes']
      simp only [scopes, List.tail_cons]

theorem inScope (leaves : Leaves f check) : Leaves { f with bindings := [] } (inScope check) :=
  (leaves.enclosed fun a _ => .pure a).mono (by constructor <;> simp)

end Leaves

end Typing

end TreeCheck
