import TreeCheck.Match.Check
import TreeCheck.Proofs.Match.Exhaustive
import TreeCheck.Proofs.Match.Search
import TreeCheck.Proofs.Symbol.Proper
import TreeCheck.Proofs.Typing.Notes

/-!
What a function without a report on its matches tells about them: each decision is filed, covers all values and
reaches all arms, and the types that its tree switches on are as closed as the type that is matched.
-/

namespace TreeCheck

/-- What stands inside a value of a proper type has a proper type. -/
theorem Decls.Proper.inside {decls : Decls} (proper : decls.Proper) {classes : List LiteralClass} {t part : Ty}
    (known : t.Proper classes) (member : part ∈ decls.inside t) : part.Proper classes := by
  cases t with
  | tuple | array | ref => exact known.child _ part (by simpa [Ty.children, Decls.inside] using member)
  | struct name args =>
    obtain ⟨f, declared, rfl⟩ := List.mem_map.mp member
    exact proper.fields (Ty.proper_struct.mp known).2 name f declared
  | enum name args =>
    simp only [Decls.inside, Decls.components] at member
    split at member
    next d found =>
      obtain ⟨v, declared, slot⟩ := List.mem_flatMap.mp member
      exact slots ((proper.enum found).2.2 v declared) (Ty.proper_enum.mp known).2 part slot
    · cases member
  | _ => cases member

namespace Ty

/-- A type without variables and without faults. -/
def Closed (t : Ty) : Prop := t.hasVars = false ∧ .invalid ∉ t.parts

/-- A proper type without variables is proper over no variables. -/
theorem Proper.shut {classes : List LiteralClass} {t : Ty} (proper : t.Proper classes) (shut : t.hasVars = false) :
    t.Proper [] := by
  intro part member
  have known := List.any_eq_false.mp shut part member
  have suits := proper part member
  cases part with
  | var => simp [isVar] at known
  | tuple types => cases types <;> exact suits
  | _ => exact suits

theorem Proper.closed {t : Ty} (proper : t.Proper []) : t.Closed :=
  ⟨proper.noVars, fun fault => by cases proper _ fault⟩

end Ty

namespace Match

/-! ### Trees -/

/-- The trees that stand somewhere in a tree, itself among them. -/
inductive Tree.Within (t : Tree) : Tree → Prop
  | self : Within t t
  | passed {path : Path} {type : Ty} {cases : List Case} {otherwise : Option Tree} {c : Case}
      (member : c ∈ cases) (inside : Within t c.tree) : Within t (.switch path type cases otherwise)
  | missed {path : Path} {type : Ty} {cases : List Case} {rest : Tree} (inside : Within t rest) :
      Within t (.switch path type cases (some rest))
  | refused {arm : Nat} {bindings : List Extraction} {next : Tree} (inside : Within t next) :
      Within t (.leaf arm bindings (some next))

theorem Tree.Within.failures {witnesses : List Pattern} {tree : Tree} (within : (fail witnesses).Within tree) :
    tree.failures ≠ [] := by
  induction within with
  | self => simp [Tree.failures]
  | passed member _ ih =>
    intro none
    rw [Tree.failures, List.append_eq_nil_iff, Tree.failuresAll_eq_nil] at none
    exact ih (none.1 _ member)
  | missed _ ih =>
    intro none
    rw [Tree.failures, List.append_eq_nil_iff, failuresOption] at none
    exact ih none.2
  | refused _ ih =>
    intro none
    rw [Tree.failures, failuresOption] at none
    exact ih none

variable {ctx : Context}

/-- What the types of all columns have, and what stands inside a type with it, the types have that the tree
switches on. -/
theorem Grown.switch_forall {P : Ty → Prop} (inherited : ∀ t, P t → ∀ part ∈ ctx.decls.inside t, P part)
    {floats : Bool} {m : Matrix} {frames : List Frame} {tree : Tree} (grown : Grown ctx floats m frames tree)
    (all : ∀ col ∈ m.cols, P col.type) {path : Path} {type : Ty} {tests : List Case} {otherwise : Option Tree}
    (within : (Tree.switch path type tests otherwise).Within tree) : P type := by
  induction grown with
  | spread _ _ ih => exact ih all within
  | @expand m sub frames tree i arity col fit heads here product expanded next ih =>
    obtain ⟨rfl, -⟩ := Prod.mk.inj (Except.ok.inj ((Matrix.expand_eq fit here).symm.trans expanded))
    obtain ⟨s, inColumn, isProduct⟩ := product
    have opens := opens_of_isProduct (fit.column here inColumn) isProduct
    have own := all col (List.mem_of_getElem? here)
    exact ih (spliced_forall all fun part member => inherited _ own _ (parts_inside opens part member)) within
  | fail => cases within
  | leaf => cases within
  | guarded _ _ _ _ _ ih =>
    cases within with
    | refused inside => exact ih all inside
  | @switch m frames first rest i col family cases' otherwise fit flat rows tested here switched tests
      missing passed missed ihPassed ihMissed =>
      have own := all col (List.mem_of_getElem? here)
      cases within with
      | self => exact own
      | @passed _ _ _ _ c member inside =>
        have suits := (flat.family fit here switched).suits (fun s inColumn => fit.column here inColumn) c.test
          (tests ▸ List.mem_map_of_mem member)
        obtain ⟨sub, opened, -, -⟩ := Test.columns_eq suits
        refine ihPassed c member _ (Matrix.specialize_eq fit here opened) (spliced_forall all ?_) inside
        exact fun part new => inherited _ own _ (columns_inside suits opened part new)
      | missed inside =>
        exact ihMissed _ rfl _ (Matrix.without_eq fit here) (spliced_forall all (List.forall_mem_nil _)) inside

/-! ### Arms that are not reached -/

theorem unreachableAfter_subset {cols : List Column} {rows : List Row} : ∀ {prior : List Row} {unreachable : List Nat},
    ctx.unreachableAfter cols prior rows = .ok unreachable → unreachable ⊆ rows.map Row.arm := by
  induction rows with
  | nil =>
    intro prior unreachable done
    cases done
    exact List.nil_subset _
  | cons r rest ih =>
    intro prior unreachable done
    simp only [Context.unreachableAfter, bind, Except.bind] at done
    split at done
    · cases done
    split at done
    · cases done
    next later searched =>
      have inside := List.subset_cons_of_subset r.arm (ih searched)
      cases done
      rw [List.map_cons]
      split
      · exact inside
      · exact List.cons_subset.mpr ⟨List.mem_cons_self, inside⟩

theorem compile_unreachable_lt {type : Ty} {arms : List Arm} {d : Decision} (done : compile ctx type arms = .ok d) :
    ∀ i ∈ d.unreachable, i < arms.length := by
  simp only [compile, bind, Except.bind] at done
  split at done
  · cases done
  split at done
  · cases done
  next unreachable searched =>
    cases done
    intro i member
    obtain ⟨r, row, rfl⟩ := List.mem_map.mp (unreachableAfter_subset searched member)
    obtain ⟨⟨a, j⟩, numbered, rfl⟩ := List.mem_map.mp row
    exact (List.mem_zipIdx' numbered).1

theorem useful_first (cols : List Column) (row : List Shape) : ctx.useful ⟨cols, []⟩ row = .ok true := by
  unfold Context.useful Context.usefulWithin
  rw [Context.usefulStep.eq_def]
  cases row <;> rfl

theorem tree_of_spread_nil {m : Matrix} (none : m.spread.rows = []) {tree : Tree} (done : ctx.tree m = .ok tree) :
    tree.failures ≠ [] := by
  have flat : m.spread.productColumn? = .none := by
    simp [Matrix.productColumn?, Matrix.column, none]
  have normal : ctx.normalize m [] = .ok (m.spread, []) := by
    simp [Context.normalize, Context.normalizeWithin, flat, pure, Except.pure]
  simp only [Context.tree, Context.treeWithin, normal, bind, Except.bind, none] at done
  split at done
  · cases done
  · cases done
    simp [Tree.failures]

/-- A sole pattern that covers all values is reached. -/
theorem compile_single_reached {type : Ty} {pattern : Pattern} {d : Decision}
    (done : compile ctx type [{ pattern }] = .ok d) (exhaustive : d.isExhaustive = true) : d.unreachable = [] := by
  simp only [compile, bind, Except.bind] at done
  split at done
  · cases done
  next tree built =>
    split at done
    · cases done
    next unreachable searched =>
      cases done
      have total : tree.failures = [] := List.isEmpty_iff.mp exhaustive
      obtain ⟨r, rows⟩ : ∃ r, (Matrix.ofArms ctx.decls type [{ pattern }]).rows = [r] := ⟨_, rfl⟩
      simp only [Context.unreachable, rows, Context.unreachableAfter, bind, Except.bind] at searched
      cases alternatives : r.spread with
      | nil =>
        refine absurd total (tree_of_spread_nil ?_ built)
        simp [Matrix.spread, rows, alternatives]
      | cons a others =>
        simp only [alternatives, anyM, useful_first, bind, Except.bind] at searched
        cases searched
        rfl

/-! ### Decisions of a function -/

/-- A decision that code can be generated from: every value is matched and every arm is reached, its tree
holds no failure, and it switches on closed types. -/
structure Decision.Complete (d : Decision) : Prop where
  exhaustive : d.isExhaustive = true
  reached : d.unreachable = []
  total : ∀ witnesses, ¬ (Tree.fail witnesses).Within d.tree
  switches : ∀ path type cases otherwise, (Tree.switch path type cases otherwise).Within d.tree → type.Closed

theorem Decision.complete (regular : ctx.decls.Regular) (proper : ctx.decls.Proper) {type : Ty}
    (known : type.Proper []) {arms : List Arm} {d : Decision} (done : compile ctx type arms = .ok d)
    (exhaustive : d.isExhaustive = true) (reached : d.unreachable = []) : d.Complete where
  exhaustive := exhaustive
  reached := reached
  total := fun _ within => within.failures (List.isEmpty_iff.mp exhaustive)
  switches := by
    intro path type cases otherwise within
    obtain ⟨d', compiled, grown⟩ := compile_eq regular _ arms (ofArms_fits fun _ _ => .inl rfl)
    obtain rfl := Except.ok.inj (done.symm.trans compiled)
    have inherited (t : Ty) (known : t.Proper []) : ∀ part ∈ ctx.decls.inside t, part.Proper [] :=
      fun _ member => proper.inside known member
    exact (grown.switch_forall inherited (by simpa [Matrix.ofArms] using known) within).closed

namespace Scope

variable {scope : Scope} {result : Result}

theorem exhaustive_of_uncovered {span : Span} {problem hint : String} {d : Decision}
    (quiet : scope.uncovered span problem hint d = []) : d.isExhaustive = true := by
  unfold uncovered at quiet
  split at quiet
  · assumption
  · cases quiet

/-- A match without a report is exhaustive and has no arm that is not reached. -/
theorem checkMatch_quiet {info : NodeInfo} {scrutinee : Expr} {arms : List MatchArm} {d : Decision}
    (done : scope.checkMatch info scrutinee arms = .ok (d, [])) :
    compile scope.compiler (scope.notes.typeOf scrutinee.id)
        (arms.map fun a => { pattern := a.pattern, guarded := a.guard.isSome }) = .ok d ∧
      d.isExhaustive = true ∧ d.unreachable = [] := by
  simp only [checkMatch, bind, Except.bind] at done
  split at done
  · cases done
  next d' compiled =>
    obtain ⟨rfl, quiet⟩ := Prod.mk.inj (Except.ok.inj done)
    obtain ⟨gaps, idle⟩ := List.append_eq_nil_iff.mp quiet
    refine ⟨compiled, exhaustive_of_uncovered gaps, List.eq_nil_iff_forall_not_mem.mpr fun i member => ?_⟩
    have inside : i < arms.length := by simpa using compile_unreachable_lt compiled i member
    have unreported := List.filterMap_eq_nil_iff.mp idle i member
    simp [List.getElem?_eq_getElem inside] at unreported

theorem checkBinding_quiet {pattern : Pattern} {d : Decision} (done : scope.checkBinding pattern = .ok (d, [])) :
    compile scope.compiler (scope.notes.typeOf pattern.id) [{ pattern }] = .ok d ∧
      d.isExhaustive = true ∧ d.unreachable = [] := by
  simp only [checkBinding, bind, Except.bind] at done
  split at done
  · cases done
  next d' compiled =>
    obtain ⟨rfl, quiet⟩ := Prod.mk.inj (Except.ok.inj done)
    have exhaustive := exhaustive_of_uncovered quiet
    exact ⟨compiled, exhaustive, compile_single_reached compiled exhaustive⟩

/-- What is found out about a node is filed and reported. -/
structure Filed (scope : Scope) (result : Result) (node : TreeNode) : Prop where
  checked : ∃ out, scope.checkNode node = .ok out
  filed : ∀ id d ds, scope.checkNode node = .ok (some (id, d, ds)) →
    (result.decisions.get? id).isSome = true ∧ ds ⊆ result.diagnostics

/-- Nothing that was filed or reported before is lost. -/
theorem checkNodes_keeps {nodes : List TreeNode} : ∀ {start : Result}, scope.checkNodes nodes start = .ok result →
    start.diagnostics ⊆ result.diagnostics ∧ start.decisions ⊆ result.decisions := by
  induction nodes with
  | nil =>
    intro start done
    cases done
    exact ⟨List.Subset.refl _, List.Subset.refl _⟩
  | cons node nodes ih =>
    intro start done
    simp only [checkNodes, bind, Except.bind] at done
    split at done
    · cases done
    · split at done
      · exact ih done
      · obtain ⟨reported, filed⟩ := ih done
        exact ⟨List.Subset.trans (List.subset_append_left _ _) reported,
          List.Subset.trans (List.subset_cons_self _ _) filed⟩

theorem checkNodes_files {nodes : List TreeNode} : ∀ {start : Result}, scope.checkNodes nodes start = .ok result →
    ∀ node ∈ nodes, scope.Filed result node := by
  induction nodes with
  | nil => exact fun _ => List.forall_mem_nil _
  | cons node nodes ih =>
    intro start done
    simp only [checkNodes, bind, Except.bind] at done
    split at done
    · cases done
    next out checked =>
      split at done
      · exact List.forall_mem_cons.mpr
          ⟨⟨⟨_, checked⟩, fun _ _ _ found => by cases checked.symm.trans found⟩, ih done⟩
      next id d ds =>
        refine List.forall_mem_cons.mpr ⟨⟨⟨_, checked⟩, fun id' d' ds' found => ?_⟩, ih done⟩
        cases checked.symm.trans found
        obtain ⟨reported, filed⟩ := checkNodes_keeps done
        exact ⟨NodeTable.get?_isSome_iff.mpr ⟨(id, d), filed List.mem_cons_self, rfl⟩,
          List.Subset.trans (List.subset_append_right _ _) reported⟩

theorem checkNodes_filed {nodes : List TreeNode} : ∀ {start : Result}, scope.checkNodes nodes start = .ok result →
    ∀ entry ∈ result.decisions, entry ∈ start.decisions ∨
      ∃ node ∈ nodes, ∃ ds, scope.checkNode node = .ok (some (entry.1, entry.2, ds)) := by
  induction nodes with
  | nil =>
    intro start done entry member
    cases done
    exact .inl member
  | cons node nodes ih =>
    intro start done entry member
    simp only [checkNodes, bind, Except.bind] at done
    split at done
    · cases done
    next out checked =>
      split at done
      · rcases ih done entry member with old | ⟨other, inside, found⟩
        · exact .inl old
        · exact .inr ⟨other, List.mem_cons_of_mem _ inside, found⟩
      next id d ds =>
        rcases ih done entry member with held | ⟨other, inside, found⟩
        · rcases List.mem_cons.mp held with rfl | old
          · exact .inr ⟨node, List.mem_cons_self, ds, checked⟩
          · exact .inl old
        · exact .inr ⟨other, List.mem_cons_of_mem _ inside, found⟩

end Scope

end Match

end TreeCheck
