import TreeCheck.Proofs.Diagnostics
import TreeCheck.Proofs.Match.Reachable
import TreeCheck.Proofs.Match.Verdicts

/-!
Matches on what has no type. Every pattern is read there as one that admits everything, so that only guards tell arms
apart: an arm covers all values or none, whatever its pattern tests.
-/

namespace TreeCheck

namespace Pattern

mutual

def unguarded : Pattern → Bool
  | .alternatives _ choices => unguardedAny choices
  | .guarded .. => false
  | .wildcard _ | .binding _ | .literal .. | .range .. | .tuple .. | .list .. | .record .. | .variant .. => true

def unguardedAny : List Pattern → Bool
  | [] => false
  | p :: rest => p.unguarded || unguardedAny rest

end

mutual

/-- What never fails stands under no guard. -/
theorem unguarded_of_irrefutable : ∀ {p : Pattern}, p.irrefutable = true → p.unguarded = true
  | .alternatives _ choices, never => unguardedAny_of_irrefutable (by rwa [irrefutable] at never)
  | .guarded .., never => by simp [irrefutable] at never
  | .wildcard _, _ | .binding _, _ | .literal .., _ | .range .., _ | .tuple .., _ | .list .., _ | .record .., _
  | .variant .., _ => rfl

theorem unguardedAny_of_irrefutable : ∀ {ps : List Pattern}, irrefutableAny ps = true → unguardedAny ps = true
  | [], never => never
  | _ :: _, never => (Bool.or_eq_true_iff.mp never).elim
      (fun first => Bool.or_eq_true_iff.mpr (.inl (unguarded_of_irrefutable first)))
      fun later => Bool.or_eq_true_iff.mpr (.inr (unguardedAny_of_irrefutable later))

end

end Pattern

/-- An arm that covers everything where nothing is tested. -/
def MatchArm.unguarded (a : MatchArm) : Bool := a.guard.isNone && a.pattern.unguarded

/-- Where nothing is tested, the last arm of a match covers everything and no other does, and the pattern of a binding
covers everything. -/
def TreeNode.settled : TreeNode → Bool
  | .expr (.select _ _ arms) => arms.map MatchArm.unguarded == List.replicate (arms.length - 1) false ++ [true]
  | .stmt (.bind _ p _ (some _)) => p.unguarded
  | _ => true

namespace Match

variable {ctx : Context}

/-! ### Shapes -/

/-- Ways in which any value is matched, without a guard where `free` says so. -/
structure Blind (ways : Value → List Way) (free : Bool) : Prop where
  some : ∀ v, ways v ≠ []
  sure : ∀ v, (∃ w ∈ ways v, w.guarded = false) ↔ free = true

namespace Blind

theorem any (bind : Option String) : Blind (Shape.any bind).ways true where
  some v := by simp [Shape.ways]
  sure v := by simp [Shape.ways]

theorem guarded {s : Shape} {free : Bool} (blind : Blind s.ways free) : Blind (Shape.guarded s).ways false where
  some v := by
    rw [Shape.ways, Ne, cross_eq_nil]
    simpa using blind.some v
  sure v := by simp [Shape.ways, cross_singleton, Way.append]

end Blind

mutual

theorem ofPattern_blind (decls : Decls) : ∀ {p : Pattern}, p.every Pattern.offers = true →
    Blind (Shape.ofPattern decls p .invalid).ways p.unguarded
  | .alternatives _ choices, offers => by
    obtain ⟨some, each⟩ := Bool.and_eq_true_iff.mp offers
    refine ⟨fun v => ?_, fun v => ofEach_sure decls v each⟩
    cases choices with
    | nil => cases some
    | cons p rest =>
      obtain ⟨first, -⟩ := Bool.and_eq_true_iff.mp each
      exact List.append_ne_nil_of_left_ne_nil ((ofPattern_blind decls first).some v) _
  | .guarded _ inner _, offers => (ofPattern_blind decls (Bool.and_eq_true_iff.mp offers).2).guarded
  | .literal _ value, _ => by cases value <;> exact .any _
  | .wildcard _, _ | .binding _, _ | .range .., _ | .tuple .., _ | .list .., _ | .record .., _
  | .variant .., _ => .any _

theorem ofEach_sure (decls : Decls) (v : Value) : ∀ {ps : List Pattern}, Pattern.everyEach Pattern.offers ps = true →
    ((∃ w ∈ Shape.waysAny (Shape.ofEach decls ps .invalid) v, w.guarded = false) ↔ Pattern.unguardedAny ps = true)
  | [], _ => by simp [Shape.ofEach, Shape.waysAny, Pattern.unguardedAny]
  | p :: rest, offers => by
    obtain ⟨first, others⟩ := Bool.and_eq_true_iff.mp offers
    rw [Shape.ofEach, Shape.waysAny, Pattern.unguardedAny, Bool.or_eq_true, ← (ofPattern_blind decls first).sure v,
      ← ofEach_sure decls v others]
    simp [or_and_right, exists_or]

end

mutual

/-- Where there is no type, no range and no float is tested. -/
theorem ofPattern_overlaps : ∀ p : Pattern,
    (Shape.ofPattern ctx.decls p .invalid).every ctx.decls ctx.overlaps .invalid = true
  | .alternatives _ choices => ofEach_overlaps choices
  | .guarded _ inner _ => ofPattern_overlaps inner
  | .literal _ value => by cases value <;> rfl
  | .wildcard _ | .binding _ | .range .. | .tuple .. | .list .. | .record .. | .variant .. => rfl

theorem ofEach_overlaps : ∀ ps : List Pattern,
    Shape.everyEach ctx.decls ctx.overlaps (Shape.ofEach ctx.decls ps .invalid) .invalid = true
  | [] => rfl
  | p :: rest => Bool.and_eq_true_iff.mpr ⟨ofPattern_overlaps p, ofEach_overlaps rest⟩

end

/-! ### Arms -/

/-- An arm that covers everything where nothing is tested. -/
def Arm.unguarded (a : Arm) : Bool := !a.guarded && a.pattern.unguarded

def Arm.row (decls : Decls) (a : Arm) (i : Nat) : Row :=
  { pats := [Shape.ofPattern decls a.pattern .invalid], arm := i, guarded := a.guarded }

theorem ofArms_rows (decls : Decls) (arms : List Arm) :
    (Matrix.ofArms decls .invalid arms).rows = arms.zipIdx.map fun entry => entry.1.row decls entry.2 := rfl

section

variable {arms : List Arm} (offers : ∀ a ∈ arms, a.pattern.every Pattern.offers = true)

include offers

theorem row_blind {a : Arm} (member : a ∈ arms) (i : Nat) :
    Blind (fun v => Shape.waysAll (a.row ctx.decls i).pats [v]) a.pattern.unguarded := by
  have blind := ofPattern_blind ctx.decls (offers a member)
  have alone (v : Value) : Shape.waysAll (a.row ctx.decls i).pats [v] =
      (Shape.ofPattern ctx.decls a.pattern .invalid).ways v := by
    simp [Arm.row, Shape.waysAll, cross, Way.append]
  simpa only [alone] using blind

/-- What has no type is admitted if some arm covers everything. -/
theorem ofArms_admits (v : Value) :
    (Matrix.ofArms ctx.decls .invalid arms).Admits [v] ↔ ∃ a ∈ arms, a.unguarded = true := by
  rw [Matrix.Admits, ofArms_rows]
  constructor
  · rintro ⟨r, inside, free, hit⟩
    obtain ⟨⟨a, i⟩, numbered, rfl⟩ := List.mem_map.mp inside
    have member := List.fst_mem_of_mem_zipIdx numbered
    have sure := ((row_blind offers member i).sure v).mp hit
    exact ⟨a, member, Bool.and_eq_true_iff.mpr ⟨by simpa [Arm.row] using free, sure⟩⟩
  · rintro ⟨a, member, unguarded⟩
    obtain ⟨free, sure⟩ := Bool.and_eq_true_iff.mp unguarded
    obtain ⟨i, here⟩ := List.mem_iff_getElem?.mp member
    exact ⟨a.row ctx.decls i, List.mem_map.mpr ⟨(a, i), List.mem_zipIdx_iff_getElem?.mpr here, rfl⟩,
      by simpa [Arm.row] using free, ((row_blind offers member i).sure v).mpr sure⟩

/-- An arm is selected for what has no type if no arm before it covers everything. -/
theorem ofArms_selects {i : Nat} (inside : i < arms.length) (v : Value) :
    (Matrix.ofArms ctx.decls .invalid arms).Selects i [v] ↔ ¬ ∃ a ∈ arms.take i, a.unguarded = true := by
  obtain ⟨before, after, split, sized⟩ := split_at (List.getElem?_eq_getElem inside)
  have member : arms[i] ∈ arms := List.getElem_mem inside
  generalize arms[i] = a at split member
  have earlier : arms.take i = before := by simp [split, ← sized]
  have admits := @ofArms_admits ctx _ (fun a first => offers a (List.mem_of_mem_take (i := i) first)) v
  rw [earlier] at admits ⊢
  obtain ⟨rest, rows⟩ : ∃ rest, (Matrix.ofArms ctx.decls .invalid arms).rows =
      (Matrix.ofArms ctx.decls .invalid before).rows ++ a.row ctx.decls i :: rest := by
    simp only [ofArms_rows, split, List.zipIdx_append, List.zipIdx_cons, List.map_append, List.map_cons, Nat.zero_add,
      sized]
    exact ⟨_, rfl⟩
  rw [← admits]
  constructor
  · rintro ⟨before', r, rest', rows', own, -, free⟩
    have lengths : before'.length = (Matrix.ofArms ctx.decls .invalid before).rows.length := by
      rw [ofArms_position rows', ofArms_position rows, own]
      rfl
    rwa [(List.append_inj (rows'.symm.trans rows) lengths).1] at free
  · exact fun free => ⟨_, a.row ctx.decls i, rest, rows, rfl, (row_blind offers member i).some v, free⟩

/-- The verdict on arms where there is no type: all is covered if some arm covers everything, and the arms after one
that does are not reached. -/
theorem compile_untyped (regular : ctx.decls.Regular) : ∃ d, compile ctx .invalid arms = .ok d ∧
    (d.isExhaustive = true ↔ ∃ a ∈ arms, a.unguarded = true) ∧
    ∀ i < arms.length, (i ∈ d.unreachable ↔ ∃ a ∈ arms.take i, a.unguarded = true) := by
  have meets : (Matrix.ofArms ctx.decls .invalid arms).Sound ctx.decls ctx.meets := Matrix.ofArms_sound fun a member =>
    Shape.sound_of_every (fun _ _ => rfl) (Shape.ofPattern_fits a.pattern .invalid (.inl rfl))
      (meets_of_pattern (offers a member) (ofPattern_overlaps a.pattern))
  obtain ⟨d, compiled, grown⟩ := compile_eq regular .invalid arms meets.fits
  have searched := compile_unreachable compiled
  have typed : HasType ctx default .invalid := .abstract rfl
  refine ⟨d, compiled, ?_, fun i inside => ⟨fun member => ?_, fun covered => ?_⟩⟩
  · have peopled : ∀ col ∈ (Matrix.ofArms ctx.decls .invalid arms).cols, Peopled ctx col.type := by
      intro col member part reached
      obtain rfl := List.mem_singleton.mp member
      rcases reached.cases_head with rfl | ⟨_, inside, -⟩
      · exact ⟨default, typed⟩
      · cases inside
    rw [Decision.isExhaustive, List.isEmpty_iff, grown.failures_eq_nil regular peopled]
    constructor
    · exact fun admits => (ofArms_admits offers default).mp (admits [default] (.cons typed .nil))
    · intro covered values filled
      cases filled with
      | @cons _ v _ _ _ none =>
        cases none
        exact (ofArms_admits offers v).mpr covered
  · obtain ⟨n, never⟩ := not_selects_of_unreachable (approx_layers ctx) regular meets searched member
    by_contra free
    obtain ⟨v, placed⟩ := @exists_approx ctx n .invalid
    exact never [v] (.cons placed .nil) ((ofArms_selects offers inside v).mpr free)
  · by_contra reached
    obtain ⟨values, placed, selects⟩ := exists_selects_of_reachable regular meets searched inside reached 0
    cases placed with
    | @cons _ v _ _ _ none =>
      cases none
      exact (ofArms_selects offers inside v).mp selects covered

/-- Where there is no type, all values are covered and all arms reached if the last arm alone covers everything. -/
theorem compile_untyped_clean (regular : ctx.decls.Regular) : ∃ d, compile ctx .invalid arms = .ok d ∧
    (d.isExhaustive = true ∧ d.unreachable = [] ↔
      arms.map Arm.unguarded = List.replicate (arms.length - 1) false ++ [true]) := by
  obtain ⟨d, compiled, covered, idle⟩ := compile_untyped offers regular
  refine ⟨d, compiled, ⟨fun ⟨exhaustive, reached⟩ => ?_, ?_⟩⟩
  · obtain ⟨a, member, sure⟩ := covered.mp exhaustive
    have size := List.length_pos_of_mem member
    have early : ∀ b ∈ arms.dropLast, b.unguarded = false := by
      intro b inside
      rw [List.dropLast_eq_take] at inside
      by_contra other
      have unreached := (idle (arms.length - 1) (by omega)).mpr ⟨b, inside, by simpa using other⟩
      simp [reached] at unreached
    have split := List.dropLast_concat_getLast (List.ne_nil_of_mem member)
    have final : (arms.getLast (List.ne_nil_of_mem member)).unguarded = true := by
      rcases List.mem_append.mp (split ▸ member) with inside | own
      · cases sure.symm.trans (early a inside)
      · exact List.mem_singleton.mp own ▸ sure
    have marks := List.map_eq_replicate_iff.mpr early
    rw [List.length_dropLast] at marks
    rw [← marks, ← final, ← List.map_singleton (f := Arm.unguarded), ← List.map_append, split]
  · intro marks
    generalize arms.length - 1 = n at marks
    obtain ⟨earlier, final, rfl, early, only⟩ := List.map_eq_append_iff.mp marks
    obtain ⟨last, rfl, sure⟩ := List.map_eq_singleton_iff.mp only
    refine ⟨covered.mpr ⟨last, by simp, sure⟩, List.eq_nil_iff_forall_not_mem.mpr fun i member => ?_⟩
    have inside := compile_unreachable_lt compiled i member
    obtain ⟨b, before, other⟩ := (idle i inside).mp member
    rw [List.length_append, List.length_singleton, Nat.lt_succ_iff] at inside
    rw [List.take_append_of_le_length inside] at before
    have free := List.eq_of_mem_replicate (early ▸ List.mem_map_of_mem (List.mem_of_mem_take before))
    cases other.symm.trans free

end

/-! ### Reports on a function -/

namespace Scope

variable {scope : Scope} {result : Result}

def reports (scope : Scope) (node : TreeNode) : List Diagnostic :=
  match scope.checkNode node with
  | .ok (some (_, _, ds)) => ds
  | _ => []

theorem checkNodes_diagnostics {nodes : List TreeNode} : ∀ {start : Result}, scope.checkNodes nodes start = .ok result →
    result.diagnostics = start.diagnostics ++ nodes.flatMap scope.reports := by
  induction nodes with
  | nil =>
    intro start done
    cases done
    simp
  | cons node nodes ih =>
    intro start done
    simp only [checkNodes, bind, Except.bind] at done
    split at done
    · cases done
    next out checked =>
      split at done
      · rw [ih done]
        simp [reports, checked]
      · rw [ih done]
        simp [reports, checked]

/-- What is reported about a node is reported about a match or about a binding. -/
theorem mem_reports {node : TreeNode} {e : Diagnostic} (member : e ∈ scope.reports node) : ∃ d ds, e ∈ ds ∧
    ((∃ info scrutinee arms, scope.checkMatch info scrutinee arms = .ok (d, ds)) ∨
      ∃ pattern, scope.checkBinding pattern = .ok (d, ds)) := by
  unfold reports at member
  split at member
  next id d ds checked =>
    refine ⟨d, ds, member, ?_⟩
    unfold checkNode at checked
    split at checked
    next info scrutinee arms =>
      simp only [bind, Except.bind] at checked
      split at checked <;> cases checked
      next decided => exact .inl ⟨info, scrutinee, arms, decided⟩
    next span pattern type value =>
      split at checked
      · cases checked
      · simp only [bind, Except.bind] at checked
        split at checked <;> cases checked
        next decided => exact .inr ⟨pattern, decided⟩
    · cases checked
  · cases member

theorem uncovered_kind {span : Span} {problem hint : String} {d : Decision} {e : Diagnostic}
    (member : e ∈ scope.uncovered span problem hint d) : e.kind = .nonExhaustiveMatch := by
  unfold uncovered at member
  split at member
  · cases member
  · rw [List.mem_singleton.mp member]

theorem reports_kind {node : TreeNode} {e : Diagnostic} (member : e ∈ scope.reports node) :
    e.kind = .nonExhaustiveMatch ∨ e.kind = .unreachableArm := by
  obtain ⟨d, ds, inside, ⟨info, scrutinee, arms, decided⟩ | ⟨pattern, decided⟩⟩ := mem_reports member
  · simp only [checkMatch, bind, Except.bind] at decided
    split at decided <;> cases decided
    refine (List.mem_append.mp inside).imp uncovered_kind fun idle => ?_
    obtain ⟨i, -, shown⟩ := List.mem_filterMap.mp idle
    obtain ⟨a, -, rfl⟩ := Option.map_eq_some_iff.mp shown
    exact Diagnostic.withLabel_kind _ _ _
  · simp only [checkBinding, bind, Except.bind] at decided
    split at decided <;> cases decided
    exact .inl (uncovered_kind inside)

theorem checkMatch_eq (info : NodeInfo) {scrutinee : Expr} {arms : List MatchArm} {d : Decision}
    (compiled : compile scope.compiler (scope.notes.typeOf scrutinee.id)
      (arms.map fun a => { pattern := a.pattern, guarded := a.guard.isSome }) = .ok d) :
    ∃ ds, scope.checkMatch info scrutinee arms = .ok (d, ds) ∧
      (ds = [] ↔ d.isExhaustive = true ∧ d.unreachable = []) := by
  obtain ⟨ds, checked⟩ : ∃ ds, scope.checkMatch info scrutinee arms = .ok (d, ds) :=
    ⟨_, by rw [checkMatch, compiled]; rfl⟩
  refine ⟨ds, checked, ?_, ?_⟩
  · rintro rfl
    exact (checkMatch_quiet checked).2
  · rintro ⟨exhaustive, reached⟩
    simp only [checkMatch, compiled, bind, Except.bind] at checked
    cases checked
    simp [uncovered, exhaustive, reached]

theorem checkBinding_eq {pattern : Pattern} {d : Decision}
    (compiled : compile scope.compiler (scope.notes.typeOf pattern.id) [{ pattern }] = .ok d) :
    ∃ ds, scope.checkBinding pattern = .ok (d, ds) ∧ (ds = [] ↔ d.isExhaustive = true) := by
  obtain ⟨ds, checked⟩ : ∃ ds, scope.checkBinding pattern = .ok (d, ds) :=
    ⟨_, by rw [checkBinding, compiled]; rfl⟩
  refine ⟨ds, checked, ?_, fun exhaustive => ?_⟩
  · rintro rfl
    exact (checkBinding_quiet checked).2.1
  · simp only [checkBinding, compiled, bind, Except.bind] at checked
    cases checked
    simp [uncovered, exhaustive]

/-- Where nothing has a type, nothing is reported about what is settled, and only about that. -/
theorem reports_eq_nil (regular : scope.compiler.decls.Regular) (untyped : ∀ id, scope.notes.typeOf id = .invalid)
    {node : TreeNode} (legible : Legible node.nodes) : scope.reports node = [] ↔ node.settled = true := by
  unfold TreeNode.settled
  split
  next info scrutinee arms =>
    obtain ⟨-, -, each⟩ : _ ∧ _ ∧ Legible (MatchArm.nodesAll arms) := by
      simpa [TreeNode.nodes, Expr.nodes] using legible
    have offers : ∀ a ∈ arms, a.pattern.every Pattern.offers = true := by
      intro a member
      obtain ⟨span, pattern, guard, body⟩ := a
      have own := Legible.arms.mp each _ member
      simp only [MatchArm.nodesAll, Legible.append] at own
      exact Pattern.every_offers own.1.1.1
    have each : ∀ a ∈ arms.map fun a => ({ pattern := a.pattern, guarded := a.guard.isSome } : Arm),
        a.pattern.every Pattern.offers = true := List.forall_mem_map.mpr offers
    obtain ⟨d, compiled, clean⟩ := compile_untyped_clean each regular
    rw [← untyped scrutinee.id] at compiled
    obtain ⟨ds, checked, quiet⟩ := checkMatch_eq info compiled
    have found : scope.reports (.expr (.select info scrutinee arms)) = ds := by
      simp [reports, checkNode, checked]
    have marks : (arms.map fun a => ({ pattern := a.pattern, guarded := a.guard.isSome } : Arm)).map Arm.unguarded =
        arms.map MatchArm.unguarded := by
      simp [Arm.unguarded, MatchArm.unguarded]
    rw [found, quiet, clean, marks, List.length_map, beq_iff_eq]
  next span p type value =>
    have offers : p.every Pattern.offers = true := by
      simp only [TreeNode.nodes, Stmt.nodes, Legible.cons, Legible.append] at legible
      exact Pattern.every_offers legible.2.1
    by_cases never : p.irrefutable = true
    · have unread : scope.reports (.stmt (.bind span p type (some value))) = [] := by
        simp [reports, checkNode, never, pure, Except.pure]
      exact iff_of_true unread (Pattern.unguarded_of_irrefutable never)
    · have only : ∀ a ∈ [({ pattern := p } : Arm)], a.pattern.every Pattern.offers = true :=
        List.forall_mem_singleton.mpr offers
      obtain ⟨d, compiled, covered, -⟩ := compile_untyped only regular
      rw [← untyped p.id] at compiled
      obtain ⟨ds, checked, quiet⟩ := checkBinding_eq compiled
      have found : scope.reports (.stmt (.bind span p type (some value))) = ds := by
        simp [reports, checkNode, checked, never]
      rw [found, quiet, covered]
      simp [Arm.unguarded]
  next => simp [reports, checkNode, pure, Except.pure]

end Scope

end Match

end TreeCheck
