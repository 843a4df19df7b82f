import TreeCheck.Proofs.Match.Verdicts
import TreeCheck.Proofs.Syntax.Decoded
import TreeCheck.Proofs.Typing.Closed
import TreeCheck.Proofs.Typing.FootprintWalk

/-!
What is found about a node at the end. The nodes of a program that was read have different numbers, and nothing is
noted twice about one of them: so what its check has noted is what the result tells, with types as they are resolved.
-/

namespace TreeCheck

namespace NodeTable

variable {α : Type} {table : NodeTable α}

theorem distinct_of_nodup (once : (List.map Prod.fst table).Nodup) : distinct table = table := by
  induction table with
  | nil => rfl
  | cons entry rest ih =>
    obtain ⟨new, once⟩ := List.nodup_cons.mp once
    rw [distinct, ih once]
    cases rest with
    | nil => rfl
    | cons next more =>
      have other : (next.1 == entry.1) = false := by
        refine beq_false_of_ne fun same => new ?_
        exact same ▸ List.mem_cons_self
      simp only [other, Bool.false_eq_true, if_false]

/-- Facts that stand alone are all listed. -/
theorem entries_perm (once : table.keys.Nodup) : table.entries.Perm table := by
  have sorted := List.mergeSort_perm table fun a b => a.1 ≤ b.1
  rw [entries, distinct_of_nodup ((sorted.map Prod.fst).nodup_iff.mpr once)]
  exact sorted

end NodeTable

namespace Typing

open Footprint

/-- What a check notes; the names that it declares are not compared with those in scope. -/
def Notes {α : Type} (f : Footprint) (check : Check α) : Prop :=
  ∀ s a s', check s = .ok (a, s') → ∃ noted declared, s'.notes = Annotations.atop noted s.notes ∧
    f.Bounds noted declared

namespace Notes

variable {α β : Type} {f g : Footprint} {check : Check α}

theorem mono (notes : Notes f check) (fits : f.Fits g) : Notes g check := by
  intro s a s' ran
  obtain ⟨noted, declared, same, bounds⟩ := notes s a s' ran
  exact ⟨noted, declared, same, bounds.mono fits⟩

theorem silent (same : ∀ s a s', check s = .ok (a, s') → s'.notes = s.notes) : Notes {} check :=
  fun s a s' ran => ⟨{}, [], same s a s' ran, .nothing⟩

theorem bind {first : Check α} {next : α → Check β} (start : Notes f first) (rest : ∀ a, Notes g (next a)) :
    Notes (f ++ g) (first >>= next) := by
  intro s b s' ran
  obtain ⟨a, middle, begun, ran⟩ := ran_bind ran
  obtain ⟨early, names, notes, bounds⟩ := start s a middle begun
  obtain ⟨late, more, notes', bounds'⟩ := rest a middle b s' ran
  exact ⟨late.atop early, more ++ names, by rw [notes', notes, Annotations.atop_assoc], bounds.append bounds'⟩

theorem after {first : Check α} {next : α → Check β} (start : Notes {} first) (rest : ∀ a, Notes f (next a)) :
    Notes f (first >>= next) :=
  (start.bind rest).mono ⟨fun _ => Nat.le_refl _, fun _ => Nat.le_refl _, fun _ => Nat.le_refl _, fun _ => .rfl⟩

theorem before {first : Check α} {next : α → Check β} (start : Notes f first) (rest : ∀ a, Notes {} (next a)) :
    Notes f (first >>= next) := append_empty (f := f) ▸ start.bind rest

theorem look {next : State → Check α} (rest : ∀ s, Notes f (next s)) : Notes f (do next (← get)) :=
  fun s a s' ran => rest s s a s' ran

theorem forM {items : List β} {each : β → Check PUnit} (notes : ∀ item, Notes {} (each item)) :
    Notes {} (items.forM each) := by
  induction items with
  | nil => exact .silent fun _ _ _ ran => by cases ran; rfl
  | cons item items ih => exact (notes item).after fun _ => ih

theorem inScope (notes : Notes f check) : Notes f (inScope check) := by
  intro s a s' ran
  change Except.bind (check { s with scopes := [] :: s.scopes }) (fun (a, s) =>
    .ok (a, { s with scopes := s.scopes.tail })) = .ok (a, s') at ran
  cases begun : check { s with scopes := [] :: s.scopes } with
  | error failure =>
    rw [begun] at ran
    cases ran
  | ok out =>
    rw [begun] at ran
    cases ran
    obtain ⟨noted, declared, same, bounds⟩ := notes _ _ _ begun
    exact ⟨noted, declared, same, bounds⟩

end Notes

theorem Leaves.notes {α : Type} {f : Footprint} {check : Check α} (leaves : Leaves f check) : Notes f check := by
  intro s a s' ran
  obtain ⟨noted, declared, notes, -, bounds⟩ := leaves s a s' ran
  exact ⟨noted, declared, notes, bounds⟩

namespace Context

variable {ctx : Context}

theorem declare_notes (name : String) (t : Ty) : Notes {} (declare name t) :=
  .silent fun _ _ _ ran => by cases ran; rfl

/-- A block whose value is converted as well. -/
theorem ofBlock_closed {b : Block} {value : Expr} (own : b.tail = some value) :
    (ofBlock b ++ coerced value.id).Fits (whole b.nodes) := by
  cases b with
  | mk info stmts tail =>
    cases own
    have same : (Expr.block (.mk info stmts (some value))).id = (Block.mk info stmts (some value)).id := rfl
    constructor <;> simp [ofBlock, inside, whole, declaring, Block.nodes, typed, coerced, same, List.count_cons,
      Block.stmts, Block.tail, Expr.nodesOption]
    all_goals intro id
    · omega
    · conv_rhs => rw [ids_nodes value, List.count_cons]
      simp

theorem checkBody_notes (f : FuncDecl) : Notes (whole f.body.nodes) (ctx.checkBody f) := by
  have params : Notes {} (ctx.signature.params.forM fun p => declare p.name p.type) :=
    .forM fun p => declare_notes p.name p.type
  have block : Notes _ (recorded f.body.id (inferBlock ctx f.body (some ctx.signature.result))) :=
    (block_leaves (inferBlock_leaves f.body (some ctx.signature.result))).notes
  refine .inScope ?_
  -- what follows a receiver is the same without one
  cases ctx.signature.receiverType?
  case' some t => refine (declare_notes "self" t).after fun _ => ?_
  all_goals
    refine params.after fun _ => ?_
    cases own : f.body.tail with
    | some value =>
      refine .mono (block.bind fun _ => .look fun s => ?_) (ofBlock_closed own)
      cases s.notes.types.get? value.id with
      | some found => exact (assign_leaves value _ found).notes
      | none => exact (Leaves.spare (.pure _) rfl).notes
    | none =>
      exact .mono (block.before fun _ => (Leaves.ite (report_leaves _ _ _) (.pure _)).notes) (ofBlock_whole f.body)

theorem prepare_notes (f : FuncDecl) : Notes (whole f.body.nodes) (ctx.prepare f) := by
  refine (checkBody_notes f).before fun _ => ?_
  refine .after (.silent fun _ _ _ ran => by cases ran; rfl) fun _ => ?_
  refine .after (.look fun s => .forM fun lit => ?_) fun _ => .look fun s => .forM fun cast => ?_
  · exact (Leaves.ite (report_leaves _ _ _) (.pure _)).notes
  · exact (Leaves.ite (add_leaves _) (.pure _)).notes

end Context

/-- The facts about each node stand alone. -/
structure Annotations.Single (a : Annotations) : Prop where
  types : a.types.keys.Nodup
  methods : a.methods.keys.Nodup
  variants : a.variants.keys.Nodup
  coercions : a.coercions.keys.Nodup

theorem Footprint.Bounds.single {nodes : List TreeNode} {noted : Annotations} {declared : List (String × Ty)}
    (bounds : (whole nodes).Bounds noted declared) (once : (TreeNode.ids nodes).Nodup) : noted.Single where
  types := List.nodup_iff_count_le_one.mpr fun id =>
    (bounds.types id).trans (List.nodup_iff_count_le_one.mp once id)
  methods := List.nodup_iff_count_le_one.mpr fun id =>
    (bounds.methods id).trans (List.nodup_iff_count_le_one.mp once id)
  variants := List.nodup_iff_count_le_one.mpr fun id =>
    (bounds.variants id).trans (List.nodup_iff_count_le_one.mp once id)
  coercions := List.nodup_iff_count_le_one.mpr fun id =>
    (bounds.coercions id).trans (List.nodup_iff_count_le_one.mp once id)

theorem Context.prepare_single {ctx : Context} {f : FuncDecl} {last : State}
    (prepared : ctx.prepare f {} = .ok ((), last)) (once : (TreeNode.ids f.body.nodes).Nodup) : last.notes.Single := by
  obtain ⟨noted, declared, same, bounds⟩ := Context.prepare_notes f _ _ _ prepared
  rw [same, Annotations.atop_empty]
  exact bounds.single once

/-- Types that stand alone do so when they are resolved. -/
theorem Context.resolved_single {s : State} (single : s.notes.Single) : (Context.resolved s).notes.Single where
  types := by
    have same : (Context.resolved s).notes.types.keys = List.map Prod.fst s.notes.types.entries := by
      simp [Context.resolved, NodeTable.keys]
    rw [same]
    exact ((NodeTable.entries_perm single.types).map Prod.fst).nodup_iff.mpr single.types
  methods := single.methods
  variants := single.variants
  coercions := single.coercions

/-- A function that is accepted, with the context it is checked in and the state at the end of its checks. -/
structure Accepted (p : Program) (f : FuncDecl) (result : Result) (ctx : Context) (last : State) : Prop where
  table : ctx.table = p.collect.1
  context : ctx.Proper
  prepared : ctx.prepare f {} = .ok ((), last)
  quiet : last.Quiet
  proper : last.Proper
  covered : last.Covers ctx f.body.nodes
  unique : (TreeNode.ids f.body.nodes).Nodup
  single : last.notes.Single
  notes : result.notes = (Context.resolved last).notes
  closed : ∀ entry ∈ result.notes.types, entry.2.hasVars = false

theorem check_accepted_own {p : Program} (decoded : p.Decoded) (collected : p.collect.2 = []) (named : p.Named)
    {f : FuncDecl} {position : Nat} (member : (f, position) ∈ p.functions.zipIdx) {result : Result}
    (checked : check p.collect.1 position f = .ok result) (accepted : result.diagnostics = []) :
    ∃ ctx last, p.collect.1.signature? position f = some ctx.signature ∧ Accepted p f result ctx last := by
  obtain ⟨ctx, last, table, own, context, prepared, quiet, proper, covered, notes, closed⟩ :=
    check_prepared collected named member checked accepted
  obtain ⟨start, stop, counted⟩ : ∃ start stop, Counted start f.body.nodes stop := by
    obtain ⟨input, read, -, rfl⟩ := decoded
    exact Program.number_counted (List.fst_mem_of_mem_zipIdx member)
  exact ⟨ctx, last, own, table, context, prepared, quiet, proper, covered, counted.nodup,
    Context.prepare_single prepared counted.nodup, notes, closed⟩

theorem check_accepted {p : Program} (decoded : p.Decoded) (collected : p.collect.2 = []) (named : p.Named)
    {f : FuncDecl} {position : Nat} (member : (f, position) ∈ p.functions.zipIdx) {result : Result}
    (checked : check p.collect.1 position f = .ok result) (accepted : result.diagnostics = []) :
    ∃ ctx last, Accepted p f result ctx last := by
  obtain ⟨ctx, last, -, done⟩ := check_accepted_own decoded collected named member checked accepted
  exact ⟨ctx, last, done⟩

namespace Accepted

variable {p : Program} {f : FuncDecl} {result : Result} {ctx : Context} {last : State}

theorem get?_type (done : Accepted p f result ctx last) {id : Nat} {t : Ty} (noted : (id, t) ∈ last.notes.types) :
    result.notes.types.get? id = some (last.engine.resolve t) := by
  rw [done.notes]
  refine (NodeTable.get?_eq_some_iff (Context.resolved_single done.single).types).mpr (List.mem_map.mpr ?_)
  exact ⟨(id, t), (NodeTable.entries_perm done.single.types).mem_iff.mpr noted, rfl⟩

theorem get?_method (done : Accepted p f result ctx last) {id : Nat} {signature : Signature} :
    result.notes.methods.get? id = some signature ↔ (id, signature) ∈ last.notes.methods := by
  rw [done.notes]
  exact NodeTable.get?_eq_some_iff done.single.methods

theorem get?_variant (done : Accepted p f result ctx last) {id : Nat} {found : VariantRef} :
    result.notes.variants.get? id = some found ↔ (id, found) ∈ last.notes.variants := by
  rw [done.notes]
  exact NodeTable.get?_eq_some_iff done.single.variants

theorem get?_coercion (done : Accepted p f result ctx last) {id : Nat} {coercion : Coercion} :
    result.notes.coercions.get? id = some coercion ↔ (id, coercion) ∈ last.notes.coercions := by
  rw [done.notes]
  exact NodeTable.get?_eq_some_iff done.single.coercions

/-- What was noted about a node is of a type without variables and faults in the end. -/
theorem shut (done : Accepted p f result ctx last) {id : Nat} {t : Ty} (noted : (id, t) ∈ last.notes.types) :
    (last.engine.resolve t).Proper [] :=
  (done.proper.engine.resolve (done.proper.types _ noted)).shut
    (done.closed _ (NodeTable.get?_mem (done.get?_type noted)))

theorem type_shut (done : Accepted p f result ctx last) {id : Nat} {t : Ty}
    (found : result.notes.types.get? id = some t) : t.Proper [] := by
  have member := NodeTable.get?_mem found
  rw [done.notes] at member
  obtain ⟨entry, inside, same⟩ := List.mem_map.mp member
  cases same
  exact done.shut (NodeTable.mem_of_mem_entries inside)

theorem of_ran {α : Type} (done : Accepted p f result ctx last) {P : State → Prop} {check : Check α}
    {Q : α → State → Prop} (sound : Sound ctx P check Q) (ran : last.Ran P check) :
    ∃ a s, s.Before last ∧ Q a s := by
  obtain ⟨first, a, s, proper, given, finished, quiet, before⟩ := ran
  have found := sound first
  rw [finished] at found
  exact ⟨a, s, before, (found.2 quiet done.context proper given).2.2⟩

end Accepted

/-- Whether a check has gone through without a report. -/
def passes : Except Failure Result → Bool
  | .ok result => result.diagnostics.isEmpty
  | .error _ => false

theorem exists_of_passes {outcome : Except Failure Result} (passed : passes outcome = true) :
    ∃ result, outcome = .ok result ∧ result.diagnostics = [] := by
  cases outcome with
  | ok result => exact ⟨result, rfl, List.isEmpty_iff.mp passed⟩
  | error failure => cases passed

section

variable {ctx : Context}

/-- Every expression is checked with a step that notes the type that is found for it. -/
theorem infer_recorded (e : Expr) (hint : Option Ty) : ∃ check, infer ctx e hint = recorded e.id check := by
  cases e
  case call info callee args => exact ⟨_, by rw [infer]; rfl⟩
  case branch info condition consequent alternative => cases alternative <;> exact ⟨_, by rw [infer]; rfl⟩
  all_goals exact ⟨_, by rw [infer]; rfl⟩

theorem recorded_noted {id : Nat} {check : Check Ty} {s s' : State} {t : Ty}
    (ran : recorded id check s = .ok (t, s')) : (id, t) ∈ s'.notes.types := by
  obtain ⟨found, middle, -, ran⟩ := ran_bind ran
  cases ran
  exact List.mem_cons_self

theorem infer_noted (received : ctx.table.Received) (e : Expr) (hint : Option Ty) :
    Sound ctx (fun s => ∀ t ∈ hint, s.Knows t) (infer ctx e hint)
      fun t s => s.Knows t ∧ (e.id, t) ∈ s.notes.types :=
  (infer_sound received e hint).follows fun s t s' _ _ given done _ => by
    obtain ⟨check, same⟩ : ∃ check, infer ctx e hint = recorded e.id check := infer_recorded e hint
    rw [same] at done
    exact ⟨given, fun _ found => ⟨found.1, recorded_noted done⟩⟩

end

end Typing

end TreeCheck
