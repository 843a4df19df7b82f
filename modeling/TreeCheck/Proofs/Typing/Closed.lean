import Mathlib
import TreeCheck.Proofs.Symbol.Collection
import TreeCheck.Proofs.Typing.Walk
import TreeCheck.Typing.Result

/-!
Accepted functions. The types that are found for a function that is accepted cover every expression and every
pattern of it, and they are final: no variable and no fault is left in them.
-/

namespace TreeCheck.Typing

variable {ctx : Context} {P : State → Prop}

theorem get_sound {α : Type} {next : State → Check α} {Q : α → State → Prop} (P' : State → State → Prop)
    (seen : ∀ s, ctx.Proper → s.Proper → P s → P' s s) (rest : ∀ s, Sound ctx (P' s) (next s) Q) :
    Sound ctx P (do next (← get)) Q := by
  intro s
  have ran := rest s s
  have goesOn : (do next (← get) : Check α) s = next s s := rfl
  rw [goesOn]
  cases done : next s s with
  | error failure =>
    rw [done] at ran
    exact ran
  | ok out =>
    rw [done] at ran
    exact ⟨ran.1, fun quiet proper known given => ran.2 quiet proper known (seen s proper known given)⟩

namespace Context

/-- The body of a function, which is checked with its parameters in scope. -/
theorem paramsBody_sound (received : ctx.table.Received) (f : FuncDecl) :
    Sound ctx (fun _ => True) (do
      ctx.signature.params.forM fun p => declare p.name p.type
      let result := ctx.signature.result
      let _ ← recorded f.body.id (inferBlock ctx f.body (some result))
      match f.body.tail with
      | some value =>
        if let some found := (← get).notes.types.get? value.id then ctx.assign value result found
      | none =>
        if !f.body.endsInReturn && !result.isUnit then
          ctx.report .typeMismatch f.span
            (s!"function `{ctx.signature.name}` returns `{result.text}` "
              ++ "but its body produces no value")) fun _ s => s.Covers ctx f.body.nodes := by
  have result {s : State} (proper : ctx.Proper) : s.Knows ctx.signature.result :=
    proper.signature.result.mono List.nil_prefix
  have params : Sound ctx (fun _ => True) (ctx.signature.params.forM fun p => declare p.name p.type)
      fun _ _ => True :=
    forM_sound fun p member => (declare_sound p.name p.type).imp
      (fun _ proper _ => (proper.signature.params p member).mono List.nil_prefix) fun _ _ _ _ => trivial
  refine .bind params fun _ => ?_
  refine .step (block_sound received f.body _)
    (fun _ proper _ _ member => Option.some.inj member ▸ result proper) fun _ => ?_
  split
  next value _ =>
    refine get_sound
      (fun s s' => s'.Covers ctx f.body.nodes ∧ ∀ t, s.notes.types.get? value.id = some t → s'.Knows t)
      (fun s _ known given => ⟨given.2.2, fun t found => known.types _ (NodeTable.get?_mem found)⟩) fun s => ?_
    split
    next found entry =>
      exact (assign_sound value _ found).imp (fun _ proper given => ⟨result proper, given.2 found entry⟩)
        fun _ _ given _ => given.1
    · exact .pure fun _ _ given => given.1
  · exact closing_sound ((report_sound _ _ _).imp (fun _ _ given => given) fun _ _ _ _ => trivial)
      fun _ given => given.2.2

theorem checkBody_sound (received : ctx.table.Received) (f : FuncDecl) :
    Sound ctx (fun _ => True) (ctx.checkBody f) fun _ s => s.Covers ctx f.body.nodes := by
  have body := paramsBody_sound received f
  refine inScope_sound ?_
  cases own : ctx.signature.receiverType? with
  | some t =>
    refine .step (declare_sound "self" t)
      (fun _ proper _ => (proper.signature.receiverType own).mono List.nil_prefix) fun _ => ?_
    exact body.imp (fun _ _ _ => trivial) fun _ _ _ covered => covered
  | none => exact body

/-- Blocks that only return are bound to the unit type. -/
theorem settle_sound : Sound ctx P settle fun _ _ => True := by
  refine fun s => ⟨id, fun _ _ known _ => ?_⟩
  obtain ⟨first, same, grows⟩ := known.engine.default
  obtain ⟨last, still, further⟩ := first.settleUnits fun t member => same ▸ known.diverging t member
  have classes := still.trans same
  exact ⟨known.withEngine last classes,
    ⟨classes ▸ List.prefix_refl _, grows.trans further, .refl _, fun _ => id⟩, trivial⟩

theorem checkLiterals_sound [Lasting P] : Sound ctx P ctx.checkLiterals fun _ _ => True := by
  refine get_sound (fun _ => P) (fun _ _ _ given => given) fun s => forM_sound fun lit _ => ?_
  dsimp only
  split
  · exact (report_sound _ _ _).imp (fun _ _ given => given) fun _ _ _ _ => trivial
  · exact .pure fun _ _ _ => trivial

theorem checkCasts_sound [Lasting P] : Sound ctx P ctx.checkCasts fun _ _ => True := by
  refine get_sound (fun _ => P) (fun _ _ _ given => given) fun s => forM_sound fun cast _ => ?_
  dsimp only
  split
  · exact (add_sound _).imp (fun _ _ given => given) fun _ _ _ _ => trivial
  · exact .pure fun _ _ _ => trivial

/-- The types as they are resolved at the end. -/
def resolved (s : State) : State := { s with notes := { s.notes with
  types := s.notes.types.entries.map fun entry => (entry.1, s.engine.resolve entry.2)
  instantiations := NodeTable.map s.notes.instantiations (List.map s.engine.resolve) } }

theorem resolveTypes_eq (f : FuncDecl) (s : State) :
    ctx.resolveTypes f s = match (resolved s).notes.types.find? fun entry => entry.2.hasVars with
      | none => .ok ((), resolved s)
      | some (id, t) => ctx.add
          { kind := .unresolvedType, span := (f.body.spanOf? id).getD default
            message := s!"cannot infer a type for this expression (found `{t.text}`)"
            hint := "add a type annotation" } (resolved s) := by
  show (match (resolved s).notes.types.find? fun entry => entry.2.hasVars with
    | none => pure ()
    | some (id, t) => ctx.add _ : Check Unit) (resolved s) = _
  cases (resolved s).notes.types.find? fun entry => entry.2.hasVars <;> rfl

/-- What is found with types as they are resolved at the end. -/
theorem resolved_proper {s : State} (known : s.Proper) : (resolved s).Proper := by
  refine ⟨known.engine, fun entry member => ?_, known.scopes, known.diverging⟩
  obtain ⟨before, inside, rfl⟩ := List.mem_map.mp member
  exact known.engine.resolve (known.types before (NodeTable.mem_of_mem_entries inside))

theorem resolved_records {s : State} {id : Nat} (known : s.Records id) : (resolved s).Records id := by
  obtain ⟨entry, inside, rfl⟩ := NodeTable.get?_isSome_iff.mp known
  obtain ⟨kept, member, same⟩ := NodeTable.entries_covers inside
  exact NodeTable.get?_isSome_iff.mpr ⟨_, List.mem_map_of_mem member, same⟩

/-- All that is checked before types are resolved. -/
def prepare (ctx : Context) (f : FuncDecl) : Check Unit := do
  ctx.checkBody f
  settle
  ctx.checkLiterals
  ctx.checkCasts

theorem run_eq (f : FuncDecl) : ctx.run f = ctx.prepare f >>= fun _ => ctx.resolveTypes f := by
  simp [run, prepare, bind_assoc]

theorem prepare_sound (received : ctx.table.Received) (f : FuncDecl) :
    Sound ctx (fun _ => True) (ctx.prepare f) fun _ s => s.Covers ctx f.body.nodes := by
  refine .bind (checkBody_sound received f) fun _ => ?_
  refine .step settle_sound (fun _ _ _ => trivial) fun _ => ?_
  refine .step checkLiterals_sound (fun _ _ _ => trivial) fun _ => ?_
  exact checkCasts_sound.imp (fun _ _ _ => trivial) fun _ _ given _ => given.1.1.2

/-- The checks stop where the preparation does. -/
theorem run_stops {f : FuncDecl} {s : State} {failure : Failure} (stopped : ctx.run f s = .error failure) :
    ctx.prepare f s = .error failure := by
  rw [run_eq] at stopped
  change Except.bind (ctx.prepare f s) (fun (_, s) => ctx.resolveTypes f s) = .error failure at stopped
  cases ran : ctx.prepare f s with
  | error failure =>
    rw [ran] at stopped
    cases stopped
    rfl
  | ok out =>
    rw [ran] at stopped
    change ctx.resolveTypes f out.2 = .error failure at stopped
    rw [resolveTypes_eq] at stopped
    split at stopped <;> cases stopped

/-- A function that is accepted has no open type: the first node with one is reported. -/
theorem run_quiet {f : FuncDecl} {s s' : State} (done : ctx.run f s = .ok ((), s')) (quiet : s'.Quiet) :
    ∃ last, ctx.prepare f s = .ok ((), last) ∧ last.Quiet ∧ s' = resolved last ∧
      ∀ entry ∈ s'.notes.types, entry.2.hasVars = false := by
  rw [run_eq] at done
  obtain ⟨_, last, ran, done⟩ := ran_bind done
  rw [resolveTypes_eq] at done
  split at done
  next none =>
    cases done
    refine ⟨last, ran, quiet, rfl, fun entry member => ?_⟩
    simpa using List.find?_eq_none.mp none entry member
  · cases done
    exact (Bag.add_ne_nil _ _ quiet).elim

end Context

/-- The invariant holds at the start. -/
theorem State.Proper.start : State.Proper {} :=
  ⟨.new, List.forall_mem_nil _, List.forall_mem_nil _, List.forall_mem_nil _⟩

theorem check_of_signature {table : Table} {position : Nat} {f : FuncDecl} {signature : Signature}
    (own : table.signature? position f = some signature) : check table position f =
      match Context.run { table, signature } f {} with
      | .error failure => .error failure
      | .ok ((), s) => .ok { notes := s.notes, diagnostics := s.bag.items } := by
  unfold check
  rw [own]
  dsimp only [StateT.run]
  cases Context.run { table, signature } f {} <;> rfl

/-- Type checking stops only at an infinite type. -/
theorem check_infinite {table : Table} (received : table.Received) {position : Nat} {f : FuncDecl}
    {failure : Failure} (stopped : check table position f = .error failure) : Infinite failure := by
  cases own : table.signature? position f with
  | none =>
    rw [check, own] at stopped
    cases stopped
  | some signature =>
    have ran := (Context.prepare_sound received f : Sound { table, signature } _ _ _) {}
    rw [check_of_signature own] at stopped
    cases done : Context.run { table, signature } f {} with
    | error failure =>
      rw [Context.run_stops done] at ran
      rw [done] at stopped
      cases stopped
      exact ran
    | ok out =>
      rw [done] at stopped
      cases stopped

/-- No type of an accepted function is open, however the declarations were collected. -/
theorem check_typed {table : Table} {position : Nat} {f : FuncDecl} {result : Result}
    (checked : check table position f = .ok result) (accepted : result.diagnostics = []) (id : Nat) :
    (result.notes.typeOf id).isVar = false := by
  cases own : table.signature? position f with
  | none =>
    rw [check, own] at checked
    cases checked
    rfl
  | some signature =>
    rw [check_of_signature own] at checked
    cases done : Context.run { table, signature } f {} with
    | error failure =>
      rw [done] at checked
      cases checked
    | ok out =>
      rw [done] at checked
      cases checked
      obtain ⟨-, -, -, -, closed⟩ := Context.run_quiet done (Bag.items_eq_nil.mp accepted)
      unfold Annotations.typeOf
      cases found : out.2.notes.types.get? id with
      | none => rfl
      | some t =>
        have shut := closed (id, t) (NodeTable.get?_mem found)
        cases t <;> first | rfl | cases shut

/-- The state in which a function is accepted in a program that was collected without a report, before its types are
resolved: the checks of all nodes ran. -/
theorem check_prepared {p : Program} (collected : p.collect.2 = []) (named : p.Named) {f : FuncDecl} {position : Nat}
    (member : (f, position) ∈ p.functions.zipIdx) {result : Result}
    (checked : check p.collect.1 position f = .ok result) (accepted : result.diagnostics = []) :
    ∃ (ctx : Context) (last : State), ctx.table = p.collect.1 ∧
      p.collect.1.signature? position f = some ctx.signature ∧ ctx.Proper ∧ ctx.prepare f {} = .ok ((), last) ∧
      last.Quiet ∧ last.Proper ∧ last.Covers ctx f.body.nodes ∧ result.notes = (Context.resolved last).notes ∧
      ∀ entry ∈ result.notes.types, entry.2.hasVars = false := by
  obtain ⟨signature, own⟩ := p.collect_signature collected member
  have table := p.collect_proper named collected
  rw [check_of_signature own] at checked
  cases done : Context.run { table := p.collect.1, signature } f {} with
  | error failure =>
    rw [done] at checked
    cases checked
  | ok out =>
    rw [done] at checked
    cases checked
    obtain ⟨last, prepared, quiet, same, closed⟩ := Context.run_quiet done (Bag.items_eq_nil.mp accepted)
    have fits : Context.Proper { table := p.collect.1, signature } := ⟨table, table.signature own⟩
    have ran := (Context.prepare_sound p.collect_received f : Sound { table := p.collect.1, signature } _ _ _) {}
    rw [prepared] at ran
    obtain ⟨proper, -, covered⟩ := ran.2 quiet fits .start trivial
    exact ⟨{ table := p.collect.1, signature }, last, rfl, own, fits, prepared, quiet, proper, covered, by rw [same], closed⟩

/-- The state in which a function is accepted in a program that was collected without a report. -/
theorem check_proper {p : Program} (collected : p.collect.2 = []) (named : p.Named) {f : FuncDecl} {position : Nat}
    (member : (f, position) ∈ p.functions.zipIdx) {result : Result}
    (checked : check p.collect.1 position f = .ok result) (accepted : result.diagnostics = []) :
    ∃ s : State, result.notes = s.notes ∧ s.Proper ∧
      (∀ node ∈ f.body.nodes, ∀ id ∈ node.id?, s.Records id) ∧
      ∀ entry ∈ s.notes.types, entry.2.hasVars = false := by
  obtain ⟨ctx, last, -, -, -, -, -, proper, covered, same, closed⟩ :=
    check_prepared collected named member checked accepted
  exact ⟨Context.resolved last, same, Context.resolved_proper proper,
    fun node inside id own => Context.resolved_records ((covered node inside).records id own), same ▸ closed⟩

/-- The types of a function that is accepted in a program that was collected without a report: every expression
and every pattern has one, and there are no variables and no faults in them. -/
theorem check_closed {p : Program} (collected : p.collect.2 = []) (named : p.Named) {f : FuncDecl} {position : Nat}
    (member : (f, position) ∈ p.functions.zipIdx) {result : Result}
    (checked : check p.collect.1 position f = .ok result) (accepted : result.diagnostics = []) :
    (∀ e, .expr e ∈ f.body.nodes → (result.notes.types.get? e.id).isSome = true) ∧
      (∀ q, .pattern q ∈ f.body.nodes → (result.notes.types.get? q.id).isSome = true) ∧
      ∀ entry ∈ result.notes.types, entry.2.hasVars = false ∧ .invalid ∉ entry.2.parts := by
  obtain ⟨s, same, proper, covered, closed⟩ := check_proper collected named member checked accepted
  rw [same]
  refine ⟨fun e inside => covered _ inside _ rfl, fun q inside => covered _ inside _ rfl, fun entry inside =>
    ⟨closed entry inside, fun fault => ?_⟩⟩
  have suits := proper.types entry inside _ fault
  cases suits

def storing : FuncDecl :=
  { (default : FuncDecl) with
    name := "f"
    params := [{ name := "x", type := ⟨default, .named "i32" []⟩, mutable := false, span := default }]
    result := some ⟨default, .named "i32" []⟩
    body := .mk ⟨1, default⟩
      [.bind default (.binding ⟨⟨2, default⟩, "y", false⟩) none (some (.ident ⟨3, default⟩ "x"))]
      (some (.ident ⟨4, default⟩ "y")) }

def withStruct (name : String) (f : FuncDecl) : Program where
  language := "0.1.0"
  file := "t.yaml"
  items := [.struct ⟨name, [], [⟨"x", ⟨default, .named "bool" []⟩, default⟩], default⟩, .function f]

theorem check_closed_storing : ∃ result, check (withStruct "S" storing).collect.1 0 storing = .ok result ∧
    (∀ e, .expr e ∈ storing.body.nodes → (result.notes.types.get? e.id).isSome = true) ∧
      (∀ q, .pattern q ∈ storing.body.nodes → (result.notes.types.get? q.id).isSome = true) ∧
      ∀ entry ∈ result.notes.types, entry.2.hasVars = false ∧ .invalid ∉ entry.2.parts := by
  have collected : (withStruct "S" storing).collect.2 = [] := List.eq_nil_of_length_eq_zero (by decide +kernel)
  have named : (withStruct "S" storing).Named := by simp [Program.Named, withStruct, Item.typeName?]
  have accepted : (match check (withStruct "S" storing).collect.1 0 storing with
    | .ok result => result.diagnostics.isEmpty
    | .error _ => false) = true := by cbv
  split at accepted
  next result checked =>
    exact ⟨result, checked, check_closed collected named List.mem_cons_self checked (List.isEmpty_iff.mp accepted)⟩
  · cases accepted

def calling : FuncDecl :=
  { (default : FuncDecl) with
    name := "f"
    body := .mk ⟨1, default⟩ [.expr default (.methodCall ⟨2, default⟩
      (.struct ⟨3, default⟩ "" [.mk "x" default (.bool ⟨4, default⟩ true)]) "foo" [])] none }

/-- A struct without a name has no methods to look for, so a call of one is accepted, and its type is a
fault. -/
theorem check_accepts_fault : (withStruct "" calling).collect.2.length = 0 ∧
    ∃ result, check (withStruct "" calling).collect.1 0 calling = .ok result ∧
      result.diagnostics.length = 0 ∧ result.notes.types.get? 2 = some .invalid := by
  refine ⟨by decide +kernel, ?_⟩
  have faulty : (match check (withStruct "" calling).collect.1 0 calling with
    | .ok result => (result.diagnostics.length, (result.notes.types.get? 2).map Ty.isInvalid)
    | .error _ => (1, none)) = (0, some true) := by cbv
  split at faulty
  next result checked =>
    obtain ⟨quiet, fault⟩ := Prod.mk.inj faulty
    obtain ⟨t, found, fault⟩ := Option.map_eq_some_iff.mp fault
    cases t <;> cases fault
    exact ⟨result, checked, quiet, found⟩
  · cases faulty

end TreeCheck.Typing
