import TreeCheck.Proofs.Ownership.Accepted

/-!
The checks of functions. A function starts without variables, and its parameters are declared first; so a
function with a parameter has a variable that all paths through it number alike.
-/

namespace TreeCheck.Ownership

namespace Code

variable {ctx : Context} {declares : Bool}

/-- Code that declares the first variable of a function. -/
def Anchors (ctx : Context) (c : Code) : Prop :=
  ∀ ⦃m after : Machine⦄, m.ledger.Regular → m.ledger.vars = [] →
    (c.run ctx m = .ok after ∨ Path ctx anyRounds c m after true) → after.ledger.Anchored

theorem anchors_param {name : String} {type : Ty} {mutable : Bool} {span : Span} :
    (Code.step (.param name type mutable span)).Anchors ctx := by
  intro m after regular fresh reached
  have ran : (Step.param name type mutable span).run ctx m = .ok after := by
    rcases reached with ran | path
    · rwa [run] at ran
    · cases path with
      | step applied => exact applied
  obtain ⟨l, done, rfl⟩ := Machine.perform_ok.mp ran
  have changed := Own.run_modify_ok.mp done
  obtain ⟨scope, shape⟩ := Ledger.declare_eq regular.named name type mutable span
  rw [shape, fresh] at changed
  subst changed
  have empty : m.ledger.env = [] := by
    refine List.eq_nil_iff_forall_not_mem.mpr fun x member => ?_
    simpa [fresh] using regular.declared x member
  have env : (addNames [(name, 0)] m.ledger.scopes).flatMap Scope.names = _ :=
    flatMap_addNames regular.nameless regular.named
  rw [← Ledger.env, empty] at env
  simp [Ledger.Anchored, Ledger.env, env, slotIn]

theorem Anchors.seq {first next : Code} (anchors : first.Anchors ctx) (start : Tidy declares first)
    (rest : Tidy declares next) : (Code.seq first next).Anchors ctx := by
  intro m after regular fresh reached
  rcases reached with ran | path
  · obtain ⟨middle, early, late⟩ := run_seq_ok ran
    have result := start.ran (fun _ => regular.named) early
    have middleRegular := result.grows.regular regular (result.balanced regular.balanced)
    exact (rest.ran (fun _ => middleRegular.named) late).grows.anchored middleRegular
      (anchors regular fresh (.inl early))
  · cases path with
    | seq early late =>
      have middleRegular := early.regular start regular
      exact ((late.followed rest fun _ => middleRegular.named).grows rfl).anchored middleRegular
        (anchors regular fresh (.inr early))

theorem Anchors.afterSkip {next : Code} (anchors : next.Anchors ctx) :
    (Code.seq .skip next).Anchors ctx := by
  intro m after regular fresh reached
  rcases reached with ran | path
  · obtain ⟨middle, early, late⟩ := run_seq_ok ran
    cases early
    exact anchors regular fresh (.inl late)
  · cases path with
    | seq early late =>
      cases early
      exact anchors regular fresh (.inr late)

end Code

namespace Context

/-- A function that has a receiver or another parameter. -/
def HasParameter (ctx : Context) : Prop :=
  ctx.signature.receiverType?.isSome = true ∨ ctx.signature.params ≠ []

theorem anchors_paramsCode {ctx : Context} (parameter : ctx.HasParameter) (f : FuncDecl) :
    (ctx.paramsCode f).Anchors ctx := by
  have others := (Code.tidy_seq.mp (tidy_paramsCode ctx f)).2
  unfold paramsCode
  cases receiver : ctx.signature.receiverType? with
  | some t => exact Code.anchors_param.seq (by simp) others
  | none =>
    refine Code.Anchors.afterSkip ?_
    cases params : ctx.signature.params with
    | nil => simp [HasParameter, receiver, params] at parameter
    | cons p rest =>
      rw [params] at others
      cases more : rest.zipIdx 1 with
      | nil => simpa [Code.all, more] using Code.anchors_param
      | cons q further =>
        simp only [List.zipIdx_cons, Nat.zero_add, more, List.map_cons, Code.all,
          Code.tidy_seq] at others ⊢
        exact Code.anchors_param.seq (by simp) others.2

theorem rooted_paramsCode (ctx : Context) (f : FuncDecl) : (ctx.paramsCode f).Each Step.Rooted := by
  refine .seq ?_ (Code.each_all fun c member => ?_)
  · split
    · exact .step trivial
    · exact .skip
  · obtain ⟨x, -, rfl⟩ := List.mem_map.mp member
    exact .step trivial

/-- Whether the place that a borrow in a function starts at is known by name, or a parameter stands in for
it. -/
def RootsKnown (ctx : Context) (f : FuncDecl) : Prop :=
  ctx.HasParameter ∨ (ctx.functionCode f).Each Step.Rooted

end Context

theorem Code.Each.body {ctx : Context} {f : FuncDecl} {property : Step → Prop}
    (each : (ctx.functionCode f).Each property) : (ctx.bodyCode f).Each property := by
  rw [functionCode_eq] at each
  cases each with
  | scope each =>
    cases each with
    | seq _ each => exact each

/-- The ledger of a function before its parameters are declared. -/
theorem regular_start (span : Span) : (({} : Machine).enter false span).ledger.Regular := by
  refine ⟨rfl, by simp [Ledger.env, Machine.enter, Ledger.push], ?_, ?_, Ledger.named_push _ _⟩
  · simp [Ledger.env, Machine.enter, Ledger.push]
  · simp [Machine.enter, Ledger.push]

/-- What a function is checked against. -/
def contextOf (table : Table) (signature : Signature) (f : FuncDecl) (notes : Typing.Annotations) :
    Context :=
  { decls := table.decls, signature, function := f.qualifiedName, notes }

theorem check_ok {table : Table} {position : Nat} {f : FuncDecl} {notes : Typing.Annotations}
    {signature : Signature} {result : Result} (declared : table.signature? position f = some signature)
    (checked : check table position f notes = .ok result) :
    ∃ l, ((contextOf table signature f notes).run f).run {} = .ok ((), l) ∧
      result.diagnostics = l.bag.items := by
  simp only [check, declared] at checked
  obtain ⟨⟨⟨⟩, l⟩, ran, ended⟩ := bind_ok.mp checked
  cases ended
  exact ⟨l, ran, rfl⟩

theorem quiet_of_map {checked : Except Failure Result} (quiet : checked.map Result.diagnostics = .ok []) :
    ∃ result, checked = .ok result ∧ result.diagnostics = [] := by
  cases checked with
  | error failure => cases quiet
  | ok result => exact ⟨result, rfl, Except.ok.inj quiet⟩

def Context.insideCode (ctx : Context) (f : FuncDecl) : Code :=
  .seq (ctx.paramsCode f) (ctx.bodyCode f)

theorem tidy_insideCode (ctx : Context) (f : FuncDecl) : (ctx.insideCode f).Tidy true :=
  .seq (tidy_paramsCode ctx f) (tidy_bodyCode ctx f).mayDeclare

/-- A function that is checked without a diagnostic has a run inside its scope that reports nothing. -/
theorem check_accepted {table : Table} {position : Nat} {f : FuncDecl} {notes : Typing.Annotations}
    {signature : Signature} {result : Result} (declared : table.signature? position f = some signature)
    (checked : check table position f notes = .ok result) (accepted : result.diagnostics = []) :
    ∃ inner, Code.Accepted (contextOf table signature f notes)
      ((contextOf table signature f notes).insideCode f) (({} : Machine).enter false f.span) inner := by
  obtain ⟨l, ran, diagnostics⟩ := check_ok declared checked
  generalize contextOf table signature f notes = ctx at *
  have quiet : l.Quiet := by
    have sorted : l.bag.items.Perm l.bag.contents := List.mergeSort_perm _ _
    rw [← diagnostics, accepted] at sorted
    exact sorted.nil_eq.symm
  have ran : (ctx.functionCode f).run ctx {} = .ok { ledger := l } := by
    rw [performs_functionCode ctx f, ran]
    rfl
  rw [functionCode_eq] at ran
  obtain ⟨inner, innerRan, exited⟩ := Code.run_scope_ok ran
  have innerQuiet : inner.ledger.Quiet := by
    have same : inner.exit.ledger = l := by rw [exited]
    rw [← same] at quiet
    simpa [Ledger.Quiet, Machine.exit] using quiet
  exact ⟨inner, regular_start f.span, rfl, innerRan, innerQuiet⟩

/-- A function that is checked without a diagnostic has no path that reports a kind of diagnostic first, if
no path inside its scope does so beside an accepted run; the paths may be those of other code. -/
theorem check_lead {table : Table} {position : Nat} {f : FuncDecl} {notes : Typing.Annotations}
    {signature : Signature} {result : Result} {limit : RoundLimit} {kind : Diagnostic.Kind} {other : Code}
    (declared : table.signature? position f = some signature)
    (checked : check table position f notes = .ok result) (accepted : result.diagnostics = [])
    (spared : ∀ (inner stop : Machine) (ends : Bool),
      Code.Accepted (contextOf table signature f notes)
        ((contextOf table signature f notes).insideCode f) (({} : Machine).enter false f.span) inner →
      Path (contextOf table signature f notes) limit other (({} : Machine).enter false f.span) stop ends →
        stop.ledger.lead ≠ some kind)
    {after : Machine} {ends : Bool}
    (path : Path (contextOf table signature f notes) limit (.scope false f.span other) {} after ends) :
    after.ledger.lead ≠ some kind := by
  obtain ⟨inner, run⟩ := check_accepted declared checked accepted
  cases path with
  | cut => simp [Ledger.lead]
  | @scope _ _ _ _ stop _ path =>
    have lead : stop.exit.ledger.lead = stop.ledger.lead := by simp [Ledger.lead, Machine.exit]
    rw [lead]
    exact spared inner stop ends run path

end TreeCheck.Ownership
