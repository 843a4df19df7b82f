import TreeCheck.Proofs.Typing.Checks

/-!
The steps of inference, one by one: each keeps the state proper, and a step that fails has reported it.
-/

namespace TreeCheck.Typing

variable {ctx : Context} {P : State → Prop}

/-! ### The state -/

/-- A step that leaves alone what the invariant speaks of. -/
theorem modify_sound {change : State → State} (engine : ∀ s, (change s).engine = s.engine)
    (notes : ∀ s, (change s).notes = s.notes) (scopes : ∀ s, (change s).scopes = s.scopes)
    (diverging : ∀ s, (change s).diverging = s.diverging) (bag : ∀ s, (change s).bag = s.bag)
    (casts : ∀ s, ∀ cast ∈ s.casts, cast ∈ (change s).casts) :
    Sound ctx P (modify change) fun _ _ => True := by
  intro s
  refine ⟨fun quiet => ?_, fun _ _ known _ => ⟨known.of_same (engine s) (by rw [notes]) ?_ ?_,
    .of_same (engine s) (notes s ▸ .refl _) (casts s), trivial⟩⟩
  · rwa [State.Quiet, bag] at quiet
  · rw [scopes]
    exact known.scopes
  · rw [diverging]
    exact known.diverging

theorem note_sound {change : Annotations → Annotations} (new : Annotations) (untyped : new.types = [])
    (added : ∀ a, change a = new.atop a) : Sound ctx P (note change) fun _ s => s.notes.Holds new := by
  intro s
  have types : (change s.notes).types = s.notes.types := by
    rw [added, Annotations.atop, untyped, List.nil_append]
  have held : (change s.notes).Holds new := added s.notes ▸ Annotations.holds_atop new s.notes
  exact ⟨id, fun _ _ known _ => ⟨known.of_same rfl types known.scopes known.diverging,
    .of_same rfl ⟨new, added s.notes⟩ fun _ => id, held⟩⟩

theorem coerce_notes (id : Nat) (coercion : Coercion) :
    Sound ctx P (coerce id coercion) fun _ s => s.notes.Holds { coercions := [(id, coercion)] } :=
  note_sound _ rfl fun _ => rfl

theorem coerce_noted (id : Nat) (coercion : Coercion) :
    Sound ctx P (coerce id coercion) fun _ s => (id, coercion) ∈ s.notes.coercions :=
  (coerce_notes id coercion).consequence (fun _ _ given => given) fun _ _ held => by
    obtain ⟨old, early⟩ := held
    exact early.coercions List.mem_cons_self

theorem coerce_sound (id : Nat) (coercion : Coercion) : Sound ctx P (coerce id coercion) fun _ _ => True :=
  (coerce_notes id coercion).forget

theorem variant_noted (id : Nat) (found : VariantRef) :
    Sound ctx P (note fun a => { a with variants := a.variants.insert id found })
      fun _ s => (id, found) ∈ s.notes.variants :=
  (note_sound { variants := [(id, found)] } rfl fun _ => rfl).consequence (fun _ _ given => given) fun _ _ held => by
    obtain ⟨old, early⟩ := held
    exact early.variants List.mem_cons_self

theorem instantiated_sound (id : Nat) (args : List Ty) : Sound ctx P (instantiated id args) fun _ _ => True := by
  unfold instantiated
  split
  · exact .pure fun _ _ _ => trivial
  · exact (note_sound { instantiations := [(id, args)] } rfl fun _ => rfl).forget

theorem pendLiteral_sound (id : Nat) (span : Span) (value : Int) :
    Sound ctx P (pendLiteral id span value) fun _ _ => True :=
  modify_sound (fun _ => rfl) (fun _ => rfl) (fun _ => rfl) (fun _ => rfl) (fun _ => rfl)
    fun _ _ member => member

theorem negateLiteral_sound (id : Nat) (span : Span) (value : Int) :
    Sound ctx P (negateLiteral id span value) fun _ _ => True :=
  modify_sound (fun _ => rfl) (fun _ => rfl) (fun _ => rfl) (fun _ => rfl) (fun _ => rfl)
    fun _ _ member => member

theorem pendCast_sound (cast : PendingCast) : Sound ctx P (modify fun s => { s with casts := s.casts ++ [cast] })
    fun _ s => cast ∈ s.casts := fun _ =>
  ⟨id, fun _ _ known _ => ⟨known.of_same rfl rfl known.scopes known.diverging,
    .of_same rfl (.refl _) fun _ => List.mem_append_left _, List.mem_append_right _ (List.mem_singleton_self _)⟩⟩

theorem record_sound (id : Nat) (t : Ty) :
    Sound ctx (fun s => s.Knows t) (record id t) fun _ s => (id, t) ∈ s.notes.types := by
  intro s
  refine ⟨fun quiet => quiet, fun _ _ known given => ⟨⟨known.engine, ?_, known.scopes, known.diverging⟩,
    .of_same rfl ⟨{ types := [(id, t)] }, rfl⟩ fun _ member => member, List.mem_cons_self⟩⟩
  exact List.forall_mem_cons.mpr ⟨given, known.types⟩

/-- A node is given the type that is found for it. -/
theorem recorded_sound [Lasting P] (e : Expr) {nodes : List TreeNode} {check : Check Ty}
    (sound : Sound ctx P check fun t s => s.Knows t ∧ s.Covers ctx nodes) :
    Sound ctx P (recorded e.id check) fun t s => s.Knows t ∧ s.Records e.id ∧ s.Covers ctx nodes := by
  refine .bind sound fun t => ?_
  refine .step (record_sound e.id t) (fun _ _ given => given.2.1) fun _ => ?_
  exact .pure fun _ _ given => ⟨given.1.2.1, .of_mem given.2, given.1.2.2⟩

/-- A report is there from then on. -/
theorem add_sound (d : Diagnostic) : Sound ctx P (ctx.add d) fun _ _ => False := by
  have loud (s : State) : ¬ State.Quiet { s with bag := s.bag.add { d with function := ctx.signature.name } } :=
    Bag.add_ne_nil _ _
  exact fun s => ⟨fun quiet => (loud s quiet).elim, fun quiet => (loud s quiet).elim⟩

theorem report_sound (kind : Diagnostic.Kind) (span : Span) (message : String) :
    Sound ctx P (ctx.report kind span message) fun _ _ => False :=
  add_sound _

/-- After a report anything may be answered. -/
theorem add_then [Lasting P] {α : Type} {Q : α → State → Prop} (d : Diagnostic) (a : α) :
    Sound ctx P (do ctx.add d; return a) Q :=
  .bind (add_sound d) fun _ => .pure fun _ _ given => given.2.elim

theorem report_then [Lasting P] {α : Type} {Q : α → State → Prop} (kind : Diagnostic.Kind) (span : Span)
    (message : String) (a : α) : Sound ctx P (do ctx.report kind span message; return a) Q :=
  add_then _ a

/-! ### Scopes -/

theorem push_sound : Sound ctx P push fun _ _ => True := fun _ =>
  ⟨id, fun _ _ known _ => ⟨known.of_same rfl rfl
    (List.forall_mem_cons.mpr ⟨List.forall_mem_nil _, known.scopes⟩) known.diverging,
    .of_same rfl (.refl _) fun _ => id, trivial⟩⟩

theorem pop_sound : Sound ctx P pop fun scope s => ∀ entry ∈ scope, s.Knows entry.2 := by
  intro s
  refine ⟨id, fun _ _ known _ => ⟨known.of_same rfl rfl ?_ known.diverging, .of_same rfl (.refl _) fun _ => id, ?_⟩⟩
  · exact fun scope inside => known.scopes scope (List.mem_of_mem_tail inside)
  · have scopes := known.scopes
    cases listed : s.scopes with
    | nil => simp
    | cons scope outer =>
      rw [listed] at scopes
      exact scopes scope List.mem_cons_self

theorem inScope_sound {α : Type} [Lasting P] {check : Check α} {Q : α → State → Prop} [∀ a, Lasting (Q a)]
    (sound : Sound ctx P check Q) : Sound ctx P (inScope check) Q := by
  refine .bind push_sound fun _ => ?_
  refine .step sound (fun _ _ given => given.1) fun a => ?_
  refine .bind pop_sound fun _ => ?_
  exact .pure fun _ _ given => given.1.2

theorem knows_declared {s : State} {name : String} {t : Ty} {scopes : List (List (String × Ty))}
    (known : ∀ scope ∈ scopes, ∀ entry ∈ scope, s.Knows entry.2) (given : s.Knows t) :
    ∀ scope ∈ (match scopes with
      | [] => [[(name, t)]]
      | scope :: outer => ((name, t) :: scope) :: outer), ∀ entry ∈ scope, s.Knows entry.2 := by
  cases scopes with
  | nil => simpa using given
  | cons scope outer =>
    obtain ⟨first, others⟩ := List.forall_mem_cons.mp known
    exact List.forall_mem_cons.mpr ⟨List.forall_mem_cons.mpr ⟨given, first⟩, others⟩

theorem declare_sound (name : String) (t : Ty) :
    Sound ctx (fun s => s.Knows t) (declare name t) fun _ _ => True := by
  intro s
  refine ⟨id, fun _ _ known given => ⟨?_, .of_same rfl (.refl _) fun _ => id, trivial⟩⟩
  exact known.of_same rfl rfl (knows_declared known.scopes given) known.diverging

/-- What a name in scope stands for. -/
theorem lookup?_sound (name : String) : Sound ctx P (lookup? name) fun r s => ∀ t ∈ r, s.Knows t := by
  intro s
  refine ⟨id, fun _ _ known _ => ⟨known, .refl s, fun t found => ?_⟩⟩
  obtain ⟨entry, here, rfl⟩ := Option.map_eq_some_iff.mp found
  obtain ⟨scope, member, inside⟩ := List.exists_of_findSome?_eq_some here
  exact known.scopes scope member entry (List.mem_of_find?_eq_some inside)

/-! ### Types -/

theorem fresh_sound (literal : LiteralClass) : Sound ctx P (fresh literal) fun t s => s.Knows t := by
  intro s
  have longer : s.engine.classes <+: s.engine.classes ++ [literal] := List.prefix_append _ _
  refine ⟨id, fun _ _ known _ =>
    ⟨⟨known.engine.more [literal], ?_, ?_, ?_⟩, ⟨longer, .refl _, .refl _, fun _ => id⟩, ?_⟩⟩
  · exact fun entry inside => (known.types entry inside).mono longer
  · exact fun scope member entry inside => (known.scopes scope member entry inside).mono longer
  · exact fun t inside => (known.diverging t inside).mono longer
  · exact Ty.proper_var.mpr ⟨_, rfl, by simp⟩

theorem freshAll_proper (e : Engine) (count : Nat) :
    (e.freshAll count).1.length = count ∧ ∀ t ∈ (e.freshAll count).1, t.Proper (e.freshAll count).2.classes := by
  induction count generalizing e with
  | zero => simp [Engine.freshAll]
  | succ count ih =>
    obtain ⟨sized, each⟩ := ih (e.fresh .general).2
    refine ⟨congrArg Nat.succ sized, List.forall_mem_cons.mpr ⟨?_, each⟩⟩
    have first : (e.fresh .general).1.Proper (e.fresh .general).2.classes :=
      Ty.proper_var.mpr ⟨_, rfl, by simp [Engine.fresh]⟩
    refine first.mono ?_
    rw [Engine.freshAll, Engine.freshAll_eq]
    exact List.prefix_append _ _

theorem freshAll_sound {α : Type} (params : List α) : Sound ctx P (freshAll params)
    fun types s => types.length = params.length ∧ ∀ t ∈ types, s.Knows t := by
  intro s
  obtain ⟨sized, each⟩ := freshAll_proper s.engine params.length
  have after := Engine.freshAll_eq s.engine params.length
  have longer : s.engine.classes <+: (s.engine.freshAll params.length).2.classes := by
    rw [after]
    exact List.prefix_append _ _
  refine ⟨id, fun _ _ known _ => ⟨⟨?_, ?_, ?_, ?_⟩, ⟨longer, ?_, .refl _, fun _ => id⟩, sized, each⟩⟩
  · rw [show (s.engine.freshAll params.length).2 = _ from after]
    exact known.engine.more _
  · exact fun entry inside => (known.types entry inside).mono longer
  · exact fun scope member entry inside => (known.scopes scope member entry inside).mono longer
  · exact fun t inside => (known.diverging t inside).mono longer
  · rw [after]
    exact .refl _

theorem shallow_sound (t : Ty) : Sound ctx (fun s => s.Knows t) (shallow t) fun known s => s.Knows known :=
  fun s => ⟨id, fun _ _ known given => ⟨known, .refl s, known.engine.shallow given⟩⟩

theorem shallow?_sound (t : Option Ty) : Sound ctx (fun s => ∀ known ∈ t, s.Knows known) (shallow? t)
    fun r s => ∀ known ∈ r, s.Knows known := by
  cases t with
  | none => exact .pure fun _ _ _ _ member => by cases member
  | some t =>
    intro s
    refine ⟨id, fun _ _ known given => ⟨known, .refl s, fun u member => ?_⟩⟩
    cases member
    exact known.engine.shallow (given t rfl)

theorem derefWithin_proper {e : Engine} (proper : e.Proper) (fuel : Nat) {t : Ty}
    (known : t.Proper e.classes) : (derefWithin e fuel t).1.Proper e.classes := by
  induction fuel generalizing t with
  | zero => exact proper.shallow known
  | succ fuel ih =>
    have outer := proper.shallow known
    rw [derefWithin]
    split
    next mutable target seen =>
      rw [seen, Ty.proper_ref] at outer
      exact ih outer
    · exact outer

theorem deref_sound (t : Ty) : Sound ctx (fun s => s.Knows t) (deref t) fun r s => s.Knows r.1 :=
  fun s => ⟨id, fun _ _ known given => ⟨known, .refl s, derefWithin_proper known.engine _ given⟩⟩

/-- A new engine that has only seen proper types. -/
theorem State.Proper.withEngine {s : State} (known : s.Proper) {e : Engine} (proper : e.Proper)
    (classes : e.classes = s.engine.classes) : State.Proper { s with engine := e } where
  engine := proper
  types := fun entry inside => by
    unfold State.Knows
    rw [classes]
    exact known.types entry inside
  scopes := fun scope member entry inside => by
    unfold State.Knows
    rw [classes]
    exact known.scopes scope member entry inside
  diverging := fun t inside => by
    unfold State.Knows
    rw [classes]
    exact known.diverging t inside

theorem Engine.unify_infinite {e : Engine} {a b : Ty} {defect : Defect}
    (stopped : (e.unify a b).2 = some (.infinite defect)) : Infinite (.defect defect) := by
  have occurs := Subst.unify_infinite (e.fuel a b) e.bindings a b
  simp only [Engine.unify] at stopped
  split at stopped
  · cases stopped
  · cases stopped
  next clashed =>
    cases stopped
    obtain ⟨var, type, rfl⟩ := occurs _ clashed
    exact ⟨var, type, rfl⟩

theorem throw_sound {α : Type} {Q : α → State → Prop} {failure : Failure} (infinite : Infinite failure) :
    Sound ctx P (throw failure) Q :=
  fun _ => infinite

theorem throw_then {α β : Type} {Q : β → State → Prop} {failure : Failure} (infinite : Infinite failure)
    (next : α → Check β) : Sound ctx P (throw failure >>= next) Q :=
  fun _ => infinite

theorem engine_sound {α ε : Type} [Lasting P] (operation : Engine → Engine × ε) (next : ε → Check α)
    {Q : α → State → Prop}
    (keeps : ∀ s : State, s.Proper → P s → (operation s.engine).1.Proper ∧
      (operation s.engine).1.classes = s.engine.classes ∧
      s.engine.bindings.Grows (operation s.engine).1.bindings)
    (rest : ∀ e, Sound ctx P (next (operation e).2) Q) :
    Sound ctx P (do
      let s ← get
      set { s with engine := (operation s.engine).1 }
      next (operation s.engine).2) Q := by
  intro s
  have rested := rest s.engine { s with engine := (operation s.engine).1 }
  have goesOn : (do
      let s ← get
      set { s with engine := (operation s.engine).1 }
      next (operation s.engine).2 : Check α) s =
        next (operation s.engine).2 { s with engine := (operation s.engine).1 } := rfl
  rw [goesOn]
  cases ran : next (operation s.engine).2 { s with engine := (operation s.engine).1 } with
  | error failure =>
    rw [ran] at rested
    exact rested
  | ok out =>
    rw [ran] at rested
    refine ⟨rested.1, fun quiet proper known given => ?_⟩
    obtain ⟨engine, classes, grows⟩ := keeps s known given
    have before : s.Before { s with engine := (operation s.engine).1 } :=
      ⟨classes ▸ List.prefix_refl _, grows, .refl _, fun _ => id⟩
    obtain ⟨known, after, found⟩ := rested.2 quiet proper (known.withEngine engine classes)
      (Lasting.lasts before given)
    exact ⟨known, before.trans after, found⟩

/-- What is done with the answer of a unification: whether it worked. -/
def Context.unified (ctx : Context) (span : Span) : Option UnifyError → Check Bool
  | none => return true
  | some (.infinite defect) => throw (.defect defect)
  | some (.mismatch expected found) => do
    ctx.report .typeMismatch span
      s!"mismatched types: expected `{expected.text}`, found `{found.text}`"
    return false

/-- Two types that cannot be made equal are reported. -/
theorem unify_sound (span : Span) (a b : Ty) :
    Sound ctx (fun s => s.Knows a ∧ s.Knows b) (ctx.unify span a b) fun worked _ => worked = true := by
  refine engine_sound (fun e => e.unify a b) (ctx.unified span)
    (fun s known given => known.engine.unify given.1 given.2) fun e => ?_
  rcases error : (e.unify a b).2 with _ | ⟨expected, found⟩ | defect
  · exact .pure fun _ _ _ => rfl
  · exact report_then _ _ _ _
  · exact throw_sound (Engine.unify_infinite error)

/-- What is done with the answer of an assignment: how the value is converted. -/
def Context.assigned (ctx : Context) (e : Expr) (answer : Coercion × Option UnifyError) : Check Unit :=
  match answer.2 with
  | none => do if answer.1 != .none then coerce e.id answer.1
  | some (.infinite defect) => throw (.defect defect)
  | some (.mismatch expected found) =>
    ctx.report .typeMismatch e.span
      s!"mismatched types: expected `{expected.text}`, found `{found.text}`"

/-- A value that cannot be stored where a type is required is reported. -/
theorem assign_sound (e : Expr) (expected found : Ty) :
    Sound ctx (fun s => s.Knows expected ∧ s.Knows found) (ctx.assign e expected found) fun _ _ => True := by
  have infinite {engine : Engine} {defect : Defect}
      (stopped : (engine.assign expected found).2.2 = some (.infinite defect)) : Infinite (.defect defect) := by
    unfold Engine.assign at stopped
    split at stopped
    · cases stopped
    · exact Engine.unify_infinite stopped
  refine engine_sound (fun engine => engine.assign expected found) (ctx.assigned e)
    (fun s known given => known.engine.assign given.1 given.2) fun engine => ?_
  unfold Context.assigned
  rcases error : (engine.assign expected found).2.2 with _ | ⟨expected, found⟩ | defect
  · dsimp only
    split
    · exact coerce_sound _ _
    · exact .pure fun _ _ _ => trivial
  · exact (report_sound _ _ _).imp (fun _ _ given => given) fun _ _ _ _ => trivial
  · exact throw_sound (infinite error)

def Context.Reads (ctx : Context) (written : WrittenType) (t : Ty) : Prop :=
  ctx.table.decls.resolve ctx.signature.typeParams written.span written.type = (t, [])

/-- A written type that is read without a report means a type that is closed and proper. -/
theorem resolve_sound (t : WrittenType) : Sound ctx P (ctx.resolve t) fun type _ =>
    type.Proper [] ∧ ctx.Reads t type := by
  intro s
  change (State.Quiet { s with bag := s.bag.addAll _ } → s.Quiet) ∧ _
  have quiet {ds : List Diagnostic} (quiet : State.Quiet { s with bag := s.bag.addAll ds }) :=
    Bag.addAll_eq_nil.mp quiet
  refine ⟨fun after => (quiet after).1, fun after proper known _ =>
    ⟨known.of_same rfl rfl known.scopes known.diverging, .of_same rfl (.refl _) fun _ => id, ?_⟩⟩
  have none := List.map_eq_nil_iff.mp (quiet after).2
  exact ⟨proper.table.decls.resolve ctx.signature.typeParams t.span t.type none, Prod.ext rfl none⟩

theorem require_sound (span : Span) (operator : String) (t : Ty) (r : Requirement) :
    Sound ctx (fun s => s.Knows t) (ctx.require span operator t r) fun _ _ => True := by
  refine .bind (shallow_sound t) fun known => ?_
  split
  · exact (report_sound _ _ _).imp (fun _ _ given => given) fun _ _ _ _ => trivial
  · exact .pure fun _ _ _ => trivial

end TreeCheck.Typing
