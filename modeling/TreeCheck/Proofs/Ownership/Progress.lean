import TreeCheck.Proofs.Ownership.Execution
import TreeCheck.Proofs.Ownership.Intact

/-!
Rules that end. No rule fails on an intact ledger, as long as the variable it acts on is there and the types
of all nodes are known.
-/

namespace TreeCheck.Ownership

variable {α β : Type} {l after : Ledger}

namespace Own

/-- What is done ends on a ledger, and leaves an intact one behind. -/
def Ends (x : Own α) (l : Ledger) (result : α → Ledger → Prop) : Prop :=
  ∃ a after, x.run l = .ok (a, after) ∧ after.Intact ∧ l.Precedes after ∧ result a after

def Reads (x : Own α) (l : Ledger) (known : α → Prop) : Prop := ∃ a, x.run l = .ok (a, l) ∧ known a

/-- Nothing is said about the result. -/
abbrev anything (_ : α) (_ : Ledger) : Prop := True

variable {P : α → Ledger → Prop} {Q : β → Ledger → Prop} {known : α → Prop} {other : β → Prop}

theorem Ends.pure {b : β} (intact : l.Intact) (holds : Q b l) : (Pure.pure b : Own β).Ends l Q :=
  ⟨b, l, rfl, intact, .refl l, holds⟩

theorem Ends.bind {x : Own α} {f : α → Own β} (first : x.Ends l P)
    (next : ∀ a middle, middle.Intact → l.Precedes middle → P a middle → (f a).Ends middle Q) :
    (x >>= f).Ends l Q := by
  obtain ⟨a, middle, ran, intact, precedes, known⟩ := first
  obtain ⟨b, after, rest, done, later, holds⟩ := next a middle intact precedes known
  exact ⟨b, after, run_bind_ok.mpr ⟨a, middle, ran, rest⟩, done, precedes.trans later, holds⟩

theorem Reads.bind {x : Own α} {f : α → Own β} (reads : x.Reads l known)
    (next : ∀ a, known a → (f a).Ends l Q) : (x >>= f).Ends l Q := by
  obtain ⟨a, ran, holds⟩ := reads
  obtain ⟨b, after, rest, ended⟩ := next a holds
  exact ⟨b, after, run_bind_ok.mpr ⟨a, l, ran, rest⟩, ended⟩

theorem Reads.ends {x : Own α} (reads : x.Reads l known) (intact : l.Intact)
    (implies : ∀ a, known a → P a l) : x.Ends l P := by
  obtain ⟨a, ran, holds⟩ := reads
  exact ⟨a, l, ran, intact, .refl l, implies a holds⟩

theorem Reads.pure {a : α} (holds : known a) : (Pure.pure a : Own α).Reads l known := ⟨a, rfl, holds⟩

theorem Reads.andReads {x : Own α} {f : α → Own β} (reads : x.Reads l known)
    (next : ∀ a, known a → (f a).Reads l other) : (x >>= f).Reads l other := by
  obtain ⟨a, ran, holds⟩ := reads
  obtain ⟨b, rest, found⟩ := next a holds
  exact ⟨b, run_bind_ok.mpr ⟨a, l, ran, rest⟩, found⟩

theorem get_reads : (get : Own Ledger).Reads l (· = l) := ⟨l, run_get_ok.mpr ⟨rfl, rfl⟩, rfl⟩

theorem Ends.edit {change : Ledger → Ledger} {result : Unit → Ledger → Prop} (intact : (change l).Intact)
    (precedes : l.Precedes (change l)) (holds : result () (change l)) :
    (modify change : Own Unit).Ends l result :=
  ⟨(), change l, run_modify_ok.mpr rfl, intact, precedes, holds⟩

/-- A change that nothing refers to. -/
theorem Ends.touched {change : Ledger → Ledger} (intact : l.Intact)
    (vars : (change l).vars.length = l.vars.length) (loans : (change l).loans = l.loans)
    (scopes : (change l).scopes = l.scopes) (flow : (change l).flow = l.flow) :
    (modify change : Own Unit).Ends l anything :=
  .edit (intact.of_eq vars loans scopes flow) (.of_eq vars loans) trivial

theorem Ends.forM {f : α → Own Unit} {xs : List α} (intact : l.Intact)
    (each : ∀ a ∈ xs, ∀ middle, middle.Intact → l.Precedes middle → (f a).Ends middle anything) :
    (xs.forM f).Ends l anything := by
  induction xs generalizing l with
  | nil => exact .pure intact trivial
  | cons a xs ih =>
    obtain ⟨first, rest⟩ := List.forall_mem_cons.mp each
    refine .bind (first l intact (.refl l)) fun _ middle done precedes _ => ih done ?_
    exact fun b member later further follows => rest b member later further (precedes.trans follows)

end Own

/-! ### Reading the ledger -/

section Reading

variable {id : Nat}

theorem var_reads (inside : id < l.vars.length) : (var id).Reads l fun v => l.vars[id]? = some v := by
  refine Own.get_reads.andReads fun current here => ?_
  subst here
  rw [List.getElem?_eq_getElem inside]
  exact .pure rfl

theorem varFlow_reads (intact : l.Intact) (inside : id < l.vars.length) :
    (varFlow id).Reads l fun v => l.Has v.holds := by
  refine Own.get_reads.andReads fun current here => ?_
  subst here
  rw [List.getElem?_eq_getElem (Nat.lt_of_lt_of_le inside intact.full)]
  exact .pure (intact.flow.holds _ (List.getElem_mem _))

theorem stateOf_reads (intact : l.Intact) (inside : id < l.vars.length) :
    (stateOf id).Reads l fun _ => True := by
  refine Own.get_reads.andReads fun current here => ?_
  subst here
  rw [List.getElem?_eq_getElem (Nat.lt_of_lt_of_le inside intact.full)]
  exact .pure trivial

theorem held_reads (intact : l.Intact) (inside : id < l.vars.length) :
    (held id).Reads l fun origins => l.Has origins :=
  (varFlow_reads intact inside).andReads fun _ has => .pure has

theorem held_ends (intact : l.Intact) (inside : id < l.vars.length) :
    (held id).Ends l fun origins after => after.Has origins :=
  (held_reads intact inside).ends intact fun _ has => has

theorem blocking_reads : (Context.blocking id).Reads l fun _ => True := by
  refine Own.get_reads.andReads fun current _ => ?_
  split
  · exact .pure trivial
  · exact .pure trivial

theorem lend_ends (intact : l.Intact) {owner : Option Nat} (known : ∀ id ∈ owner, id < l.vars.length)
    (mutable : Bool) (site : NodeInfo) :
    (lend owner mutable site).Ends l fun loan after => after.Has [.loan loan] := by
  obtain ⟨lent, precedes, inside⟩ := intact.lend known mutable site.id site.span
  exact ⟨_, _, Own.run_modifyGet_ok.mpr rfl, lent, precedes, Ledger.has_loan inside⟩

theorem adopt_ends (intact : l.Intact) (inside : id < l.vars.length) {origins : List Origin}
    (has : l.Has origins) : (adopt id origins).Ends l Own.anything :=
  (var_reads inside).bind fun v _ =>
    .edit (intact.adopt id v has) (.of_eq rfl rfl) trivial

theorem keep_ends (intact : l.Intact) (origins : List Origin) : (keep origins).Ends l Own.anything :=
  .edit (intact.rescope origins _) (.of_eq rfl rfl) trivial

end Reading

namespace Context

variable {ctx : Context} {id : Nat} {span : Span} {origins : List Origin}

/-- No type of a node is open. -/
def Typed (ctx : Context) : Prop := ∀ id, (ctx.notes.typeOf id).isVar = false

theorem add_ends (intact : l.Intact) (d : Diagnostic) : (ctx.add d).Ends l Own.anything :=
  .touched intact rfl rfl rfl rfl

theorem Typed.known (typed : ctx.Typed) (id : Nat) : ctx.known id = .ok (ctx.notes.typeOf id) := by
  have closed := typed id
  unfold Context.known
  split
  next opened => simp [opened, Ty.isVar] at closed
  next => rfl

theorem typeOf_reads (typed : ctx.Typed) (id : Nat) : (ctx.typeOf id).Reads l fun _ => True :=
  ⟨_, by rw [typeOf_run, typed.known]; rfl, trivial⟩

theorem carried_ends (typed : ctx.Typed) {x : Own (List Origin)}
    (inner : x.Ends l fun found after => after.Has found) :
    (ctx.carried id x).Ends l fun origins after => after.Has origins := by
  refine .bind inner fun found middle intact _ has => ?_
  split
  · exact .pure intact Ledger.has_nil
  · refine (typeOf_reads typed id).bind fun t _ => .pure intact ?_
    split
    · exact has
    · exact Ledger.has_nil

theorem placeIn_ends (typed : ctx.Typed) {scopes : List Scope} {count : Nat}
    (names : ∀ s ∈ scopes, ∀ x ∈ s.names, x.2 < count) (e : Expr) :
    ∃ p, ctx.placeIn scopes e = .ok p ∧ ∀ id, p.root = .var id → id < count := by
  fun_induction ctx.placeIn scopes e with
  | case1 _ name id found =>
    refine ⟨_, rfl, fun _ same => ?_⟩
    cases same
    obtain ⟨s, opened, named⟩ := List.exists_of_findSome?_eq_some found
    obtain ⟨front, back, parts, -⟩ := List.lookup_eq_some_iff.mp named
    exact names s opened (name, id) (by simp [parts])
  | case2 => exact ⟨_, rfl, fun _ same => by cases same⟩
  | case3 _ object _ ih | case4 _ object _ ih | case5 _ object ih =>
    obtain ⟨p, found, inside⟩ := ih
    refine ⟨p.step (ctx.notes.typeOf object.id), ?_, fun id root => inside id (step_root p _ ▸ root)⟩
    rw [typed.known, found]
    rfl
  | case6 => exact ⟨_, rfl, fun _ same => by cases same⟩

theorem place_reads (typed : ctx.Typed) (intact : l.Intact) (e : Expr) :
    (ctx.place e).Reads l fun p =>
      (∀ id, p.root = .var id → id < l.vars.length) ∧ (p.root = .temporary ↔ e.root? = none) := by
  obtain ⟨p, found, inside⟩ := placeIn_ends typed intact.names e
  exact ⟨p, by rw [place_run, found]; rfl, inside, placeIn_root found⟩

/-! ### Actions on variables -/

theorem useAfterMove_ends (intact : l.Intact) (inside : id < l.vars.length) :
    (ctx.useAfterMove id span).Ends l Own.anything := by
  refine (var_reads inside).bind fun v _ => (varFlow_reads intact inside).bind fun flow _ => ?_
  split
  · exact add_ends intact _
  · exact add_ends intact _

theorem read_ends (intact : l.Intact) (inside : id < l.vars.length) :
    (ctx.read id span).Ends l Own.anything := by
  refine (stateOf_reads intact inside).bind fun s _ => (var_reads inside).bind fun v _ => ?_
  split
  · exact useAfterMove_ends intact inside
  · exact .pure intact trivial

theorem move_ends (intact : l.Intact) (inside : id < l.vars.length) (site : NodeInfo) :
    (ctx.move id site).Ends l Own.anything := by
  refine .bind (P := fun _ middle => id < middle.vars.length)
    (.edit (intact.invalidate id _ _) (.of_eq rfl rfl) inside)
    fun _ middle intact _ inside => ?_
  refine (stateOf_reads intact inside).bind fun s _ => (var_reads inside).bind fun v _ => ?_
  split
  · have marked := intact.updateVar id
      (fun f => { f with moved := true, movedAt := site.span }) fun _ has => has
    exact .edit (marked.of_eq rfl rfl rfl rfl) (.of_eq rfl rfl) trivial
  · split
    · exact useAfterMove_ends intact inside
    · exact blocking_reads.bind fun _ _ => add_ends intact _

theorem touchOrigin_ends (intact : l.Intact) (v : Var) (origin : Origin) :
    (ctx.touchOrigin v span origin).Ends l Own.anything := by
  cases origin with
  | param name => exact .pure intact trivial
  | loan loan =>
    refine Own.get_reads.bind fun current here => ?_
    subst here
    dsimp only
    split
    · exact .pure intact trivial
    next reason endedAt gone =>
      split
      · exact .pure intact trivial
      obtain ⟨lease, live, ended⟩ := Option.bind_eq_some_iff.mp gone
      obtain ⟨entry, found, rfl⟩ := Option.map_eq_some_iff.mp live
      obtain ⟨owner, known⟩ := intact.flow.ended loan entry.2
        (by
          have same : entry.1 = loan := by simpa using List.find?_some found
          exact same ▸ List.mem_of_find?_eq_some found)
        (by rw [ended]; rfl)
      obtain ⟨lent, made, owned⟩ := Option.bind_eq_some_iff.mp known
      have inside := intact.owners lent (List.mem_of_getElem? made) owner owned
      refine .bind (.touched intact rfl rfl rfl rfl) fun _ middle intact precedes _ => ?_
      rw [made]
      dsimp only
      rw [owned]
      have inside := precedes.inside inside
      exact (var_reads inside).bind fun _ _ => add_ends intact _

theorem touch_ends (intact : l.Intact) (inside : id < l.vars.length) :
    (ctx.touch id span).Ends l Own.anything :=
  (var_reads inside).bind fun v _ => (held_reads intact inside).bind fun _ _ =>
    .forM intact fun origin _ _ intact _ => touchOrigin_ends intact v origin

theorem useName_ends (intact : l.Intact) (info : NodeInfo) (name : String) (use : Use) :
    (ctx.useName info name use).Ends l fun origins after => after.Has origins := by
  refine Own.get_reads.bind fun current here => ?_
  subst here
  split
  · exact .pure intact Ledger.has_nil
  next id found =>
    have inside := intact.lookup found
    refine .bind (touch_ends intact inside) fun _ middle intact precedes _ => ?_
    have inside := precedes.inside inside
    refine (var_reads inside).bind fun v _ => ?_
    split
    · refine .bind (move_ends intact inside info) fun _ _ intact precedes _ => ?_
      exact held_ends intact (precedes.inside inside)
    · refine .bind (read_ends intact inside) fun _ _ intact precedes _ => ?_
      exact held_ends intact (precedes.inside inside)

theorem usePlace_ends (typed : ctx.Typed) (intact : l.Intact) {p : Place}
    (inside : ∀ id, p.root = .var id → id < l.vars.length) (e : Expr) (use : Use) :
    (ctx.usePlace p e use).Ends l fun origins after => after.Has origins := by
  unfold usePlace
  split
  · exact .pure intact Ledger.has_nil
  · exact .pure intact Ledger.has_nil
  next id root =>
    refine .bind (touch_ends intact (inside id root)) fun _ middle intact precedes _ => ?_
    have inside := precedes.inside (inside id root)
    have held {other : Ledger} (intact : other.Intact) (precedes : middle.Precedes other) :
        (held id).Ends other fun origins after => after.Has origins :=
      held_ends intact (precedes.inside inside)
    split
    · exact .bind (read_ends intact inside) fun _ _ intact precedes _ => held intact precedes
    refine (typeOf_reads typed e.id).bind fun t _ => ?_
    split
    · exact .bind (read_ends intact inside) fun _ _ intact precedes _ => held intact precedes
    split
    · refine .bind (read_ends intact inside) fun _ _ intact precedes _ => ?_
      exact .bind (add_ends intact _) fun _ _ intact later _ => held intact (precedes.trans later)
    · exact .bind (move_ends intact inside _) fun _ _ intact precedes _ => held intact precedes

theorem borrowVar_ends (intact : l.Intact) (inside : id < l.vars.length) (v : Var) (operand : Expr)
    (mutable : Bool) (site : NodeInfo) :
    (ctx.borrowVar id v operand mutable site).Ends l fun origins after => after.Has origins := by
  refine (stateOf_reads intact inside).bind fun s _ => ?_
  split
  · have known : ∀ other ∈ some id, other < l.vars.length := by simpa using inside
    exact .bind (lend_ends intact known mutable site) fun _ _ intact _ has => .pure intact has
  · split
    · exact .bind (useAfterMove_ends intact inside) fun _ _ intact _ _ => .pure intact Ledger.has_nil
    · exact .bind (add_ends intact _) fun _ _ intact _ _ => .pure intact Ledger.has_nil
    · refine blocking_reads.bind fun _ _ => ?_
      exact .bind (add_ends intact _) fun _ _ intact _ _ => .pure intact Ledger.has_nil

theorem borrowPlace_ends (intact : l.Intact) (inside : id < l.vars.length) (p : Place) (operand : Expr)
    (mutable : Bool) (site : NodeInfo) :
    (ctx.borrowPlace id p operand mutable site).Ends l fun origins after => after.Has origins := by
  refine (var_reads inside).bind fun v _ =>
    .bind (touch_ends intact inside) fun _ middle intact precedes _ => ?_
  have inside := precedes.inside inside
  split
  · exact borrowVar_ends intact inside v operand mutable site
  refine .bind (read_ends intact inside) fun _ _ intact precedes _ => ?_
  have inside := precedes.inside inside
  dsimp only
  split
  · refine .bind (add_ends intact _) fun _ _ intact precedes _ => ?_
    exact held_ends intact (precedes.inside inside)
  · exact held_ends intact inside

/-- A borrow of a place that starts at a temporary value looks for the first variable. -/
theorem borrowSite_ends (typed : ctx.Typed) (intact : l.Intact) {operand : Expr}
    (known : operand.root?.isSome = true ∨ 0 < l.vars.length) (mutable : Bool) (site : NodeInfo) :
    (ctx.borrowSite operand mutable site).Ends l fun origins after => after.Has origins := by
  refine (place_reads typed intact operand).bind fun p ⟨inside, start⟩ => ?_
  split
  · exact .pure intact Ledger.has_nil
  next id root => exact borrowPlace_ends intact (inside id root) p operand mutable site
  next root =>
    have first : 0 < l.vars.length := by simpa [start.mp root] using known
    exact borrowPlace_ends intact first p operand mutable site

theorem writeVar_ends (typed : ctx.Typed) (intact : l.Intact) (inside : id < l.vars.length)
    (target : Expr) (has : l.Has origins) : (ctx.writeVar id target origins).Ends l Own.anything := by
  refine (var_reads inside).bind fun v _ => (stateOf_reads intact inside).bind fun s _ =>
    (varFlow_reads intact inside).bind fun flow held => ?_
  dsimp only
  split
  · exact useAfterMove_ends intact inside
  split
  · split
    · exact add_ends intact _
    · exact blocking_reads.bind fun _ _ => add_ends intact _
  split
  · refine .bind (P := fun _ middle => id < middle.vars.length ∧ middle.Has origins)
      (.edit (intact.updateVar id _ fun _ has => has) (.of_eq rfl rfl) ⟨inside, has⟩)
      fun _ middle intact _ ⟨inside, has⟩ => ?_
    split
    · exact adopt_ends intact inside has
    · exact .pure intact trivial
  · refine (typeOf_reads typed target.id).bind fun t _ => ?_
    split
    · exact adopt_ends intact inside (held.union has)
    · exact .pure intact trivial

theorem writeSite_ends (typed : ctx.Typed) (intact : l.Intact) (target : Expr) (has : l.Has origins) :
    (ctx.writeSite target origins).Ends l Own.anything := by
  refine (place_reads typed intact target).bind fun p ⟨inside, _⟩ => ?_
  split
  next id root =>
    unfold write
    split
    · refine .bind (read_ends intact (inside id root)) fun _ _ intact _ _ => ?_
      split
      · exact add_ends intact _
      · exact .pure intact trivial
    · exact writeVar_ends typed intact (inside id root) target has
  · exact .pure intact trivial
  · exact .pure intact trivial

/-! ### Declarations and returns -/

theorem bindAll_ends (typed : ctx.Typed) (intact : l.Intact) {origins : Option (List Origin)}
    (has : ∀ given ∈ origins, l.Has given) (bindings : List Binding) :
    (ctx.bindAll origins bindings).Ends l Own.anything := by
  induction bindings generalizing l with
  | nil => exact .pure intact trivial
  | cons b rest ih =>
    refine (typeOf_reads typed b.info.id).bind fun t _ => ?_
    obtain ⟨declared, precedes, inside⟩ := intact.declare b.name t b.mutable b.info.span
    refine .bind (P := fun id middle => id < middle.vars.length)
      ⟨_, _, Own.run_modifyGet_ok.mpr rfl, declared, precedes, inside⟩
      fun id middle intact precedes inside => ?_
    have has : ∀ given ∈ origins, middle.Has given := fun given here => precedes.has (has given here)
    cases origins with
    | none =>
      have marked := intact.updateVar id (fun f => { f with moved := true, late := true }) fun _ has => has
      exact .bind (P := Own.anything) (.edit marked (.of_eq rfl rfl) trivial)
        fun _ _ intact _ _ => ih intact nofun
    | some given =>
      dsimp only
      split
      · refine .bind (adopt_ends intact inside (has given rfl)) fun _ _ intact precedes _ => ih intact ?_
        exact fun other here => precedes.has (has other here)
      · exact ih intact has

theorem declareParam_ends (intact : l.Intact) (name : String) (type : Ty) (mutable : Bool) (span : Span) :
    (declareParam name type mutable span).Ends l Own.anything := by
  obtain ⟨declared, precedes, -⟩ := intact.declare name type mutable span
  cases made : l.declare name type mutable span with
  | mk id next =>
    rw [made] at declared precedes
    have holding := declared.updateVar id
      (fun f => if type.isRef then { f with holds := [.param name] } else f) fun v has => by
        split
        · exact fun loan member => by cases List.mem_singleton.mp member
        · exact has
    refine .edit ?_ ?_ trivial
    · simp only [made]
      exact holding.of_eq (by simp) rfl rfl rfl
    · simp only [made]
      exact precedes.trans (.of_eq (by simp) rfl)

theorem checkOrigin_ends (intact : l.Intact) {origin : Origin} (has : l.Has [origin]) :
    (ctx.checkOrigin span origin).Ends l Own.anything := by
  cases origin with
  | param name =>
    simp only [checkOrigin]
    split
    · split
      · exact .pure intact trivial
      · exact add_ends intact _
    · exact .pure intact trivial
  | loan id =>
    have made := List.getElem?_eq_getElem (has id List.mem_cons_self)
    refine Own.get_reads.bind fun current here => ?_
    subst here
    rw [made]
    dsimp only
    split
    · exact add_ends intact _
    next owner owned =>
      have inside := intact.owners _ (List.mem_of_getElem? made) owner owned
      exact (var_reads inside).bind fun _ _ => add_ends intact _

theorem checkEscape_ends (intact : l.Intact) (has : l.Has origins) :
    (ctx.checkEscape span origins).Ends l Own.anything := by
  unfold checkEscape
  split
  · refine .forM intact fun origin member middle intact precedes => checkOrigin_ends intact ?_
    intro id same
    cases List.mem_singleton.mp same
    exact precedes.has has id member
  · exact .pure intact trivial

/-- The result of a call points into nothing but what its arguments point into. -/
theorem has_returned {receiver : List Origin} {args : List (List Origin)} (signature : Signature)
    (first : l.Has receiver) (others : ∀ arg ∈ args, l.Has arg) :
    l.Has (ctx.returned signature receiver args) := by
  unfold returned
  split
  · exact Ledger.has_nil
  split
  · exact first.foldl others
  next names _ =>
    refine List.foldlRecOn names _ Ledger.has_nil fun origins has name _ => ?_
    split
    · exact has.union first
    split
    next arg found =>
      obtain ⟨i, -, here⟩ := Option.bind_eq_some_iff.mp found
      exact has.union (others arg (List.mem_of_getElem? here))
    · exact has

end Context

end TreeCheck.Ownership
