import TreeCheck.Proofs.Ownership.Execution
import TreeCheck.Proofs.Ownership.Slots

/-!
Outcomes of the rules: what is reported first, what a rule has read when it ends, and where the places
that it acts on start.
-/

namespace TreeCheck.Ownership

variable {ctx : Context} {l middle after : Ledger}

/-! ### Reports -/

namespace Ledger

/-- Nothing is reported. -/
def Quiet (l : Ledger) : Prop := l.bag.contents = []

/-- The kind of what is reported first. -/
def lead (l : Ledger) : Option Diagnostic.Kind := l.bag.contents.head?.map Diagnostic.kind

theorem Quiet.of_reported (quiet : after.Quiet) (reports : l.bag.contents <+: after.bag.contents) :
    l.Quiet := by
  rw [Quiet] at quiet
  rw [quiet] at reports
  exact List.prefix_nil.mp reports

/-- What is reported first stays first. -/
theorem lead_of_reported (reports : l.bag.contents <+: after.bag.contents) (loud : ¬l.Quiet) :
    after.lead = l.lead := by
  obtain ⟨new, bag⟩ := reports
  unfold lead
  rw [← bag]
  cases contents : l.bag.contents with
  | nil => exact absurd contents loud
  | cons d rest => rfl

theorem lead_of_quiet (quiet : l.Quiet) : l.lead = none := by
  rw [lead, quiet]
  rfl

theorem Keeps.lead_ne {γ : Type} {view : VarFlow → γ} {kind : Diagnostic.Kind}
    (keeps : l.Keeps view (· ≠ kind) after) (quiet : l.Quiet) : after.lead ≠ some kind := by
  obtain ⟨new, bag, kinds⟩ := keeps.reports
  rw [quiet, List.nil_append] at bag
  rw [lead, bag]
  cases new with
  | nil => simp
  | cons d rest => simpa using kinds d List.mem_cons_self

theorem Keeps.reported {γ : Type} {view : VarFlow → γ} {kinds : Diagnostic.Kind → Prop}
    (keeps : l.Keeps view kinds after) : l.bag.contents <+: after.bag.contents := by
  obtain ⟨new, bag, -⟩ := keeps.reports
  exact ⟨new, bag.symm⟩

end Ledger

/-! ### What is read -/

theorem var_ok {id : Nat} {v : Var} (ran : (var id).run l = .ok (v, after)) :
    l.vars[id]? = some v ∧ l = after := by
  obtain ⟨current, _, read, found⟩ := Own.run_bind_ok.mp ran
  obtain ⟨rfl, rfl⟩ := Own.run_get_ok.mp read
  cases declared : l.vars[id]? with
  | none =>
    rw [declared] at found
    cases found
  | some w =>
    rw [declared] at found
    obtain ⟨rfl, rfl⟩ := Own.run_pure_ok.mp found
    exact ⟨rfl, rfl⟩

theorem varFlow_ok {id : Nat} {v : VarFlow} (ran : (varFlow id).run l = .ok (v, after)) :
    l.flow.vars[id]? = some v ∧ l = after := by
  obtain ⟨current, _, read, found⟩ := Own.run_bind_ok.mp ran
  obtain ⟨rfl, rfl⟩ := Own.run_get_ok.mp read
  cases declared : l.flow.vars[id]? with
  | none =>
    rw [declared] at found
    cases found
  | some w =>
    rw [declared] at found
    obtain ⟨rfl, rfl⟩ := Own.run_pure_ok.mp found
    exact ⟨rfl, rfl⟩

theorem stateOf_ok {id : Nat} {s : State} (ran : (stateOf id).run l = .ok (s, after)) :
    ∃ v, l.flow.vars[id]? = some v ∧ l.state id v = s ∧ l = after := by
  obtain ⟨current, _, read, found⟩ := Own.run_bind_ok.mp ran
  obtain ⟨rfl, rfl⟩ := Own.run_get_ok.mp read
  cases declared : l.flow.vars[id]? with
  | none =>
    rw [declared] at found
    cases found
  | some w =>
    rw [declared] at found
    obtain ⟨rfl, rfl⟩ := Own.run_pure_ok.mp found
    exact ⟨w, rfl, rfl, rfl⟩

theorem held_ok {id : Nat} {origins : List Origin} (ran : (held id).run l = .ok (origins, after)) :
    ∃ v, l.flow.vars[id]? = some v ∧ v.holds = origins ∧ l = after := by
  obtain ⟨v, _, path, ran⟩ := Own.run_bind_ok.mp ran
  obtain ⟨found, rfl⟩ := varFlow_ok path
  obtain ⟨same, rfl⟩ := Own.run_pure_ok.mp ran
  exact ⟨v, found, same, rfl⟩

theorem adopt_ok {id : Nat} {origins : List Origin} {u : Unit}
    (ran : (adopt id origins).run l = .ok (u, after)) : ∃ v, after = l.adopt id v origins := by
  obtain ⟨v, _, known, ran⟩ := Own.run_bind_ok.mp ran
  obtain ⟨-, rfl⟩ := var_ok known
  exact ⟨v, (Own.run_modify_ok.mp ran).symm⟩

/-- Looking at what a value carries leaves the ledger alone. -/
theorem carried_pure_ok {id : Nat} {origins carried : List Origin}
    (ran : (ctx.carried id (pure origins)).run l = .ok (carried, after)) : l = after := by
  obtain ⟨_, _, start, ran⟩ := Own.run_bind_ok.mp ran
  obtain ⟨rfl, rfl⟩ := Own.run_pure_ok.mp start
  split at ran
  · exact (Own.run_pure_ok.mp ran).2
  · obtain ⟨t, _, typed, ran⟩ := Own.run_bind_ok.mp ran
    obtain ⟨-, rfl⟩ := Context.typeOf_ok typed
    exact (Own.run_pure_ok.mp ran).2

theorem place_ok {e : Expr} {p : Place} (ran : (ctx.place e).run l = .ok (p, after)) :
    ctx.placeIn l.scopes e = .ok p ∧ l = after := by
  rw [place_run] at ran
  cases found : ctx.placeIn l.scopes e with
  | error failure => simp [found, Except.map] at ran
  | ok q =>
    simp only [found, Except.map, Except.ok.injEq, Prod.mk.injEq] at ran
    exact ⟨congrArg _ ran.1, ran.2⟩

namespace Context

theorem add_loud {d : Diagnostic} {u : Unit} (ran : (ctx.add d).run l = .ok (u, after)) :
    ¬after.Quiet := by
  obtain rfl := Own.run_modify_ok.mp ran
  unfold Ledger.Quiet Bag.add
  split
  · rename_i held
    intro quiet
    have empty : l.bag.contents = [] := quiet
    simp [Bag.holds, empty] at held
  · simp

theorem useAfterMove_loud {id : Nat} {span : Span} {u : Unit}
    (ran : (ctx.useAfterMove id span).run l = .ok (u, after)) : ¬after.Quiet := by
  obtain ⟨v, _, -, ran⟩ := Own.run_bind_ok.mp ran
  obtain ⟨flow, _, -, ran⟩ := Own.run_bind_ok.mp ran
  split at ran
  · exact add_loud ran
  · exact add_loud ran

theorem fill_length {origins : Option (List Origin)} {t type : Ty} {name : String} {mutable : Bool}
    {span : Span} {id : Nat} {declared : Ledger} {u : Unit}
    (added : l.declare name type mutable span = (id, declared))
    (ran : (ctx.fill origins id t).run declared = .ok (u, after)) :
    after.vars.length = l.vars.length + 1 := by
  rw [(fill_keeps origins id t ran).vars, ← (Prod.mk.inj added).2]
  simp

end Context

/-! ### Places -/

namespace Context

/-- Whether a place is reached through a reference. -/
def through (ctx : Context) : Expr → Bool
  | .field _ object _ => ctx.through object || (ctx.notes.typeOf object.id).isRef
  | .index _ object _ => ctx.through object || (ctx.notes.typeOf object.id).isRef
  | .deref _ operand => ctx.through operand || (ctx.notes.typeOf operand.id).isRef
  | _ => false

theorem throughRef_eq {e : Expr} {scopes : List Scope} {p : Place}
    (found : ctx.placeIn scopes e = .ok p) : p.throughRef = ctx.through e := by
  have stepped (p : Place) (t : Ty) : (p.step t).throughRef = (p.throughRef || t.isRef) := by
    unfold Place.step Ty.isRef
    cases t <;> simp
  fun_induction ctx.placeIn scopes e generalizing p with
  | case1 _ name id | case2 _ name =>
    cases found
    rfl
  | case3 _ object _ ih | case4 _ object _ ih | case5 _ object ih =>
    obtain ⟨t, typed, found⟩ := bind_ok.mp found
    obtain ⟨inner, reached, found⟩ := bind_ok.mp found
    cases found
    rw [stepped, ih reached, through, known_ok typed]
  | case6 e other others further rest =>
    cases found
    cases e <;> simp_all [through]

end Context

/-- The variable that a place starts at. -/
theorem placeIn_root_name {e : Expr} {scopes : List Scope} {p : Place} {info : NodeInfo} {name : String}
    (found : ctx.placeIn scopes e = .ok p) (named : e.root? = some (info, name)) :
    p.root = match scopes.findSome? fun s => s.names.lookup name with
      | some id => .var id
      | none => .unbound := by
  fun_induction ctx.placeIn scopes e generalizing p with
  | case1 _ other id declared | case2 _ other declared =>
    cases found
    simp only [Expr.root?, Option.some.injEq, Prod.mk.injEq] at named
    simp [← named.2, declared]
  | case3 _ object _ ih | case4 _ object _ ih | case5 _ object ih =>
    obtain ⟨t, -, found⟩ := bind_ok.mp found
    obtain ⟨inner, reached, found⟩ := bind_ok.mp found
    cases found
    rw [step_root]
    exact ih reached (by rwa [Expr.root?] at named)
  | case6 e other others further rest =>
    cases e <;> simp_all [Expr.root?]

/-- The slot that a place starts at. -/
def slotOf (outline : List (String × Option Ty)) (e : Expr) : Option Nat :=
  e.root?.bind fun root => position (outline.map Prod.fst) root.2

/-- The type of the variable that a place starts at. -/
def slotType (outline : List (String × Option Ty)) (e : Expr) : Ty :=
  ((e.root?.bind fun root => outline.lookup root.2).getD none).getD default

theorem lookup?_slot (l : Ledger) (name : String) :
    (position (l.outline.map Prod.fst) name = none ∧ l.lookup? name = none) ∨
      ∃ j id, position (l.outline.map Prod.fst) name = some j ∧ slotIn l.env j = some id ∧
        l.lookup? name = some id := by
  have slot := l.lookup?_eq_position name
  cases found : position (l.outline.map Prod.fst) name with
  | none => exact .inl ⟨rfl, by simpa [found] using slot⟩
  | some j =>
    have inside := lt_length_of_position found
    rw [List.length_map, Ledger.length_outline] at inside
    obtain ⟨id, inScope⟩ := exists_slotIn inside
    exact .inr ⟨j, id, rfl, inScope, by simpa [found, inScope] using slot⟩

/-- Where a place starts: at a slot, at a name that is no variable, or at a temporary value. -/
theorem place_start {e : Expr} {p : Place} (reached : ctx.placeIn l.scopes e = .ok p) :
    (e.root? = none ∧ p.root = .temporary) ∨
      (∃ root, e.root? = some root ∧ slotOf l.outline e = none ∧ p.root = .unbound) ∨
      ∃ info name j id, e.root? = some (info, name) ∧ slotOf l.outline e = some j ∧
        slotIn l.env j = some id ∧ l.lookup? name = some id ∧ p.root = .var id := by
  cases start : e.root? with
  | none => exact .inl ⟨rfl, (placeIn_root reached).mpr start⟩
  | some root =>
    obtain ⟨info, name⟩ := root
    have root := placeIn_root_name reached start
    rw [← Ledger.lookup?] at root
    rcases lookup?_slot l name with ⟨noSlot, absent⟩ | ⟨j, id, slot, inScope, found⟩
    · rw [absent] at root
      exact .inr (.inl ⟨_, rfl, by simp [slotOf, start, noSlot], root⟩)
    · rw [found] at root
      exact .inr (.inr ⟨info, name, j, id, rfl, by simp [slotOf, start, slot], inScope, found, root⟩)

/-- The slot that a borrowed place starts at; one that starts at a temporary value counts as one that
starts at the first variable. -/
def borrowSlot (outline : List (String × Option Ty)) (operand : Expr) : Option Nat :=
  if operand.root?.isSome then slotOf outline operand else some 0

namespace Step

def Rooted : Step → Prop
  | .borrowPlace operand _ _ => operand.root?.isSome = true
  | _ => True

end Step

end TreeCheck.Ownership
