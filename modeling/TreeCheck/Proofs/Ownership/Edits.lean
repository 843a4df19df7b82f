import Mathlib.Logic.Relation
import TreeCheck.Proofs.Ownership.Outcomes

/-!
What rules do to a ledger. Whatever a rule does is a sequence of a few kinds of edits, so what each edit keeps is
kept by every rule.
-/

namespace TreeCheck.Ownership

/-- Whether an action on a variable passes, as its state and the rule of the states have it. -/
def Ledger.Permits (l : Ledger) (id : Nat) (action : Action) : Prop :=
  ∃ v flow, l.vars[id]? = some v ∧ l.flow.vars[id]? = some flow ∧
    (transition (l.state id flow) action v.mutable).2 = none

/-- One edit of a ledger that lends none but certain variables. A variable is declared together with what is known
about it from the start, moved together with the end of the loans on it that are kept, and the loss of a loan is
noted together with its report. -/
inductive Ledger.EditOf (lendable : Nat → Prop) : Ledger → Ledger → Prop
  | report (l : Ledger) (d : Diagnostic) : EditOf lendable l { l with bag := l.bag.add d }
  | mourn (l : Ledger) (loan : Nat) (d : Diagnostic) (kind : d.kind = .borrowOutlivesOwner) :
      EditOf lendable l { l with reported := loan :: l.reported, bag := l.bag.add d }
  | lend (l : Ledger) (owner : Option Nat) (mutable : Bool) (node : Nat) (span : Span)
      (allowed : ∀ id ∈ owner, lendable id ∧ l.Permits id (if mutable then .borrowMut else .borrow)) :
      EditOf lendable l (l.lend owner mutable node span).2
  | invalidate (l : Ledger) (id : Nat) (reason : String) (span : Span) :
      EditOf lendable l (l.invalidate id reason span)
  | move (l : Ledger) (id : Nat) (span : Span) (moves : NodeTable String)
      (allowed : (l.invalidate id "moved" span).Permits id .move) :
      EditOf lendable l
        { l.invalidate id "moved" span with
          flow := (l.invalidate id "moved" span).flow.updateVar id fun f =>
            { f with moved := true, movedAt := span }
          moves }
  | assign (l : Ledger) (id : Nat) : EditOf lendable l
      { l with flow := l.flow.updateVar id fun f => { f with moved := false, late := false } }
  | adopt (l : Ledger) (id : Nat) (v : Var) (origins : List Origin) : EditOf lendable l (l.adopt id v origins)
  | rescope (l : Ledger) (origins : List Origin) (scope : Nat) : EditOf lendable l (l.rescope origins scope)
  | declare (l : Ledger) (name : String) (type : Ty) (mutable : Bool) (span : Span)
      (describe : Var → Var) (same : ∀ v, (describe v).scope = v.scope) (start : VarFlow → VarFlow) :
      EditOf lendable l
        { (l.declare name type mutable span).2 with
          vars := (l.declare name type mutable span).2.vars.modify l.vars.length describe
          flow := (l.declare name type mutable span).2.flow.updateVar l.vars.length start }

/-- One ledger after any number of edits of another. -/
abbrev Ledger.EditsOf (lendable : Nat → Prop) : Ledger → Ledger → Prop :=
  Relation.ReflTransGen (Ledger.EditOf lendable)

/-- An edit that may lend any variable. -/
abbrev Ledger.Edit : Ledger → Ledger → Prop := Ledger.EditOf fun _ => True

abbrev Ledger.Edits : Ledger → Ledger → Prop := Ledger.EditsOf fun _ => True

variable {α β : Type} {lendable other : Nat → Prop}

theorem Ledger.EditOf.mono {l after : Ledger} (edit : l.EditOf lendable after)
    (may : ∀ id, lendable id → other id) : l.EditOf other after := by
  cases edit with
  | lend owner mutable node span allowed =>
    exact .lend l owner mutable node span fun id same => (allowed id same).imp_left (may id)
  | _ => constructor <;> assumption

namespace Own

/-- What is done is a sequence of edits that lend none but certain variables, whenever it ends. -/
def Edits (lendable : Nat → Prop) (x : Own α) : Prop :=
  ∀ ⦃l : Ledger⦄ ⦃a : α⦄ ⦃after : Ledger⦄, x.run l = .ok (a, after) → l.EditsOf lendable after

namespace Edits

theorem pure (a : α) : Own.Edits lendable (Pure.pure a : Own α) := by
  intro l b after ran
  obtain ⟨-, rfl⟩ := run_pure_ok.mp ran
  exact .refl

theorem bind {x : Own α} {f : α → Own β} (first : x.Edits lendable) (next : ∀ a, (f a).Edits lendable) :
    (x >>= f).Edits lendable := by
  intro l b after ran
  obtain ⟨a, middle, start, rest⟩ := run_bind_ok.mp ran
  exact (first start).trans (next a rest)

theorem throw (failure : Failure) : Own.Edits lendable (MonadExcept.throw failure : Own α) := by
  intro l a after ran
  cases ran

theorem get : Own.Edits lendable (MonadState.get : Own Ledger) := by
  intro l a after ran
  cases ran
  exact .refl

theorem edit {change : Ledger → Ledger} (edits : ∀ l : Ledger, l.EditOf lendable (change l)) :
    Own.Edits lendable (modify change : Own Unit) := by
  intro l a after ran
  cases ran
  exact .single (edits l)

theorem forM {f : α → Own Unit} (xs : List α) (each : ∀ a, (f a).Edits lendable) :
    (xs.forM f).Edits lendable := by
  induction xs with
  | nil => exact pure ()
  | cons a xs ih => exact bind (each a) fun _ => ih

end Edits

end Own

section Rules

theorem var_edits (id : Nat) : (var id).Edits lendable := by
  refine .bind .get fun l => ?_
  cases l.vars[id]? with
  | none => exact .throw _
  | some v => exact .pure v

theorem varFlow_edits (id : Nat) : (varFlow id).Edits lendable := by
  refine .bind .get fun l => ?_
  cases l.flow.vars[id]? with
  | none => exact .throw _
  | some v => exact .pure v

theorem stateOf_edits (id : Nat) : (stateOf id).Edits lendable := by
  refine .bind .get fun l => ?_
  cases l.flow.vars[id]? with
  | none => exact .throw _
  | some v => exact .pure _

theorem held_edits (id : Nat) : (held id).Edits lendable := .bind (varFlow_edits id) fun _ => .pure _

theorem blocking_edits (id : Nat) : (Context.blocking id).Edits lendable := by
  refine .bind .get fun l => ?_
  cases l.loansOn id with
  | nil => exact .pure _
  | cons loan rest => exact .pure _

theorem lend_edits (mutable : Bool) (site : NodeInfo) : (lend none mutable site).Edits lendable := by
  intro l a after ran
  cases ran
  exact .single (.lend l none mutable site.id site.span nofun)

theorem keep_edits (origins : List Origin) : (keep origins).Edits lendable := .edit fun l => .rescope l origins _

theorem adopt_edits (id : Nat) (origins : List Origin) : (adopt id origins).Edits lendable :=
  .bind (var_edits id) fun v => .edit fun l => .adopt l id v origins

theorem declareParam_edits (name : String) (type : Ty) (mutable : Bool) (span : Span) :
    (declareParam name type mutable span).Edits lendable :=
  .edit fun l => .declare l name type mutable span (fun v => { v with isParam := true }) (fun _ => rfl)
    fun f => if type.isRef then { f with holds := [.param name] } else f

namespace Context

variable (ctx : Context)

theorem add_edits (d : Diagnostic) : (ctx.add d).Edits lendable := .edit fun l => .report l _

theorem typeOf_edits (id : Nat) : (ctx.typeOf id).Edits lendable := by
  unfold typeOf
  split
  · exact .throw _
  · exact .pure _

theorem carried_edits (id : Nat) {origins : Own (List Origin)} (inner : origins.Edits lendable) :
    (ctx.carried id origins).Edits lendable := by
  refine .bind inner fun found => ?_
  split
  · exact .pure _
  · exact .bind (ctx.typeOf_edits id) fun _ => .pure _

theorem place_edits (e : Expr) : (ctx.place e).Edits lendable := by
  fun_induction ctx.place e with
  | case1 _ name =>
    refine .bind .get fun l => ?_
    cases l.lookup? name with
    | none => exact .pure _
    | some id => exact .pure _
  | case2 _ object _ ih | case3 _ object _ ih | case4 _ object ih =>
    exact .bind (ctx.typeOf_edits _) fun _ => .bind ih fun _ => .pure _
  | case5 => exact .pure _

theorem useAfterMove_edits (id : Nat) (span : Span) : (ctx.useAfterMove id span).Edits lendable := by
  refine .bind (var_edits id) fun v => .bind (varFlow_edits id) fun flow => ?_
  split
  · exact ctx.add_edits _
  · exact ctx.add_edits _

theorem read_edits (id : Nat) (span : Span) : (ctx.read id span).Edits lendable := by
  refine .bind (stateOf_edits id) fun s => .bind (var_edits id) fun v => ?_
  split
  · exact ctx.useAfterMove_edits id span
  · exact .pure ()

/-- What the use of a variable does about one of the origins it holds: nothing, unless the origin is a loan that
has lost its owner and whose loss is not noted so far. -/
theorem touchOrigin_ok {v : Var} {span : Span} {origin : Origin} {u : Unit} {l after : Ledger}
    (ran : (ctx.touchOrigin v span origin).run l = .ok (u, after)) :
    (after = l ∧ ∀ loan, origin = .loan loan → (l.flow.lease? loan).bind Lease.ended = none ∨ loan ∈ l.reported) ∨
      ∃ loan d, d.kind = .borrowOutlivesOwner ∧
        after = { l with reported := loan :: l.reported, bag := l.bag.add d } := by
  cases origin with
  | param name =>
    obtain ⟨-, rfl⟩ := Own.run_pure_ok.mp ran
    exact .inl ⟨rfl, nofun⟩
  | loan id =>
    obtain ⟨_, _, got, ran⟩ := Own.run_bind_ok.mp ran
    obtain ⟨rfl, rfl⟩ := Own.run_get_ok.mp got
    cases lost : (l.flow.lease? id).bind Lease.ended with
    | none =>
      simp only [lost] at ran
      obtain ⟨-, rfl⟩ := Own.run_pure_ok.mp ran
      exact .inl ⟨rfl, fun loan same => .inl (by cases same; exact lost)⟩
    | some gone =>
      obtain ⟨reason, endedAt⟩ := gone
      simp only [lost] at ran
      split at ran
      · rename_i noted
        obtain ⟨-, rfl⟩ := Own.run_pure_ok.mp ran
        exact .inl ⟨rfl, fun loan same => .inr (by cases same; simpa using noted)⟩
      · obtain ⟨_, noted, marked, ran⟩ := Own.run_bind_ok.mp ran
        obtain rfl := Own.run_modify_ok.mp marked
        cases lent : l.loans[id]? with
        | none =>
          simp only [lent] at ran
          cases ran
        | some loan =>
          cases owned : loan.owner with
          | none =>
            simp only [lent, owned] at ran
            cases ran
          | some owner =>
            simp only [lent, owned] at ran
            obtain ⟨w, _, known, ran⟩ := Own.run_bind_ok.mp ran
            obtain ⟨-, rfl⟩ := var_ok known
            obtain rfl := Own.run_modify_ok.mp ran
            exact .inr ⟨id, _, by simp, rfl⟩

theorem touchOrigin_edits (v : Var) (span : Span) (origin : Origin) :
    (ctx.touchOrigin v span origin).Edits lendable := by
  intro l _ after ran
  rcases ctx.touchOrigin_ok ran with ⟨rfl, -⟩ | ⟨loan, d, kind, rfl⟩
  · exact .refl
  · exact .single (.mourn l loan d kind)

theorem touch_edits (id : Nat) (span : Span) : (ctx.touch id span).Edits lendable :=
  .bind (var_edits id) fun v => .bind (held_edits id) fun origins =>
    .forM origins fun origin => ctx.touchOrigin_edits v span origin

theorem move_edits (id : Nat) (site : NodeInfo) : (ctx.move id site).Edits lendable := by
  intro l _ after ran
  obtain ⟨_, ended, invalidated, ran⟩ := Own.run_bind_ok.mp ran
  obtain rfl := Own.run_modify_ok.mp invalidated
  obtain ⟨s, _, state, ran⟩ := Own.run_bind_ok.mp ran
  obtain ⟨flow, present, rfl, rfl⟩ := stateOf_ok state
  obtain ⟨v, _, known, ran⟩ := Own.run_bind_ok.mp ran
  obtain ⟨declared, rfl⟩ := var_ok known
  cases refused : (transition ((l.invalidate id "moved" site.span).state id flow) .move v.mutable).2 with
  | none =>
    simp only [refused] at ran
    obtain rfl := Own.run_modify_ok.mp ran
    exact .single (.move l id site.span _ ⟨v, flow, declared, present, refused⟩)
  | some violation =>
    have told : Own.Edits lendable (if violation.kind == .useAfterMove then ctx.useAfterMove id site.span
        else do
          let loan ← blocking id
          let d : Diagnostic :=
            { kind := .conflictingBorrow, span := site.span
              message := s!"cannot move out of `{v.name}` because it is borrowed" }
          ctx.add (d.withLabel loan.1 s!"borrow of `{v.name}` occurs here")) := by
      split
      · exact ctx.useAfterMove_edits id _
      · exact .bind (blocking_edits id) fun _ => ctx.add_edits _
    simp only [refused] at ran
    exact .head (.invalidate l id "moved" site.span) (told ran)

theorem borrowVar_edits {id : Nat} {v : Var} {operand : Expr} {mutable : Bool} {site : NodeInfo}
    {origins : List Origin} {l after : Ledger} (known : l.vars[id]? = some v) (may : lendable id)
    (ran : (ctx.borrowVar id v operand mutable site).run l = .ok (origins, after)) :
    l.EditsOf lendable after := by
  obtain ⟨s, _, state, ran⟩ := Own.run_bind_ok.mp ran
  obtain ⟨flow, present, rfl, rfl⟩ := stateOf_ok state
  split at ran
  · rename_i permitted
    obtain ⟨_, _, lent, ran⟩ := Own.run_bind_ok.mp ran
    obtain ⟨-, rfl⟩ := Own.run_pure_ok.mp ran
    cases lent
    refine .single (.lend l (some id) mutable site.id site.span fun other same => ?_)
    cases same
    exact ⟨may, v, flow, known, present, permitted⟩
  · split at ran
    · obtain ⟨_, _, reported, ran⟩ := Own.run_bind_ok.mp ran
      obtain ⟨-, rfl⟩ := Own.run_pure_ok.mp ran
      exact ctx.useAfterMove_edits id _ reported
    · obtain ⟨_, _, reported, ran⟩ := Own.run_bind_ok.mp ran
      obtain ⟨-, rfl⟩ := Own.run_pure_ok.mp ran
      exact ctx.add_edits _ reported
    · obtain ⟨_, _, blocked, ran⟩ := Own.run_bind_ok.mp ran
      obtain ⟨_, _, reported, ran⟩ := Own.run_bind_ok.mp ran
      obtain ⟨-, rfl⟩ := Own.run_pure_ok.mp ran
      exact (blocking_edits id blocked).trans (ctx.add_edits _ reported)

theorem checkOrigin_edits (span : Span) (origin : Origin) : (ctx.checkOrigin span origin).Edits lendable := by
  cases origin with
  | param name =>
    simp only [checkOrigin]
    split
    · split
      · exact .pure ()
      · exact ctx.add_edits _
    · exact .pure ()
  | loan id =>
    refine .bind .get fun l => ?_
    cases l.loans[id]? with
    | none => exact .throw _
    | some loan =>
      dsimp only
      cases loan.owner with
      | none => exact ctx.add_edits _
      | some owner => exact .bind (var_edits owner) fun _ => ctx.add_edits _

theorem checkEscape_edits (span : Span) (origins : List Origin) : (ctx.checkEscape span origins).Edits lendable := by
  unfold checkEscape
  split
  · exact .forM origins fun origin => ctx.checkOrigin_edits span origin
  · exact .pure ()

theorem useName_touches {info : NodeInfo} {name : String} {use : Use} {id : Nat} {origins : List Origin}
    {l after : Ledger} (looked : l.lookup? name = some id)
    (ran : (ctx.useName info name use).run l = .ok (origins, after)) :
    ∃ touched, (ctx.touch id info.span).run l = .ok ((), touched) ∧ touched.EditsOf lendable after := by
  obtain ⟨_, _, got, ran⟩ := Own.run_bind_ok.mp ran
  obtain ⟨rfl, rfl⟩ := Own.run_get_ok.mp got
  simp only [looked] at ran
  obtain ⟨_, touched, touches, ran⟩ := Own.run_bind_ok.mp ran
  refine ⟨touched, touches, Own.Edits.bind (var_edits id) (fun v => ?_) ran⟩
  split
  · exact .bind (ctx.move_edits id info) fun _ => held_edits id
  · exact .bind (ctx.read_edits id _) fun _ => held_edits id

theorem useName_edits (info : NodeInfo) (name : String) (use : Use) : (ctx.useName info name use).Edits lendable := by
  intro l origins after ran
  cases looked : l.lookup? name with
  | none =>
    obtain ⟨_, _, got, ran⟩ := Own.run_bind_ok.mp ran
    obtain ⟨rfl, rfl⟩ := Own.run_get_ok.mp got
    simp only [looked] at ran
    obtain ⟨-, rfl⟩ := Own.run_pure_ok.mp ran
    exact .refl
  | some id =>
    obtain ⟨touched, touches, rest⟩ := ctx.useName_touches looked ran
    exact (ctx.touch_edits id _ touches).trans rest

/-- A part of a variable is used once its origins are looked at. -/
theorem usePlace_touches {p : Place} {e : Expr} {use : Use} {id : Nat} {origins : List Origin}
    {l after : Ledger} (root : p.root = .var id) (ran : (ctx.usePlace p e use).run l = .ok (origins, after)) :
    ∃ touched, (ctx.touch id e.span).run l = .ok ((), touched) ∧ touched.EditsOf lendable after := by
  simp only [usePlace, root] at ran
  obtain ⟨_, touched, touches, ran⟩ := Own.run_bind_ok.mp ran
  refine ⟨touched, touches, ?_⟩
  split at ran
  · exact Own.Edits.bind (ctx.read_edits _ _) (fun _ => held_edits _) ran
  · refine Own.Edits.bind (ctx.typeOf_edits _) (fun t => ?_) ran
    split
    · exact .bind (ctx.read_edits _ _) fun _ => held_edits _
    · split
      · exact .bind (ctx.read_edits _ _) fun _ => .bind (ctx.add_edits _) fun _ => held_edits _
      · exact .bind (ctx.move_edits _ _) fun _ => held_edits _

theorem usePlace_edits (p : Place) (e : Expr) (use : Use) : (ctx.usePlace p e use).Edits lendable := by
  intro l origins after ran
  cases root : p.root with
  | unbound | temporary =>
    simp only [usePlace, root] at ran
    obtain ⟨-, rfl⟩ := Own.run_pure_ok.mp ran
    exact .refl
  | var id =>
    obtain ⟨touched, touches, rest⟩ := ctx.usePlace_touches root ran
    exact (ctx.touch_edits id _ touches).trans rest

/-- A part of a variable is borrowed once its origins are looked at. Only what is not reached through a reference is
lent. -/
theorem borrowPlace_touches {id : Nat} {p : Place} {operand : Expr} {mutable : Bool} {site : NodeInfo}
    {origins : List Origin} {l after : Ledger} (may : p.throughRef = false → lendable id)
    (ran : (ctx.borrowPlace id p operand mutable site).run l = .ok (origins, after)) :
    ∃ touched, (ctx.touch id operand.span).run l = .ok ((), touched) ∧ touched.EditsOf lendable after := by
  obtain ⟨v, _, known, ran⟩ := Own.run_bind_ok.mp ran
  obtain ⟨declared, rfl⟩ := var_ok known
  obtain ⟨_, touched, touches, ran⟩ := Own.run_bind_ok.mp ran
  refine ⟨touched, touches, ?_⟩
  split at ran
  · rename_i direct
    have keeps : l.Keeps (fun _ => ()) (fun _ => True) touched := ctx.touch_keeps trivial id _ touches
    exact ctx.borrowVar_edits (keeps.vars ▸ declared) (may (by simpa using direct)) ran
  · refine Own.Edits.bind (ctx.read_edits id _) (fun _ => ?_) ran
    dsimp only
    split
    · exact .bind (ctx.add_edits _) fun _ => held_edits id
    · exact held_edits id

theorem borrowPlace_edits {id : Nat} {p : Place} (may : p.throughRef = false → lendable id) (operand : Expr)
    (mutable : Bool) (site : NodeInfo) : (ctx.borrowPlace id p operand mutable site).Edits lendable := by
  intro l origins after ran
  obtain ⟨touched, touches, rest⟩ := ctx.borrowPlace_touches may ran
  exact (ctx.touch_edits id _ touches).trans rest

theorem writeVar_edits (id : Nat) (target : Expr) (origins : List Origin) :
    (ctx.writeVar id target origins).Edits lendable := by
  refine .bind (var_edits id) fun v => .bind (stateOf_edits id) fun s => .bind (varFlow_edits id) fun flow => ?_
  split
  · exact ctx.useAfterMove_edits id _
  · split
    · split
      · exact ctx.add_edits _
      · exact .bind (blocking_edits id) fun _ => ctx.add_edits _
    · split
      · refine .bind (.edit fun l => .assign l id) fun _ => ?_
        split
        · exact adopt_edits id origins
        · exact .pure ()
      · refine .bind (ctx.typeOf_edits _) fun t => ?_
        split
        · exact adopt_edits id _
        · exact .pure ()

theorem writeSite_edits (target : Expr) (origins : List Origin) : (ctx.writeSite target origins).Edits lendable := by
  refine .bind (ctx.place_edits target) fun p => ?_
  split
  · unfold write
    split
    · refine .bind (ctx.read_edits _ _) fun _ => ?_
      split
      · exact ctx.add_edits _
      · exact .pure ()
    · exact ctx.writeVar_edits _ target origins
  · exact .pure ()
  · exact .pure ()

theorem bindAll_edits (origins : Option (List Origin)) (bindings : List Binding) :
    (ctx.bindAll origins bindings).Edits lendable := by
  induction bindings with
  | nil => exact .pure ()
  | cons b rest ih =>
    intro l _ after ran
    obtain ⟨id, declared, filled, added, fills, others⟩ := bindAll_cons_ok ran
    refine Relation.ReflTransGen.trans ?_ (ih others)
    obtain ⟨rfl, rfl⟩ := Prod.mk.inj added
    have bare (start : VarFlow → VarFlow) : Ledger.EditOf lendable l _ :=
      .declare l b.name (ctx.notes.typeOf b.info.id) b.mutable b.info.span id (fun _ => rfl) start
    simp only [List.modify_id] at bare
    cases origins with
    | none =>
      obtain rfl := Own.run_modify_ok.mp fills
      exact .single (bare _)
    | some origins =>
      have declared := bare id
      simp only [Flow.updateVar, List.modify_id] at declared
      refine .head declared ?_
      simp only [fill] at fills
      split at fills
      · exact adopt_edits _ origins fills
      · obtain ⟨-, rfl⟩ := Own.run_pure_ok.mp fills
        exact .refl

end Context

end Rules

variable {ctx : Context} {m after : Machine}

/-- Whether a step may lend a variable: the one that a borrowed place starts at, if it is not reached through a
reference. -/
def Step.Lends (ctx : Context) (l : Ledger) (id : Nat) : Step → Prop
  | .borrowPlace operand _ _ => ctx.through operand = false ∧ ∃ p, ctx.placeIn l.scopes operand = .ok p ∧
      (p.root = .var id ∨ (p.root = .temporary ∧ id = 0))
  | _ => False

theorem Step.run_editsOf {s : Step} (may : ∀ id, s.Lends ctx m.ledger id → lendable id)
    (ran : s.run ctx m = .ok after) : m.ledger.EditsOf lendable after.ledger := by
  cases s with
  | value | nip | union | collect | gather | returned =>
    cases ran
    exact .refl
  | typed id =>
    obtain ⟨l, done, rfl⟩ := Machine.perform_ok.mp ran
    exact Own.Edits.bind (ctx.typeOf_edits id) (fun _ => .pure ()) done
  | locate e =>
    obtain ⟨l, done, rfl⟩ := Machine.perform_ok.mp ran
    exact Own.Edits.bind (ctx.place_edits e) (fun _ => .pure ()) done
  | carried id =>
    obtain ⟨origins, l, done, rfl⟩ := Machine.yield_ok.mp ran
    exact ctx.carried_edits id (.pure _) done
  | useName info name use =>
    obtain ⟨origins, l, done, rfl⟩ := Machine.yield_ok.mp ran
    exact ctx.useName_edits info name use done
  | usePlace e use =>
    obtain ⟨origins, l, done, rfl⟩ := Machine.yield_ok.mp ran
    exact Own.Edits.bind (ctx.place_edits e) (fun p => ctx.usePlace_edits p e use) done
  | borrowPlace operand mutable site =>
    obtain ⟨origins, l, done, rfl⟩ := Machine.yield_ok.mp ran
    obtain ⟨p, _, located, done⟩ := Own.run_bind_ok.mp done
    obtain ⟨reached, rfl⟩ := place_ok located
    have direct {id : Nat} (root : p.root = .var id ∨ (p.root = .temporary ∧ id = 0))
        (direct : p.throughRef = false) : lendable id :=
      may id ⟨Context.throughRef_eq reached ▸ direct, p, reached, root⟩
    split at done
    · obtain ⟨-, rfl⟩ := Own.run_pure_ok.mp done
      exact .refl
    · rename_i root
      exact ctx.borrowPlace_edits (direct (.inl root)) operand mutable site done
    · rename_i root
      exact ctx.borrowPlace_edits (direct (.inr ⟨root, rfl⟩)) operand mutable site done
  | lend mutable site =>
    obtain ⟨origins, l, done, rfl⟩ := Machine.yield_ok.mp ran
    exact Own.Edits.bind (lend_edits mutable site) (fun _ => .pure _) done
  | write target id =>
    obtain ⟨l, done, rfl⟩ := Machine.perform_ok.mp ran
    exact Own.Edits.bind (ctx.carried_edits id (.pure _)) (fun origins => ctx.writeSite_edits target origins) done
  | keep | keepFound =>
    obtain ⟨l, done, rfl⟩ := Machine.perform_ok.mp ran
    exact keep_edits _ done
  | bind bindings | bindLate bindings =>
    obtain ⟨l, done, rfl⟩ := Machine.perform_ok.mp ran
    exact ctx.bindAll_edits _ bindings done
  | param name type mutable span =>
    obtain ⟨l, done, rfl⟩ := Machine.perform_ok.mp ran
    exact declareParam_edits name type mutable span done
  | escape span =>
    obtain ⟨l, done, rfl⟩ := Machine.perform_ok.mp ran
    exact ctx.checkEscape_edits span _ done

theorem Step.run_edits {s : Step} (ran : s.run ctx m = .ok after) : m.ledger.Edits after.ledger :=
  s.run_editsOf (fun _ _ => trivial) ran

end TreeCheck.Ownership
