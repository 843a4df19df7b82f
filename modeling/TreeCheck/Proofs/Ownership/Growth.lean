import TreeCheck.Proofs.Ownership.Code
import TreeCheck.Proofs.Ownership.Frame
import TreeCheck.Proofs.Ownership.Joins

/-!
What is in scope while a function is checked. A step adds the names it declares to the innermost scope of
names, and each variable in scope has a number of its own.
-/

namespace TreeCheck.Ownership

/-! ### Ledgers -/

def addNames (added : List (String × Nat)) : List Scope → List Scope
  | [] => []
  | s :: rest =>
    if s.isTemporary then s :: addNames added rest
    else { s with names := added ++ s.names } :: rest

theorem addNames_nil (scopes : List Scope) : addNames [] scopes = scopes := by
  induction scopes with
  | nil => rfl
  | cons s rest ih => simp [addNames, ih]

theorem addNames_addNames (first next : List (String × Nat)) (scopes : List Scope) :
    addNames next (addNames first scopes) = addNames (next ++ first) scopes := by
  induction scopes with
  | nil => rfl
  | cons s rest ih =>
    by_cases temporary : s.isTemporary
    · simp [addNames, temporary, ih]
    · simp [addNames, temporary]

namespace Ledger

/-- The variables in scope, the latest first. -/
def env (l : Ledger) : List (String × Nat) := l.scopes.flatMap Scope.names

theorem lookup?_eq (l : Ledger) (name : String) : l.lookup? name = l.env.lookup name := by
  have each (scopes : List Scope) : (scopes.findSome? fun s => s.names.lookup name) =
      (scopes.flatMap Scope.names).lookup name := by
    induction scopes with
    | nil => rfl
    | cons s rest ih =>
      rw [List.findSome?_cons, List.flatMap_cons, List.lookup_append, ih]
      cases s.names.lookup name <;> rfl
  exact each l.scopes

def Named (l : Ledger) : Prop := ∃ s ∈ l.scopes, s.isTemporary = false

/-- Whether the path knows about each variable. -/
def Balanced (l : Ledger) : Prop := l.flow.vars.length = l.vars.length

/-- The invariant of a ledger inside a function: each variable in scope is declared, once, and names are
declared in scopes that are not temporary. -/
structure Regular (l : Ledger) : Prop where
  balanced : l.Balanced
  declared : ∀ x ∈ l.env, x.2 < l.vars.length
  distinct : (l.env.map Prod.snd).Nodup
  nameless : ∀ s ∈ l.scopes, s.isTemporary = true → s.names = []
  named : l.Named

end Ledger

theorem flatMap_addNames {added : List (String × Nat)} {scopes : List Scope}
    (nameless : ∀ s ∈ scopes, s.isTemporary = true → s.names = [])
    (named : ∃ s ∈ scopes, s.isTemporary = false) :
    (addNames added scopes).flatMap Scope.names = added ++ scopes.flatMap Scope.names := by
  induction scopes with
  | nil => simp at named
  | cons s rest ih =>
    by_cases temporary : s.isTemporary = true
    · have restNamed : ∃ s ∈ rest, s.isTemporary = false := by
        obtain ⟨other, member, isNamed⟩ := named
        rcases List.mem_cons.mp member with rfl | inRest
        · simp [temporary] at isNamed
        · exact ⟨other, inRest, isNamed⟩
      have empty := nameless s List.mem_cons_self temporary
      simp [addNames, temporary, empty,
        ih (fun s member => nameless s (List.mem_cons_of_mem _ member)) restNamed]
    · simp [addNames, temporary]

theorem nameless_addNames {added : List (String × Nat)} {scopes : List Scope}
    (nameless : ∀ s ∈ scopes, s.isTemporary = true → s.names = []) :
    ∀ s ∈ addNames added scopes, s.isTemporary = true → s.names = [] := by
  induction scopes with
  | nil => simp [addNames]
  | cons s rest ih =>
    have restNameless := fun t member => nameless t (List.mem_cons_of_mem s member)
    by_cases temporary : s.isTemporary = true
    · simp only [addNames, temporary, if_true, List.forall_mem_cons]
      exact ⟨fun _ => nameless s List.mem_cons_self temporary, ih restNameless⟩
    · simp only [addNames, temporary, Bool.false_eq_true, if_false, List.forall_mem_cons]
      exact ⟨fun isTemporary => isTemporary.elim, restNameless⟩

theorem named_addNames {added : List (String × Nat)} {scopes : List Scope}
    (named : ∃ s ∈ scopes, s.isTemporary = false) :
    ∃ s ∈ addNames added scopes, s.isTemporary = false := by
  induction scopes with
  | nil => simp at named
  | cons s rest ih =>
    by_cases temporary : s.isTemporary = true
    · have restNamed : ∃ s ∈ rest, s.isTemporary = false := by
        simpa [temporary] using named
      obtain ⟨t, member, isNamed⟩ := ih restNamed
      exact ⟨t, by simp [addNames, temporary, member], isNamed⟩
    · exact ⟨{ s with names := added ++ s.names }, by simp [addNames, temporary],
        by simpa using temporary⟩

/-- Where a declaration puts its name. -/
theorem addNames_one {scopes : List Scope} (named : ∃ s ∈ scopes, s.isTemporary = false)
    (name : String) (id : Nat) : ∃ s rest, scopes.dropWhile Scope.isTemporary = s :: rest ∧
      addNames [(name, id)] scopes = scopes.takeWhile Scope.isTemporary ++
        { s with names := (name, id) :: s.names } :: rest := by
  induction scopes with
  | nil => simp at named
  | cons s rest ih =>
    by_cases temporary : s.isTemporary = true
    · have restNamed : ∃ s ∈ rest, s.isTemporary = false := by
        simpa [temporary] using named
      obtain ⟨t, outer, found, added⟩ := ih restNamed
      exact ⟨t, outer, by simp [temporary, found], by simp [addNames, temporary, added]⟩
    · exact ⟨s, rest, by simp [temporary], by simp [addNames, temporary]⟩

theorem getElem?_of_extends {α : Type} {xs ys : List α} (start : xs <+: ys) {i : Nat}
    (inside : i < xs.length) : ys[i]? = xs[i]? := by
  obtain ⟨rest, rfl⟩ := start
  exact List.getElem?_append_left inside

theorem prefix_modify_length {α : Type} (xs : List α) (a : α) (change : α → α) :
    xs <+: (xs ++ [a]).modify xs.length change := by
  refine ⟨[change a], ?_⟩
  apply List.ext_getElem?
  intro i
  simp only [List.getElem?_modify, List.getElem?_append]
  grind

/-- One ledger after another, with the names and types declared since. -/
structure Ledger.Grows (names : List (String × Option Ty)) (l after : Ledger) : Prop where
  scopes : ∃ added : List (String × Nat), after.scopes = addNames added l.scopes ∧
    (added.map fun x => (x.1, (after.vars[x.2]?).map Var.type)) = names ∧
    (∀ x ∈ added, l.vars.length ≤ x.2 ∧ x.2 < after.vars.length) ∧ (added.map Prod.snd).Nodup
  vars : l.vars <+: after.vars
  reports : l.bag.contents <+: after.bag.contents

theorem Ledger.Keeps.balanced {γ : Type} {view : VarFlow → γ} {kinds : Diagnostic.Kind → Prop}
    {l after : Ledger} (keeps : l.Keeps view kinds after) (balanced : l.Balanced) :
    after.Balanced := by
  rw [Balanced, keeps.length, keeps.vars]
  exact balanced

namespace Ledger.Grows

variable {names more : List (String × Option Ty)} {l middle after : Ledger}

theorem refl (l : Ledger) : l.Grows [] l :=
  ⟨⟨[], by simp [addNames_nil]⟩, List.prefix_rfl, List.prefix_rfl⟩

theorem trans (first : l.Grows names middle) (next : middle.Grows more after) :
    l.Grows (more ++ names) after := by
  obtain ⟨early, earlyScopes, earlyNames, earlyFresh, earlyDistinct⟩ := first.scopes
  obtain ⟨late, lateScopes, lateNames, lateFresh, lateDistinct⟩ := next.scopes
  have start := first.vars.length_le
  have grown := next.vars.length_le
  refine ⟨⟨late ++ early, ?_, ?_, ?_, ?_⟩, first.vars.trans next.vars,
    first.reports.trans next.reports⟩
  · rw [lateScopes, earlyScopes, addNames_addNames]
  · rw [List.map_append, lateNames, ← earlyNames]
    congr 1
    apply List.map_congr_left
    intro x member
    rw [getElem?_of_extends next.vars (earlyFresh x member).2]
  · intro x member
    rcases List.mem_append.mp member with inLate | inEarly
    · have := lateFresh x inLate
      omega
    · have := earlyFresh x inEarly
      omega
  · rw [List.map_append, List.nodup_append]
    refine ⟨lateDistinct, earlyDistinct, ?_⟩
    intro a inLate b inEarly same
    obtain ⟨x, xLate, rfl⟩ := List.mem_map.mp inLate
    obtain ⟨y, yEarly, rfl⟩ := List.mem_map.mp inEarly
    have := lateFresh x xLate
    have := earlyFresh y yEarly
    omega

theorem env (grows : l.Grows names after) (regular : l.Regular) :
    ∃ added : List (String × Nat), after.env = added ++ l.env ∧
      (added.map fun x => (x.1, (after.vars[x.2]?).map Var.type)) = names ∧
      (∀ x ∈ added, l.vars.length ≤ x.2 ∧ x.2 < after.vars.length) ∧
      (added.map Prod.snd).Nodup := by
  obtain ⟨added, scopes, rest⟩ := grows.scopes
  refine ⟨added, ?_, rest⟩
  rw [Ledger.env, scopes, flatMap_addNames regular.nameless regular.named, Ledger.env]

/-- Only what is declared changes the scopes. -/
theorem scopes_eq (grows : l.Grows [] after) : after.scopes = l.scopes := by
  obtain ⟨added, scopes, names, -⟩ := grows.scopes
  obtain rfl : added = [] := List.map_eq_nil_iff.mp names
  rw [scopes, addNames_nil]

theorem named (grows : l.Grows names after) (named : l.Named) : after.Named := by
  obtain ⟨added, scopes, -⟩ := grows.scopes
  rw [Ledger.Named, scopes]
  exact named_addNames named

theorem regular (grows : l.Grows names after) (regular : l.Regular) (balanced : after.Balanced) :
    after.Regular := by
  obtain ⟨added, env, -, fresh, distinct⟩ := grows.env regular
  have grown := grows.vars.length_le
  refine ⟨balanced, ?_, ?_, ?_, grows.named regular.named⟩
  · intro x member
    rw [env] at member
    rcases List.mem_append.mp member with inAdded | inOld
    · exact (fresh x inAdded).2
    · have := regular.declared x inOld
      omega
  · rw [env, List.map_append, List.nodup_append]
    refine ⟨distinct, regular.distinct, ?_⟩
    intro a inAdded b inOld same
    obtain ⟨x, xAdded, rfl⟩ := List.mem_map.mp inAdded
    obtain ⟨y, yOld, rfl⟩ := List.mem_map.mp inOld
    have := fresh x xAdded
    have := regular.declared y yOld
    omega
  · obtain ⟨added, scopes, -⟩ := grows.scopes
    rw [scopes]
    exact nameless_addNames regular.nameless

theorem of_keeps {γ : Type} {view : VarFlow → γ} {kinds : Diagnostic.Kind → Prop}
    (keeps : l.Keeps view kinds after) : l.Grows [] after := by
  obtain ⟨new, bag, -⟩ := keeps.reports
  exact ⟨⟨[], by simp [addNames_nil, keeps.scopes]⟩, by simp [keeps.vars], new, bag.symm⟩

end Ledger.Grows

namespace Ledger

/-- A new variable goes into the innermost scope of names. -/
theorem declare_eq {l : Ledger} (named : l.Named) (name : String) (type : Ty) (mutable : Bool)
    (span : Span) : ∃ scope,
      l.declare name type mutable span = (l.vars.length, { l with
        vars := l.vars ++ [({ name, type, mutable, scope, span } : Var)]
        flow := { l.flow with vars := l.flow.vars ++ [({} : VarFlow)] }
        scopes := addNames [(name, l.vars.length)] l.scopes }) := by
  obtain ⟨s, rest, outer, added⟩ := addNames_one named name l.vars.length
  refine ⟨s.id, ?_⟩
  simp only [declare, outer, added]

theorem declare_grows {l : Ledger} (named : l.Named) (name : String) (type : Ty)
    (mutable : Bool) (span : Span) :
    l.Grows [(name, some type)] (l.declare name type mutable span).2 ∧
      (l.Balanced → (l.declare name type mutable span).2.Balanced) := by
  obtain ⟨scope, declared⟩ := declare_eq named name type mutable span
  rw [declared]
  refine ⟨⟨⟨[(name, l.vars.length)], rfl, ?_, ?_, ?_⟩, ?_, List.prefix_rfl⟩, ?_⟩
  · simp
  · simp
  · simp
  · exact List.prefix_append _ _
  · simp [Balanced]

end Ledger

namespace Context

variable {ctx : Context}

theorem typeOf_ok {id : Nat} {l after : Ledger} {t : Ty}
    (ran : (ctx.typeOf id).run l = .ok (t, after)) : t = ctx.notes.typeOf id ∧ l = after := by
  unfold typeOf at ran
  split at ran
  · cases ran
  · obtain ⟨rfl, rfl⟩ := Own.run_pure_ok.mp ran
    exact ⟨rfl, rfl⟩

/-- What becomes of a new variable: it holds what its value points into, or it has no value so far. -/
def fill (ctx : Context) (origins : Option (List Origin)) (id : Nat) (t : Ty) : Own Unit :=
  match origins with
  | none => modify fun l =>
    { l with flow := l.flow.updateVar id fun f => { f with moved := true, late := true } }
  | some origins => if ctx.carries t then adopt id origins else pure ()

theorem bindAll_cons_ok {origins : Option (List Origin)} {b : Binding} {rest : List Binding}
    {l after : Ledger} (ran : (ctx.bindAll origins (b :: rest)).run l = .ok ((), after)) :
    ∃ id declared filled,
      l.declare b.name (ctx.notes.typeOf b.info.id) b.mutable b.info.span = (id, declared) ∧
      (ctx.fill origins id (ctx.notes.typeOf b.info.id)).run declared = .ok ((), filled) ∧
      (ctx.bindAll origins rest).run filled = .ok ((), after) := by
  rw [bindAll] at ran
  obtain ⟨t, _, typed, known⟩ := Own.run_bind_ok.mp ran
  obtain ⟨rfl, rfl⟩ := typeOf_ok typed
  obtain ⟨id, declared, added, goesOn⟩ := Own.run_bind_ok.mp known
  refine ⟨id, declared, ?_⟩
  cases origins with
  | none =>
    obtain ⟨_, filled, marked, others⟩ := Own.run_bind_ok.mp goesOn
    exact ⟨filled, Own.run_modifyGet_ok.mp added, marked, others⟩
  | some origins =>
    by_cases carries : ctx.carries (ctx.notes.typeOf b.info.id) = true
    · simp only [fill, carries, if_true] at goesOn ⊢
      obtain ⟨_, filled, adopted, others⟩ := Own.run_bind_ok.mp goesOn
      exact ⟨filled, Own.run_modifyGet_ok.mp added, adopted, others⟩
    · simp only [fill, carries] at goesOn ⊢
      exact ⟨declared, Own.run_modifyGet_ok.mp added, rfl, goesOn⟩

theorem fill_keeps (origins : Option (List Origin)) (id : Nat) (t : Ty) :
    (ctx.fill origins id t).Keeps (fun _ => ()) (fun _ => True) := by
  unfold fill
  split
  · refine .edit fun l => ?_
    apply Ledger.Keeps.updateVar
    intro v
    rfl
  · split
    · exact adopt_keeps (fun _ _ => rfl) id _
    · exact .pure ()

/-- The names a pattern declares, with their types. -/
def bound (ctx : Context) (bindings : List Binding) : List (String × Option Ty) :=
  (bindings.map fun b => (b.name, some (ctx.notes.typeOf b.info.id))).reverse

theorem bindAll_grows {origins : Option (List Origin)} {bindings : List Binding} {l after : Ledger}
    (named : l.Named) (ran : (ctx.bindAll origins bindings).run l = .ok ((), after)) :
    l.Grows (ctx.bound bindings) after ∧ (l.Balanced → after.Balanced) ∧
      after.flow.diverged = l.flow.diverged := by
  induction bindings generalizing l with
  | nil =>
    obtain ⟨-, rfl⟩ := Own.run_pure_ok.mp ran
    exact ⟨.refl l, id, rfl⟩
  | cons b rest ih =>
    obtain ⟨id, declared, filled, added, fills, others⟩ := bindAll_cons_ok ran
    obtain ⟨grown, balanced⟩ :=
      l.declare_grows named b.name (ctx.notes.typeOf b.info.id) b.mutable b.info.span
    rw [added] at grown balanced
    have keeps := fill_keeps origins id _ fills
    have middle := grown.trans (.of_keeps keeps)
    obtain ⟨more, moreBalanced, diverged⟩ := ih (middle.named named) others
    have flow : declared.flow.diverged = l.flow.diverged := by
      obtain ⟨scope, shape⟩ :=
        Ledger.declare_eq named b.name (ctx.notes.typeOf b.info.id) b.mutable b.info.span
      rw [added] at shape
      rw [(Prod.mk.inj shape).2]
    refine ⟨by simpa [bound] using middle.trans more,
      fun start => moreBalanced (keeps.balanced (balanced start)), ?_⟩
    rw [diverged, keeps.diverged, flow]

end Context

theorem declareParam_grows {name : String} {type : Ty} {mutable : Bool} {span : Span}
    {l after : Ledger} (named : l.Named)
    (ran : (declareParam name type mutable span).run l = .ok ((), after)) :
    l.Grows [(name, some type)] after ∧ (l.Balanced → after.Balanced) ∧
      after.flow.diverged = l.flow.diverged := by
  have changed := Own.run_modify_ok.mp ran
  obtain ⟨scope, shape⟩ := Ledger.declare_eq named name type mutable span
  rw [shape] at changed
  subst changed
  refine ⟨⟨⟨[(name, l.vars.length)], rfl, ?_, ?_, ?_⟩, ?_, List.prefix_rfl⟩, ?_, rfl⟩
  · simp [List.getElem?_modify]
  · simp
  · simp
  · exact prefix_modify_length l.vars _ _
  · simp [Ledger.Balanced, Flow.updateVar]

namespace Ledger

theorem Named.push {l : Ledger} (named : l.Named) (isTemporary : Bool) (span : Span) :
    (l.push isTemporary span).Named := by
  obtain ⟨s, member, isNamed⟩ := named
  exact ⟨s, List.mem_cons_of_mem _ member, isNamed⟩

theorem named_push (l : Ledger) (span : Span) : (l.push false span).Named :=
  ⟨_, List.mem_cons_self, rfl⟩

theorem push_regular {l : Ledger} (regular : l.Regular) (isTemporary : Bool) (span : Span) :
    (l.push isTemporary span).Regular := by
  refine ⟨regular.balanced, ?_, ?_, ?_, ?_⟩
  · simpa [push, env] using regular.declared
  · simpa [push, env] using regular.distinct
  · simpa [push] using regular.nameless
  · exact regular.named.push isTemporary span

@[simp] theorem push_vars (l : Ledger) (isTemporary : Bool) (span : Span) :
    (l.push isTemporary span).vars = l.vars := rfl

@[simp] theorem push_flow (l : Ledger) (isTemporary : Bool) (span : Span) :
    (l.push isTemporary span).flow = l.flow := rfl

@[simp] theorem push_bag (l : Ledger) (isTemporary : Bool) (span : Span) :
    (l.push isTemporary span).bag = l.bag := rfl

@[simp] theorem pop_vars (l : Ledger) : l.pop.vars = l.vars := by
  unfold pop
  split <;> rfl

@[simp] theorem pop_flow_vars (l : Ledger) : l.pop.flow.vars = l.flow.vars := by
  unfold pop
  split <;> rfl

@[simp] theorem pop_diverged (l : Ledger) : l.pop.flow.diverged = l.flow.diverged := by
  unfold pop
  split <;> rfl

@[simp] theorem pop_bag (l : Ledger) : l.pop.bag = l.bag := by
  unfold pop
  split <;> rfl

theorem pop_scopes (l : Ledger) : l.pop.scopes = l.scopes.tail := by
  unfold pop
  split
  · rename_i none
    simp [none]
  · rename_i s outer found
    simp [found, close]

/-- A temporary scope declares nothing of its own. -/
theorem Grows.pop_temporary {names : List (String × Option Ty)} {l after : Ledger} {span : Span}
    (grows : (l.push true span).Grows names after) : l.Grows names after.pop := by
  obtain ⟨added, scopes, named, fresh, distinct⟩ := grows.scopes
  refine ⟨⟨added, ?_, by simpa using named, by simpa using fresh, distinct⟩, by simpa using grows.vars,
    by simpa using grows.reports⟩
  rw [pop_scopes, scopes]
  simp [push, addNames]

/-- What is declared in a scope of names is gone when it is left. -/
theorem Grows.pop_named {names : List (String × Option Ty)} {l after : Ledger} {span : Span}
    (grows : (l.push false span).Grows names after) : l.Grows [] after.pop := by
  obtain ⟨added, scopes, -⟩ := grows.scopes
  refine ⟨⟨[], ?_, by simp, by simp, by simp⟩, by simpa using grows.vars,
    by simpa using grows.reports⟩
  rw [pop_scopes, scopes, addNames_nil]
  simp [push, addNames]

theorem Grows.withFlow (l : Ledger) (flow : Flow) : l.Grows [] { l with flow } :=
  ⟨⟨[], by simp [addNames_nil]⟩, List.prefix_rfl, List.prefix_rfl⟩

end Ledger

/-! ### Steps -/

namespace Machine

variable {m after : Machine}

theorem perform_ok {rule : Own Unit} : m.perform rule = .ok after ↔
    ∃ l, rule.run m.ledger = .ok ((), l) ∧ { m with ledger := l } = after := by
  unfold perform
  cases done : rule.run m.ledger <;> simp [bind, Except.bind, pure, Except.pure, Prod.ext_iff]

theorem yield_ok {used : Nat} {rule : Own (List Origin)} : m.yield used rule = .ok after ↔
    ∃ origins l, rule.run m.ledger = .ok (origins, l) ∧
      { m with ledger := l, values := origins :: m.values.drop used } = after := by
  unfold yield
  cases done : rule.run m.ledger <;> simp [bind, Except.bind, pure, Except.pure, Prod.ext_iff]

end Machine

namespace Step

def declares : Step → Bool
  | .bind _ | .bindLate _ | .param .. => true
  | _ => false

def declared (ctx : Context) : Step → List (String × Option Ty)
  | .bind bindings | .bindLate bindings => ctx.bound bindings
  | .param name type _ _ => [(name, some type)]
  | _ => []

theorem declared_eq_nil {ctx : Context} {s : Step} (none : s.declares = false) :
    s.declared ctx = [] := by
  cases s <;> first | rfl | cases none

variable {ctx : Context} {m after : Machine}

/-- Whether a step checks what is returned. -/
def escapes : Step → Bool
  | .escape _ => true
  | _ => false

/-- Whether a step assigns to a place. -/
def writes : Step → Bool
  | .write .. => true
  | _ => false

/-- Whether a step may ask for something to be mutable. -/
def changes : Step → Bool
  | .borrowPlace .. => true
  | s => s.writes

section Views

variable {γ : Type} {view : VarFlow → γ} {kinds : Diagnostic.Kind → Prop}

/-- What steps that declare nothing leave alone: a view of the variables that does not show whether they are
moved, and shows nothing to a step that assigns. -/
theorem run_keeps_view {s : Step} (declares : s.declares = false)
    (blind : ∀ v span, view { v with moved := true, movedAt := span } = view v)
    (coarse : s.writes = true → ∀ v w, view v = view w) (used : kinds .useAfterMove)
    (lent : kinds .conflictingBorrow) (outlived : kinds .borrowOutlivesOwner)
    (immutable : s.changes = true → kinds .mutateThroughImmutableBinding)
    (dangling : s.escapes = true → kinds .danglingReference) (ran : s.run ctx m = .ok after) :
    m.ledger.Keeps view kinds after.ledger := by
  cases s with
  | value | nip | union | collect | gather | returned =>
    cases ran
    exact .refl _
  | typed id =>
    obtain ⟨l, done, rfl⟩ := Machine.perform_ok.mp ran
    exact Own.Keeps.bind (ctx.typeOf_keeps id) (fun _ => .pure ()) done
  | carried id =>
    obtain ⟨origins, l, done, rfl⟩ := Machine.yield_ok.mp ran
    exact ctx.carried_keeps id (.pure _) done
  | useName info name use =>
    obtain ⟨origins, l, done, rfl⟩ := Machine.yield_ok.mp ran
    exact ctx.useName_keeps blind used lent outlived info name use done
  | locate e =>
    obtain ⟨l, done, rfl⟩ := Machine.perform_ok.mp ran
    exact Own.Keeps.bind (ctx.place_keeps e) (fun _ => .pure ()) done
  | usePlace e use =>
    obtain ⟨origins, l, done, rfl⟩ := Machine.yield_ok.mp ran
    exact Own.Keeps.bind (ctx.place_keeps e) (fun p =>
      ctx.usePlace_keeps blind used lent outlived p e use) done
  | borrowPlace operand mutable site =>
    obtain ⟨origins, l, done, rfl⟩ := Machine.yield_ok.mp ran
    refine Own.Keeps.bind (ctx.place_keeps operand) (fun p => ?_) done
    split
    · exact .pure _
    · exact ctx.borrowPlace_keeps used lent outlived (immutable rfl) _ p operand mutable site
    · exact ctx.borrowPlace_keeps used lent outlived (immutable rfl) _ p operand mutable site
  | lend mutable site =>
    obtain ⟨origins, l, done, rfl⟩ := Machine.yield_ok.mp ran
    exact Own.Keeps.bind (lend_keeps none mutable site) (fun _ => .pure _) done
  | write target id =>
    obtain ⟨l, done, rfl⟩ := Machine.perform_ok.mp ran
    refine Own.Keeps.bind (ctx.carried_keeps id (.pure _)) (fun origins => ?_) done
    refine .bind (ctx.place_keeps target) fun p => ?_
    split
    · exact ctx.write_keeps (coarse rfl) used lent (immutable rfl) _ p target _
    · exact .pure ()
    · exact .pure ()
  | keep | keepFound =>
    obtain ⟨l, done, rfl⟩ := Machine.perform_ok.mp ran
    exact keep_keeps _ done
  | escape span =>
    obtain ⟨l, done, rfl⟩ := Machine.perform_ok.mp ran
    exact ctx.checkEscape_keeps (dangling rfl) span _ done
  | bind | bindLate | param => cases declares

end Views

/-- What a step that declares nothing keeps of a variable: what it holds, unless it assigns. -/
def kept : Step → VarFlow → List Origin
  | .write .., _ => []
  | _, v => v.holds

/-- What steps that declare nothing leave alone. -/
theorem run_keeps {s : Step} (declares : s.declares = false) (ran : s.run ctx m = .ok after) :
    m.ledger.Keeps s.kept (fun kind => kind = .danglingReference → s.escapes = true) after.ledger := by
  refine run_keeps_view declares (fun v span => ?_) (fun writes v w => ?_) nofun nofun nofun (fun _ => nofun)
    (fun escapes _ => escapes) ran
  · cases s <;> rfl
  · cases s <;> first | rfl | cases writes

theorem run_found {s : Step} (ran : s.run ctx m = .ok after) :
    ∀ origin ∈ m.found, origin ∈ after.found := by
  have performed {rule : Own Unit} (ran : m.perform rule = .ok after) : after.found = m.found := by
    obtain ⟨l, -, rfl⟩ := Machine.perform_ok.mp ran
    rfl
  have yielded {used : Nat} {rule : Own (List Origin)} (ran : m.yield used rule = .ok after) :
      after.found = m.found := by
    obtain ⟨origins, l, -, rfl⟩ := Machine.yield_ok.mp ran
    rfl
  intro origin member
  cases s with
  | value | nip | union | gather | returned =>
    cases ran
    exact member
  | collect =>
    cases ran
    exact Origin.mem_union.mpr (.inl member)
  | carried | useName | usePlace | borrowPlace | lend => rwa [yielded ran]
  | typed | locate | write | keep | keepFound | bind | bindLate | param | escape =>
    rwa [performed ran]

theorem run_grows {s : Step} (named : s.declares = true → m.ledger.Named) (ran : s.run ctx m = .ok after) :
    m.ledger.Grows (s.declared ctx) after.ledger ∧ (m.ledger.Balanced → after.ledger.Balanced) ∧
      after.ledger.flow.diverged = m.ledger.flow.diverged := by
  by_cases declares : s.declares = true
  · cases s with
    | bind bindings =>
      obtain ⟨l, done, rfl⟩ := Machine.perform_ok.mp ran
      exact Context.bindAll_grows (named rfl) done
    | bindLate bindings =>
      obtain ⟨l, done, rfl⟩ := Machine.perform_ok.mp ran
      exact Context.bindAll_grows (named rfl) done
    | param name type mutable span =>
      obtain ⟨l, done, rfl⟩ := Machine.perform_ok.mp ran
      exact declareParam_grows (named rfl) done
    | _ => cases declares
  · have keeps := run_keeps (by simpa using declares) ran
    rw [declared_eq_nil (by simpa using declares)]
    exact ⟨.of_keeps keeps, keeps.balanced, keeps.diverged⟩

end Step

end TreeCheck.Ownership
