import Mathlib.Data.List.Induction
import TreeCheck.Proofs.Ownership.Accepted

/-!
The lineage of a parameter. Along a path through a function it is known, without any check, which variables and
which values come from a parameter: by naming it, taking a part of it, following or borrowing again what it
refers to, and binding any of these to names. Assigning to a variable takes its mark away, and nothing else
that happens on a path marks a variable that was there before.
-/

namespace TreeCheck.Ownership

/-- What is known about one parameter: which of the variables in scope, latest first, and which of the values
at hand come from it, and whether such a value has been returned. -/
structure Lineage where
  names : List (String × Bool) := []
  values : List Bool := []
  found : Bool := false
  returned : Bool := false
deriving DecidableEq

/-- Takes the mark away from the variable that a name stands for. -/
def unmark (name : String) : List (String × Bool) → List (String × Bool)
  | [] => []
  | (n, marked) :: rest => if name == n then (n, false) :: rest else (n, marked) :: unmark name rest

namespace Lineage

def top (g : Lineage) : Bool := g.values.headD false

def push (g : Lineage) (used : Nat) (marked : Bool) : Lineage := { g with values := marked :: g.values.drop used }

/-- Whether the variable that a name stands for is marked. -/
def ofName (g : Lineage) (name : String) : Bool := (g.names.lookup name).getD false

/-- Whether the variable that a place starts at is marked. -/
def ofPlace (g : Lineage) (e : Expr) : Bool :=
  match e.root? with
  | some (_, name) => g.ofName name
  | none => false

def assign (g : Lineage) : Expr → Lineage
  | .ident _ name => { g with names := unmark name g.names }
  | _ => g

/-- Declares what a pattern binds in a value; what cannot hold a reference is not marked. -/
def bind (ctx : Context) (g : Lineage) (bindings : List Binding) (marked : Bool) : Lineage :=
  { g with names := (bindings.map fun b =>
      (b.name, marked && ctx.carries (ctx.notes.typeOf b.info.id))).reverse ++ g.names }

/-- Goes on with the values at hand before. -/
def resume (g after : Lineage) : Lineage := { after with values := g.values, found := g.found }

/-- Leaves a scope of names. -/
def exit (g after : Lineage) : Lineage :=
  { after with names := after.names.drop (after.names.length - g.names.length) }

def gathered (g after : Lineage) : Lineage := { after with values := after.found :: g.values, found := g.found }

end Lineage

/-- What a step does to the lineage of a parameter that is given with the types for which it is followed. The
results of calls are not followed. -/
def Step.descend (ctx : Context) (parameter : String) (seeds : Ty → Bool) (g : Lineage) : Step → Lineage
  | .value => g.push 0 false
  | .nip => g.push 2 g.top
  | .union => g.push 2 (g.values.getD 1 false || g.top)
  | .collect => { g with values := g.values.tail, found := g.found || g.top }
  | .typed _ | .locate _ | .keep | .keepFound => g
  | .carried id => g.push 1 (g.top && ctx.carries (ctx.notes.typeOf id))
  | .useName _ name _ => g.push 0 (g.ofName name)
  | .usePlace e _ => g.push 0 (g.ofPlace e)
  | .borrowPlace operand _ _ => g.push 0 (g.ofPlace operand)
  | .lend .. => g.push 1 g.top
  | .write target _ => g.assign target
  | .gather count | .returned _ count => g.push (count + 1) false
  | .bind bindings => g.bind ctx bindings g.top
  | .bindLate bindings => g.bind ctx bindings false
  | .param name type _ _ => { g with names := (name, name == parameter && seeds type) :: g.names }
  | .escape _ => { g with returned := g.returned || g.top }

/-- The paths through code, told by what is known about a parameter; loops are gone round any number of times. -/
inductive Trail (ctx : Context) (parameter : String) (seeds : Ty → Bool) :
    Code → Lineage → Lineage → Bool → Prop
  | cut {c : Code} {g : Lineage} : Trail ctx parameter seeds c g g false
  | skip {g : Lineage} : Trail ctx parameter seeds .skip g g true
  | step {s : Step} {g : Lineage} : Trail ctx parameter seeds (.step s) g (s.descend ctx parameter seeds g) true
  | seq {first next : Code} {g middle after : Lineage} {ends : Bool}
      (start : Trail ctx parameter seeds first g middle true)
      (rest : Trail ctx parameter seeds next middle after ends) :
      Trail ctx parameter seeds (.seq first next) g after ends
  | within {first next : Code} {g after : Lineage} (start : Trail ctx parameter seeds first g after false) :
      Trail ctx parameter seeds (.seq first next) g after false
  | discard {body : Code} {g after : Lineage} {ends : Bool} (inner : Trail ctx parameter seeds body g after ends) :
      Trail ctx parameter seeds (.discard body) g (g.resume after) ends
  | scope {isTemporary : Bool} {span : Span} {body : Code} {g after : Lineage} {ends : Bool}
      (inner : Trail ctx parameter seeds body g after ends) :
      Trail ctx parameter seeds (.scope isTemporary span body) g
        (if isTemporary then after else g.exit after) ends
  | arm {arms : List Code} {arm : Code} {g after : Lineage} {ends : Bool} (chosen : arm ∈ arms)
      (inner : Trail ctx parameter seeds arm { g with found := false } after ends) :
      Trail ctx parameter seeds (.choice arms) g (g.gathered after) ends
  | without {g : Lineage} :
      Trail ctx parameter seeds (.choice []) g (g.gathered { g with found := false }) true
  | loop {test round : Code} {g after : Lineage} {ends : Bool} (count : Nat)
      (inner : Trail ctx parameter seeds (Code.rounds test round count) g after ends) :
      Trail ctx parameter seeds (.loop test round) g after ends
  | leave {g : Lineage} : Trail ctx parameter seeds .leave g g false

/-! ### Marks by slots -/

/-- Whether the variable in a slot is marked. -/
def markIn : List (String × Bool) → Nat → Bool
  | [], _ => false
  | (_, marked) :: rest, j => if j = rest.length then marked else markIn rest j

variable {names added : List (String × Bool)} {name : String} {j : Nat}

theorem lt_length_of_markIn (marked : markIn names j = true) : j < names.length := by
  induction names with
  | nil => cases marked
  | cons x rest ih =>
    rw [markIn] at marked
    split at marked
    · simp [*]
    · exact Nat.lt_succ_of_lt (ih marked)

theorem markIn_append (inside : j < names.length) : markIn (added ++ names) j = markIn names j := by
  induction added with
  | nil => rfl
  | cons x added ih =>
    rw [List.cons_append, markIn, if_neg (by rw [List.length_append]; omega), ih]

theorem markIn_drop {count : Nat} (marked : markIn (names.drop count) j = true) : markIn names j = true := by
  rw [← List.take_append_drop count names, markIn_append (lt_length_of_markIn marked)]
  exact marked

theorem exists_markIn (marked : (names.lookup name).getD false = true) :
    ∃ j, position (names.map Prod.fst) name = some j ∧ markIn names j = true := by
  induction names with
  | nil => cases marked
  | cons x rest ih =>
    obtain ⟨n, mark⟩ := x
    rw [List.lookup_cons] at marked
    rw [List.map_cons, position]
    by_cases same : (name == n) = true
    · simp only [same, Option.getD_some] at marked
      exact ⟨rest.length, by simp [same], by simpa [markIn] using marked⟩
    · simp only [same] at marked
      obtain ⟨j, found, marked⟩ := ih marked
      have inside := lt_length_of_markIn marked
      exact ⟨j, by simpa [same] using found, by rwa [markIn, if_neg (by omega)]⟩

@[simp] theorem map_fst_unmark : (unmark name names).map Prod.fst = names.map Prod.fst := by
  induction names with
  | nil => rfl
  | cons x rest ih =>
    obtain ⟨n, mark⟩ := x
    rw [unmark]
    split <;> simp [ih]

theorem length_unmark : (unmark name names).length = names.length := by
  rw [← List.length_map Prod.fst, map_fst_unmark, List.length_map]

theorem markIn_unmark (marked : markIn (unmark name names) j = true) :
    markIn names j = true ∧ position (names.map Prod.fst) name ≠ some j := by
  induction names with
  | nil => cases marked
  | cons x rest ih =>
    obtain ⟨n, mark⟩ := x
    rw [unmark] at marked
    rw [List.map_cons, position, List.length_map]
    by_cases same : (name == n) = true
    · rw [if_pos same, markIn] at marked
      rw [if_pos same]
      split at marked
      · cases marked
      · rename_i other
        exact ⟨by rwa [markIn, if_neg other], fun equal => other (Option.some.inj equal).symm⟩
    · rw [if_neg same, markIn, length_unmark] at marked
      rw [if_neg same]
      split at marked
      · rename_i last
        refine ⟨by rwa [markIn, if_pos last], fun found => ?_⟩
        have := lt_length_of_position found
        rw [List.length_map] at this
        omega
      · rename_i other
        exact (ih marked).imp_left fun marked => by rwa [markIn, if_neg other]

/-- A marked slot is one from before, or that of a binding of a marked value that can hold a reference. -/
theorem markIn_bind {ctx : Context} {g : Lineage} {bindings : List Binding} {top : Bool}
    (marked : markIn (g.bind ctx bindings top).names j = true) :
    markIn g.names j = true ∨ (top = true ∧ ∃ i b, bindings[i]? = some b ∧ j = g.names.length + i ∧
      ctx.carries (ctx.notes.typeOf b.info.id) = true) := by
  unfold Lineage.bind at marked
  induction bindings using List.reverseRecOn with
  | nil => exact .inl marked
  | append_singleton bindings b ih =>
    simp only [List.map_append, List.reverse_append, List.map_cons, List.map_nil, List.reverse_singleton,
      List.cons_append, List.nil_append, markIn] at marked
    split at marked
    · rename_i last
      obtain ⟨isTop, carries⟩ := Bool.and_eq_true_iff.mp marked
      refine .inr ⟨isTop, bindings.length, b, by simp, ?_, carries⟩
      simpa [Nat.add_comm] using last
    · refine (ih marked).imp_right fun ⟨isTop, i, c, found, place, carries⟩ =>
        ⟨isTop, i, c, ?_, place, carries⟩
      rw [List.getElem?_append_left (List.getElem?_eq_some_iff.mp found).1, found]

/-! ### What a trail keeps -/

/-- A trail to the end of code has the names that the code declares, and marks no variable from before. -/
structure Trailed (ctx : Context) (c : Code) (g after : Lineage) : Prop where
  names : after.names.map Prod.fst = (c.declared ctx).map Prod.fst ++ g.names.map Prod.fst
  shrinks : ∀ j < g.names.length, markIn after.names j = true → markIn g.names j = true
  goesOn : c.leaves = false

variable {ctx : Context} {parameter : String} {seeds : Ty → Bool} {c : Code} {g middle after : Lineage}
  {ends declares : Bool}

namespace Trailed

theorem length (trailed : Trailed ctx c g after) :
    after.names.length = (c.declared ctx).length + g.names.length := by
  simpa using congrArg List.length trailed.names

theorem kept (same : after.names = g.names) (none : c.declared ctx = []) (goesOn : c.leaves = false) :
    Trailed ctx c g after :=
  ⟨by simp [same, none], fun _ _ marked => same ▸ marked, goesOn⟩

theorem step (s : Step) : Trailed ctx (.step s) g (s.descend ctx parameter seeds g) := by
  cases s with
  | bind bindings | bindLate bindings =>
    refine ⟨?_, fun j inside marked => ?_, rfl⟩
    · simp [Step.descend, Lineage.bind, Code.declared, Step.declared, Context.bound, Function.comp_def]
    · rcases markIn_bind marked with before | ⟨-, i, b, -, place, -⟩
      · exact before
      · omega
  | param name type mutable span =>
    refine ⟨rfl, fun j inside marked => ?_, rfl⟩
    rwa [Step.descend, markIn, if_neg (by omega)] at marked
  | write target id =>
    refine ⟨?_, fun j _ marked => ?_, rfl⟩
    · cases target <;> simp [Step.descend, Lineage.assign, Code.declared, Step.declared]
    · cases target with
      | ident info name => exact (markIn_unmark marked).1
      | _ => exact marked
  | _ => exact .kept rfl rfl rfl

theorem seq {first next : Code} (start : Trailed ctx first g middle) (rest : Trailed ctx next middle after) :
    Trailed ctx (.seq first next) g after := by
  refine ⟨?_, fun j inside marked => start.shrinks j inside (rest.shrinks j ?_ marked), ?_⟩
  · rw [rest.names, start.names, Code.declared, List.map_append, List.append_assoc]
  · have := start.length
    omega
  · simp [Code.leaves, start.goesOn, rest.goesOn]

end Trailed

theorem Trail.trailed (trail : Trail ctx parameter seeds c g after ends) (ended : ends = true)
    (tidy : c.Tidy declares) : Trailed ctx c g after := by
  induction trail generalizing declares with
  | cut | within | leave => cases ended
  | skip => exact .kept rfl rfl rfl
  | step => exact .step _
  | seq _ _ first next =>
    obtain ⟨start, rest⟩ := Code.tidy_seq.mp tidy
    exact (first rfl start).seq (next ended rest)
  | discard _ ih =>
    have inner := ih ended (Code.tidy_discard.mp tidy)
    exact ⟨inner.names, inner.shrinks, inner.goesOn⟩
  | @scope isTemporary _ _ g after _ _ ih =>
    obtain ⟨more, body⟩ := tidy.inner
    have inner := ih ended body
    cases isTemporary with
    | true => exact ⟨inner.names, inner.shrinks, inner.goesOn⟩
    | false =>
      refine ⟨?_, fun j inside marked => inner.shrinks j inside (markIn_drop marked), inner.goesOn⟩
      have length := inner.length
      simp only [Bool.false_eq_true, if_false, Lineage.exit, List.map_drop, inner.names, Code.declared,
        List.map_nil, List.nil_append]
      rw [List.drop_left' (by simp [length])]
  | @arm arms arm _ _ _ chosen _ ih =>
    have each := Code.tidy_choice.mp tidy arm chosen
    have inner := ih ended each
    refine ⟨?_, inner.shrinks, ?_⟩
    · simpa [Code.declared, each.declared_eq_nil, Lineage.gathered] using inner.names
    · rw [Code.leaves, Code.allLeave_eq_all, Bool.and_eq_false_iff]
      exact .inr (List.all_eq_false.mpr ⟨arm, chosen, by simp [inner.goesOn]⟩)
  | without => exact .kept rfl rfl rfl
  | loop count _ ih =>
    obtain ⟨condition, body⟩ := Code.tidy_loop.mp tidy
    have rounds : Code.Tidy false (Code.rounds _ _ count) := condition.rounds body count
    have inner := ih ended rounds
    refine ⟨?_, inner.shrinks, ?_⟩
    · simpa [Code.declared, rounds.declared_eq_nil] using inner.names
    · rw [Code.leaves, Code.leaves_rounds inner.goesOn]

end TreeCheck.Ownership
