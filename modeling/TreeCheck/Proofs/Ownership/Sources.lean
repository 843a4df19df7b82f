import Mathlib.Data.List.Forall2
import TreeCheck.Proofs.Ownership.Outcomes

/-!
What variables and values may point into, told by sources: something lent, or what a parameter points
into. Each rule passes sources on, and none of them tells one loan from another.
-/

namespace TreeCheck.Ownership

/-- Where an origin comes from: a parameter, or a loan whichever it is. -/
def Origin.source : Origin → Option String
  | .loan _ => none
  | .param name => some name

def Reaches (origins : List Origin) (source : Option String) : Prop :=
  ∃ origin ∈ origins, origin.source = source

/-- What the references in a variable may point into. -/
def HoldsFrom (source : Option String) (v : VarFlow) : Prop := Reaches v.holds source

/-- Some origins come from nowhere but where others come from. -/
def Below (a b : List Origin) : Prop := ∀ source, Reaches a source → Reaches b source

@[simp] theorem reaches_nil {source : Option String} : ¬Reaches [] source := by
  simp [Reaches]

@[simp] theorem reaches_cons {origin : Origin} {origins : List Origin} {source : Option String} :
    Reaches (origin :: origins) source ↔ origin.source = source ∨ Reaches origins source := by
  simp [Reaches]

@[simp] theorem reaches_union {a b : List Origin} {source : Option String} :
    Reaches (Origin.union a b) source ↔ Reaches a source ∨ Reaches b source := by
  simp only [Reaches, Origin.mem_union, or_and_right, exists_or]

theorem joinable_holdsFrom (source : Option String) : Joinable (HoldsFrom source) :=
  joinable_holds fun origin => origin.source = source

namespace Below

variable {a b c d : List Origin}

theorem refl (a : List Origin) : Below a a := fun _ reaches => reaches

theorem trans (first : Below a b) (next : Below b c) : Below a c := fun source reaches =>
  next source (first source reaches)

@[simp] theorem nil (a : List Origin) : Below [] a := fun _ reaches => absurd reaches reaches_nil

theorem of_subset (subset : ∀ origin ∈ a, origin ∈ b) : Below a b := by
  rintro source ⟨origin, member, same⟩
  exact ⟨origin, subset origin member, same⟩

theorem union (first : Below a c) (next : Below b d) :
    Below (Origin.union a b) (Origin.union c d) := by
  intro source reaches
  rw [reaches_union] at reaches ⊢
  exact reaches.imp (first source) (next source)

theorem foldl {xs ys : List (List Origin)} (each : List.Forall₂ Below xs ys) (start : Below a b) :
    Below (xs.foldl Origin.union a) (ys.foldl Origin.union b) := by
  induction each generalizing a b with
  | nil => exact start
  | cons first _ ih => exact ih (start.union first)

theorem getElem? {xs ys : List (List Origin)} (each : List.Forall₂ Below xs ys) (i : Nat) :
    (xs[i]? = none ∧ ys[i]? = none) ∨ ∃ x y, xs[i]? = some x ∧ ys[i]? = some y ∧ Below x y := by
  induction each generalizing i with
  | nil => exact .inl ⟨rfl, rfl⟩
  | cons first _ ih =>
    cases i with
    | zero => exact .inr ⟨_, _, rfl, rfl, first⟩
    | succ i => simpa using ih i

theorem getD {xs ys : List (List Origin)} (each : List.Forall₂ Below xs ys) (i : Nat) :
    Below (xs.getD i []) (ys.getD i []) := by
  simp only [List.getD_eq_getElem?_getD]
  rcases getElem? each i with ⟨noX, -⟩ | ⟨x, y, hasX, hasY, below⟩
  · simp [noX]
  · simpa [hasX, hasY] using below

theorem top {p m : Machine} (each : List.Forall₂ Below p.values m.values) : Below p.top m.top := by
  rw [Machine.top, Machine.top, List.headD_eq_getD, List.headD_eq_getD]
  exact getD each 0

theorem args {p m : Machine} (each : List.Forall₂ Below p.values m.values) (count : Nat) :
    List.Forall₂ Below (p.args count) (m.args count) :=
  List.forall₂_reverse_iff.mpr (List.forall₂_take count each)

/-- The result of a call points nowhere new if the arguments do not. -/
theorem returned {ctx : Context} {signature : Signature} {xs ys : List (List Origin)}
    (receiver : Below a b) (each : List.Forall₂ Below xs ys) :
    Below (ctx.returned signature a xs) (ctx.returned signature b ys) := by
  unfold Context.returned
  split
  · exact .refl _
  · cases signature.lives with
    | none => exact foldl each receiver
    | some names =>
      refine List.foldl_rel (.refl _) fun name _ x y start => ?_
      split
      · exact start.union receiver
      · cases found : signature.paramIndex? name with
        | none => exact start
        | some i =>
          rcases getElem? each i with ⟨noX, noY⟩ | ⟨_, _, hasX, hasY, below⟩
          · simpa [noX, noY] using start
          · simpa [hasX, hasY] using start.union below

end Below

/-! ### Rules -/

/-- What a variable holds on a path. -/
def Ledger.Holds (l : Ledger) (id : Nat) (origins : List Origin) : Prop :=
  ∃ v, l.flow.vars[id]? = some v ∧ v.holds = origins

variable {ctx : Context} {l middle after : Ledger} {origins : List Origin} {id : Nat}

theorem Ledger.Holds.has {source : Option String} (holds : l.Holds id origins) :
    l.flow.Has (HoldsFrom source) id ↔ Reaches origins source := by
  obtain ⟨v, found, rfl⟩ := holds
  simp [Flow.Has, found, HoldsFrom]

theorem Ledger.Keeps.has_holds {kinds : Diagnostic.Kind → Prop}
    (keeps : l.Keeps VarFlow.holds kinds after) (source : Option String) (i : Nat) :
    after.flow.Has (HoldsFrom source) i ↔ l.flow.Has (HoldsFrom source) i :=
  keeps.has (fun v w same reaches => by rwa [HoldsFrom, ← same]) i

/-- What is told to be held is what was held before, if that was kept. -/
theorem held_after {kinds : Diagnostic.Kind → Prop} (keeps : l.Keeps VarFlow.holds kinds middle)
    (ran : (held id).run middle = .ok (origins, after)) : l.Holds id origins := by
  obtain ⟨v, found, rfl, rfl⟩ := held_ok ran
  have views := keeps.views id
  rw [found] at views
  obtain ⟨w, old, same⟩ := Option.map_eq_some_iff.mp views.symm
  exact ⟨w, old, same⟩

namespace Context

theorem useName_value {info : NodeInfo} {name : String} {use : Use}
    (found : l.lookup? name = some id)
    (ran : (ctx.useName info name use).run l = .ok (origins, after)) : l.Holds id origins := by
  obtain ⟨current, _, read, ran⟩ := Own.run_bind_ok.mp ran
  obtain ⟨rfl, rfl⟩ := Own.run_get_ok.mp read
  simp only [found] at ran
  obtain ⟨_, touched, touches, ran⟩ := Own.run_bind_ok.mp ran
  obtain ⟨v, _, known, ran⟩ := Own.run_bind_ok.mp ran
  obtain ⟨-, rfl⟩ := var_ok known
  have early : l.Keeps VarFlow.holds (fun _ => True) touched := ctx.touch_keeps trivial id _ touches
  split at ran
  · obtain ⟨_, gone, moves, ran⟩ := Own.run_bind_ok.mp ran
    exact held_after (early.trans (ctx.move_keeps (fun _ _ => rfl) trivial trivial id info moves)) ran
  · obtain ⟨_, seen, reads, ran⟩ := Own.run_bind_ok.mp ran
    exact held_after (early.trans (ctx.read_keeps trivial id _ reads)) ran

theorem usePlace_value {p : Place} {e : Expr} {use : Use} (root : p.root = .var id)
    (ran : (ctx.usePlace p e use).run l = .ok (origins, after)) : l.Holds id origins := by
  simp only [usePlace, root] at ran
  obtain ⟨_, touched, touches, ran⟩ := Own.run_bind_ok.mp ran
  have early : l.Keeps VarFlow.holds (fun _ => True) touched := ctx.touch_keeps trivial id _ touches
  have afterRead {seen final : Ledger} {u : Unit} (reads : (ctx.read id e.span).run touched = .ok (u, seen))
      (told : (held id).run seen = .ok (origins, final)) : l.Holds id origins :=
    held_after (early.trans (ctx.read_keeps trivial id _ reads)) told
  split at ran
  · obtain ⟨_, seen, reads, ran⟩ := Own.run_bind_ok.mp ran
    exact afterRead reads ran
  · obtain ⟨t, _, typed, ran⟩ := Own.run_bind_ok.mp ran
    obtain ⟨rfl, rfl⟩ := typeOf_ok typed
    split at ran
    · obtain ⟨_, seen, reads, ran⟩ := Own.run_bind_ok.mp ran
      exact afterRead reads ran
    · split at ran
      · obtain ⟨_, seen, reads, ran⟩ := Own.run_bind_ok.mp ran
        obtain ⟨_, told, reported, ran⟩ := Own.run_bind_ok.mp ran
        have late : l.Keeps VarFlow.holds (fun _ => True) told :=
          (early.trans (ctx.read_keeps trivial id _ reads)).trans (ctx.add_keeps trivial reported)
        exact held_after late ran
      · obtain ⟨_, gone, moves, ran⟩ := Own.run_bind_ok.mp ran
        exact held_after (early.trans (ctx.move_keeps (fun _ _ => rfl) trivial trivial id _ moves)) ran

theorem borrowVar_value {v : Var} {operand : Expr} {mutable : Bool} {site : NodeInfo}
    (quiet : after.Quiet)
    (ran : (ctx.borrowVar id v operand mutable site).run l = .ok (origins, after)) :
    ∃ loan, origins = [.loan loan] := by
  obtain ⟨s, _, state, ran⟩ := Own.run_bind_ok.mp ran
  split at ran
  · obtain ⟨loan, _, lent, ran⟩ := Own.run_bind_ok.mp ran
    obtain ⟨rfl, -⟩ := Own.run_pure_ok.mp ran
    exact ⟨loan, rfl⟩
  · split at ran
    · obtain ⟨_, _, reported, ran⟩ := Own.run_bind_ok.mp ran
      obtain ⟨-, rfl⟩ := Own.run_pure_ok.mp ran
      exact absurd quiet (useAfterMove_loud reported)
    · obtain ⟨_, _, reported, ran⟩ := Own.run_bind_ok.mp ran
      obtain ⟨-, rfl⟩ := Own.run_pure_ok.mp ran
      exact absurd quiet (add_loud reported)
    · obtain ⟨loan, _, blocked, ran⟩ := Own.run_bind_ok.mp ran
      obtain ⟨_, _, reported, ran⟩ := Own.run_bind_ok.mp ran
      obtain ⟨-, rfl⟩ := Own.run_pure_ok.mp ran
      exact absurd quiet (add_loud reported)

/-- A borrow that is granted points into a new loan, or where the reference points that it goes
through. -/
theorem borrowPlace_value {p : Place} {operand : Expr} {mutable : Bool} {site : NodeInfo}
    (quiet : after.Quiet)
    (ran : (ctx.borrowPlace id p operand mutable site).run l = .ok (origins, after)) :
    if p.throughRef then l.Holds id origins else ∃ loan, origins = [.loan loan] := by
  obtain ⟨v, _, known, ran⟩ := Own.run_bind_ok.mp ran
  obtain ⟨-, rfl⟩ := var_ok known
  obtain ⟨_, touched, touches, ran⟩ := Own.run_bind_ok.mp ran
  have early : l.Keeps VarFlow.holds (fun _ => True) touched := ctx.touch_keeps trivial id _ touches
  cases through : p.throughRef with
  | false =>
    simp only [through, Bool.not_false, if_true] at ran
    exact borrowVar_value quiet ran
  | true =>
    simp only [through, Bool.not_true, Bool.false_eq_true, if_false] at ran
    obtain ⟨_, seen, reads, ran⟩ := Own.run_bind_ok.mp ran
    have late := early.trans (ctx.read_keeps trivial id _ reads)
    simp only [if_true]
    split at ran
    · obtain ⟨_, told, reported, ran⟩ := Own.run_bind_ok.mp ran
      exact held_after (late.trans (ctx.add_keeps trivial reported)) ran
    · exact held_after late ran

theorem carried_value {node : Nat} {carried : List Origin}
    (ran : (ctx.carried node (pure origins)).run l = .ok (carried, after)) :
    carried = if ctx.carries (ctx.notes.typeOf node) then origins else [] := by
  obtain ⟨_, _, start, ran⟩ := Own.run_bind_ok.mp ran
  obtain ⟨rfl, rfl⟩ := Own.run_pure_ok.mp start
  split at ran
  · rename_i empty
    obtain ⟨rfl, -⟩ := Own.run_pure_ok.mp ran
    simp [List.isEmpty_iff.mp empty]
  · obtain ⟨t, _, typed, ran⟩ := Own.run_bind_ok.mp ran
    obtain ⟨rfl, rfl⟩ := typeOf_ok typed
    exact (Own.run_pure_ok.mp ran).1.symm

end Context

theorem adopt_holds {v : VarFlow} {u : Unit} (present : l.flow.vars[id]? = some v)
    (ran : (adopt id origins).run l = .ok (u, after)) (source : Option String) (i : Nat) :
    after.flow.Has (HoldsFrom source) i ↔
      if i = id then Reaches origins source else l.flow.Has (HoldsFrom source) i := by
  obtain ⟨w, rfl⟩ := adopt_ok ran
  unfold Ledger.adopt
  rw [Flow.has_updateVar]
  by_cases same : i = id
  · simp [same, Flow.Has, Flow.updateLeases, present, HoldsFrom]
  · simp [same, Flow.Has, Flow.updateLeases]

namespace Context

/-- What a variable points into after an assignment: a whole variable forgets what it held, a part of
one does not, and nothing changes if no reference is assigned or the target lies behind one. -/
def assigned (ctx : Context) (target : Expr) (type : Ty) (before new : Prop) : Prop :=
  if ctx.through target then before
  else if isWhole target then if ctx.carries type then new else before
  else if ctx.carries (ctx.notes.typeOf target.id) then before ∨ new
  else before

theorem assigned_mono {target : Expr} {type : Ty} {before new before' new' : Prop}
    (first : before → before') (next : new → new') (assigned : ctx.assigned target type before new) :
    ctx.assigned target type before' new' := by
  unfold Context.assigned at *
  split_ifs at * <;> tauto

theorem writeVar_holds {target : Expr} {u : Unit} {v : Var} (quiet : after.Quiet)
    (direct : ctx.through target = false) (declared : l.vars[id]? = some v)
    (ran : (ctx.writeVar id target origins).run l = .ok (u, after)) (source : Option String) (i : Nat) :
    after.flow.Has (HoldsFrom source) i ↔
      if i = id then ctx.assigned target v.type (l.flow.Has (HoldsFrom source) i) (Reaches origins source)
      else l.flow.Has (HoldsFrom source) i := by
  obtain ⟨w, _, known, ran⟩ := Own.run_bind_ok.mp ran
  obtain ⟨same, rfl⟩ := var_ok known
  obtain rfl : v = w := Option.some.inj (declared.symm.trans same)
  obtain ⟨s, _, state, ran⟩ := Own.run_bind_ok.mp ran
  obtain ⟨-, -, -, rfl⟩ := stateOf_ok state
  obtain ⟨flow, _, path, ran⟩ := Own.run_bind_ok.mp ran
  obtain ⟨present, rfl⟩ := varFlow_ok path
  simp only [assigned, direct, Bool.false_eq_true, if_false]
  split at ran
  · exact absurd quiet (useAfterMove_loud ran)
  · split at ran
    · split at ran
      · exact absurd quiet (add_loud ran)
      · obtain ⟨loan, _, blocked, ran⟩ := Own.run_bind_ok.mp ran
        exact absurd quiet (add_loud ran)
    · split at ran
      · rename_i whole
        obtain ⟨_, _, cleared, ran⟩ := Own.run_bind_ok.mp ran
        obtain rfl := Own.run_modify_ok.mp cleared
        have kept (i : Nat) : (l.flow.updateVar id fun f =>
            { f with moved := false, late := false }).Has (HoldsFrom source) i ↔
            l.flow.Has (HoldsFrom source) i := by
          rw [Flow.has_updateVar]
          split <;> rfl
        simp only [whole, if_true]
        split at ran
        · rename_i carries
          have stored := adopt_holds (v := { flow with moved := false, late := false })
            (by simp [Flow.updateVar, present]) ran source i
          rw [kept] at stored
          simpa [carries] using stored
        · rename_i bare
          obtain ⟨-, rfl⟩ := Own.run_pure_ok.mp ran
          simp [bare, kept]
      · rename_i part
        obtain ⟨t, _, typed, ran⟩ := Own.run_bind_ok.mp ran
        obtain ⟨rfl, rfl⟩ := typeOf_ok typed
        simp only [part, Bool.false_eq_true, if_false]
        split at ran
        · rename_i carries
          have stored := adopt_holds present ran source i
          by_cases same : i = id
          · subst same
            simpa [carries, Flow.Has, present, HoldsFrom] using stored
          · simpa [same] using stored
        · rename_i bare
          obtain ⟨-, rfl⟩ := Own.run_pure_ok.mp ran
          simp [bare]

theorem write_holds {p : Place} {target : Expr} {u : Unit} {v : Var} (quiet : after.Quiet)
    (through : p.throughRef = ctx.through target) (declared : l.vars[id]? = some v)
    (ran : (ctx.write id p target origins).run l = .ok (u, after)) (source : Option String) (i : Nat) :
    after.flow.Has (HoldsFrom source) i ↔
      if i = id then ctx.assigned target v.type (l.flow.Has (HoldsFrom source) i) (Reaches origins source)
      else l.flow.Has (HoldsFrom source) i := by
  cases behind : ctx.through target with
  | false =>
    simp only [write, through, behind, Bool.false_eq_true, if_false] at ran
    exact writeVar_holds quiet behind declared ran source i
  | true =>
    simp only [write, through, behind, if_true] at ran
    obtain ⟨_, seen, reads, ran⟩ := Own.run_bind_ok.mp ran
    have early : l.Keeps VarFlow.holds (fun _ => True) seen := ctx.read_keeps trivial id _ reads
    have keeps : l.Keeps VarFlow.holds (fun _ => True) after := by
      split at ran
      · exact early.trans (ctx.add_keeps trivial ran)
      · obtain ⟨-, rfl⟩ := Own.run_pure_ok.mp ran
        exact early
    have same := keeps.has_holds source i
    simp [assigned, behind, same]

end Context

/-! ### Declarations -/

/-- A declared variable has the next slot. -/
theorem shows_declared {property : VarFlow → Prop} {x : String × Option Ty} {new : Prop} {j : Nat}
    (grows : l.Grows [x] after) (regular : l.Regular)
    (old : ∀ id < l.vars.length, (after.flow.Has property id ↔ l.flow.Has property id))
    (length : after.vars.length = l.vars.length + 1)
    (added : after.flow.Has property l.vars.length ↔ new) :
    after.Shows property j ↔ l.Shows property j ∨ (j = l.env.length ∧ new) := by
  have grown : after.env.length = l.env.length + 1 := by
    rw [← Ledger.length_outline, grows.outline regular, List.length_append, Ledger.length_outline]
    simp [Nat.add_comm]
  by_cases inside : j < l.env.length
  · obtain ⟨id, found⟩ := exists_slotIn inside
    rw [Ledger.shows_iff ((grows.slotIn_eq regular inside).trans found), Ledger.shows_iff found,
      old id (regular.lt_of_slotIn found)]
    simp [Nat.ne_of_lt inside]
  · have absent : ¬l.Shows property j := fun shows => inside shows.inside
    simp only [absent, false_or]
    by_cases next : j = l.env.length
    · have inNext : j < after.env.length := by omega
      obtain ⟨id, found⟩ := exists_slotIn inNext
      obtain ⟨outside, declared⟩ := grows.fresh_slot regular (by omega) found
      obtain rfl : id = l.vars.length := by omega
      rw [Ledger.shows_iff found, added]
      simp [next]
    · have beyond : ¬after.Shows property j := fun shows => by
        have := shows.inside
        omega
      simp [beyond, next]

namespace Context

/-- Whether a slot is that of one of several new bindings that holds references. -/
def HoldsAt (ctx : Context) (bindings : List Binding) (start j : Nat) : Prop :=
  ∃ i b, bindings[i]? = some b ∧ j = start + i ∧ ctx.carries (ctx.notes.typeOf b.info.id) = true

theorem fill_holds {bound : Option (List Origin)} {t : Ty} {name : String} {mutable : Bool} {span : Span}
    {declared : Ledger} {u : Unit} (named : l.Named) (balanced : l.Balanced)
    (added : l.declare name t mutable span = (id, declared))
    (ran : (ctx.fill bound id t).run declared = .ok (u, after)) (source : Option String) :
    (∀ i < l.vars.length, (after.flow.Has (HoldsFrom source) i ↔ l.flow.Has (HoldsFrom source) i)) ∧
      (after.flow.Has (HoldsFrom source) l.vars.length ↔
        ctx.carries t = true ∧ ∃ origins, bound = some origins ∧ Reaches origins source) := by
  obtain ⟨scope, shape⟩ := Ledger.declare_eq named name t mutable span
  rw [added] at shape
  obtain ⟨rfl, rfl⟩ := Prod.mk.inj shape
  have before (i : Nat) (inside : i < l.vars.length) :
      ({ l.flow with vars := l.flow.vars ++ [({} : VarFlow)] } : Flow).Has (HoldsFrom source) i ↔
        l.flow.Has (HoldsFrom source) i := Flow.has_append_old (by rwa [balanced])
  have empty : ¬({ l.flow with vars := l.flow.vars ++ [({} : VarFlow)] } : Flow).Has
      (HoldsFrom source) l.vars.length := by
    rw [← balanced, Flow.has_append_new]
    simp [HoldsFrom]
  cases bound with
  | none =>
    obtain rfl := Own.run_modify_ok.mp ran
    refine ⟨fun i inside => ?_, ?_⟩
    · rw [Flow.has_updateVar, if_neg (by omega), before i inside]
    · rw [Flow.has_updateVar, if_pos rfl]
      exact iff_of_false empty (by simp)
  | some origins =>
    simp only [fill] at ran
    split at ran
    · rename_i carries
      have present : (l.flow.vars ++ [({} : VarFlow)])[l.vars.length]? = some {} := by
        rw [← balanced]
        simp
      have stored := adopt_holds present ran source
      refine ⟨fun i inside => ?_, ?_⟩
      · rw [stored, if_neg (by omega), before i inside]
      · rw [stored, if_pos rfl]
        simp [carries]
    · rename_i bare
      obtain ⟨-, rfl⟩ := Own.run_pure_ok.mp ran
      exact ⟨before, by simpa [bare] using empty⟩

theorem bindAll_bag {bound : Option (List Origin)} {bindings : List Binding} {u : Unit}
    (ran : (ctx.bindAll bound bindings).run l = .ok (u, after)) : after.bag = l.bag := by
  induction bindings generalizing l with
  | nil =>
    obtain ⟨-, rfl⟩ := Own.run_pure_ok.mp ran
    rfl
  | cons b rest ih =>
    obtain ⟨id, declared, filled, added, fills, others⟩ := bindAll_cons_ok ran
    rw [ih others]
    have same : declared.bag = l.bag := by
      rw [← (Prod.mk.inj added).2]
    rw [← same]
    cases bound with
    | none =>
      obtain rfl := Own.run_modify_ok.mp fills
      rfl
    | some origins =>
      simp only [fill] at fills
      split at fills
      · obtain ⟨v, rfl⟩ := adopt_ok fills
        rfl
      · obtain ⟨-, rfl⟩ := Own.run_pure_ok.mp fills
        rfl

theorem bindAll_new {bound : Option (List Origin)} {bindings : List Binding} {u : Unit}
    {shows : Ledger → Nat → Prop} {new : Binding → Prop} (regular : l.Regular)
    (ran : (ctx.bindAll bound bindings).run l = .ok (u, after))
    (each : ∀ (b : Binding) {l declared filled : Ledger} {id : Nat}, l.Regular →
      l.declare b.name (ctx.notes.typeOf b.info.id) b.mutable b.info.span = (id, declared) →
      (ctx.fill bound id (ctx.notes.typeOf b.info.id)).run declared = .ok ((), filled) →
      l.Grows [(b.name, some (ctx.notes.typeOf b.info.id))] filled → ∀ j,
        shows filled j ↔ shows l j ∨ (j = l.env.length ∧ new b)) (j : Nat) :
    shows after j ↔ shows l j ∨ ∃ i b, bindings[i]? = some b ∧ j = l.env.length + i ∧ new b := by
  induction bindings generalizing l with
  | nil =>
    obtain ⟨-, rfl⟩ := Own.run_pure_ok.mp ran
    simp
  | cons b rest ih =>
    obtain ⟨id, declared, filled, added, fills, others⟩ := bindAll_cons_ok ran
    obtain ⟨grown, balanced⟩ :=
      l.declare_grows regular.named b.name (ctx.notes.typeOf b.info.id) b.mutable b.info.span
    rw [added] at grown balanced
    have keeps := fill_keeps bound id _ fills
    have grows : l.Grows [(b.name, some (ctx.notes.typeOf b.info.id))] filled :=
      grown.trans (.of_keeps keeps)
    have filledRegular := grows.regular regular (keeps.balanced (balanced regular.balanced))
    have envLength : filled.env.length = l.env.length + 1 := by
      rw [← Ledger.length_outline, grows.outline regular, List.length_append, Ledger.length_outline]
      simp [Nat.add_comm]
    rw [ih filledRegular others, each b regular added fills grows, envLength, or_assoc]
    refine or_congr_right ⟨?_, ?_⟩
    · rintro (⟨place, isNew⟩ | ⟨i, c, found, place, isNew⟩)
      · exact ⟨0, b, rfl, by simpa using place, isNew⟩
      · exact ⟨i + 1, c, by simpa using found, by omega, isNew⟩
    · rintro ⟨i, c, found, place, isNew⟩
      cases i with
      | zero =>
        obtain rfl : b = c := by simpa using found
        exact .inl ⟨by simpa using place, isNew⟩
      | succ i => exact .inr ⟨i, c, by simpa using found, by omega, isNew⟩

theorem bindAll_holds {bound : Option (List Origin)} {bindings : List Binding} {u : Unit}
    (regular : l.Regular) (ran : (ctx.bindAll bound bindings).run l = .ok (u, after))
    (source : Option String) (j : Nat) :
    after.Shows (HoldsFrom source) j ↔ l.Shows (HoldsFrom source) j ∨
      (ctx.HoldsAt bindings l.env.length j ∧ ∃ origins, bound = some origins ∧ Reaches origins source) := by
  have each : after.Shows (HoldsFrom source) j ↔ l.Shows (HoldsFrom source) j ∨ ∃ i b, bindings[i]? = some b ∧
      j = l.env.length + i ∧ ctx.carries (ctx.notes.typeOf b.info.id) = true ∧
        ∃ origins, bound = some origins ∧ Reaches origins source := by
    refine bindAll_new regular ran (fun b _ _ _ _ regular added fills grows j => ?_) j
    obtain ⟨old, new⟩ := fill_holds regular.named regular.balanced added fills source
    exact shows_declared grows regular old (fill_length added fills) new
  rw [each]
  simp only [HoldsAt, ← exists_and_right, and_assoc]

end Context

theorem declareParam_holds {name : String} {type : Ty} {mutable : Bool} {span : Span} {u : Unit}
    (regular : l.Regular) (ran : (declareParam name type mutable span).run l = .ok (u, after))
    (source : Option String) (j : Nat) :
    after.Shows (HoldsFrom source) j ↔ l.Shows (HoldsFrom source) j ∨
      (j = l.env.length ∧ type.isRef = true ∧ some name = source) := by
  have grows := (declareParam_grows regular.named ran).1
  have changed := Own.run_modify_ok.mp ran
  obtain ⟨scope, shape⟩ := Ledger.declare_eq regular.named name type mutable span
  rw [shape] at changed
  subst changed
  have balanced := regular.balanced
  refine shows_declared grows regular (fun id inside => ?_) (by simp) ?_
  · rw [Flow.has_updateVar, if_neg (by omega), Flow.has_append_old (by rwa [balanced])]
  · rw [Flow.has_updateVar, if_pos rfl, ← balanced, Flow.has_append_new]
    cases type.isRef <;> simp [HoldsFrom, Origin.source]

/-! ### What is returned -/

namespace Context

/-- Whether what is returned may come from a source: from a parameter that the lives clause names, if
there is one. -/
def Allowed (ctx : Context) : Option String → Prop
  | none => False
  | some name => ∀ names, ctx.signature.lives = some names → names.contains name = true

theorem checkOrigin_allowed {span : Span} {origin : Origin} {u : Unit}
    (allowed : ctx.Allowed origin.source)
    (ran : (ctx.checkOrigin span origin).run l = .ok (u, after)) : l = after := by
  cases origin with
  | loan id => exact allowed.elim
  | param name =>
    simp only [checkOrigin] at ran
    split at ran
    · rename_i names named
      rw [if_pos (allowed names named)] at ran
      exact (Own.run_pure_ok.mp ran).2
    · exact (Own.run_pure_ok.mp ran).2

theorem checkOrigin_refused {span : Span} {origin : Origin} {u : Unit}
    (refused : ¬ctx.Allowed origin.source)
    (ran : (ctx.checkOrigin span origin).run l = .ok (u, after)) : ¬after.Quiet := by
  cases origin with
  | loan id =>
    obtain ⟨current, _, read, ran⟩ := Own.run_bind_ok.mp ran
    split at ran
    · split at ran
      · exact add_loud ran
      · obtain ⟨owner, _, -, ran⟩ := Own.run_bind_ok.mp ran
        exact add_loud ran
    · cases ran
  | param name =>
    simp only [checkOrigin] at ran
    split at ran
    · rename_i names named
      split at ran
      · rename_i listed
        refine absurd (fun others same => ?_) refused
        obtain rfl : names = others := Option.some.inj (named.symm.trans same)
        exact listed
      · exact add_loud ran
    · rename_i unlisted
      exact absurd (fun others same => by simp [unlisted] at same) refused

theorem checkEscape_quiet {span : Span} {u : Unit} (carries : ctx.carries ctx.signature.result = true)
    (quiet : after.Quiet) (ran : (ctx.checkEscape span origins).run l = .ok (u, after))
    {source : Option String} (reaches : Reaches origins source) : ctx.Allowed source := by
  simp only [checkEscape, carries, if_true] at ran
  induction origins generalizing l with
  | nil => exact absurd reaches reaches_nil
  | cons origin rest ih =>
    obtain ⟨_, middle, first, others⟩ := Own.run_bind_ok.mp ran
    have later : middle.Keeps VarFlow.holds (fun _ => True) after :=
      Own.Keeps.forM rest (fun _ => ctx.checkOrigin_keeps trivial span _) others
    rcases reaches_cons.mp reaches with rfl | inRest
    · by_contra refused
      exact checkOrigin_refused refused first (quiet.of_reported later.reported)
    · exact ih inRest others

theorem checkEscape_allowed {span : Span} {u : Unit}
    (allowed : ctx.carries ctx.signature.result = true → ∀ source, Reaches origins source →
      ctx.Allowed source)
    (ran : (ctx.checkEscape span origins).run l = .ok (u, after)) : l = after := by
  unfold checkEscape at ran
  split at ran
  · rename_i carries
    have each := allowed carries
    clear allowed
    induction origins generalizing l with
    | nil => exact (Own.run_pure_ok.mp ran).2
    | cons origin rest ih =>
      obtain ⟨_, middle, first, others⟩ := Own.run_bind_ok.mp ran
      obtain rfl := checkOrigin_allowed (each _ (reaches_cons.mpr (.inl rfl))) first
      exact ih others fun source reaches => each source (reaches_cons.mpr (.inr reaches))
  · exact (Own.run_pure_ok.mp ran).2

end Context

end TreeCheck.Ownership
