import TreeCheck.Proofs.Ownership.Moves

/-!
What each step does to the slots of the variables that are moved, which is known from the step and the names
in scope.
-/

namespace TreeCheck.Ownership

variable {ctx : Context} {l middle after : Ledger}

/-- An effect on variables by their numbers is one on their slots. -/
theorem Ledger.Acts.onSlots {e onSlots : Effect} (acts : l.Acts e after) (env : after.env = l.env)
    (same : ∀ j id, slotIn l.env j = some id → (onSlots.uses j ↔ e.uses id) ∧
      (onSlots.sets j ↔ e.sets id) ∧ (onSlots.clears j ↔ e.clears id))
    (used : ∀ id, e.uses id → ∃ j, slotIn l.env j = some id)
    (set : ∀ j, onSlots.sets j → ∃ id, slotIn l.env j = some id) :
    onSlots.Holds (l.Shows IsMoved) (after.Shows IsMoved) l after := by
  refine ⟨acts.reports, fun quiet led => ?_, fun quiet j usesSlot => ?_, fun quiet j => ?_⟩
  · obtain ⟨id, usesVar, moved⟩ := acts.blamed quiet led
    obtain ⟨j, found⟩ := used id usesVar
    exact ⟨j, (same j id found).1.mpr usesVar, id, found, moved⟩
  · rintro ⟨id, found, moved⟩
    exact acts.spared quiet id ((same j id found).1.mp usesSlot) moved
  · cases found : slotIn l.env j with
    | none =>
      have unset : ¬onSlots.sets j := by
        intro sets
        obtain ⟨id, inScope⟩ := set j sets
        simp [found] at inScope
      simp [Ledger.Shows, env, found, unset]
    | some id =>
      obtain ⟨-, sets, clears⟩ := same j id found
      rw [Ledger.shows_iff (by rw [env]; exact found), Ledger.shows_iff found, sets, clears]
      exact acts.moved quiet id

theorem Ledger.Acts.onSlot {access : Access} {id j : Nat} (acts : l.Acts (access.on id) after)
    (env : after.env = l.env) (regular : l.Regular) (found : slotIn l.env j = some id) :
    (access.on j).Holds (l.Shows IsMoved) (after.Shows IsMoved) l after := by
  have same (k other : Nat) (inScope : slotIn l.env k = some other) : k = j ↔ other = id := by
    constructor
    · rintro rfl
      exact Option.some.inj (inScope.symm.trans found)
    · rintro rfl
      exact slotIn_inj regular.distinct inScope found
  refine acts.onSlots env (fun k other inScope => ?_) (fun other used => ?_) (fun k sets => ?_)
  · cases access <;> simp [Access.on, same k other inScope]
  · refine ⟨j, ?_⟩
    cases access with
    | use | take =>
      obtain rfl : other = id := used
      exact found
    | replace => exact used.elim
  · cases access with
    | take =>
      obtain rfl : k = j := sets
      exact ⟨id, found⟩
    | use | replace => exact sets.elim

theorem Ledger.Acts.onNone (acts : l.Acts .none after) (env : after.env = l.env) :
    Effect.none.Holds (l.Shows IsMoved) (after.Shows IsMoved) l after :=
  acts.onSlots env (fun _ _ _ => ⟨Iff.rfl, Iff.rfl, Iff.rfl⟩) (fun _ used => used.elim)
    (fun _ sets => sets.elim)

/-- New variables: all of them are moved, or none. -/
structure Ledger.Opens (late : Prop) (l after : Ledger) : Prop where
  bag : after.bag = l.bag
  old : ∀ id < l.vars.length, (after.flow.Has IsMoved id ↔ l.flow.Has IsMoved id)
  new : ∀ id, l.vars.length ≤ id → id < after.vars.length → (after.flow.Has IsMoved id ↔ late)

theorem Ledger.Opens.trans {late : Prop} (first : l.Opens late middle) (next : middle.Opens late after)
    (longer : l.vars.length ≤ middle.vars.length) : l.Opens late after := by
  refine ⟨next.bag.trans first.bag, fun id inside => ?_, fun id outside inside => ?_⟩
  · rw [next.old id (by omega), first.old id inside]
  · by_cases early : id < middle.vars.length
    · rw [next.old id early, first.new id outside early]
    · exact next.new id (by omega) inside

theorem Ledger.Opens.onSlots {late : Prop} {names : List (String × Option Ty)} {e : Effect}
    (opens : l.Opens late after) (grows : l.Grows names after) (regular : l.Regular)
    (uses : ∀ j, ¬e.uses j) (clears : ∀ j, ¬e.clears j)
    (sets : ∀ j, e.sets j ↔ late ∧ l.env.length ≤ j ∧ j < after.env.length) :
    e.Holds (l.Shows IsMoved) (after.Shows IsMoved) l after := by
  refine ⟨by simp [opens.bag], fun quiet led => ?_, fun _ j used => absurd used (uses j), fun _ j => ?_⟩
  · rw [Ledger.lead, opens.bag, quiet] at led
    simp at led
  · simp only [clears, not_false_eq_true, and_true, sets]
    by_cases inside : j < l.env.length
    · obtain ⟨id, found⟩ := exists_slotIn inside
      have still : slotIn after.env j = some id := by rw [grows.slotIn_eq regular inside, found]
      rw [Ledger.shows_iff still, Ledger.shows_iff found, opens.old id (regular.lt_of_slotIn found)]
      simp [Nat.not_le.mpr inside]
    · have absent : ¬l.Shows IsMoved j := fun shows => inside shows.inside
      simp only [absent, or_false]
      constructor
      · rintro ⟨id, found, moved⟩
        obtain ⟨outside, declared⟩ := grows.fresh_slot regular (by omega) found
        exact ⟨(opens.new id outside declared).mp moved, by omega, lt_length_of_slotIn found⟩
      · rintro ⟨isLate, -, present⟩
        obtain ⟨id, found⟩ := exists_slotIn present
        obtain ⟨outside, declared⟩ := grows.fresh_slot regular (by omega) found
        exact ⟨id, found, (opens.new id outside declared).mpr isLate⟩

namespace Context

theorem fill_opens {origins : Option (List Origin)} {t : Ty} {name : String} {mutable : Bool}
    {span : Span} {id : Nat} {declared : Ledger} {u : Unit} (named : l.Named) (balanced : l.Balanced)
    (added : l.declare name t mutable span = (id, declared))
    (ran : (ctx.fill origins id t).run declared = .ok (u, after)) :
    l.Opens (origins = none) after ∧ after.vars.length = l.vars.length + 1 := by
  obtain ⟨scope, shape⟩ := Ledger.declare_eq named name t mutable span
  rw [added] at shape
  obtain ⟨rfl, rfl⟩ := Prod.mk.inj shape
  cases origins with
  | none =>
    obtain rfl := Own.run_modify_ok.mp ran
    refine ⟨⟨rfl, fun id inside => ?_, fun id outside inside => ?_⟩, by simp⟩
    · rw [Flow.has_updateVar, if_neg (by omega), Flow.has_append_old (by rwa [balanced])]
    · obtain rfl : id = l.vars.length := by
        simp only [List.length_append, List.length_singleton] at inside
        omega
      rw [Flow.has_updateVar, if_pos rfl, ← balanced, Flow.has_append_new]
      simp [IsMoved]
  | some origins =>
    have opens : l.Opens (some origins = none) { l with
        vars := l.vars ++ [({ name, type := t, mutable, scope, span } : Var)]
        flow := { l.flow with vars := l.flow.vars ++ [({} : VarFlow)] }
        scopes := addNames [(name, l.vars.length)] l.scopes } := by
      refine ⟨rfl, fun id inside => Flow.has_append_old (by rwa [balanced]),
        fun id outside inside => ?_⟩
      obtain rfl : id = l.vars.length := by
        simp only [List.length_append, List.length_singleton] at inside
        omega
      rw [← balanced, Flow.has_append_new]
      simp [IsMoved]
    simp only [fill] at ran
    split at ran
    · have keeps : Ledger.Keeps VarFlow.moved (fun _ => True) _ after :=
        adopt_keeps (fun _ _ => rfl) _ _ ran
      have unmoved := keeps.has_moved
      obtain ⟨v, rfl⟩ := adopt_ok ran
      refine ⟨⟨rfl, fun id inside => ?_, fun id outside inside => ?_⟩, ?_⟩
      · rw [unmoved, opens.old id inside]
      · rw [unmoved, opens.new id outside inside]
      · simp [Ledger.adopt]
    · obtain ⟨-, rfl⟩ := Own.run_pure_ok.mp ran
      exact ⟨opens, by simp⟩

theorem bindAll_opens {origins : Option (List Origin)} {bindings : List Binding} {u : Unit}
    (named : l.Named) (balanced : l.Balanced)
    (ran : (ctx.bindAll origins bindings).run l = .ok (u, after)) :
    l.Opens (origins = none) after := by
  induction bindings generalizing l with
  | nil =>
    obtain ⟨-, rfl⟩ := Own.run_pure_ok.mp ran
    exact ⟨rfl, fun _ _ => Iff.rfl, fun id outside inside => absurd inside (by omega)⟩
  | cons b rest ih =>
    obtain ⟨id, declared, filled, added, fills, others⟩ := bindAll_cons_ok ran
    obtain ⟨opens, length⟩ := fill_opens named balanced added fills
    obtain ⟨grown, grownBalanced⟩ :=
      l.declare_grows named b.name (ctx.notes.typeOf b.info.id) b.mutable b.info.span
    rw [added] at grown grownBalanced
    have keeps := fill_keeps origins id _ fills
    have filledNamed := (grown.trans (.of_keeps keeps)).named named
    exact opens.trans (ih filledNamed (keeps.balanced (grownBalanced balanced)) others) (by omega)

end Context

theorem declareParam_opens {name : String} {type : Ty} {mutable : Bool} {span : Span} {u : Unit}
    (named : l.Named) (balanced : l.Balanced)
    (ran : (declareParam name type mutable span).run l = .ok (u, after)) : l.Opens False after := by
  have changed := Own.run_modify_ok.mp ran
  obtain ⟨scope, shape⟩ := Ledger.declare_eq named name type mutable span
  rw [shape] at changed
  subst changed
  refine ⟨rfl, fun id inside => ?_, fun id outside inside => ?_⟩
  · rw [Flow.has_updateVar, if_neg (by omega), Flow.has_append_old (by rwa [balanced])]
  · obtain rfl : id = l.vars.length := by
      simp only [List.length_modify, List.length_append, List.length_singleton] at inside
      omega
    rw [Flow.has_updateVar, if_pos rfl, ← balanced, Flow.has_append_new]
    split <;> simp [IsMoved]

namespace Step

def effectAt (slot : Option Nat) (access : Access) : Effect :=
  match slot with
  | some j => access.on j
  | none => .none

def effect (ctx : Context) (outline : List (String × Option Ty)) : Step → Effect
  | .useName _ name use => effectAt (position (outline.map Prod.fst) name)
      (Context.nameAccess (((outline.lookup name).getD none).getD default) use)
  | .usePlace e use => effectAt (slotOf outline e) (ctx.partAccess e use)
  | .borrowPlace operand _ _ => effectAt (borrowSlot outline operand) .use
  | .write target _ => effectAt (slotOf outline target) (ctx.writeAccess target)
  | .bindLate bindings =>
    { sets := fun j => outline.length ≤ j ∧ j < bindings.length + outline.length }
  | _ => .none

variable {m after : Machine}

theorem run_effect {s : Step} (regular : m.ledger.Regular)
    (rooted : s.Rooted ∨ slotIn m.ledger.env 0 = some 0) (ran : s.run ctx m = .ok after) :
    (s.effect ctx m.ledger.outline).Holds (m.ledger.Shows IsMoved) (after.ledger.Shows IsMoved)
      m.ledger after.ledger := by
  have env (declares : s.declares = false) : after.ledger.env = m.ledger.env := by
    rw [Ledger.env, (run_keeps declares ran).scopes, Ledger.env]
  have unaffected (declares : s.declares = false)
      (keeps : m.ledger.Keeps VarFlow.moved (· ≠ .useAfterMove) after.ledger) :
      Effect.none.Holds (m.ledger.Shows IsMoved) (after.ledger.Shows IsMoved) m.ledger after.ledger :=
    (Ledger.Acts.of_keeps keeps).onNone (env declares)
  cases s with
  | value | nip | union | collect | gather | returned =>
    cases ran
    exact unaffected rfl (.refl _)
  | typed id =>
    obtain ⟨l, done, rfl⟩ := Machine.perform_ok.mp ran
    exact unaffected rfl (Own.Keeps.bind (ctx.typeOf_keeps id) (fun _ => .pure ()) done)
  | carried id =>
    obtain ⟨origins, l, done, rfl⟩ := Machine.yield_ok.mp ran
    exact unaffected rfl (ctx.carried_keeps id (.pure _) done)
  | locate e =>
    obtain ⟨l, done, rfl⟩ := Machine.perform_ok.mp ran
    exact unaffected rfl (Own.Keeps.bind (ctx.place_keeps e) (fun _ => .pure ()) done)
  | lend mutable site =>
    obtain ⟨origins, l, done, rfl⟩ := Machine.yield_ok.mp ran
    exact unaffected rfl (Own.Keeps.bind (lend_keeps none mutable site) (fun _ => .pure _) done)
  | keep | keepFound =>
    obtain ⟨l, done, rfl⟩ := Machine.perform_ok.mp ran
    exact unaffected rfl (keep_keeps _ done)
  | escape span =>
    obtain ⟨l, done, rfl⟩ := Machine.perform_ok.mp ran
    exact unaffected rfl (ctx.checkEscape_keeps (by decide) span _ done)
  | useName info name use =>
    obtain ⟨origins, l, done, rfl⟩ := Machine.yield_ok.mp ran
    simp only [effect]
    rcases lookup?_slot m.ledger name with ⟨noSlot, absent⟩ | ⟨j, id, slot, inScope, found⟩
    · obtain ⟨current, _, read, done⟩ := Own.run_bind_ok.mp done
      obtain ⟨rfl, rfl⟩ := Own.run_get_ok.mp read
      simp only [absent] at done
      obtain ⟨-, rfl⟩ := Own.run_pure_ok.mp done
      rw [noSlot]
      exact unaffected rfl (.refl _)
    · obtain ⟨v, declared, acts⟩ := Context.useName_acts found done
      rw [slot, Ledger.lookup_outline found declared]
      exact acts.onSlot (env rfl) regular inScope
  | usePlace e use =>
    obtain ⟨origins, l, done, rfl⟩ := Machine.yield_ok.mp ran
    obtain ⟨p, _, located, done⟩ := Own.run_bind_ok.mp done
    obtain ⟨reached, rfl⟩ := place_ok located
    simp only [effect]
    rcases place_start reached with ⟨noRoot, temporary⟩ | ⟨root, -, noSlot, unbound⟩ |
      ⟨info, name, j, id, -, slot, inScope, -, bound⟩
    · simp only [Context.usePlace, temporary] at done
      obtain ⟨-, rfl⟩ := Own.run_pure_ok.mp done
      rw [slotOf, noRoot]
      exact unaffected rfl (.refl _)
    · simp only [Context.usePlace, unbound] at done
      obtain ⟨-, rfl⟩ := Own.run_pure_ok.mp done
      rw [noSlot]
      exact unaffected rfl (.refl _)
    · rw [slot]
      exact (Context.usePlace_acts bound (Context.throughRef_eq reached) done).onSlot (env rfl)
        regular inScope
  | borrowPlace operand mutable site =>
    obtain ⟨origins, l, done, rfl⟩ := Machine.yield_ok.mp ran
    obtain ⟨p, _, located, done⟩ := Own.run_bind_ok.mp done
    obtain ⟨reached, rfl⟩ := place_ok located
    simp only [effect]
    rcases place_start reached with ⟨noRoot, temporary⟩ | ⟨root, hasRoot, noSlot, unbound⟩ |
      ⟨info, name, j, id, hasRoot, slot, inScope, -, bound⟩
    · have anchor : slotIn m.ledger.env 0 = some 0 := by simpa [Rooted, noRoot] using rooted
      simp only [temporary] at done
      rw [borrowSlot, noRoot]
      exact (Context.borrowPlace_acts done).onSlot (env rfl) regular anchor
    · simp only [unbound] at done
      obtain ⟨-, rfl⟩ := Own.run_pure_ok.mp done
      rw [borrowSlot, hasRoot, Option.isSome_some, if_pos rfl, noSlot]
      exact unaffected rfl (.refl _)
    · simp only [bound] at done
      rw [borrowSlot, hasRoot, Option.isSome_some, if_pos rfl, slot]
      exact (Context.borrowPlace_acts done).onSlot (env rfl) regular inScope
  | write target id =>
    obtain ⟨l, done, rfl⟩ := Machine.perform_ok.mp ran
    obtain ⟨origins, _, carried, done⟩ := Own.run_bind_ok.mp done
    obtain rfl := carried_pure_ok carried
    obtain ⟨p, _, located, done⟩ := Own.run_bind_ok.mp done
    obtain ⟨reached, rfl⟩ := place_ok located
    simp only [effect]
    rcases place_start reached with ⟨noRoot, temporary⟩ | ⟨root, -, noSlot, unbound⟩ |
      ⟨info, name, j, id, -, slot, inScope, -, bound⟩
    · simp only [temporary] at done
      obtain ⟨-, rfl⟩ := Own.run_pure_ok.mp done
      rw [slotOf, noRoot]
      exact unaffected rfl (.refl _)
    · simp only [unbound] at done
      obtain ⟨-, rfl⟩ := Own.run_pure_ok.mp done
      rw [noSlot]
      exact unaffected rfl (.refl _)
    · simp only [bound] at done
      rw [slot]
      exact (Context.write_acts (Context.throughRef_eq reached) done).onSlot (env rfl) regular inScope
  | bind bindings =>
    obtain ⟨l, done, rfl⟩ := Machine.perform_ok.mp ran
    refine (Context.bindAll_opens regular.named regular.balanced done).onSlots
      (Context.bindAll_grows regular.named done).1 regular ?_ ?_ ?_ <;> simp [effect, Effect.none]
  | bindLate bindings =>
    obtain ⟨l, done, rfl⟩ := Machine.perform_ok.mp ran
    have grows := (Context.bindAll_grows regular.named done).1
    have length : l.env.length = bindings.length + m.ledger.env.length := by
      rw [← Ledger.length_outline, grows.outline regular, List.length_append, Ledger.length_outline]
      simp [Context.bound]
    refine (Context.bindAll_opens regular.named regular.balanced done).onSlots grows regular ?_ ?_ ?_
    · simp [effect]
    · simp [effect]
    · simp [effect, Ledger.length_outline, length]
  | param name type mutable span =>
    obtain ⟨l, done, rfl⟩ := Machine.perform_ok.mp ran
    refine (declareParam_opens regular.named regular.balanced done).onSlots
      (declareParam_grows regular.named done).1 regular ?_ ?_ ?_ <;> simp [effect, Effect.none]

end Step

end TreeCheck.Ownership
