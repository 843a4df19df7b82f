import TreeCheck.Proofs.Typing.FootprintWalk
import TreeCheck.Proofs.Typing.Patterns

/-!
The scopes in which patterns are checked. A check declares the names of its footprint in front of those that are in
scope already, each with the type that is noted for its binding, so a name that is looked up behind it has that type.
-/

namespace TreeCheck.Typing

variable {ctx : Context} {P : State → Prop}

def visible? (scopes : List (List (String × Ty))) (name : String) : Option Ty :=
  (scopes.findSome? fun scope => scope.find? fun entry => entry.1 == name).map Prod.snd

theorem visible?_declareIn (entry : String × Ty) (scopes : List (List (String × Ty))) (name : String) :
    visible? (declareIn entry scopes) name = if entry.1 == name then some entry.2 else visible? scopes name := by
  cases scopes <;> by_cases same : entry.1 == name <;>
    simp [visible?, declareIn, same, List.findSome?_cons]

theorem visible?_declareAll {declared : List (String × Ty)} {name : String} (member : name ∈ declared.map Prod.fst)
    (scopes : List (List (String × Ty))) :
    ∃ t, visible? (declareAll declared scopes) name = some t ∧ (name, t) ∈ declared := by
  induction declared with
  | nil => cases member
  | cons entry rest ih =>
    rw [show declareAll (entry :: rest) scopes = declareIn entry (declareAll rest scopes) from rfl,
      visible?_declareIn]
    by_cases same : entry.1 = name
    · exact ⟨entry.2, by simp [same], by simp [← same]⟩
    · obtain ⟨t, found, inside⟩ := ih (by simpa [Ne.symm same] using member)
      exact ⟨t, by simpa [same] using found, List.mem_cons_of_mem _ inside⟩

/-- Names that were declared for bindings, with the types that are noted for these. -/
structure State.Declared (s : State) (bindings : List Binding) (declared : List (String × Ty)) : Prop where
  each : ∀ b ∈ bindings, ∃ t, (b.name, t) ∈ declared ∧ (b.info.id, t) ∈ s.notes.types
  only : ∀ entry ∈ declared, ∃ b ∈ bindings, b.name = entry.1 ∧ (b.info.id, entry.2) ∈ s.notes.types

theorem State.Declared.later {s s' : State} {bindings : List Binding} {declared : List (String × Ty)}
    (known : s.Declared bindings declared) (before : s.Before s') : s'.Declared bindings declared where
  each b member := (known.each b member).imp fun _ given => ⟨given.1, before.notes.types given.2⟩
  only entry member := (known.only entry member).imp fun _ given => ⟨given.1, given.2.1, before.notes.types given.2.2⟩

instance (bindings : List Binding) (declared : List (String × Ty)) : Lasting fun s => s.Declared bindings declared :=
  ⟨fun before known => known.later before⟩

theorem State.Declared.names {s : State} {bindings : List Binding} {declared : List (String × Ty)}
    (known : s.Declared bindings declared) (name : String) :
    name ∈ bindings.map Binding.name ↔ name ∈ declared.map Prod.fst := by
  constructor <;> intro member
  · obtain ⟨b, inside, rfl⟩ := List.mem_map.mp member
    obtain ⟨t, here, -⟩ := known.each b inside
    exact List.mem_map.mpr ⟨_, here, rfl⟩
  · obtain ⟨entry, inside, rfl⟩ := List.mem_map.mp member
    obtain ⟨b, here, same, -⟩ := known.only entry inside
    exact List.mem_map.mpr ⟨b, here, same⟩

namespace Sound

variable {α β : Type} {check : Check α} {Q : α → State → Prop} {f : Footprint}

theorem entering (sound : ∀ scopes, Sound ctx (fun s => P s ∧ s.scopes = scopes) check Q) : Sound ctx P check Q := by
  intro s
  have ran := sound s.scopes s
  cases done : check s with
  | error failure =>
    rw [done] at ran
    exact ran
  | ok out =>
    rw [done] at ran
    exact ⟨ran.1, fun quiet proper known given => ran.2 quiet proper known ⟨given, rfl⟩⟩

/-- What is known to exist before a check may be named. -/
theorem of_exists {P : β → State → Prop} [Nonempty β] (sound : ∀ b, Sound ctx (P b) check Q) :
    Sound ctx (fun s => ∃ b, P b s) check Q := by
  intro s
  have ran (b : β) := sound b s
  cases done : check s with
  | error failure =>
    simp only [done] at ran
    exact ran (Classical.arbitrary β)
  | ok out =>
    simp only [done] at ran
    refine ⟨(ran (Classical.arbitrary β)).1, fun quiet proper known given => ?_⟩
    obtain ⟨b, given⟩ := given
    exact (ran b).2 quiet proper known given

theorem within (sound : Sound ctx P check Q) (leaves : Leaves f check) (scopes : List (List (String × Ty))) :
    Sound ctx (fun s => P s ∧ s.scopes = scopes) check fun a s => Q a s ∧
      ∃ declared, s.Declared f.bindings declared ∧ s.scopes = declareAll declared scopes :=
  sound.follows fun s a s' _ _ given done _ => by
    refine ⟨given.1, fun _ found => ⟨found, ?_⟩⟩
    obtain ⟨noted, declared, notes, same, bounds⟩ := leaves s a s' done
    have kept {entry : Nat × Ty} (inside : entry ∈ noted.types) : entry ∈ s'.notes.types :=
      notes ▸ List.mem_append_left _ inside
    refine ⟨declared, ⟨fun b member => ?_, fun entry member => ?_⟩, given.2 ▸ same⟩
    · exact (bounds.declares b member).imp fun _ known => ⟨known.1, kept known.2⟩
    · exact (bounds.declared entry member).imp fun _ known => ⟨known.1, known.2.1, kept known.2.2⟩

/-- A check that declares nothing. -/
theorem still (sound : Sound ctx P check Q) (leaves : Leaves f check) (none : f.bindings = [])
    (scopes : List (List (String × Ty))) :
    Sound ctx (fun s => P s ∧ s.scopes = scopes) check fun a s => Q a s ∧ s.scopes = scopes :=
  (sound.within leaves scopes).consequence (fun _ _ given => given) fun a s found => by
    obtain ⟨found, declared, known, same⟩ := found
    cases declared with
    | nil => exact ⟨found, same⟩
    | cons entry rest =>
      obtain ⟨b, member, -⟩ := known.only entry List.mem_cons_self
      simp [none] at member

theorem forEach {items : List β} {each : β → Check Unit} {R : β → State → Prop} [∀ item, Lasting (R item)]
    (sound : ∀ item ∈ items, Sound ctx P (each item) fun _ s => P s ∧ R item s) :
    Sound ctx P (items.forM each) fun _ s => P s ∧ ∀ item ∈ items, R item s := by
  induction items with
  | nil => exact .pure fun _ _ given => ⟨given, List.forall_mem_nil _⟩
  | cons item items ih =>
    refine .seq (sound item List.mem_cons_self) fun _ => ?_
    refine ((ih fun other member => sound other (List.mem_cons_of_mem _ member)).frame (R item)).consequence
      (fun _ _ given => given) fun _ _ found => ?_
    exact ⟨found.1.1, List.forall_mem_cons.mpr ⟨found.2, found.1.2⟩⟩

end Sound

theorem push_within [Lasting P] (scopes : List (List (String × Ty))) :
    Sound ctx (fun s => P s ∧ s.scopes = scopes) push fun _ s => P s ∧ s.scopes = [] :: scopes :=
  (push_sound (P := P)).follows fun s _ _ _ _ given done _ => by
    cases done
    exact ⟨given.1, fun before _ => ⟨Lasting.lasts before given.1, congrArg _ given.2⟩⟩

/-- The scope of a check that is left behind it. -/
theorem pop_within [Lasting P] (bindings : List Binding) (outer : List (List (String × Ty))) :
    Sound ctx (fun s => P s ∧ ∃ declared, s.Declared bindings declared ∧
      s.scopes = declareAll declared ([] :: outer)) pop
      fun scope s => (P s ∧ s.Declared bindings scope ∧ ∀ entry ∈ scope, s.Knows entry.2) ∧ s.scopes = outer :=
  (pop_sound (P := P)).follows fun s _ _ _ _ given done _ => by
    obtain ⟨given, declared, known, same⟩ := given
    rw [declareAll_cons, List.append_nil] at same
    cases done
    rw [same]
    exact ⟨given, fun before typed =>
      ⟨⟨Lasting.lasts before given, known.later before, typed⟩, rfl⟩⟩

theorem lookup?_visible (name : String) (scopes : List (List (String × Ty))) :
    Sound ctx (fun s => P s ∧ s.scopes = scopes) (lookup? name)
      fun r s => (P s ∧ s.scopes = scopes) ∧ (∀ t ∈ r, s.Knows t) ∧ r = visible? scopes name :=
  (lookup?_sound name (P := fun s => P s ∧ s.scopes = scopes)).follows fun s a s' _ _ given done _ => by
    cases done
    exact ⟨given, fun _ found => ⟨given, found, by rw [← given.2]; rfl⟩⟩

/-- A scope that is compared without a report has the names that it is compared with, and each stands for the same
type as it does outside. -/
theorem Context.compareBindings_agrees (span : Span) (first : List String) (scope : List (String × Ty))
    (scopes : List (List (String × Ty))) :
    Sound ctx (fun s => (∀ entry ∈ scope, s.Knows entry.2) ∧ s.scopes = scopes)
      (ctx.compareBindings span first scope) fun _ s =>
        (∀ name, name ∈ first ↔ name ∈ scope.map Prod.fst) ∧
          ∀ name bound t, scope.lookup name = some bound → visible? scopes name = some t → s.Agree t bound := by
  let agree (name : String) (s : State) : Prop :=
    ∀ bound t, scope.lookup name = some bound → visible? scopes name = some t → s.Agree t bound
  refine .seq (.forEach (R := fun name s => name ∈ first ∧ agree name s) fun name _ => ?_) fun _ => ?_
  · split
    · exact (report_sound _ _ _).consequence (fun _ _ given => given) fun _ _ never => never.elim
    next listed =>
      have listed : name ∈ first := by simpa using listed
      split
      next bound here =>
        refine .seq (lookup?_visible name scopes) fun found => ?_
        obtain ⟨front, back, same, -⟩ := List.lookup_eq_some_iff.mp here
        cases found with
        | none =>
          refine .pure fun _ _ given => ⟨given.1, listed, fun _ t _ seen => ?_⟩
          exact absurd (given.2.2.trans seen) (by simp)
        | some t =>
          have unified : Sound ctx _ (ctx.unify span t bound) _ := ((unify_agrees span t bound).frame fun s =>
            (∀ entry ∈ scope, s.Knows entry.2) ∧ some t = visible? scopes name).still (unify_leaves _ _ _) rfl scopes
          refine .seq (unified.consequence (fun _ _ (given : (_ ∧ _) ∧ _ ∧ _) => ?_) fun _ _ found => found)
            fun _ => ?_
          · exact ⟨⟨⟨given.2.1 t rfl, given.1.1 (name, bound) (by simp [same])⟩, given.1.1, given.2.2⟩, given.1.2⟩
          · refine .pure fun _ _ given => ⟨⟨given.1.2.1, given.2⟩, listed, fun other u own seen => ?_⟩
            obtain rfl := Option.some.inj (own.symm.trans here)
            obtain rfl := Option.some.inj (seen.symm.trans given.1.2.2.symm)
            exact given.1.1.2
      next absent => exact .pure fun _ _ given => ⟨given, listed, fun bound t own => (absent bound own).elim⟩
  · refine ((none_missing (P := fun _ => True) id fun _ => report_sound _ _ _).frame fun s =>
      ∀ name ∈ (scope.map Prod.fst).reverse.eraseDups, name ∈ first ∧ agree name s).consequence
      (fun _ _ given => ⟨trivial, given.2⟩) fun _ s found => ⟨fun name => ⟨fun member => ?_, fun member => ?_⟩,
        fun name bound t own => ?_⟩
    · simpa using found.1 name member
    · exact (found.2 name (by simpa using member)).1
    · obtain ⟨front, back, same, -⟩ := List.lookup_eq_some_iff.mp own
      exact (found.2 name (by simp [same])).2 bound t own

end TreeCheck.Typing
