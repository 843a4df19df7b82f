import TreeCheck.Proofs.Typing.Rules
import TreeCheck.Proofs.Typing.Scopes
import TreeCheck.Proofs.Typing.Traces

/-!
What the steps of inference say about the outcome. While a function is inferred its types are still open, so each step
is described by what will be noted once they are settled; what a step says stays true whatever is found out after it.
-/

namespace TreeCheck

/-- A closed type is left as it is. -/
theorem Ty.Proper.fill_self {t : Ty} (closed : t.Proper []) (σ : Nat → LiteralClass → Ty) : t.fill σ = t := by
  induction t using child_induction with
  | step t ih =>
    have each : ∀ child ∈ t.children, child.fill σ = child := fun child member =>
      ih child member (closed.child t child member)
    have same (types : List Ty) (parts : ∀ u ∈ types, u.fill σ = u) : types.map (fill σ) = types :=
      (List.map_congr_left parts).trans (List.map_id' types)
    cases t with
    | var id c =>
      obtain ⟨i, -, none⟩ := proper_var.mp closed
      cases none
    | struct name args => rw [fill_struct, same args each]
    | enum name args => rw [fill_enum, same args each]
    | function params result =>
      rw [fill_function, same params fun u member => each u (List.mem_append_left _ member),
        each result (List.mem_append_right _ List.mem_cons_self)]
    | tuple types =>
      cases types with
      | nil => exact absurd (closed _ (self_mem_parts _)) (by simp [Ty.suits, Ty.placed])
      | cons u rest => exact (fill_tuple σ (u :: rest)).trans (congrArg product (same (u :: rest) each))
    | array element => rw [fill_array, each element List.mem_cons_self]
    | ref mutable target => rw [fill_ref, each target List.mem_cons_self]
    | _ => rfl

theorem Ty.strip_plain {t : Ty} (plain : t.isRef = false) : t.strip = (0, t) := by
  cases t <;> first | rfl | cases plain

namespace Engine

variable {e : Engine}

@[simp] theorem resolve_unit (e : Engine) : e.resolve .unit = .unit := rfl

@[simp] theorem resolve_bool (e : Engine) : e.resolve .bool = .bool := rfl

@[simp] theorem resolve_string (e : Engine) : e.resolve .string = .string := rfl

@[simp] theorem resolve_function (e : Engine) (params : List Ty) (result : Ty) :
    e.resolve (.function params result) = .function (params.map e.resolve) (e.resolve result) :=
  Ty.fill_function _ params result

/-- The declared parameter types with type arguments are resolved where the type arguments are. -/
theorem resolve_params (e : Engine) {signature : Signature} (proper : signature.Proper) (args : List Ty) :
    (signature.params.map fun p => p.type.instantiate signature.typeParams (args.map e.resolve)) =
      (signature.params.map fun p => p.type.instantiate signature.typeParams args).map e.resolve := by
  rw [List.map_map]
  exact List.map_congr_left fun p member => (e.resolve_instantiate (proper.params p member) _ args).symm

theorem resolve_closed (e : Engine) {t : Ty} (closed : t.Proper []) : e.resolve t = t := closed.fill_self _

/-- Names with their types as far as they are known. -/
def names (e : Engine) (declared : List (String × Ty)) : Typing.Env :=
  declared.map fun entry => (entry.1, e.resolve entry.2)

def env (e : Engine) (scopes : List (List (String × Ty))) : Typing.Env := e.names scopes.flatten

/-- Declared fields with their types as far as they are known. -/
def settled (e : Engine) (declared : List Field) : List Field :=
  declared.map fun f => { f with type := e.resolve f.type }

theorem settled_type {declared : List Field} (once : (declared.map Field.name).Nodup) {f g : Field}
    (member : f ∈ declared) (inside : g ∈ e.settled declared) (same : g.name = f.name) : g.type = e.resolve f.type := by
  obtain ⟨h, known, rfl⟩ := List.mem_map.mp inside
  rw [List.inj_on_of_nodup_map once known member same]

theorem slotFields_resolve (e : Engine) (v : Variant) (slots : List Ty) :
    Typing.Context.slotFields v (slots.map e.resolve) = e.settled (Typing.Context.slotFields v slots) := by
  simp only [Typing.Context.slotFields, settled, List.zip_map_right, List.map_map]
  rfl

@[simp] theorem names_nil (e : Engine) : e.names [] = [] := rfl

@[simp] theorem names_append (e : Engine) (late early : List (String × Ty)) :
    e.names (late ++ early) = e.names late ++ e.names early := List.map_append

@[simp] theorem env_push (e : Engine) (scopes : List (List (String × Ty))) : e.env ([] :: scopes) = e.env scopes := rfl

theorem names_closed (e : Engine) {declared : List (String × Ty)} (closed : ∀ entry ∈ declared, entry.2.Proper []) :
    e.names declared = declared := by
  refine (List.map_congr_left fun entry member => ?_).trans (List.map_id' declared)
  rw [e.resolve_closed (closed entry member)]

theorem lookup_names (e : Engine) (declared : List (String × Ty)) (name : String) :
    (e.names declared).lookup name = (declared.lookup name).map e.resolve := by
  induction declared with
  | nil => rfl
  | cons entry rest ih =>
    rw [names, List.map_cons, List.lookup_cons, List.lookup_cons]
    split
    · rfl
    · exact ih

end Engine

namespace Typing

theorem flatten_declareAll (declared : List (String × Ty)) (scopes : List (List (String × Ty))) :
    (declareAll declared scopes).flatten = declared ++ scopes.flatten := by
  induction declared with
  | nil => rfl
  | cons entry rest ih =>
    have inner : (declareIn entry (declareAll rest scopes)).flatten = entry :: (declareAll rest scopes).flatten := by
      cases declareAll rest scopes <;> rfl
    calc
      (declareAll (entry :: rest) scopes).flatten = entry :: (declareAll rest scopes).flatten := inner
      _ = entry :: rest ++ scopes.flatten := by rw [ih, List.cons_append]

theorem visible?_eq_lookup (scopes : List (List (String × Ty))) (name : String) :
    visible? scopes name = scopes.flatten.lookup name := by
  induction scopes with
  | nil => rfl
  | cons scope outer ih =>
    induction scope with
    | nil => exact ih
    | cons entry rest inner =>
      rw [List.flatten_cons, List.cons_append, List.lookup_cons, ← List.flatten_cons, ← inner]
      refine (visible?_declareIn entry (rest :: outer) name).trans ?_
      rw [BEq.comm]
      cases name == entry.1 <;> rfl

end Typing

namespace Engine

open Typing

variable {e : Engine}

@[simp] theorem env_declareAll (e : Engine) (declared : List (String × Ty)) (scopes : List (List (String × Ty))) :
    e.env (declareAll declared scopes) = e.names declared ++ e.env scopes := by
  rw [env, flatten_declareAll, names_append, env]

/-- A name stands for what it was declared as last. -/
theorem lookup_env (e : Engine) (scopes : List (List (String × Ty))) (name : String) :
    (e.env scopes).lookup name = (visible? scopes name).map e.resolve := by
  rw [env, lookup_names, visible?_eq_lookup]

end Engine

namespace Typing

variable {ctx : Context} {P P' : State → Prop} {scopes : List (List (String × Ty))} {α β : Type}

/-! ### The outcome -/

/-- What is noted once all types are settled: they are closed, and what was noted on the way is noted with them. -/
structure Settled (last : State) (notes : Annotations) : Prop where
  proper : last.Proper
  types : ∀ {id t}, (id, t) ∈ last.notes.types → notes.types.get? id = some (last.engine.resolve t)
  shut : ∀ {id t}, notes.types.get? id = some t → t.Proper []
  coercions : ∀ {id coercion}, (id, coercion) ∈ last.notes.coercions → notes.coercions.get? id = some coercion
  methods : ∀ {id signature}, (id, signature) ∈ last.notes.methods → notes.methods.get? id = some signature
  variants : ∀ {id found}, (id, found) ∈ last.notes.variants → notes.variants.get? id = some found
  casts : ∀ {cast t}, cast ∈ last.casts → notes.types.get? cast.operand = some t → t.canCast cast.target = true

/-- What will be so in the end, whatever is found out until then. -/
def State.Shows (s : State) (J : Engine → Annotations → Prop) : Prop :=
  ∀ last notes, s.Before last → Settled last notes → J last.engine notes

instance (J : Engine → Annotations → Prop) : Lasting fun s => s.Shows J :=
  ⟨fun before shows last notes after => shows last notes (before.trans after)⟩

namespace State

variable {s : State} {e : Expr} {t u : Ty}

/-- An expression will have a type, in some scopes. -/
abbrev Has (s : State) (ctx : Context) (scopes : List (List (String × Ty))) (e : Expr) (t : Ty) : Prop :=
  s.Shows fun engine notes => HasType ctx notes (engine.env scopes) e (engine.resolve t)

/-- A rule will give an expression a type. -/
abbrev Obeys (s : State) (ctx : Context) (scopes : List (List (String × Ty))) (e : Expr) (t : Ty) : Prop :=
  s.Shows fun engine notes => Rule ctx notes (engine.env scopes) e (engine.resolve t)

/-- A pattern will match a type, and bind names. -/
abbrev Binds (s : State) (ctx : Context) (scopes : List (List (String × Ty))) (p : Pattern) (t : Ty)
    (declared : List (String × Ty)) : Prop :=
  s.Shows fun engine notes => Matches ctx notes (engine.env scopes) p (engine.resolve t) (engine.names declared)

/-- A value of a type will be stored where another is wanted. -/
abbrev Stores (s : State) (e : Expr) (want found : Ty) : Prop :=
  s.Shows fun engine notes => notes.Stores e (engine.resolve found) (engine.resolve want)

/-- A value of a type will be passed where another is wanted. -/
abbrev Passes (s : State) (e : Expr) (want found : Ty) : Prop :=
  s.Shows fun engine notes => notes.Passes e (engine.resolve found) (engine.resolve want)

theorem Has.typed (has : s.Has ctx scopes e t) {last : State} {notes : Annotations} (before : s.Before last)
    (settled : Settled last notes) : HasType ctx notes (last.engine.env scopes) e (last.engine.resolve t) :=
  has last notes before settled

/-- A type may be replaced by one that is the same in the end. -/
theorem Has.agree (has : s.Has ctx scopes e t) (same : s.Agree t u) : s.Has ctx scopes e u := by
  intro last notes before settled
  rw [← same last before settled.proper]
  exact has last notes before settled

theorem integer_of_agree {number : Ty} (known : s.Knows number) (literal : ∃ id, number = .var id .integer)
    (same : s.Agree number t) {last : State} {notes : Annotations} {id : Nat} (before : s.Before last)
    (settled : Settled last notes) (noted : notes.types.get? id = some (last.engine.resolve t)) :
    (last.engine.resolve t).isInteger = true := by
  obtain ⟨var, rfl⟩ := literal
  have closed := settled.shut noted
  rw [← same last before settled.proper] at closed ⊢
  exact settled.proper.engine.resolve_integer (before.knows known) closed

theorem float_of_agree {number : Ty} (known : s.Knows number) (literal : ∃ id, number = .var id .float)
    (same : s.Agree number t) {last : State} {notes : Annotations} {id : Nat} (before : s.Before last)
    (settled : Settled last notes) (noted : notes.types.get? id = some (last.engine.resolve t)) :
    (last.engine.resolve t).isFloat = true := by
  obtain ⟨var, rfl⟩ := literal
  have closed := settled.shut noted
  rw [← same last before settled.proper] at closed ⊢
  exact settled.proper.engine.resolve_float (before.knows known) closed

/-- A value is stored as a type. -/
theorem Has.stored (has : s.Has ctx scopes e t) (stores : s.Stores e u t) :
    s.Shows fun engine notes => Stored ctx notes (engine.env scopes) e (engine.resolve u) :=
  fun last notes before settled => .intro (has last notes before settled) (stores last notes before settled)

theorem Has.given (has : s.Has ctx scopes e t) (passes : s.Passes e u t) :
    s.Shows fun engine notes => Given ctx notes (engine.env scopes) e (engine.resolve u) :=
  fun last notes before settled => .intro (has last notes before settled) (passes last notes before settled)

end State

/-! ### Values, calls and receivers -/

/-- Numbers that are known stay what they are. -/
theorem State.Before.canWiden {s last : State} (before : s.Before last) (proper : last.Proper) {want found : Ty}
    (widened : (s.engine.resolve found).canWiden (s.engine.resolve want) = true) :
    (last.engine.resolve found).canWiden (last.engine.resolve want) = true := by
  have grown (t : Ty) : last.engine.resolve t = last.engine.resolve (s.engine.resolve t) :=
    (before.grows.apply_apply proper.engine.acyclic t).symm
  rw [grown want, grown found]
  revert widened
  cases s.engine.resolve found <;> cases s.engine.resolve want <;> first | exact id | exact nofun

theorem assign_stores (e : Expr) (want found : Ty) :
    Sound ctx (fun s => s.Knows want ∧ s.Knows found) (ctx.assign e want found) fun _ s => s.Stores e want found := by
  refine (assign_sound e want found).follows fun s _ s' _ known given done quiet => ⟨given, fun before _ => ?_⟩
  have goesOn : ctx.assign e want found s = ctx.assigned e (s.engine.assign want found).2
      { s with engine := (s.engine.assign want found).1 } := rfl
  rw [goesOn] at done
  by_cases widened : (s.engine.resolve found).canWiden (s.engine.resolve want) = true
  · have assigned : s.engine.assign want found = (s.engine, .widen, none) := if_pos widened
    rw [assigned] at done
    cases done
    exact fun last notes after settled => .widened ((before.trans after).canWiden settled.proper widened)
      (settled.coercions (after.notes.coercions List.mem_cons_self))
  · have assigned : s.engine.assign want found =
        ((s.engine.unify want found).1, .none, (s.engine.unify want found).2) := if_neg widened
    rw [assigned] at done
    rcases error : (s.engine.unify want found).2 with _ | ⟨expected, actual⟩ | defect
    · rw [error] at done
      cases done
      intro last notes after settled
      rw [State.Agree.of_resolve (known.engine.unify_resolve given.1 given.2 error) last after settled.proper]
      exact .same
    · rw [error] at done
      cases done
      exact (Bag.add_ne_nil _ _ quiet).elim
    · rw [error] at done
      cases done

/-- What is passed is taken as the type of the parameter. -/
theorem pass_passes (a : Expr) (want known found : Ty) :
    Sound ctx (fun s => (s.Knows want ∧ s.Knows known ∧ s.Knows found) ∧ s.Agree want known)
      (ctx.pass a want known found) fun _ s => s.Passes a want found := by
  have plain : Sound ctx (fun s => (s.Knows want ∧ s.Knows known ∧ s.Knows found) ∧ s.Agree want known)
      (ctx.assign a want found) fun _ s => s.Passes a want found :=
    (assign_stores a want found).imp (fun _ _ given => ⟨given.1.1, given.1.2.2⟩)
      fun _ _ _ stores last notes after settled => .stored (stores last notes after settled)
  unfold Context.pass
  split
  next mutable target =>
    refine .step (shallow_sound found) (fun _ _ given => given.1.2.2) fun outer => ?_
    split
    next direct =>
      have place : a.isPlace = true := (Bool.and_eq_true_iff.mp direct).1
      refine .step (unify_agrees a.span target found)
        (fun _ _ given => ⟨Ty.proper_ref.mp given.1.1.2.1, given.1.1.2.2⟩) fun worked => ?_
      split
      · refine (coerce_noted _ _).imp (fun _ _ given => given) fun _ _ given noted last notes after settled => ?_
        change notes.Passes a (last.engine.resolve found) (last.engine.resolve want)
        rw [given.1.1.2 last after settled.proper, Engine.resolve_ref, given.2.2 last after settled.proper]
        exact .borrowed place (settled.coercions (after.notes.coercions noted))
      next failed => exact .pure fun _ _ given => (failed given.2.1).elim
    · exact plain.imp (fun _ _ given => given.1) fun _ _ _ passes => passes
  · exact plain

/-- Another number of arguments is reported. -/
theorem arity_sized [Lasting P] (span : Span) (name : String) (count : Nat) (params : List Ty) :
    Sound ctx P (ctx.arity span name count params) fun r _ => r = some params ∧ count = params.length := by
  unfold Context.arity
  split
  next same => exact .pure fun _ _ _ => ⟨rfl, by simpa using same⟩
  · exact report_then _ _ _ _

/-- A declared function is called with type arguments, and its type with these is noted about the callee. -/
theorem enterCall_typed [Lasting P] (info : NodeInfo) (callee : Expr) {signature : Signature}
    (proper : ∀ s, ctx.Proper → P s → signature.Proper) : Sound ctx P (Context.enterCall info callee signature)
    fun r s => ((∀ t ∈ r.1, s.Knows t) ∧ s.Knows r.2) ∧ (callee.id, .function r.1 r.2) ∈ s.notes.types ∧
      ∃ args, args.length = signature.typeParams.length ∧
        Ty.function r.1 r.2 = signature.type.instantiate signature.typeParams args := by
  refine (Context.enterCall_sound info callee proper).follows fun s r s' _ _ given done _ => ⟨given, fun _ found =>
    ⟨⟨found.1, found.2.1⟩, ?_⟩⟩
  obtain ⟨args, first, begun, done⟩ := ran_bind done
  have sized : args.length = signature.typeParams.length := by
    cases begun
    exact (freshAll_proper s.engine _).1
  obtain ⟨_, second, noted, done⟩ := ran_bind done
  cases noted
  obtain ⟨_, third, noted, done⟩ := ran_bind done
  cases noted
  obtain ⟨_, fourth, chose, done⟩ := ran_bind done
  cases done
  refine ⟨?_, args, sized, (Signature.type_instantiate ..).symm⟩
  unfold instantiated at chose
  split at chose
  · cases chose
    exact List.mem_cons_self
  · cases chose
    exact List.mem_cons_self

theorem derefWithin_strips {s s' : State} (before : s.Before s') (proper : s'.Proper) (fuel : Nat) (t : Ty) :
    (s'.engine.resolve t).strip.2 = (s'.engine.resolve (derefWithin s.engine fuel t).1).strip.2 := by
  induction fuel generalizing t with
  | zero => exact congrArg (fun t => t.strip.2) (s.agree_shallow t s' before proper)
  | succ fuel ih =>
    have same := s.agree_shallow t s' before proper
    rw [derefWithin]
    split
    next mutable target seen =>
      rw [same, seen, Engine.resolve_ref, Ty.strip]
      exact ih target
    · exact congrArg (fun t => t.strip.2) same

/-- The same stands behind the references around two types, in every later state. -/
def State.Meets (s : State) (outer base : Ty) : Prop :=
  ∀ s', s.Before s' → s'.Proper → (s'.engine.resolve outer).strip.2 = (s'.engine.resolve base).strip.2

instance (outer base : Ty) : Lasting fun s => s.Meets outer base :=
  ⟨fun before meets s' after => meets s' (before.trans after)⟩

theorem deref_meets (t : Ty) :
    Sound ctx (fun s => s.Knows t) (deref t) fun r s => s.Knows r.1 ∧ s.Meets t r.1 := by
  refine (deref_sound t).follows fun s _ _ _ _ given done _ => ?_
  cases done
  exact ⟨given, fun _ known => ⟨known, fun s' before proper => derefWithin_strips before proper _ t⟩⟩

instance (id : Nat) (args : List Ty) : Lasting fun s => (id, args) ∈ s.notes.instantiations :=
  ⟨fun before => before.notes.instantiations⟩

theorem instantiated_noted (id : Nat) (args : List Ty) :
    Sound ctx P (instantiated id args) fun _ s => args = [] ∨ (id, args) ∈ s.notes.instantiations := by
  unfold instantiated
  split
  next none => exact .pure fun _ _ _ => .inl (by simpa using none)
  · refine (note_sound { instantiations := [(id, args)] } rfl fun _ => rfl).consequence (fun _ _ given => given) ?_
    rintro _ s ⟨old, early⟩
    exact .inr (early.instantiations List.mem_cons_self)

/-- Type arguments for a method that is called on a type: for the type that it belongs to and for its own parameters. -/
def State.Enters (s : State) (id : Nat) (signature : Signature) (base : Ty) (args : List Ty) : Prop :=
  args.length = signature.typeParams.length ∧ (id, signature) ∈ s.notes.methods ∧
    (args = [] ∨ (id, args) ∈ s.notes.instantiations) ∧
    ∀ self ∈ signature.self, s.Agree (self.type.instantiate signature.typeParams args) base

instance (id : Nat) (signature : Signature) (base : Ty) (args : List Ty) :
    Lasting fun s => s.Enters id signature base args := by
  unfold State.Enters
  infer_instance

theorem enterMethod_enters [Lasting P] {signature : Signature} (received : signature.self.isSome = true)
    (proper : ∀ s, ctx.Proper → P s → signature.Proper) (info : NodeInfo) (receiver : Expr) (name : String)
    (outer base : Ty) (derefs : Nat) : Sound ctx (fun s => P s ∧ s.Knows outer ∧ s.Knows base)
      (ctx.enterMethod info receiver name outer base derefs signature)
      fun r s => ((∀ t ∈ r.1, s.Knows t) ∧ s.Knows r.2) ∧ ∃ args,
        r = (signature.params.map fun p => p.type.instantiate signature.typeParams args,
          signature.result.instantiate signature.typeParams args) ∧ s.Enters info.id signature base args := by
  obtain ⟨self, some⟩ := Option.isSome_iff_exists.mp received
  unfold Context.enterMethod
  simp only [some]
  refine .bind (freshAll_sound signature.typeParams) fun args => ?_
  refine .step (unify_agrees receiver.span _ base) (fun s known given => ⟨?_, given.1.2.2⟩) fun _ => ?_
  · exact .instantiate ((proper s known given.1.1).self self some) given.2.2
  refine .bind (note_sound { methods := [(info.id, signature)] } rfl fun _ => rfl) fun _ => ?_
  refine .bind (instantiated_noted _ _) fun _ => ?_
  refine .step (Context.takeReceiver_sound receiver name outer base derefs self.mode)
    (fun _ _ given => given.1.1.1.1.2.1) fun _ => ?_
  refine .pure fun s known given => ?_
  obtain ⟨⟨⟨⟨⟨⟨started, -, -⟩, sized, types⟩, -, same⟩, old, early⟩, chosen⟩, -⟩ := given
  have own := proper s known started
  refine ⟨⟨fun t member => ?_, .instantiate own.result types⟩, args, rfl, sized, early.methods List.mem_cons_self,
    chosen, fun other known => ?_⟩
  · obtain ⟨p, inside, rfl⟩ := List.mem_map.mp member
    exact .instantiate (own.params p inside) types
  · cases some.symm.trans (Option.mem_def.mp known)
    exact same

/-! ### Checks in scopes -/

def Stays (ctx : Context) (scopes : List (List (String × Ty))) (P : State → Prop) (check : Check α)
    (Q : α → State → Prop) : Prop :=
  Sound ctx (fun s => P s ∧ s.scopes = scopes) check fun a s => Q a s ∧ s.scopes = scopes

def Declares (ctx : Context) (scopes : List (List (String × Ty))) (P : State → Prop) (check : Check α)
    (Q : α → List (String × Ty) → State → Prop) : Prop :=
  Sound ctx (fun s => P s ∧ s.scopes = scopes) check
    fun a s => ∃ declared, Q a declared s ∧ s.scopes = declareAll declared scopes

namespace Stays

variable {Q Q' : α → State → Prop} {R : β → State → Prop} {check : Check α}

theorem of_leaves {f : Footprint} (sound : Sound ctx P check Q) (leaves : Leaves f check) (none : f.bindings = []) :
    Stays ctx scopes P check Q := sound.still leaves none scopes

theorem pure {a : α} (holds : ∀ s, ctx.Proper → P s → Q a s) : Stays ctx scopes P (pure a) Q :=
  Sound.pure fun s proper given => ⟨holds s proper given.1, given.2⟩

theorem imp [Lasting P] (stays : Stays ctx scopes P' check Q') (use : ∀ s, ctx.Proper → P s → P' s)
    (give : ∀ a s, ctx.Proper → P s → Q' a s → Q a s) : Stays ctx scopes P check Q :=
  Sound.follows stays fun s a s' proper _ given _ _ => ⟨⟨use s proper given.1, given.2⟩, fun before found =>
    ⟨give a s' proper (Lasting.lasts before given.1) found.1, found.2⟩⟩

theorem step [Lasting P] {first : Check α} {next : α → Check β} (start : Stays ctx scopes P' first Q)
    (use : ∀ s, ctx.Proper → P s → P' s) (rest : ∀ a, Stays ctx scopes (fun s => P s ∧ Q a s) (next a) R) :
    Stays ctx scopes P (first >>= next) R :=
  Sound.seq (start.imp use fun _ _ _ given found => (⟨given, found⟩ : P _ ∧ Q _ _)) rest

theorem bind [Lasting P] {first : Check α} {next : α → Check β} (start : Stays ctx scopes P first Q)
    (rest : ∀ a, Stays ctx scopes (fun s => P s ∧ Q a s) (next a) R) : Stays ctx scopes P (first >>= next) R :=
  .step start (fun _ _ given => given) rest

/-- A check and what follows on any answer that it gives. -/
theorem stepRan [Lasting P] {first : Check α} {next : α → Check β} (start : Stays ctx scopes P' first Q)
    (use : ∀ s, ctx.Proper → P s → P' s) (rest : ∀ a, (∃ s s', first s = .ok (a, s')) →
      Stays ctx scopes (fun s => P s ∧ Q a s) (next a) R) : Stays ctx scopes P (first >>= next) R :=
  Sound.seqRan (start.imp use fun _ _ _ given found => (⟨given, found⟩ : P _ ∧ Q _ _)) rest

/-- What is not reached without a report need not stay. -/
theorem unreachable (sound : Sound ctx P' check Q') (never : ∀ s, ctx.Proper → ¬ P s) : Stays ctx scopes P check Q :=
  Sound.unreachable sound fun s proper given => never s proper given.1

/-- A report that is only made where something is wrong, and what is done in either case. -/
theorem guard [Lasting P] {wrong : Prop} [Decidable wrong] {report : Check Unit} {next : Unit → Check α}
    (reported : ∀ {P : State → Prop}, Sound ctx P report fun _ _ => False)
    (rest : Stays ctx scopes (fun s => P s ∧ ¬ wrong) (next ()) Q) :
    Stays ctx scopes P (if wrong then report >>= next else next ()) Q := by
  split
  · exact Sound.seq reported fun _ => Sound.unreachable rest fun _ _ never => never
  next fine => exact rest.imp (fun _ _ given => ⟨given, fine⟩) fun _ _ _ _ found => found

end Stays

namespace Declares

variable {Q Q' R' : α → List (String × Ty) → State → Prop} {R : β → List (String × Ty) → State → Prop} {check : Check α}

theorem pure {a : α} (holds : ∀ s, ctx.Proper → P s → Q a [] s) : Declares ctx scopes P (pure a) Q :=
  Sound.pure fun s proper given => ⟨[], holds s proper given.1, given.2⟩

theorem imp [Lasting P] (declares : Declares ctx scopes P' check Q') (use : ∀ s, ctx.Proper → P s → P' s)
    (give : ∀ a declared s, ctx.Proper → P s → Q' a declared s → Q a declared s) : Declares ctx scopes P check Q :=
  Sound.follows declares fun s a s' proper _ given _ _ => ⟨⟨use s proper given.1, given.2⟩, fun before found => by
    obtain ⟨declared, found, same⟩ := found
    exact ⟨declared, give a declared s' proper (Lasting.lasts before given.1) found, same⟩⟩

theorem step [Lasting P] {Q : α → State → Prop} {first : Check α} {next : α → Check β}
    (start : Stays ctx scopes P' first Q) (use : ∀ s, ctx.Proper → P s → P' s)
    (rest : ∀ a, Declares ctx scopes (fun s => P s ∧ Q a s) (next a) R) : Declares ctx scopes P (first >>= next) R :=
  Sound.seq (start.imp use fun _ _ _ given found => (⟨given, found⟩ : P _ ∧ Q _ _)) rest

theorem bind [Lasting P] {Q : α → State → Prop} {first : Check α} {next : α → Check β}
    (start : Stays ctx scopes P first Q) (rest : ∀ a, Declares ctx scopes (fun s => P s ∧ Q a s) (next a) R) :
    Declares ctx scopes P (first >>= next) R :=
  .step start (fun _ _ given => given) rest

/-- Names that are declared one after the other. -/
theorem chain [Lasting P] [∀ a declared, Lasting (Q a declared)] {first : Check α} {next : α → Check β}
    (start : Declares ctx scopes P' first Q) (use : ∀ s, ctx.Proper → P s → P' s)
    (rest : ∀ a declared, Declares ctx (declareAll declared scopes) (fun s => P s ∧ Q a declared s) (next a)
      fun b more s => R b (more ++ declared) s) : Declares ctx scopes P (first >>= next) R := by
  refine Sound.seq (start.imp (Q := fun a declared s => P s ∧ Q a declared s) use
    fun _ _ _ _ given found => ⟨given, found⟩) fun a => .of_exists fun declared => ?_
  refine (rest a declared).consequence (fun _ _ given => given) fun b s found => ?_
  obtain ⟨more, found, same⟩ := found
  exact ⟨more ++ declared, found, by rw [same, declareAll_append]⟩

/-- A report that is only made where something is wrong, and what is done in either case. -/
theorem guard [Lasting P] {wrong : Prop} [Decidable wrong] {report : Check Unit} {next : Unit → Check α}
    (reported : ∀ {P : State → Prop}, Sound ctx P report fun _ _ => False)
    (rest : Declares ctx scopes (fun s => P s ∧ ¬ wrong) (next ()) Q) :
    Declares ctx scopes P (if wrong then report >>= next else next ()) Q := by
  split
  · exact Sound.seq reported fun _ => Sound.unreachable rest fun _ _ never => never
  next fine => exact rest.imp (fun _ _ given => ⟨given, fine⟩) fun _ _ _ _ _ found => found

theorem nothing [Lasting P] {Q : α → State → Prop} (stays : Stays ctx scopes P' check Q)
    (use : ∀ s, ctx.Proper → P s → P' s) (give : ∀ a s, ctx.Proper → P s → Q a s → R' a [] s) :
    Declares ctx scopes P check R' :=
  (stays.imp (Q := fun a s => R' a [] s) use give).consequence (fun _ _ given => given)
    fun _ _ found => ⟨[], found.1, found.2⟩

theorem declared {f : Footprint} (declares : Declares ctx scopes P check Q) (leaves : Leaves f check) :
    Declares ctx scopes P check fun a declared s => Q a declared s ∧ s.Declared f.bindings declared := by
  refine (Sound.and declares ((declares.within leaves scopes).consequence (fun _ _ given => ⟨given, given.2⟩)
    fun _ _ found => found.2)).consequence (fun _ _ given => given) fun _ _ found => ?_
  obtain ⟨⟨declared, given, same⟩, other, known, also⟩ := found
  obtain rfl : declared = other := by
    have flat := congrArg List.flatten (same.symm.trans also)
    rw [flatten_declareAll, flatten_declareAll] at flat
    exact List.append_cancel_right flat
  exact ⟨declared, ⟨given, known⟩, same⟩

/-- Names that are declared in a scope of their own are gone behind it. -/
theorem enclosed [Lasting P] [∀ a declared, Lasting (Q a declared)] {S : β → State → Prop}
    {next : α → List (String × Ty) → Check β} (inner : Declares ctx ([] :: scopes) P check Q)
    (rest : ∀ a scope, Stays ctx scopes (fun s => P s ∧ (∀ entry ∈ scope, s.Knows entry.2) ∧ Q a scope s)
      (next a scope) S) :
    Stays ctx scopes P (do
      push
      let a ← check
      let scope ← pop
      next a scope) S := by
  refine Sound.seq (push_within scopes) fun _ => ?_
  refine Sound.seq (inner.imp (Q := fun a declared s => P s ∧ Q a declared s) (fun _ _ given => given)
    fun _ _ _ _ given found => ⟨given, found⟩) fun a => ?_
  refine Sound.seq (Q := fun (scope : List (String × Ty)) s =>
    (P s ∧ (∀ entry ∈ scope, s.Knows entry.2) ∧ Q a scope s) ∧ s.scopes = scopes) ?_ fun scope => rest a scope
  refine (pop_sound (P := P)).follows fun s _ _ _ _ given done _ => ?_
  obtain ⟨declared, given, same⟩ := given
  rw [declareAll_cons, List.append_nil] at same
  cases done
  rw [same]
  exact ⟨given.1, fun before known => ⟨⟨Lasting.lasts before given.1, known, Lasting.lasts before given.2⟩, rfl⟩⟩

theorem inScope [Lasting P] [∀ a declared, Lasting (Q a declared)] {S : α → State → Prop}
    (inner : Declares ctx ([] :: scopes) P check Q) (give : ∀ a declared s, Q a declared s → S a s) :
    Stays ctx scopes P (Typing.inScope check) S :=
  inner.enclosed fun a scope => .pure fun s _ given => give a scope s given.2.2

end Declares

/-! ### Steps -/

theorem unify_stays (span : Span) (a b : Ty) : Stays ctx scopes (fun s => s.Knows a ∧ s.Knows b) (ctx.unify span a b)
    fun worked s => worked = true ∧ s.Agree a b := .of_leaves (unify_agrees span a b) (unify_leaves span a b) rfl

theorem fresh_stays (literal : LiteralClass) : Stays ctx scopes P (fresh literal)
    fun t s => s.Knows t ∧ ∃ id, t = .var id literal := .of_leaves (fresh_var literal) (fresh_leaves literal) rfl

theorem record_stays (id : Nat) (t : Ty) : Stays ctx scopes (fun s => s.Knows t) (record id t)
    fun _ s => (id, t) ∈ s.notes.types := .of_leaves (record_sound id t) (record_leaves id t) rfl

theorem shallow_stays (t : Ty) : Stays ctx scopes (fun s => s.Knows t) (shallow t)
    fun known s => s.Knows known ∧ s.Agree t known := .of_leaves (shallow_agrees t) (shallow_leaves t) rfl

theorem shallow?_stays (t : Option Ty) : Stays ctx scopes (fun s => ∀ known ∈ t, s.Knows known) (shallow? t)
    fun r s => ∀ known ∈ r, s.Knows known := .of_leaves (shallow?_sound t) (shallow?_leaves t) rfl

theorem assign_stays (e : Expr) (want found : Ty) : Stays ctx scopes (fun s => s.Knows want ∧ s.Knows found)
    (ctx.assign e want found) fun _ s => s.Stores e want found :=
  .of_leaves (assign_stores e want found) (assign_leaves e want found) rfl

theorem pass_stays (a : Expr) (want known found : Ty) :
    Stays ctx scopes (fun s => (s.Knows want ∧ s.Knows known ∧ s.Knows found) ∧ s.Agree want known)
      (ctx.pass a want known found) fun _ s => s.Passes a want found :=
  .of_leaves (pass_passes a want known found) (ctx.pass_leaves a want known found) rfl

theorem pendLiteral_stays (id : Nat) (span : Span) (value : Int) :
    Stays ctx scopes P (pendLiteral id span value) fun _ _ => True :=
  .of_leaves (pendLiteral_sound id span value) (pendLiteral_leaves id span value) rfl

theorem resolve_stays (t : WrittenType) : Stays ctx scopes P (ctx.resolve t)
    fun type _ => type.Proper [] ∧ ctx.Reads t type := .of_leaves (resolve_sound t) (resolve_leaves t) rfl

theorem pendCast_stays (cast : PendingCast) :
    Stays ctx scopes P (modify fun s => { s with casts := s.casts ++ [cast] }) fun _ s => cast ∈ s.casts :=
  .of_leaves (pendCast_sound cast) (.modify (fun _ => rfl) fun _ => rfl) rfl

theorem declare_declares (name : String) (t : Ty) : Declares ctx scopes (fun s => s.Knows t) (declare name t)
    fun _ declared _ => declared = [(name, t)] :=
  (declare_sound name t).follows fun s _ _ _ _ given done _ => by
    cases done
    refine ⟨given.1, fun _ _ => ⟨[(name, t)], rfl, ?_⟩⟩
    rw [← given.2]
    rfl

theorem lookup?_stays (name : String) : Stays ctx scopes P (lookup? name)
    fun r s => (∀ t ∈ r, s.Knows t) ∧ r = visible? scopes name :=
  (lookup?_visible name scopes).consequence (fun _ _ given => given) fun _ _ found => ⟨found.2, found.1.2⟩

theorem State.Obeys.function {s : State} {info : NodeInfo} {name : String} {signature : Signature} {args : List Ty}
    (known : ctx.table.function? name = some signature) (own : signature.Proper) (free : visible? scopes name = none)
    (sized : args.length = signature.typeParams.length) :
    s.Obeys ctx scopes (.ident info name) (signature.type.instantiate signature.typeParams args) := by
  intro last notes _ _
  rw [last.engine.resolve_instantiate own.type]
  refine .function ?_ known (by simpa using sized)
  rw [Engine.lookup_env, free, Option.map_none]

theorem nameType_obeys [Lasting P] (info : NodeInfo) (name : String) : Stays ctx scopes P (ctx.nameType info name)
    fun t s => s.Knows t ∧ s.Obeys ctx scopes (.ident info name) t := by
  refine .bind (lookup?_stays name) fun found => ?_
  cases found with
  | some t =>
    refine .pure fun s _ given => ⟨given.2.1 t rfl, fun last notes _ _ => .variable ?_⟩
    rw [Engine.lookup_env, ← given.2.2, Option.map_some]
  | none =>
    cases known : ctx.table.function? name with
    | some signature =>
      refine .bind (.of_leaves (freshAll_sound signature.typeParams) (freshAll_leaves _) rfl) fun args => ?_
      refine .bind (.of_leaves (instantiated_sound _ _) (instantiated_leaves _ _) rfl) fun _ => ?_
      refine .bind (.of_leaves (note_sound { calls := [(info.id, signature)] } rfl fun _ => rfl)
        (called_leaves _ _) rfl) fun _ => ?_
      refine .pure fun s proper given => ?_
      obtain ⟨⟨⟨⟨-, -, unbound⟩, sized, types⟩, -⟩, -⟩ := given
      have own := proper.table.function known
      exact ⟨.instantiate own.type types, .function known own unbound.symm sized⟩
    | none => exact .of_leaves (report_then _ _ _ _) (report_then_leaves _ _ _ _) rfl

theorem namedFunction?_stays [Lasting P] (callee : Expr) : Stays ctx scopes P (ctx.namedFunction? callee)
    fun r _ => ∀ signature ∈ r, signature.Proper ∧ ∃ info name, callee = .ident info name ∧
      ctx.table.function? name = some signature ∧ visible? scopes name = none := by
  unfold Context.namedFunction?
  split
  next info name =>
    refine .bind (lookup?_stays name) fun found => ?_
    cases found with
    | some t => exact .pure fun _ _ _ _ member => by cases member
    | none => exact .pure fun _ proper given signature known =>
      ⟨proper.table.function known, info, name, rfl, known, given.2.2.symm⟩
  · exact .pure fun _ _ _ _ member => by cases member

/-- A declared function that is called has its type with type arguments. -/
theorem enterCall_has [Lasting P] (info : NodeInfo) {callee : Expr} {signature : Signature}
    (named : ∀ s, ctx.Proper → P s → signature.Proper ∧ ∃ info name, callee = .ident info name ∧
      ctx.table.function? name = some signature ∧ visible? scopes name = none) :
    Stays ctx scopes P (Context.enterCall info callee signature) fun r s =>
      ((∀ t ∈ r.1, s.Knows t) ∧ s.Knows r.2) ∧ s.Has ctx scopes callee (.function r.1 r.2) := by
  refine .imp (.of_leaves (enterCall_typed info callee fun s proper given => (named s proper given).1)
    (Context.enterCall_leaves info callee signature) rfl) (fun _ _ given => given) fun r s proper given found => ?_
  obtain ⟨own, _, name, rfl, known, free⟩ := named s proper given
  obtain ⟨types, noted, args, sized, same⟩ := found
  refine ⟨types, fun last notes before settled => .intro (settled.types (before.notes.types noted)) ?_⟩
  rw [same]
  exact State.Obeys.function known own free sized last notes before settled

theorem compareBindings_stays (span : Span) (first : List String) (scope : List (String × Ty)) :
    Stays ctx scopes (fun s => ∀ entry ∈ scope, s.Knows entry.2) (ctx.compareBindings span first scope) fun _ s =>
      (∀ name, name ∈ first ↔ name ∈ scope.map Prod.fst) ∧
        ∀ name bound t, scope.lookup name = some bound → visible? scopes name = some t → s.Agree t bound :=
  ((ctx.compareBindings_agrees span first scope scopes).still (ctx.compareBindings_leaves span first scope) rfl
    scopes).consequence (fun _ _ given => ⟨given, given.2⟩) fun _ _ found => found

/-! ### Through references -/

theorem deref_stays (t : Ty) : Stays ctx scopes (fun s => s.Knows t) (deref t) fun r s => s.Knows r.1 ∧ s.Meets t r.1 ∧
    (r.2 = 0 → s.Agree t r.1) ∧ (0 < r.2 → ∃ mutable target, s.Agree t (.ref mutable target)) :=
  (Stays.of_leaves ((deref_agrees t).and (deref_meets t)) (deref_leaves t) rfl).consequence (fun _ _ given => given)
    fun _ _ found => ⟨⟨found.1.1.1, found.1.2.2, found.1.1.2⟩, found.2⟩

/-- What stands behind the references around a value is reached through them. -/
def State.Reaches (s : State) (object : Expr) (outer base : Ty) : Prop :=
  s.Meets outer base ∧ (s.Agree outer base ∨ (object.id, .autoDeref) ∈ s.notes.coercions)

instance (object : Expr) (outer base : Ty) : Lasting fun s => s.Reaches object outer base where
  lasts before reaches := ⟨Lasting.lasts (P := fun s => s.Meets outer base) before reaches.1,
    reaches.2.imp (fun same => same.later before) fun noted => before.notes.coercions noted⟩

theorem State.Reaches.shows {s last : State} {notes : Annotations} {object : Expr} {outer base : Ty}
    (reaches : s.Reaches object outer base) (before : s.Before last) (settled : Settled last notes)
    (plain : (last.engine.resolve base).isRef = false) :
    notes.Reaches object (last.engine.resolve outer) (last.engine.resolve base) := by
  refine ⟨?_, fun shared => ?_⟩
  · rw [reaches.1 last before settled.proper, Ty.strip_plain plain]
  · rcases reaches.2 with same | noted
    · rw [same last before settled.proper, plain] at shared
      cases shared
    · exact settled.coercions (before.notes.coercions noted)

/-- Where there are references around a value, it is noted that it is reached through them. -/
theorem Stays.reach [Lasting P] {next : Unit → Check α} {Q : α → State → Prop} {object : Expr} {outer base : Ty}
    {derefs : Nat} (found : ∀ s, P s → s.Meets outer base ∧ (derefs = 0 → s.Agree outer base))
    (rest : Stays ctx scopes (fun s => P s ∧ s.Reaches object outer base) (next ()) Q) :
    Stays ctx scopes P (if 0 < derefs then coerce object.id .autoDeref >>= next else next ()) Q := by
  split
  · refine .bind (.of_leaves (coerce_noted object.id .autoDeref) (coerce_leaves _ _) rfl) fun _ => ?_
    exact rest.imp (fun s _ given => ⟨given.1, (found s given.1).1, .inr given.2⟩) fun _ _ _ _ found => found
  next direct =>
    refine rest.imp (fun s _ given => ⟨given, (found s given).1, .inl ?_⟩) fun _ _ _ _ found => found
    exact (found s given).2 (Nat.eq_zero_of_not_pos direct)

/-- How a receiver is taken, once its type is settled. -/
theorem State.Lends.shows {s last : State} {notes : Annotations} {receiver : Expr} {outer base : Ty} {derefs : Nat}
    {mode : SelfMode} (lends : s.Lends receiver outer derefs mode) (direct : derefs = 0 → s.Agree outer base)
    (shared : 0 < derefs → ∃ mutable target, s.Agree outer (.ref mutable target)) (before : s.Before last)
    (settled : Settled last notes) (plain : (last.engine.resolve base).isRef = false) :
    notes.Lends receiver (last.engine.resolve outer) mode := by
  have bare (none : derefs = 0) : (last.engine.resolve outer).isRef = false := by
    rw [direct none last before settled.proper, plain]
  cases mode with
  | value => exact .moved (bare lends)
  | shared =>
    rcases lends with more | noted
    · obtain ⟨mutable, target, same⟩ := shared more
      rw [same last before settled.proper, Engine.resolve_ref]
      exact .behind
    · exact .borrowed (settled.coercions (before.notes.coercions noted))
  | exclusive =>
    rcases lends with ⟨none, noted⟩ | ⟨target, same⟩
    · exact .changed (bare none) (settled.coercions (before.notes.coercions noted))
    · rw [same last before settled.proper, Engine.resolve_ref]
      exact .behindMut

/-- A part of a value whose type is settled. -/
theorem part?_resolve (proper : ctx.table.decls.Proper) {e : Engine} {name : String} {base t : Ty}
    (part : ctx.table.decls.part? name base = some t) :
    ctx.table.decls.part? name (e.resolve base) = some (e.resolve t) ∧ (e.resolve base).isRef = false := by
  cases base with
  | struct struct args =>
    rw [Engine.resolve_struct]
    refine ⟨?_, rfl⟩
    exact (proper.shut.fieldType?_apply e.bindings struct args name).trans (congrArg (Option.map e.resolve) part)
  | tuple types =>
    obtain ⟨i, read, here⟩ := Option.bind_eq_some_iff.mp part
    have each : e.resolve (.tuple types) = .tuple (types.map e.resolve) := by
      cases types with
      | nil => cases here
      | cons t rest => exact e.resolve_product (t :: rest)
    rw [each]
    refine ⟨Option.bind_eq_some_iff.mpr ⟨i, read, ?_⟩, rfl⟩
    rw [List.getElem?_map, here, Option.map_some]
  | _ => cases part

end Typing

end TreeCheck
