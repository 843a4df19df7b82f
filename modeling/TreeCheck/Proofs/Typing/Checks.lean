import TreeCheck.Proofs.Diagnostics
import TreeCheck.Proofs.Symbol.Proper
import TreeCheck.Proofs.Syntax.Numbering
import TreeCheck.Proofs.Typing.Notes
import TreeCheck.Typing.Infer

/-!
What a check does to the state of inference. Reports are never taken back, what is known stays known, and as
long as nothing is reported only proper types are bound, recorded and brought into scope. A check stops only
at an infinite type.
-/

namespace TreeCheck

namespace Typing

namespace State

/-- Nothing has been reported. -/
def Quiet (s : State) : Prop := s.bag.contents = []

/-- A proper type over the variables handed out so far. -/
def Knows (s : State) (t : Ty) : Prop := t.Proper s.engine.classes

/-- A node has a type. -/
def Records (s : State) (id : Nat) : Prop := (s.notes.types.get? id).isSome = true

/-- The invariant of inference as long as nothing is reported. -/
structure Proper (s : State) : Prop where
  engine : s.engine.Proper
  types : ∀ entry ∈ s.notes.types, s.Knows entry.2
  scopes : ∀ scope ∈ s.scopes, ∀ entry ∈ scope, s.Knows entry.2
  diverging : ∀ t ∈ s.diverging, s.Knows t

/-- What stays from one state to a later one. -/
structure Before (s s' : State) : Prop where
  classes : s.engine.classes <+: s'.engine.classes
  grows : s.engine.bindings.Grows s'.engine.bindings
  notes : s.notes.Extends s'.notes
  casts : ∀ cast ∈ s.casts, cast ∈ s'.casts

theorem Before.refl (s : State) : s.Before s := ⟨List.prefix_refl _, .refl _, .refl _, fun _ => id⟩

theorem Before.trans {a b c : State} (first : a.Before b) (second : b.Before c) : a.Before c :=
  ⟨first.classes.trans second.classes, first.grows.trans second.grows, first.notes.trans second.notes,
    fun cast member => second.casts cast (first.casts cast member)⟩

/-- A check ran before a state, from a proper state where `P` holds, and nothing was reported up to its end. -/
def Ran {α : Type} (s : State) (P : State → Prop) (check : Check α) : Prop :=
  ∃ first a last, first.Proper ∧ P first ∧ check first = .ok (a, last) ∧ last.Quiet ∧ last.Before s

/-- The check of a node ran, and the node has a type unless it is a statement. A callee that names a function is not
checked on its own, and a pattern has the type that it is checked against. -/
def Visits (ctx : Context) (s : State) : TreeNode → Prop
  | .expr e => s.Records e.id ∧ ((∃ info name, e = .ident info name) ∨
      ∃ hint, s.Ran (fun s => ∀ t ∈ hint, s.Knows t) (infer ctx e hint))
  | .pattern p => ∃ t, (p.id, t) ∈ s.notes.types ∧ s.Ran (fun s => s.Knows t) (checkPattern ctx p t)
  | .stmt stmt => s.Ran (fun _ => True) (checkStmt ctx stmt)

def Covers (ctx : Context) (s : State) (nodes : List TreeNode) : Prop := ∀ node ∈ nodes, s.Visits ctx node

variable {ctx : Context} {s s' : State} {t : Ty} {nodes more : List TreeNode}

theorem Records.of_mem {id : Nat} (noted : (id, t) ∈ s.notes.types) : s.Records id :=
  NodeTable.get?_isSome_iff.mpr ⟨(id, t), noted, rfl⟩

theorem Before.knows (before : s.Before s') (known : s.Knows t) : s'.Knows t := known.mono before.classes

theorem Before.records (before : s.Before s') {id : Nat} (known : s.Records id) : s'.Records id := by
  obtain ⟨entry, member, same⟩ := NodeTable.get?_isSome_iff.mp known
  exact NodeTable.get?_isSome_iff.mpr ⟨entry, before.notes.types member, same⟩

theorem Before.ran {α : Type} {P : State → Prop} {check : Check α} (before : s.Before s') (ran : s.Ran P check) :
    s'.Ran P check := by
  obtain ⟨first, a, last, proper, given, done, quiet, early⟩ := ran
  exact ⟨first, a, last, proper, given, done, quiet, early.trans before⟩

theorem Before.visits (before : s.Before s') {node : TreeNode} (visited : s.Visits ctx node) :
    s'.Visits ctx node := by
  cases node with
  | expr e =>
    refine ⟨before.records visited.1, visited.2.imp_right fun ran => ?_⟩
    obtain ⟨hint, ran⟩ := ran
    exact ⟨hint, before.ran ran⟩
  | pattern p =>
    obtain ⟨t, noted, ran⟩ := visited
    exact ⟨t, before.notes.types noted, before.ran ran⟩
  | stmt => exact before.ran visited

theorem Before.covers (before : s.Before s') (covered : s.Covers ctx nodes) : s'.Covers ctx nodes :=
  fun node member => before.visits (covered node member)

theorem Visits.records {node : TreeNode} (visited : s.Visits ctx node) : ∀ id ∈ node.id?, s.Records id := by
  intro id own
  cases node with
  | expr e =>
    cases own
    exact visited.1
  | pattern p =>
    cases own
    obtain ⟨t, noted, -⟩ := visited
    exact .of_mem noted
  | stmt => cases own

@[simp] theorem covers_nil : s.Covers ctx [] := by simp [Covers]

@[simp] theorem covers_append : s.Covers ctx (nodes ++ more) ↔ s.Covers ctx nodes ∧ s.Covers ctx more := by
  simp [Covers, or_imp, forall_and]

@[simp] theorem covers_cons {node : TreeNode} :
    s.Covers ctx (node :: nodes) ↔ s.Visits ctx node ∧ s.Covers ctx nodes := by
  simp [Covers]

/-- Only some of the state is changed. -/
theorem Proper.of_same (proper : s.Proper) (engine : s'.engine = s.engine)
    (types : s'.notes.types = s.notes.types) (scopes : ∀ scope ∈ s'.scopes, ∀ entry ∈ scope, s.Knows entry.2)
    (diverging : ∀ t ∈ s'.diverging, s.Knows t) : s'.Proper where
  engine := engine ▸ proper.engine
  types := by
    rw [types]
    unfold Knows
    rw [engine]
    exact proper.types
  scopes := by
    unfold Knows
    rw [engine]
    exact scopes
  diverging := by
    unfold Knows
    rw [engine]
    exact diverging

theorem Before.of_same (engine : s'.engine = s.engine) (notes : s.notes.Extends s'.notes)
    (casts : ∀ cast ∈ s.casts, cast ∈ s'.casts) : s.Before s' where
  classes := engine ▸ List.prefix_refl _
  grows := engine ▸ .refl _
  notes := notes
  casts := casts

end State

/-- What holds of a state and of every later one. -/
class Lasting (P : State → Prop) : Prop where
  lasts : ∀ {s s'}, s.Before s' → P s → P s'

namespace Lasting

instance (p : Prop) : Lasting fun _ => p := ⟨fun _ known => known⟩

instance (t : Ty) : Lasting fun s => s.Knows t := ⟨State.Before.knows⟩

instance (ctx : Context) (nodes : List TreeNode) : Lasting fun s => s.Covers ctx nodes := ⟨State.Before.covers⟩

instance (id : Nat) : Lasting fun s => s.Records id := ⟨fun before => before.records⟩

instance (id : Nat) (t : Ty) : Lasting fun s => (id, t) ∈ s.notes.types := ⟨fun before => before.notes.types⟩

instance (id : Nat) (signature : Signature) : Lasting fun s => (id, signature) ∈ s.notes.methods :=
  ⟨fun before => before.notes.methods⟩

instance (id : Nat) (found : VariantRef) : Lasting fun s => (id, found) ∈ s.notes.variants :=
  ⟨fun before => before.notes.variants⟩

instance (cast : PendingCast) : Lasting fun s => cast ∈ s.casts := ⟨fun before => before.casts cast⟩

instance (new : Annotations) : Lasting fun s => s.notes.Holds new := ⟨fun before held => held.later before.notes⟩

instance {α : Type} (P : State → Prop) (check : Check α) : Lasting fun s => s.Ran P check :=
  ⟨State.Before.ran⟩

instance {P Q : State → Prop} [Lasting P] [Lasting Q] : Lasting fun s => P s ∧ Q s :=
  ⟨fun before known => ⟨lasts before known.1, lasts before known.2⟩⟩

instance {α : Sort*} {P : α → State → Prop} [∀ a, Lasting (P a)] : Lasting fun s => ∀ a, P a s :=
  ⟨fun before known a => lasts before (known a)⟩

instance {α : Sort*} {P : α → State → Prop} [∀ a, Lasting (P a)] : Lasting fun s => ∃ a, P a s :=
  ⟨fun before ⟨a, known⟩ => ⟨a, lasts before known⟩⟩

instance {p : Prop} {P : State → Prop} [Lasting P] : Lasting fun s => p → P s :=
  ⟨fun before known holds => lasts before (known holds)⟩

instance {p : Prop} {P : State → Prop} [Lasting P] : Lasting fun s => p ∨ P s :=
  ⟨fun before => Or.imp_right (lasts before)⟩

end Lasting

/-- A context of proper declarations. -/
structure Context.Proper (ctx : Context) : Prop where
  table : ctx.table.Proper
  signature : ctx.signature.Proper

/-- A type that would have to contain itself. -/
def Infinite (failure : Failure) : Prop := ∃ var type, failure = .defect (.infiniteType var type)

/-- What a check does, started where `P` holds: it stops only at an infinite type, it takes no report back, and
if nothing is reported, the state stays proper and its result is as `Q` says. -/
def Sound {α : Type} (ctx : Context) (P : State → Prop) (check : Check α) (Q : α → State → Prop) : Prop :=
  ∀ s, match check s with
    | .error failure => Infinite failure
    | .ok (a, s') => (s'.Quiet → s.Quiet) ∧
        (s'.Quiet → ctx.Proper → s.Proper → P s → s'.Proper ∧ s.Before s' ∧ Q a s')

namespace Sound

variable {α β : Type} {ctx : Context} {P P' : State → Prop} {Q Q' : α → State → Prop} {R : β → State → Prop}
  {check : Check α}

theorem pure {a : α} (holds : ∀ s, ctx.Proper → P s → Q a s) : Sound ctx P (pure a) Q :=
  fun s => ⟨id, fun _ proper known given => ⟨known, .refl s, holds s proper given⟩⟩

theorem follows (sound : Sound ctx P' check Q') (shows : ∀ s a s', ctx.Proper → s.Proper → P s →
    check s = .ok (a, s') → s'.Quiet → P' s ∧ (s.Before s' → Q' a s' → Q a s')) : Sound ctx P check Q := by
  intro s
  have ran := sound s
  cases done : check s with
  | error failure =>
    rw [done] at ran
    exact ran
  | ok out =>
    rw [done] at ran
    refine ⟨ran.1, fun quiet proper known given => ?_⟩
    obtain ⟨use, give⟩ := shows s out.1 out.2 proper known given done quiet
    obtain ⟨after, before, found⟩ := ran.2 quiet proper known use
    exact ⟨after, before, give before found⟩

theorem consequence (sound : Sound ctx P' check Q') (use : ∀ s, ctx.Proper → P s → P' s)
    (give : ∀ a s, Q' a s → Q a s) : Sound ctx P check Q :=
  sound.follows fun s a s' proper _ given _ _ => ⟨use s proper given, fun _ => give a s'⟩

theorem imp [Lasting P] (sound : Sound ctx P' check Q')
    (use : ∀ s, ctx.Proper → P s → P' s) (give : ∀ a s, P s → Q' a s → Q a s) : Sound ctx P check Q :=
  sound.follows fun s a s' proper _ given _ _ =>
    ⟨use s proper given, fun before => give a s' (Lasting.lasts before given)⟩

/-- What lasts is known behind a check that it is known before. -/
theorem frame (F : State → Prop) [Lasting F] (sound : Sound ctx P check Q) :
    Sound ctx (fun s => P s ∧ F s) check fun a s => Q a s ∧ F s :=
  sound.follows fun _ _ _ _ _ given _ _ =>
    ⟨given.1, fun before found => ⟨found, Lasting.lasts before given.2⟩⟩

/-- A check and what follows on any answer that it gives, of which only its own result is used. -/
theorem seqRan {first : Check α} {next : α → Check β} (start : Sound ctx P first Q)
    (rest : ∀ a, (∃ s s', first s = .ok (a, s')) → Sound ctx (Q a) (next a) R) :
    Sound ctx P (first >>= next) R := by
  intro s
  have started := start s
  change match Except.bind (first s) fun (a, s) => next a s with
    | .error failure => Infinite failure
    | .ok (b, s') => _
  cases ran : first s with
  | error failure =>
    rw [ran] at started
    exact started
  | ok out =>
    obtain ⟨a, middle⟩ := out
    rw [ran] at started
    have rested := rest a ⟨s, middle, ran⟩ middle
    simp only [Except.bind]
    cases done : next a middle with
    | error failure =>
      rw [done] at rested
      exact rested
    | ok out =>
      obtain ⟨b, s'⟩ := out
      rw [done] at rested
      refine ⟨fun quiet => started.1 (rested.1 quiet), fun quiet proper known given => ?_⟩
      obtain ⟨known, before, found⟩ := started.2 (rested.1 quiet) proper known given
      obtain ⟨known, after, found⟩ := rested.2 quiet proper known found
      exact ⟨known, before.trans after, found⟩

theorem seq {first : Check α} {next : α → Check β} (start : Sound ctx P first Q)
    (rest : ∀ a, Sound ctx (Q a) (next a) R) : Sound ctx P (first >>= next) R :=
  .seqRan start fun a _ => rest a

/-- A check and what follows on any answer that it gives. -/
theorem bindRan [Lasting P] {first : Check α} {next : α → Check β} (start : Sound ctx P first Q)
    (rest : ∀ a, (∃ s s', first s = .ok (a, s')) → Sound ctx (fun s => P s ∧ Q a s) (next a) R) :
    Sound ctx P (first >>= next) R :=
  .seqRan (start.imp (fun _ _ given => given) fun _ _ given found => ⟨given, found⟩) rest

theorem bind [Lasting P] {first : Check α} {next : α → Check β} (start : Sound ctx P first Q)
    (rest : ∀ a, Sound ctx (fun s => P s ∧ Q a s) (next a) R) : Sound ctx P (first >>= next) R :=
  .bindRan start fun a _ => rest a

theorem step [Lasting P] {first : Check α} {next : α → Check β} (start : Sound ctx P' first Q)
    (use : ∀ s, ctx.Proper → P s → P' s)
    (rest : ∀ a, Sound ctx (fun s => P s ∧ Q a s) (next a) R) : Sound ctx P (first >>= next) R :=
  .bind (start.imp use fun _ _ _ found => found) rest

theorem ran (sound : Sound ctx P check Q) : Sound ctx P check fun a s => Q a s ∧ s.Ran P check :=
  sound.follows fun s a s' _ known given done quiet =>
    ⟨given, fun _ found => ⟨found, s, a, s', known, given, done, quiet, .refl _⟩⟩

/-- What is shown of a check in two ways. -/
theorem and {R : α → State → Prop} (first : Sound ctx P check Q) (second : Sound ctx P check R) :
    Sound ctx P check fun a s => Q a s ∧ R a s :=
  first.follows fun s a s' proper known given done quiet => by
    have other := second s
    rw [done] at other
    exact ⟨given, fun _ found => ⟨found, (other.2 quiet proper known given).2.2⟩⟩

/-- What a check does apart from what it answers. -/
theorem forget (sound : Sound ctx P check Q) : Sound ctx P check fun _ _ => True :=
  sound.consequence (fun _ _ given => given) fun _ _ _ => trivial

/-- What is not reached without a report need not be proper. -/
theorem unreachable (sound : Sound ctx P' check Q') (never : ∀ s, ctx.Proper → ¬ P s) :
    Sound ctx P check Q :=
  sound.follows fun s _ _ proper _ given _ _ => absurd given (never s proper)

end Sound

end Typing

end TreeCheck
