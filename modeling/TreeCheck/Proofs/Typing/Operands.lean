import TreeCheck.Proofs.Syntax.Documents
import TreeCheck.Proofs.Typing.Scopes

/-!
The operands of operators. A type is compared with what an operator is for when the operator is checked, and it is not
compared again. A type that is known by then stays what it is, and the type of a number that is written becomes one of a
number, so what was found still holds of the type in the end; a type that is open by then may become anything, and a
minus sign goes before any integer that is open.
-/

namespace TreeCheck

/-- The types that the operators of a group are for. -/
def BinaryOp.Group.takes : BinaryOp.Group → Ty → Bool
  | .arithmetic, t => t.isNumeric
  | .bitwise, t => t.isInteger || t.isBool
  | .shift, t => t.isInteger
  | .ordering, t => t.isNumeric || t.isString
  | .equality, _ => true
  | .logical, t => t.isBool

/-- The types that an operator is for. -/
def UnaryOp.takes : UnaryOp → Ty → Bool
  | .neg, t => t.isSigned || t.isFloat
  | .not, t => t.isInteger || t.isBool
  | .bitNot, t => t.isInteger

/-- The operands to which an expression applies an operator, with the types that the operator is for. A shift is for any
amount. -/
inductive Expr.Applies : Expr → Expr → (Ty → Bool) → Prop
  | left {info : NodeInfo} {op : BinaryOp} {left right : Expr} :
      Applies (.binary info op left right) left op.group.takes
  | right {info : NodeInfo} {op : BinaryOp} {left right : Expr} (uniform : op.group ≠ .shift) :
      Applies (.binary info op left right) right op.group.takes
  | operand {info : NodeInfo} {op : UnaryOp} {operand : Expr} :
      Applies (.unary info op operand) operand op.takes

/-- The open types that an operator passes over: those of which nothing is known, and before a minus sign also those of
integers. -/
def Expr.defers : Expr → LiteralClass → Bool
  | _, .general => true
  | .unary _ .neg _, .integer => true
  | _, _ => false

namespace Engine

variable {e : Engine} {t : Ty}

/-- A primitive type stands for itself. -/
theorem resolve_primitive (e : Engine) (primitive : t.isPrimitive = true) : e.resolve t = t := by
  cases t <;> first | rfl | cases primitive

/-- A type that ends in an open variable is resolved to it. -/
theorem Proper.resolve_of_shallow (proper : e.Proper) {id : Nat} {c : LiteralClass}
    (outer : e.shallow t = .var id c) : e.resolve t = .var id c := by
  calc
    e.resolve t = e.resolve (e.shallow t) := ((Subst.Grows.refl _).apply_prune proper.acyclic t).symm
    _ = e.resolve (.var id c) := by rw [outer]
    _ = .var id c := Subst.value_unbound (proper.acyclic.unbound_of_prune outer) c

end Engine

namespace Typing

variable {ctx : Context} {P : State → Prop}

/-! ### Requirements -/

/-- Once it is closed, a type is one that an operator is for. -/
def State.Decides (s : State) (takes : Ty → Bool) (t : Ty) : Prop :=
  ∀ s', s.Before s' → s'.Proper → (s'.engine.resolve t).Proper [] → takes (s'.engine.resolve t) = true

theorem State.Before.decides {s s' : State} (before : s.Before s') {takes : Ty → Bool} {t : Ty}
    (decides : s.Decides takes t) : s'.Decides takes t := fun s'' after => decides s'' (before.trans after)

/-- A type is one that an operator is for, or it is open, and the operator passes over it. -/
def State.Clears (s : State) (defers : LiteralClass → Bool) (takes : Ty → Bool) (t : Ty) : Prop :=
  (∃ id c, s.engine.resolve t = .var id c ∧ defers c = true) ∨ s.Decides takes t

namespace State

variable {s : State} {t u : Ty} {takes : Ty → Bool} {defers : LiteralClass → Bool}

theorem decides_known (primitive : (s.engine.shallow t).isPrimitive = true)
    (taken : takes (s.engine.shallow t) = true) : s.Decides takes t := by
  intro s' before proper _
  rw [s.agree_shallow t s' before proper, Engine.resolve_primitive _ primitive]
  exact taken

theorem decides_integer (proper : s.Proper) (known : s.Knows t) {id : Nat}
    (outer : s.engine.shallow t = .var id .integer) : s.Decides Ty.isInteger t := by
  intro s' before later closed
  have own : s'.Knows (.var id .integer) := before.knows (outer ▸ proper.engine.shallow known)
  rw [s.agree_shallow t s' before later, outer] at closed ⊢
  exact later.engine.resolve_integer own closed

theorem decides_float (proper : s.Proper) (known : s.Knows t) {id : Nat}
    (outer : s.engine.shallow t = .var id .float) : s.Decides Ty.isFloat t := by
  intro s' before later closed
  have own : s'.Knows (.var id .float) := before.knows (outer ▸ proper.engine.shallow known)
  rw [s.agree_shallow t s' before later, outer] at closed ⊢
  exact later.engine.resolve_float own closed

/-- What is found of a type is found of one that it agrees with. -/
theorem Agree.clears (same : s.Agree t u) (proper : s.Proper) (clears : s.Clears defers takes t) :
    s.Clears defers takes u := by
  refine clears.imp (fun passed => ?_) fun decides s' before later closed => ?_
  · rwa [← same s (.refl s) proper]
  · rw [← same s' before later] at closed ⊢
    exact decides s' before later closed

theorem Clears.mono {more : LiteralClass → Bool} (clears : s.Clears defers takes t)
    (wider : ∀ c, defers c = true → more c = true) : s.Clears more takes t :=
  clears.imp_left fun ⟨id, c, open_, passed⟩ => ⟨id, c, open_, wider c passed⟩

end State

/-- A requirement keeps to the types that an operator is for, and to the open ones that the operator passes over. -/
structure Requirement.Guards (r : Requirement) (takes : Ty → Bool) (defers : LiteralClass → Bool) : Prop where
  known : ∀ t, r.known t = true → t.isPrimitive = true ∧ takes t = true
  general : defers .general = true
  integer : r.literal .integer = true → defers .integer = true ∨ ∀ t, t.isInteger = true → takes t = true
  float : r.literal .float = true → ∀ t, t.isFloat = true → takes t = true

namespace Requirement

theorem numeric_guards : numeric.Guards BinaryOp.Group.arithmetic.takes (· == .general) where
  known t found := ⟨(by cases t <;> first | rfl | cases found), found⟩
  general := rfl
  integer _ := .inr fun t integer => by simp [BinaryOp.Group.takes, Ty.isNumeric, integer]
  float _ t float := by simp [BinaryOp.Group.takes, Ty.isNumeric, float]

theorem orderable_guards : orderable.Guards BinaryOp.Group.ordering.takes (· == .general) where
  known t found := ⟨(by cases t <;> first | rfl | cases found), found⟩
  general := rfl
  integer _ := .inr fun t integer => by simp [BinaryOp.Group.takes, Ty.isNumeric, integer]
  float _ t float := by simp [BinaryOp.Group.takes, Ty.isNumeric, float]

theorem integer_guards : integer.Guards Ty.isInteger (· == .general) where
  known t found := ⟨(by cases t <;> first | rfl | cases found), found⟩
  general := rfl
  integer _ := .inr fun _ integer => integer
  float allowed := by cases allowed

theorem integerOrBool_guards : integerOrBool.Guards (fun t => t.isInteger || t.isBool) (· == .general) where
  known t found := ⟨(by cases t <;> first | rfl | cases found), found⟩
  general := rfl
  integer _ := .inr fun t integer => by simp [integer]
  float allowed := by cases allowed

/-- Before a minus sign any integer is let through that is not known. -/
theorem signed_guards : signed.Guards UnaryOp.neg.takes (· != .float) where
  known t found := ⟨(by cases t <;> first | rfl | cases found), found⟩
  general := rfl
  integer _ := .inl rfl
  float _ t float := by simp [UnaryOp.takes, float]

/-- A type that passes a requirement in a state is decided there, or it is open. -/
theorem Guards.clears {r : Requirement} {takes : Ty → Bool} {defers : LiteralClass → Bool}
    (guards : r.Guards takes defers) {s : State} (proper : s.Proper) {t : Ty} (known : s.Knows t)
    (holds : r.holds (s.engine.shallow t) = true) : s.Clears defers takes t := by
  have own : s.Knows (s.engine.shallow t) := proper.engine.shallow known
  cases outer : s.engine.shallow t with
  | var id c =>
    rw [outer] at holds
    have open_ : s.engine.resolve t = .var id c := proper.engine.resolve_of_shallow outer
    cases c with
    | general => exact .inl ⟨id, .general, open_, guards.general⟩
    | integer =>
      refine (guards.integer holds).imp (fun passed => ⟨id, .integer, open_, passed⟩) fun taken => ?_
      exact fun s' before later closed => taken _ (State.decides_integer proper known outer s' before later closed)
    | float =>
      refine .inr fun s' before later closed => ?_
      exact guards.float holds _ (State.decides_float proper known outer s' before later closed)
  | invalid =>
    rw [outer] at own
    have faulty := own .invalid (Ty.self_mem_parts _)
    cases faulty
  | _ =>
    rw [outer] at holds
    obtain ⟨primitive, taken⟩ := guards.known _ holds
    exact .inr (State.decides_known (outer ▸ primitive) (outer ▸ taken))

end Requirement

theorem Sound.tidy {α : Type} {check : Check α} {Q : α → State → Prop} (sound : Sound ctx P check Q) :
    Sound ctx P check fun a s => Q a s ∧ s.Proper := by
  intro s
  have ran := sound s
  cases done : check s with
  | error failure =>
    rw [done] at ran
    exact ran
  | ok out =>
    rw [done] at ran
    refine ⟨ran.1, fun quiet context proper given => ?_⟩
    obtain ⟨after, before, found⟩ := ran.2 quiet context proper given
    exact ⟨after, before, found, after⟩

/-- A type that is required without a report meets the requirement. -/
theorem require_clears {r : Requirement} {takes : Ty → Bool} {defers : LiteralClass → Bool}
    (guards : r.Guards takes defers) (span : Span) (operator : String) (t : Ty) :
    Sound ctx (fun s => s.Knows t) (ctx.require span operator t r) fun _ s => s.Clears defers takes t :=
  (require_sound span operator t r).follows fun s _ s' _ proper known done quiet => by
    refine ⟨known, fun _ _ => ?_⟩
    change (if !r.holds (s.engine.shallow t) then _ else pure () : Check Unit) s = _ at done
    cases holds : r.holds (s.engine.shallow t) with
    | true =>
      simp only [holds, Bool.not_true, Bool.false_eq_true, if_false] at done
      cases done
      exact guards.clears proper known holds
    | false =>
      simp only [holds, Bool.not_false, if_true] at done
      cases done
      exact absurd quiet (Bag.add_ne_nil _ _)

/-! ### Operators -/

/-- The operands of an expression have types, and these are such as its operator is for or are open. -/
def State.Judges (s : State) (e : Expr) : Prop :=
  ∀ operand takes, e.Applies operand takes →
    ∃ t, (operand.id, t) ∈ s.notes.types ∧ s.Clears e.defers takes t

/-- The type of the operation itself is noted behind its operands. -/
theorem recorded_judges [Lasting P] {e : Expr} {check : Check Ty}
    (inner : Sound ctx P check fun t s => s.Knows t ∧ s.Judges e) :
    Sound ctx P (recorded e.id check) fun _ s => s.Judges e := by
  refine .seq inner fun t => ?_
  refine .seq (Q := fun _ s => s.Judges e) ?_ fun _ => .pure fun _ _ judges => judges
  refine (record_sound e.id t).follows fun s _ s' _ _ given done _ => ⟨given.1, fun before _ => ?_⟩
  cases done
  intro operand takes applies
  obtain ⟨u, noted, meets⟩ := given.2 operand takes applies
  exact ⟨u, before.notes.types noted, meets.imp_right before.decides⟩

/-- The left operand of an operation has a type, and so does the right one: the same, unless the operation is a
shift. -/
def State.Operates (s : State) (op : BinaryOp) (left right : Expr) (t : Ty) : Prop :=
  s.Knows t ∧ (left.id, t) ∈ s.notes.types ∧
    ∃ u, (right.id, u) ∈ s.notes.types ∧ (op.group ≠ .shift → s.Agree t u)

instance (op : BinaryOp) (left right : Expr) (t : Ty) : Lasting fun s => s.Operates op left right t := by
  unfold State.Operates
  infer_instance

section Binary

variable {info : NodeInfo} {op : BinaryOp} {left right : Expr}

theorem State.Operates.judges {s : State} {t : Ty} (operates : s.Operates op left right t) (proper : s.Proper)
    (clears : s.Clears (· == .general) op.group.takes t) : s.Judges (.binary info op left right) := by
  obtain ⟨-, first, u, second, same⟩ := operates
  have judged : s.Clears (Expr.binary info op left right).defers op.group.takes t :=
    clears.mono fun c open_ => by
      obtain rfl := eq_of_beq open_
      rfl
  intro operand takes applies
  cases applies with
  | left => exact ⟨t, first, judged⟩
  | right uniform => exact ⟨u, second, (same uniform).clears proper judged⟩

theorem compared_operates [Lasting P] {α : Type} (op : BinaryOp) (received : ctx.table.Received) {first : Check Ty}
    {next : Ty → Bool → Check α} {Q : α → State → Prop}
    (start : Sound ctx P first fun t s => s.Knows t ∧ (left.id, t) ∈ s.notes.types)
    (rest : ∀ t worked, Sound ctx (fun s => s.Operates op left right t ∧ worked = true) (next t worked) Q) :
    Sound ctx P (do
      let t ← first
      next t (← ctx.unify right.span t (← infer ctx right (some t)))) Q := by
  refine .bind start fun t => ?_
  refine .bind ((infer_noted received right (some t)).hinted fun _ _ given => given.2.1) fun u => ?_
  refine .step (unify_agrees right.span t u) (fun _ _ given => ⟨given.1.2.1, given.2.1⟩) fun worked => ?_
  refine (rest t worked).imp (fun s _ given => ?_) fun _ _ _ found => found
  obtain ⟨⟨⟨-, known, first⟩, -, second⟩, worked, same⟩ := given
  exact ⟨⟨known, first, u, second, fun _ => same⟩, worked⟩

theorem required_judges [Lasting P] {r : Requirement} (guards : r.Guards op.group.takes (· == .general))
    (operator : String) {t answer : Ty} (use : ∀ s, P s → s.Operates op left right t)
    (known : ∀ s, P s → s.Knows answer) :
    Sound ctx P (do ctx.require info.span operator t r; return answer)
      fun t s => s.Knows t ∧ s.Judges (.binary info op left right) := by
  refine .bind ((require_clears guards info.span operator t).tidy.imp (fun s _ given => (use s given).1)
    fun _ _ _ found => found) fun _ => ?_
  exact .pure fun s _ given => ⟨known s given.1, (use s given.1).judges given.2.2 given.2.1⟩

/-- Operands of which nothing is required are judged by what is known of them. -/
theorem decided_judges {t : Ty} (use : ∀ s, P s → s.Operates op left right t ∧ s.Decides op.group.takes t) :
    Sound ctx P (pure .bool) fun t s => s.Knows t ∧ s.Judges (.binary info op left right) :=
  (Sound.pure (P := P) (Q := fun a s => a = .bool ∧ P s) fun _ _ given => ⟨rfl, given⟩).tidy.consequence
    (fun _ _ given => given) fun a s found => by
      obtain ⟨⟨rfl, given⟩, proper⟩ := found
      exact ⟨Ty.proper_bool, (use s given).1.judges proper (.inr (use s given).2)⟩

theorem infer_judges_binary (received : ctx.table.Received) (hint : Option Ty) :
    Sound ctx (fun s => ∀ t ∈ hint, s.Knows t) (infer ctx (.binary info op left right) hint)
      fun _ s => s.Judges (.binary info op left right) := by
  rw [infer]
  refine recorded_judges (e := .binary info op left right) ?_
  have uniform {r : Requirement} (guards : r.Guards op.group.takes (· == .general)) (operator : String) :
      Sound ctx (fun s => ∀ t ∈ hint, s.Knows t) (do
        let t ← infer ctx left hint
        if ← ctx.unify right.span t (← infer ctx right (some t)) then
          ctx.require info.span operator t r
          return t
        else return .invalid) fun t s => s.Knows t ∧ s.Judges (.binary info op left right) := by
    refine compared_operates op received (infer_noted received left hint) fun t worked => ?_
    split
    · exact required_judges guards operator (fun _ given => given.1) fun _ given => given.1.1
    next failed => exact .pure fun _ _ given => (failed given.2).elim
  dsimp only
  split
  next group => exact uniform (group ▸ Requirement.numeric_guards) _
  next group => exact uniform (group ▸ Requirement.integerOrBool_guards) _
  next group =>
    refine .bind (infer_noted received left hint) fun t => ?_
    refine .bind (fresh_sound .integer) fun amount => ?_
    refine .bind (infer_noted received right none).unhinted fun found => ?_
    refine .step (unify_sound _ amount found) (fun _ _ given => ⟨given.1.2, given.2.1⟩) fun _ => ?_
    refine required_judges (group ▸ Requirement.integer_guards) _ (fun s given => ?_) fun _ given => given.1.1.1.2.1
    exact ⟨given.1.1.1.2.1, given.1.1.1.2.2, found, given.1.2.2, fun other => absurd group other⟩
  next group =>
    refine compared_operates op received (infer_noted received left none).unhinted fun t worked => ?_
    split
    · exact required_judges (group ▸ Requirement.orderable_guards) _ (fun _ given => given.1) fun _ _ => Ty.proper_bool
    next failed => exact .pure fun _ _ given => (failed given.2).elim
  next group =>
    refine compared_operates op received (infer_noted received left none).unhinted fun t worked => ?_
    exact decided_judges fun s given => ⟨given.1, fun _ _ _ _ => by rw [group]; rfl⟩
  next group =>
    refine .bind ((infer_noted received left _).hinted fun _ _ _ => Ty.proper_bool) fun t => ?_
    refine .step (unify_agrees left.span .bool t) (fun _ _ given => ⟨Ty.proper_bool, given.2.1⟩) fun _ => ?_
    refine .bind ((infer_noted received right _).hinted fun _ _ _ => Ty.proper_bool) fun u => ?_
    refine .step (unify_agrees right.span .bool u) (fun _ _ given => ⟨Ty.proper_bool, given.2.1⟩) fun _ => ?_
    refine decided_judges (t := t) fun s given => ?_
    obtain ⟨⟨⟨⟨-, known, first⟩, -, left⟩, -, second⟩, -, right⟩ := given
    refine ⟨⟨known, first, u, second, fun _ => left.symm.trans right⟩, fun s' before proper _ => ?_⟩
    rw [group, ← left s' before proper]
    rfl

end Binary

theorem infer_judges_unary (received : ctx.table.Received) {info : NodeInfo} {op : UnaryOp} {operand : Expr}
    (hint : Option Ty) : Sound ctx (fun s => ∀ t ∈ hint, s.Knows t) (infer ctx (.unary info op operand) hint)
      fun _ s => s.Judges (.unary info op operand) := by
  rw [infer]
  refine recorded_judges (e := .unary info op operand) ?_
  refine .bind (infer_noted received operand hint) fun t => ?_
  have required {r : Requirement} {defers : LiteralClass → Bool} (guards : r.Guards op.takes defers)
      (passed : ∀ c, defers c = true → (Expr.unary info op operand).defers c = true) (operator : String) :
      Sound ctx (fun s => (∀ t ∈ hint, s.Knows t) ∧ s.Knows t ∧ (operand.id, t) ∈ s.notes.types)
        (do ctx.require info.span operator t r; return t)
        fun t s => s.Knows t ∧ s.Judges (.unary info op operand) := by
    refine .step (require_clears guards info.span operator t) (fun _ _ given => given.2.1) fun _ => ?_
    refine .pure fun _ _ given => ⟨given.1.2.1, fun operand takes applies => ?_⟩
    cases applies
    exact ⟨t, given.1.2.2, given.2.mono passed⟩
  have open_ (c : LiteralClass) (general : (c == .general) = true) :
      (Expr.unary info op operand).defers c = true := by
    obtain rfl := eq_of_beq general
    rfl
  cases op with
  | neg =>
    have negated := required Requirement.signed_guards fun c passed => by cases c <;> first | rfl | cases passed
    dsimp only
    split
    · refine .bind (negateLiteral_sound _ _ _) fun _ => ?_
      exact (negated _).imp (fun _ _ given => given.1) fun _ _ _ found => found
    · exact negated _
  | not => exact required Requirement.integerOrBool_guards open_ _
  | bitNot => exact required Requirement.integer_guards open_ _

theorem infer_judges (received : ctx.table.Received) {e operand : Expr} {takes : Ty → Bool}
    (applies : e.Applies operand takes) (hint : Option Ty) : Sound ctx (fun s => ∀ t ∈ hint, s.Knows t)
      (infer ctx e hint) fun _ s => s.Judges e := by
  cases applies with
  | left | right => exact infer_judges_binary received hint
  | operand => exact infer_judges_unary received hint

/-! ### Accepted functions -/

/-- The check of an expression came to an end in a state, in a run that goes on to another one. -/
def State.Ends (ctx : Context) (last : State) (e : Expr) (s : State) : Prop :=
  ∃ hint first t, first.Proper ∧ (∀ want ∈ hint, first.Knows want) ∧ infer ctx e hint first = .ok (t, s) ∧
    s.Quiet ∧ s.Before last

/-- The type of an operand is open, and the operator passes over it. -/
def State.Defers (s : State) (e operand : Expr) : Prop :=
  ∃ t id c, (operand.id, t) ∈ s.notes.types ∧ s.engine.resolve t = .var id c ∧ e.defers c = true

/-- What an operator is applied to in an accepted function: where the type of the operand was not open at the end of the
check of the operator, it is one in the end that the operator is for. -/
theorem Accepted.operand {p : Program} {f : FuncDecl} {result : Result} {last s : State}
    (done : Accepted p f result ctx last) {e operand : Expr} {takes : Ty → Bool} (applies : e.Applies operand takes)
    (ends : last.Ends ctx e s) :
    s.Defers e operand ∨ ∃ t, result.notes.types.get? operand.id = some t ∧ takes t = true := by
  obtain ⟨hint, first, t, proper, known, ran, quiet, before⟩ := ends
  have received : ctx.table.Received := done.table ▸ p.collect_received
  have judged := infer_judges received applies hint first
  rw [ran] at judged
  obtain ⟨u, noted, clears⟩ := (judged.2 quiet done.context proper known).2.2 operand takes applies
  have final := before.notes.types noted
  rcases clears with ⟨id, c, open_, passed⟩ | decides
  · exact .inl ⟨u, id, c, noted, open_, passed⟩
  · exact .inr ⟨_, done.get?_type final, decides last before done.proper (done.shut final)⟩

/-- The operands of a function that is accepted. The check of every operator comes to an end, and then each operand has a
type that the operator is for, whatever else is found out about the types; or its type is open at that time, and not
known to be one of numbers that the operator is for. -/
theorem check_operands {p : Program} (decoded : p.Decoded) (collected : p.collect.2 = []) (named : p.Named)
    {f : FuncDecl} {position : Nat} (member : (f, position) ∈ p.functions.zipIdx) {result : Result}
    (checked : check p.collect.1 position f = .ok result) (accepted : result.diagnostics = []) :
    ∃ (ctx : Context) (last : State), ctx.table = p.collect.1 ∧ p.collect.1.signature? position f = some ctx.signature ∧
      ctx.prepare f {} = .ok ((), last) ∧
      ∀ e operand takes, .expr e ∈ f.body.nodes → e.Applies operand takes → (∃ s, last.Ends ctx e s) ∧
        ∀ s, last.Ends ctx e s → s.Defers e operand ∨
          ∃ t, result.notes.types.get? operand.id = some t ∧ takes t = true := by
  obtain ⟨ctx, last, own, done⟩ := check_accepted_own decoded collected named member checked accepted
  refine ⟨ctx, last, done.table, own, done.prepared, fun e operand takes inside applies => ⟨?_, fun s ends => ?_⟩⟩
  · obtain ⟨-, (bare | ran)⟩ := done.covered _ inside
    · obtain ⟨info, name, rfl⟩ := bare
      cases applies
    · obtain ⟨hint, first, t, s, proper, known, ran, quiet, before⟩ := ran
      exact ⟨s, hint, first, t, proper, known, ran, quiet, before⟩
  · exact done.operand applies ends

section

open Syntax

/-- A function that adds to its parameter. -/
def adding : Input :=
  documentOf [mappingNode [("fn", textNode "f"), ("params", listNode [mappingNode [("n", textNode "u8")]]),
    ("returns", textNode "u8"),
    ("value", mappingNode [("op", textNode "+"), ("args", listNode [textNode "n", numberNode "1"])])]]

def adder : FuncDecl :=
  { (default : FuncDecl) with
    name := "f"
    params := [⟨"n", ⟨origin, .named "u8" []⟩, false, origin⟩]
    result := some ⟨origin, .named "u8" []⟩
    body := .mk unnumbered [] (some (.binary unnumbered .add (.ident unnumbered "n") (.int unnumbered 1 "")))
    span := origin }

theorem readProgram_adding : readProgram adding = .ok ⟨"", "t.yaml", [.function adder]⟩ := by
  with_unfolding_all rfl

theorem check_operands_adding : ∃ p : Program, p.Decoded ∧ p.collect.2 = [] ∧ p.Named ∧
    ∃ f result, (f, 0) ∈ p.functions.zipIdx ∧ check p.collect.1 0 f = .ok result ∧ result.diagnostics = [] ∧
    ∃ (ctx : Context) (last : State), ctx.table = p.collect.1 ∧ p.collect.1.signature? 0 f = some ctx.signature ∧
      ctx.prepare f {} = .ok ((), last) ∧
      ∀ e operand takes, .expr e ∈ f.body.nodes → e.Applies operand takes → (∃ s, last.Ends ctx e s) ∧
        ∀ s, last.Ends ctx e s → s.Defers e operand ∨
          ∃ t, result.notes.types.get? operand.id = some t ∧ takes t = true := by
  let p : Program := (Program.number ⟨"", "t.yaml", [.function adder]⟩).1
  let f : FuncDecl := { adder with body := (adder.body.number 0).1 }
  have decoded : p.Decoded := ⟨_, _, readProgram_adding, rfl⟩
  have collected : p.collect.2 = [] := List.eq_nil_of_length_eq_zero (by decide +kernel)
  have named : p.Named := by
    have items : p.items = [.function f] := rfl
    simp [Program.Named, items, Item.typeName?]
  have passed : passes (check p.collect.1 0 f) = true := by cbv
  obtain ⟨result, checked, accepted⟩ := exists_of_passes passed
  exact ⟨p, decoded, collected, named, f, result, List.mem_cons_self, checked, accepted,
    check_operands decoded collected named List.mem_cons_self checked accepted⟩

/-- A function that negates a number of which the type is found later. -/
def negating : Input :=
  documentOf [mappingNode [("fn", textNode "f"), ("body", listNode [
    mappingNode [("let", textNode "x"), ("value", numberNode "1")],
    mappingNode [("let", textNode "y"),
      ("value", mappingNode [("op", textNode "-"), ("args", listNode [textNode "x"])])],
    mappingNode [("let", textNode "z"), ("type", textNode "u8"), ("value", textNode "x")]])]]

def negated : FuncDecl :=
  let binding (name : String) : Pattern := .binding ⟨unnumbered, name, false⟩
  { (default : FuncDecl) with
    name := "f"
    body := .mk unnumbered
      [.bind origin (binding "x") none (some (.int unnumbered 1 "")),
        .bind origin (binding "y") none (some (.unary unnumbered .neg (.ident unnumbered "x"))),
        .bind origin (binding "z") (some ⟨origin, .named "u8" []⟩) (some (.ident unnumbered "x"))] none
    span := origin }

theorem readProgram_negating : readProgram negating = .ok ⟨"", "t.yaml", [.function negated]⟩ := by
  with_unfolding_all rfl

/-- The operand of a minus sign is not looked at again, so that one is accepted that is unsigned in the end. -/
theorem check_accepts_unsigned : ∃ p : Program, p.Decoded ∧ p.collect.2 = [] ∧ p.Named ∧
    ∃ f result, (f, 0) ∈ p.functions.zipIdx ∧ check p.collect.1 0 f = .ok result ∧ result.diagnostics = [] ∧
    ∃ e operand takes, .expr e ∈ f.body.nodes ∧ e.Applies operand takes ∧
      ¬ ∃ t, result.notes.types.get? operand.id = some t ∧ takes t = true := by
  let p : Program := (Program.number ⟨"", "t.yaml", [.function negated]⟩).1
  let f : FuncDecl := { negated with body := (negated.body.number 0).1 }
  have collected : p.collect.2 = [] := List.eq_nil_of_length_eq_zero (by decide +kernel)
  have named : p.Named := by
    have items : p.items = [.function f] := rfl
    simp [Program.Named, items, Item.typeName?]
  have passed : passes (check p.collect.1 0 f) = true := by cbv
  obtain ⟨result, checked, accepted⟩ := exists_of_passes passed
  have unsigned : ((check p.collect.1 0 f).toOption.bind fun result =>
      (result.notes.types.get? 6).map UnaryOp.neg.takes) = some false := by cbv
  rw [checked] at unsigned
  obtain ⟨u, found, misfit⟩ := Option.map_eq_some_iff.mp unsigned
  refine ⟨p, ⟨_, _, readProgram_negating, rfl⟩, collected, named, f, result, List.mem_cons_self, checked, accepted,
    _, _, _, List.mem_of_getElem? (i := 6) rfl, .operand, ?_⟩
  intro typed
  obtain ⟨t, noted, taken⟩ : ∃ t, result.notes.types.get? 6 = some t ∧ UnaryOp.neg.takes t = true := typed
  obtain rfl := Option.some.inj (found.symm.trans noted)
  rw [misfit] at taken
  cases taken

end

end Typing

end TreeCheck
