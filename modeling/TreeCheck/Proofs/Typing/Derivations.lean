import TreeCheck.Proofs.Typing.Settled

/-!
What inference finds about an expression, a statement or an arm is a derivation in the type system, once the types in it
are settled and if the same holds of its parts.
-/

namespace TreeCheck.Typing

variable {ctx : Context} {P : State → Prop} [Lasting P] {scopes : List (List (String × Ty))} {α : Type}

/-! ### One expression -/

/-- An expression that will have the type that is inferred for it. -/
def Derived (ctx : Context) (e : Expr) : Prop :=
  ∀ (hint : Option Ty) (scopes : List (List (String × Ty))),
    Stays ctx scopes (fun s => ∀ t ∈ hint, s.Knows t) (infer ctx e hint) fun t s => s.Knows t ∧ s.Has ctx scopes e t

/-- A type is noted about an expression, and a rule gives it where it is noted. -/
theorem recorded_noted_has {e : Expr} {check : Check Ty} {Q : Ty → State → Prop} [∀ t, Lasting (Q t)]
    (inner : Stays ctx scopes P check fun t s => s.Knows t ∧ Q t s)
    (rule : ∀ t s, Q t s → ∀ last notes, s.Before last → Settled last notes →
      notes.types.get? e.id = some (last.engine.resolve t) →
        Rule ctx notes (last.engine.env scopes) e (last.engine.resolve t)) :
    Stays ctx scopes P (recorded e.id check) fun t s => (s.Knows t ∧ s.Has ctx scopes e t) ∧ Q t s := by
  refine .bind inner fun t => ?_
  refine .step (record_stays e.id t) (fun _ _ given => given.2.1) fun _ => ?_
  refine .pure fun s _ given => ⟨⟨given.1.2.1, ?_⟩, given.1.2.2⟩
  intro last notes before settled
  have noted := settled.types (before.notes.types given.2)
  exact .intro noted (rule t s given.1.2.2 last notes before settled noted)

/-- The type that a rule gives an expression is noted about it. -/
theorem recorded_has {e : Expr} {check : Check Ty}
    (inner : Stays ctx scopes P check fun t s => s.Knows t ∧ s.Obeys ctx scopes e t) :
    Stays ctx scopes P (recorded e.id check) fun t s => s.Knows t ∧ s.Has ctx scopes e t :=
  (recorded_noted_has inner fun _ _ obeys last notes before settled _ => obeys last notes before settled).imp
    (fun _ _ given => given) fun _ _ _ _ found => found.1

namespace Derived

variable {e : Expr}

theorem hinted (derived : Derived ctx e) (t : Ty) : Stays ctx scopes (fun s => s.Knows t) (infer ctx e (some t))
    fun t s => s.Knows t ∧ s.Has ctx scopes e t :=
  (derived (some t) scopes).imp (fun _ _ given _ member => Option.some.inj member ▸ given) fun _ _ _ _ found => found

theorem unhinted (derived : Derived ctx e) : Stays ctx scopes P (infer ctx e none)
    fun t s => s.Knows t ∧ s.Has ctx scopes e t :=
  (derived none scopes).imp (fun _ _ _ _ member => by cases member) fun _ _ _ _ found => found

/-- An expression against a type that is known has that type. -/
theorem against (derived : Derived ctx e) {span : Span} {want : Ty} {next : Bool → Check α} {Q : α → State → Prop}
    (known : ∀ s, ctx.Proper → P s → s.Knows want)
    (rest : ∀ worked, Stays ctx scopes (fun s => P s ∧ s.Has ctx scopes e want ∧ worked = true) (next worked) Q) :
    Stays ctx scopes P (do next (← ctx.unify span want (← infer ctx e (some want)))) Q := by
  refine .step (derived.hinted want) known fun found => ?_
  refine .step (unify_stays span want found) (fun s proper given => ⟨known s proper given.1, given.2.1⟩)
    fun worked => ?_
  exact (rest worked).imp (fun _ _ given => ⟨given.1.1, given.1.2.2.agree given.2.2.symm, given.2.1⟩)
    fun _ _ _ _ found => found

/-- A condition is of truth values. -/
theorem condition (derived : Derived ctx e) {span : Span} {next : Bool → Check α} {Q : α → State → Prop}
    (rest : ∀ worked, Stays ctx scopes (fun s => P s ∧ s.Has ctx scopes e .bool) (next worked) Q) :
    Stays ctx scopes P (do next (← ctx.unify span .bool (← infer ctx e (some .bool)))) Q :=
  derived.against (fun _ _ _ => Ty.proper_bool) fun worked =>
    (rest worked).imp (fun _ _ given => ⟨given.1, given.2.1⟩) fun _ _ _ _ found => found

end Derived

/-- A state in which nothing is required of a type any more. -/
theorem require_stays (span : Span) (operator : String) (t : Ty) (r : Requirement) :
    Stays ctx scopes (fun s => s.Knows t) (ctx.require span operator t r) fun _ _ => True :=
  .of_leaves (require_sound span operator t r) (require_leaves span operator t r) rfl

section Expressions

variable {info : NodeInfo}

/-- A literal has the type that is written behind it, or one of its class. -/
def State.Literal (s : State) (suffix : String) (literal : LiteralClass) (t : Ty) : Prop :=
  Ty.ofName? suffix = some t ∧ t.Proper [] ∨ Ty.ofName? suffix = none ∧ s.Knows t ∧ ∃ id, t = .var id literal

instance (suffix : String) (literal : LiteralClass) (t : Ty) : Lasting fun s => s.Literal suffix literal t :=
  inferInstanceAs (Lasting fun s => _ ∨ _ ∧ s.Knows t ∧ _)

theorem literal_stays (suffix : String) (literal : LiteralClass) : Stays ctx scopes P (match Ty.ofName? suffix with
      | some t => return t
      | none => fresh literal) fun t s => s.Knows t ∧ s.Literal suffix literal t := by
  cases written : Ty.ofName? suffix with
  | some t =>
    have proper := Decls.Proper.ofName? written
    exact .pure fun _ _ _ => ⟨proper.mono List.nil_prefix, .inl ⟨written, proper⟩⟩
  | none =>
    exact (fresh_stays literal).imp (fun _ _ given => given) fun _ _ _ _ found => ⟨found.1, .inr ⟨written, found⟩⟩

theorem Derived.int {value : Int} {suffix : String} : Derived ctx (.int info value suffix) := by
  intro hint scopes
  rw [infer]
  refine .imp (recorded_noted_has (e := .int info value suffix) (Q := fun t s => s.Literal suffix .integer t) ?_ ?_)
    (fun _ _ given => given) fun _ _ _ _ found => found.1
  · refine .bind (pendLiteral_stays info.id info.span value) fun _ => ?_
    exact literal_stays suffix .integer
  · intro t s literal last notes before settled noted
    refine .int ?_
    rcases literal with ⟨written, closed⟩ | ⟨none, known, literal⟩
    · rw [written, last.engine.resolve_closed closed]
    · rw [none]
      exact State.integer_of_agree known literal (fun _ _ _ => rfl) before settled noted

theorem Derived.float {value : Binary64} {suffix : String} : Derived ctx (.float info value suffix) := by
  intro hint scopes
  rw [infer]
  refine .imp (recorded_noted_has (e := .float info value suffix) (Q := fun t s => s.Literal suffix .float t)
    (literal_stays suffix .float) ?_) (fun _ _ given => given) fun _ _ _ _ found => found.1
  intro t s literal last notes before settled noted
  refine .float ?_
  rcases literal with ⟨written, closed⟩ | ⟨none, known, literal⟩
  · rw [written, last.engine.resolve_closed closed]
  · rw [none]
    exact State.float_of_agree known literal (fun _ _ _ => rfl) before settled noted

theorem Derived.string {text : Octets} : Derived ctx (.string info text) := by
  intro hint scopes
  rw [infer]
  exact recorded_has (e := .string info text) (.pure fun _ _ _ => ⟨Ty.proper_string, fun _ _ _ _ => .string⟩)

theorem Derived.bool {value : Bool} : Derived ctx (.bool info value) := by
  intro hint scopes
  rw [infer]
  exact recorded_has (e := .bool info value) (.pure fun _ _ _ => ⟨Ty.proper_bool, fun _ _ _ _ => .bool⟩)

theorem Derived.ident {name : String} : Derived ctx (.ident info name) := by
  intro hint scopes
  rw [infer]
  exact recorded_has (e := .ident info name) (nameType_obeys info name)

def PartsDerived (ctx : Context) (parts : List TemplatePart) : Prop :=
  ∀ scopes : List (List (String × Ty)), Stays ctx scopes (fun _ => True) (inferParts ctx parts) fun _ s =>
    s.Shows fun engine notes => ∀ e, .value e ∈ parts → Typable ctx notes (engine.env scopes) e

theorem Derived.template {parts : List TemplatePart} (partsDerived : PartsDerived ctx parts) :
    Derived ctx (.template info parts) := by
  intro hint scopes
  rw [infer]
  refine recorded_has (e := .template info parts) ?_
  refine .step (partsDerived scopes) (fun _ _ _ => trivial) fun _ => ?_
  exact .pure fun s _ given => ⟨Ty.proper_string, fun last notes before settled =>
    .template (given.2 last notes before settled)⟩

theorem Derived.binary {op : BinaryOp} {left right : Expr} (leftDerived : Derived ctx left)
    (rightDerived : Derived ctx right) : Derived ctx (.binary info op left right) := by
  intro hint scopes
  rw [infer]
  refine recorded_has (e := .binary info op left right) ?_
  -- Arithmetic and bitwise operators only differ in what they require.
  have uniform {r : Requirement} (group : op.group = .arithmetic ∨ op.group = .bitwise) (operator : String) :
      Stays ctx scopes (fun s => ∀ t ∈ hint, s.Knows t) (do
        let t ← infer ctx left hint
        if ← ctx.unify right.span t (← infer ctx right (some t)) then
          ctx.require info.span operator t r
          return t
        else return .invalid) fun t s => s.Knows t ∧ s.Obeys ctx scopes (.binary info op left right) t := by
    refine .bind (leftDerived hint scopes) fun t => ?_
    refine rightDerived.against (fun _ _ given => given.2.1) fun worked => ?_
    split
    · refine .step (require_stays _ _ t _) (fun _ _ given => given.1.2.1) fun _ => ?_
      refine .pure fun s _ given => ⟨given.1.1.2.1, ?_⟩
      intro last notes before settled
      obtain ⟨⟨⟨-, -, first⟩, second, -⟩, -⟩ := given
      exact .uniform group (first.typed before settled) (second.typed before settled)
    next failed => exact .pure fun _ _ given => (failed given.2.2).elim
  dsimp only
  split
  next group => exact uniform (.inl group) _
  next group => exact uniform (.inr group) _
  next group =>
    refine .bind (leftDerived hint scopes) fun t => ?_
    -- The amount is compared with an open integer, which is an integer type once it is settled.
    refine .bind (fresh_stays .integer) fun amount => ?_
    refine .step (rightDerived.unhinted (P := fun _ => True)) (fun _ _ _ => trivial) fun found => ?_
    refine .step (unify_stays _ amount found) (fun _ _ given => ⟨given.1.2.1, given.2.1⟩) fun _ => ?_
    refine .step (require_stays _ _ t _) (fun _ _ given => given.1.1.1.2.1) fun _ => ?_
    refine .pure fun s _ given => ⟨given.1.1.1.1.2.1, ?_⟩
    intro last notes before settled
    obtain ⟨⟨⟨⟨⟨-, -, first⟩, known, literal⟩, -, second⟩, -, same⟩, -⟩ := given
    have amount := second.typed before settled
    refine .shift group (first.typed before settled) amount ?_
    exact State.integer_of_agree known literal same before settled amount.noted
  next group =>
    refine .step (leftDerived.unhinted (P := fun _ => True)) (fun _ _ _ => trivial) fun t => ?_
    refine rightDerived.against (fun _ _ given => given.2.1) fun worked => ?_
    split
    · refine .step (require_stays _ _ t _) (fun _ _ given => given.1.2.1) fun _ => ?_
      refine .pure fun s _ given => ⟨Ty.proper_bool, ?_⟩
      intro last notes before settled
      obtain ⟨⟨⟨-, -, first⟩, second, -⟩, -⟩ := given
      exact .compared (.inl group) (first.typed before settled) (second.typed before settled)
    next failed => exact .pure fun _ _ given => (failed given.2.2).elim
  next group =>
    refine .step (leftDerived.unhinted (P := fun _ => True)) (fun _ _ _ => trivial) fun t => ?_
    refine rightDerived.against (fun _ _ given => given.2.1) fun _ => ?_
    refine .pure fun s _ given => ⟨Ty.proper_bool, ?_⟩
    intro last notes before settled
    exact .compared (.inr group) (given.1.2.2.typed before settled) (given.2.1.typed before settled)
  next group =>
    refine leftDerived.condition fun _ => ?_
    refine rightDerived.condition fun _ => ?_
    refine .pure fun s _ given => ⟨Ty.proper_bool, ?_⟩
    intro last notes before settled
    exact .logical group (given.1.2.typed before settled) (given.2.typed before settled)

theorem Derived.unary {op : UnaryOp} {operand : Expr} (operandDerived : Derived ctx operand) :
    Derived ctx (.unary info op operand) := by
  intro hint scopes
  rw [infer]
  refine recorded_has (e := .unary info op operand) ?_
  refine .bind (operandDerived hint scopes) fun t => ?_
  have required (operator : String) (r : Requirement) : Stays ctx scopes
      (fun s => (∀ t ∈ hint, s.Knows t) ∧ s.Knows t ∧ s.Has ctx scopes operand t)
      (do ctx.require info.span operator t r; return t)
      fun t s => s.Knows t ∧ s.Obeys ctx scopes (.unary info op operand) t := by
    refine .step (require_stays _ _ t r) (fun _ _ given => given.2.1) fun _ => ?_
    exact .pure fun s _ given => ⟨given.1.2.1, fun last notes before settled =>
      .unary (given.1.2.2.typed before settled)⟩
  cases op with
  | neg =>
    dsimp only
    split
    · refine .bind (.of_leaves (negateLiteral_sound _ _ _) (negateLiteral_leaves _ _ _) rfl) fun _ => ?_
      exact (required _ _).imp (fun _ _ given => given.1) fun _ _ _ _ found => found
    · exact required _ _
  | not => exact required _ _
  | bitNot => exact required _ _

/-- Arguments that will have the types of as many parameters. -/
def ArgumentsDerived (ctx : Context) (args : List Expr) : Prop :=
  ∀ (wants : List Ty) (scopes : List (List (String × Ty))), args.length = wants.length →
    Stays ctx scopes (fun s => ∀ t ∈ wants, s.Knows t) (checkArgs ctx args (some wants)) fun _ s =>
      s.Shows fun engine notes => ∀ pair ∈ args.zip wants,
        Given ctx notes (engine.env scopes) pair.1 (engine.resolve pair.2)

theorem forall_zip_map {β γ : Type} {R : α → γ → Prop} {f : β → γ} {as : List α} {bs : List β}
    (each : ∀ pair ∈ as.zip bs, R pair.1 (f pair.2)) : ∀ pair ∈ as.zip (bs.map f), R pair.1 pair.2 := by
  rw [List.zip_map_right]
  exact List.forall_mem_map.mpr each

theorem ArgumentsDerived.all {args : List Expr} (argsDerived : ArgumentsDerived ctx args)
    (received : ctx.table.Received) {span : Span} {name : String} {params : List Ty} {next : Unit → Check α}
    {Q : α → State → Prop} (known : ∀ s, P s → ∀ t ∈ params, s.Knows t)
    (rest : Stays ctx scopes (fun s => P s ∧ args.length = params.length ∧ s.Shows fun engine notes =>
      ∀ pair ∈ args.zip (params.map engine.resolve), Given ctx notes (engine.env scopes) pair.1 pair.2) (next ()) Q) :
    Stays ctx scopes P
      (ctx.arity span name args.length params >>= fun wants => checkArgs ctx args wants >>= next) Q := by
  refine .bind (.of_leaves (arity_sized span name args.length params) (ctx.arity_leaves _ _ _ _) rfl) fun wants => ?_
  by_cases whole : wants = some params ∧ args.length = params.length
  · obtain ⟨rfl, sized⟩ := whole
    refine .step (argsDerived params scopes sized) (fun s _ given => known s given.1) fun _ => ?_
    refine rest.imp (fun s _ given => ⟨given.1.1, sized, fun last notes before settled => ?_⟩)
      fun _ _ _ _ found => found
    exact forall_zip_map (given.2 last notes before settled)
  -- Another number of arguments is reported, so nothing that follows is reached.
  · refine .step (Q := fun _ _ => False)
      (.unreachable (checkArgs_sound received args wants) fun _ _ given => whole given.2)
      (fun _ _ given => given) fun _ => ?_
    exact .unreachable rest fun _ _ given => given.2

theorem Derived.call {callee : Expr} {args : List Expr} (received : ctx.table.Received)
    (calleeDerived : Derived ctx callee) (argsDerived : ArgumentsDerived ctx args) :
    Derived ctx (.call info callee args) := by
  intro hint scopes
  rw [infer]
  refine recorded_has (e := .call info callee args) ?_
  have called {params : List Ty} {result : Ty} {s : State} (has : s.Has ctx scopes callee (.function params result))
      (count : args.length = params.length) (passed : s.Shows fun engine notes =>
        ∀ pair ∈ args.zip (params.map engine.resolve), Given ctx notes (engine.env scopes) pair.1 pair.2) :
      s.Obeys ctx scopes (.call info callee args) result := by
    intro last notes before settled
    have callee := has.typed before settled
    rw [Engine.resolve_function] at callee
    exact .call callee (by simpa using count) (passed last notes before settled)
  refine .bind (namedFunction?_stays callee) fun named => ?_
  cases named with
  | some signature =>
    refine .bind (enterCall_has info fun _ _ given => given.2 signature rfl) fun entered => ?_
    obtain ⟨params, result⟩ := entered
    refine argsDerived.all received (fun _ given => given.2.1.1) ?_
    exact .pure fun s _ given => ⟨given.1.2.1.2, called given.1.2.2 given.2.1 given.2.2⟩
  | none =>
    refine .step (calleeDerived.unhinted (P := fun _ => True)) (fun _ _ _ => trivial) fun found => ?_
    refine .step (shallow_stays found) (fun _ _ given => given.2.1) fun known => ?_
    split
    next params result =>
      refine argsDerived.all received (fun _ given => (Ty.proper_function.mp given.2.1).1) ?_
      refine .pure fun s _ given => ⟨(Ty.proper_function.mp given.1.2.1).2, ?_⟩
      exact called (given.1.1.2.2.agree given.1.2.2) given.2.1 given.2.2
    next other =>
      -- This is reported, unless the type is a fault already, and a type that is known is none.
      refine .guard (report_sound _ _ _) ?_
      refine .step (.of_leaves (checkArgs_sound received args none) (checkArgs_leaves args none) rfl)
        (fun _ _ _ _ member => by cases member) fun _ => ?_
      refine .pure fun _ _ given => (given.1.2 ?_).elim
      cases known <;> first | rfl | exact (Ty.not_proper_invalid given.1.1.2.1).elim

theorem enterMethod_stays {signature : Signature} (received : signature.self.isSome = true)
    (proper : ∀ s, ctx.Proper → P s → signature.Proper) (info : NodeInfo) (receiver : Expr) (name : String)
    (outer base : Ty) (derefs : Nat) : Stays ctx scopes (fun s => P s ∧ s.Knows outer ∧ s.Knows base)
      (ctx.enterMethod info receiver name outer base derefs signature)
      fun r s => ((∀ t ∈ r.1, s.Knows t) ∧ s.Knows r.2) ∧ (∃ args,
        r = (signature.params.map fun p => p.type.instantiate signature.typeParams args,
          signature.result.instantiate signature.typeParams args) ∧ s.Enters info.id signature base args) ∧
        ∀ self ∈ signature.self, s.Lends receiver outer derefs self.mode :=
  (Stays.of_leaves ((enterMethod_enters received proper info receiver name outer base derefs).and
    (ctx.enterMethod_sound received proper info receiver name outer base derefs))
    (ctx.enterMethod_leaves info receiver name outer base derefs signature) rfl).consequence (fun _ _ given => given)
      fun _ _ found => ⟨⟨found.1.1.1, found.1.1.2, found.1.2.2.2⟩, found.2⟩

/-- A method that is called with type arguments, as the rule for it says. -/
inductive Invokes (ctx : Context) (notes : Annotations) (Γ : Env) (types : List Ty) : Expr → Ty → Prop
  | intro {info : NodeInfo} {receiver : Expr} {name type : String} {args : List Expr} {outer : Ty} {owner : List Ty}
      {signature : Signature} {self : Signature.Self} (taken : HasType ctx notes Γ receiver outer)
      (nominal : outer.strip.2 = .struct type owner ∨ outer.strip.2 = .enum type owner)
      (known : ctx.table.method? type name = some signature)
      (chosen : notes.methods.get? info.id = some signature) (own : signature.self = some self)
      (sized : types.length = signature.typeParams.length)
      (behind : outer.strip.2 = self.type.instantiate signature.typeParams types)
      (lends : notes.Lends receiver outer self.mode) (count : args.length = signature.params.length)
      (passed : ∀ pair ∈ args.zip (signature.params.map fun p => p.type.instantiate signature.typeParams types),
        Given ctx notes Γ pair.1 pair.2) :
      Invokes ctx notes Γ types (.methodCall info receiver name args)
        (signature.result.instantiate signature.typeParams types)

theorem Invokes.rule {notes : Annotations} {Γ : Env} {types : List Ty} {e : Expr} {t : Ty}
    (invokes : Invokes ctx notes Γ types e t) : Rule ctx notes Γ e t := by
  obtain ⟨taken, nominal, known, chosen, own, sized, behind, lends, count, passed⟩ := invokes
  exact .method taken nominal known chosen own sized behind lends count passed

theorem Invokes.chosen {notes : Annotations} {Γ : Env} {types : List Ty} {receiver : Expr} {name : String}
    {args : List Expr} {t : Ty} (invokes : Invokes ctx notes Γ types (.methodCall info receiver name args) t) :
    ∃ signature, notes.methods.get? info.id = some signature ∧ types.length = signature.typeParams.length := by
  cases invokes with
  | intro _ _ _ chosen _ sized => exact ⟨_, chosen, sized⟩

/-- A method will be called with type arguments that are noted, unless there are none. -/
def State.Invokes (s : State) (ctx : Context) (scopes : List (List (String × Ty))) (e : Expr) (t : Ty) : Prop :=
  ∃ types, (types = [] ∨ (e.id, types) ∈ s.notes.instantiations) ∧ s.Shows fun engine notes =>
    Typing.Invokes ctx notes (engine.env scopes) (types.map engine.resolve) e (engine.resolve t)

instance (e : Expr) (t : Ty) : Lasting fun s => s.Invokes ctx scopes e t := by
  unfold State.Invokes
  infer_instance

theorem methodCall_invokes {receiver : Expr} {name : String} {args : List Expr} (received : ctx.table.Received)
    (receiverDerived : Derived ctx receiver) (argsDerived : ArgumentsDerived ctx args) (hint : Option Ty) :
    Stays ctx scopes (fun s => ∀ t ∈ hint, s.Knows t) (infer ctx (.methodCall info receiver name args) hint) fun t s =>
      (s.Knows t ∧ s.Has ctx scopes (.methodCall info receiver name args) t) ∧
        s.Invokes ctx scopes (.methodCall info receiver name args) t := by
  rw [infer]
  refine recorded_noted_has (e := .methodCall info receiver name args)
    (Q := fun t s => s.Invokes ctx scopes (.methodCall info receiver name args) t) ?_
    fun t s invokes last notes before settled _ => ?rule
  case rule =>
    obtain ⟨types, -, shows⟩ := invokes
    exact (shows last notes before settled).rule
  refine .step (receiverDerived.unhinted (P := fun _ => True)) (fun _ _ _ => trivial) fun outer => ?_
  refine .step (deref_stays outer) (fun _ _ given => given.2.1) fun inner => ?_
  obtain ⟨base, derefs⟩ := inner
  refine .stepRan (.of_leaves (ctx.method?_sound info receiver name base) (ctx.method?_leaves _ _ _ _) rfl)
    (fun _ _ given => given.2.1) fun found ran => ?_
  cases found with
  | none =>
    refine .step (.of_leaves (checkArgs_sound received args none) (checkArgs_leaves args none) rfl)
      (fun _ _ _ _ member => by cases member) fun _ => ?_
    exact .pure fun _ _ given => absurd given.1.2 (by simp)
  | some signature =>
    obtain ⟨s, s', ran⟩ := ran
    have own := Context.method?_received received ran
    refine .step (enterMethod_stays own ?_ info receiver name outer base derefs)
      (fun _ _ given => ⟨given, given.1.1.2.1, given.1.2.1⟩) fun entered => ?_
    · intro s _ given
      obtain ⟨known, same, proper, -⟩ := given.2
      obtain rfl := Option.some.inj same
      exact proper
    obtain ⟨params, result⟩ := entered
    refine argsDerived.all received (fun _ given => given.2.1.1) ?_
    refine .pure fun s proper given => ⟨given.1.2.1.2, ?_⟩
    obtain ⟨⟨⟨⟨⟨-, -, has⟩, -, meets, direct, shared⟩, found⟩, -, ⟨types, entered, enters⟩, lends⟩, count, passed⟩ :=
      given
    obtain ⟨_, same, declared, type, owner, nominal, known⟩ := found
    obtain rfl := Option.some.inj same
    obtain ⟨sized, chosen, noted, behind⟩ := enters
    obtain ⟨self, some⟩ := Option.isSome_iff_exists.mp own
    obtain ⟨rfl, rfl⟩ := Prod.mk.inj entered
    refine ⟨types, noted, fun last notes before settled => ?_⟩
    -- The method is found by the name of the type behind the references, which settling does not change.
    have plain : (last.engine.resolve base).isRef = false := by
      rcases nominal with rfl | rfl <;> simp [Ty.isRef]
    have bare : (last.engine.resolve outer).strip.2 = last.engine.resolve base := by
      rw [meets last before settled.proper, Ty.strip_plain plain]
    beta_reduce
    rw [last.engine.resolve_instantiate declared.result]
    have named : (last.engine.resolve outer).strip.2 = .struct type (owner.map last.engine.resolve) ∨
        (last.engine.resolve outer).strip.2 = .enum type (owner.map last.engine.resolve) := by
      rw [bare]
      rcases nominal with rfl | rfl
      · exact .inl (last.engine.resolve_struct type owner)
      · exact .inr (last.engine.resolve_enum type owner)
    refine .intro (has.typed before settled) named known
      (settled.methods (before.notes.methods chosen)) some (by simpa using sized) ?_
      ((lends self some).shows direct shared before settled plain) (by simpa using count) ?_
    · rw [bare, ← behind self some last before settled.proper,
        last.engine.resolve_instantiate (declared.self self some)]
    · rw [last.engine.resolve_params declared]
      exact passed last notes before settled

theorem Derived.methodCall {receiver : Expr} {name : String} {args : List Expr} (received : ctx.table.Received)
    (receiverDerived : Derived ctx receiver) (argsDerived : ArgumentsDerived ctx args) :
    Derived ctx (.methodCall info receiver name args) := fun hint _ =>
  (methodCall_invokes received receiverDerived argsDerived hint).imp (fun _ _ given => given)
    fun _ _ _ _ found => found.1

theorem Derived.field {object : Expr} {name : String} (objectDerived : Derived ctx object) :
    Derived ctx (.field info object name) := by
  intro hint scopes
  rw [infer]
  refine recorded_has (e := .field info object name) ?_
  refine .step (objectDerived.unhinted (P := fun _ => True)) (fun _ _ _ => trivial) fun outer => ?_
  refine .step (deref_stays outer) (fun _ _ given => given.2.1) fun inner => ?_
  obtain ⟨base, derefs⟩ := inner
  refine .reach (fun _ given => ⟨given.2.2.1, given.2.2.2.1⟩) ?_
  refine .imp (.of_leaves (ctx.fieldType_sound info object name base) (ctx.fieldType_leaves _ _ _ _) rfl)
    (fun _ _ given => given.1.2.1) fun t s proper given found => ⟨found.1, ?_⟩
  obtain ⟨⟨⟨-, -, has⟩, -⟩, reaches⟩ := given
  intro last notes before settled
  obtain ⟨part, plain⟩ := part?_resolve proper.table.decls (e := last.engine) found.2
  exact .field (has.typed before settled) (reaches.shows before settled plain) part

theorem Derived.index {object index : Expr} (objectDerived : Derived ctx object) (indexDerived : Derived ctx index) :
    Derived ctx (.index info object index) := by
  intro hint scopes
  rw [infer]
  refine recorded_has (e := .index info object index) ?_
  refine .step (objectDerived.unhinted (P := fun _ => True)) (fun _ _ _ => trivial) fun outer => ?_
  refine .step (deref_stays outer) (fun _ _ given => given.2.1) fun inner => ?_
  obtain ⟨base, derefs⟩ := inner
  refine .reach (fun _ given => ⟨given.2.2.1, given.2.2.2.1⟩) ?_
  refine .step (indexDerived.unhinted (P := fun _ => True)) (fun _ _ _ => trivial) fun found => ?_
  refine .bind (fresh_stays .integer) fun number => ?_
  refine .step (unify_stays _ number found) (fun _ _ given => ⟨given.2.1, given.1.2.1⟩) fun _ => ?_
  refine .imp (.of_leaves (ctx.elementType_sound info object base) (ctx.elementType_leaves _ _ _) rfl)
    (fun _ _ given => given.1.1.1.1.2.1) fun t s _ given element => ⟨element.1, ?_⟩
  obtain ⟨⟨⟨⟨⟨⟨-, -, has⟩, -⟩, reaches⟩, -, place⟩, known, literal⟩, -, same⟩ := given
  intro last notes before settled
  have array := (element.2 last before settled.proper).symm
  rw [Engine.resolve_array] at array
  have reached := reaches.shows before settled (by rw [array]; rfl)
  rw [array] at reached
  have place := place.typed before settled
  refine .index (has.typed before settled) reached place ?_
  exact State.integer_of_agree known literal same before settled place.noted

theorem Derived.ref {mutable : Bool} {operand : Expr} (operandDerived : Derived ctx operand) :
    Derived ctx (.ref info mutable operand) := by
  intro hint scopes
  rw [infer]
  refine recorded_has (e := .ref info mutable operand) ?_
  refine .bind (shallow?_stays hint) fun known => ?_
  refine .step (operandDerived _ scopes) (fun _ _ given t member => ?_) fun t => ?_
  · split at member
    · cases member
      exact Ty.proper_ref.mp (given.2 _ rfl)
    · cases member
  · refine .pure fun s _ given => ⟨Ty.proper_ref.mpr given.2.1, ?_⟩
    intro last notes before settled
    rw [Engine.resolve_ref]
    exact .ref (given.2.2.typed before settled)

theorem Derived.deref {operand : Expr} (operandDerived : Derived ctx operand) : Derived ctx (.deref info operand) := by
  intro hint scopes
  rw [infer]
  refine recorded_has (e := .deref info operand) ?_
  refine .step (operandDerived.unhinted (P := fun _ => True)) (fun _ _ _ => trivial) fun t => ?_
  refine .imp (.of_leaves (ctx.targetType_sound info t) (ctx.targetType_leaves _ _) rfl)
    (fun _ _ given => given.2.1) fun target s _ given found => ⟨found.1, ?_⟩
  obtain ⟨-, mutable, same⟩ := found
  intro last notes before settled
  have typed := (given.2.2.agree same).typed before settled
  rw [Engine.resolve_ref] at typed
  exact .deref typed

def EachDerived (ctx : Context) (elements : List Expr) : Prop :=
  ∀ (hints : List Ty) (scopes : List (List (String × Ty))), Stays ctx scopes (fun s => ∀ t ∈ hints, s.Knows t)
    (inferEach ctx elements hints) fun types s => ((∀ t ∈ types, s.Knows t) ∧ elements.length = types.length) ∧
      s.Shows fun engine notes => ∀ pair ∈ elements.zip types,
        HasType ctx notes (engine.env scopes) pair.1 (engine.resolve pair.2)

theorem Derived.tuple {elements : List Expr} (eachDerived : EachDerived ctx elements) :
    Derived ctx (.tuple info elements) := by
  intro hint scopes
  rw [infer]
  refine recorded_has (e := .tuple info elements) ?_
  refine .bind (shallow?_stays hint) fun known => ?_
  refine .step (eachDerived _ scopes) (fun _ _ given t member => ?_) fun types => ?_
  · split at member
    next types =>
      split at member
      · exact Ty.Proper.child _ (given.2 _ rfl) t member
      · cases member
    · cases member
  · refine .pure fun s _ given => ⟨Ty.proper_product.mpr given.2.1.1, ?_⟩
    intro last notes before settled
    rw [Engine.resolve_product]
    exact .tuple (by simpa using given.2.1.2) (forall_zip_map (given.2.2 last notes before settled))

def ItemsDerived (ctx : Context) (elements : List Expr) : Prop :=
  ∀ (element : Ty) (scopes : List (List (String × Ty))), Stays ctx scopes (fun s => s.Knows element)
    (inferItems ctx elements element) fun _ s => s.Shows fun engine notes =>
      ∀ e ∈ elements, HasType ctx notes (engine.env scopes) e (engine.resolve element)

theorem Derived.array {elements : List Expr} (itemsDerived : ItemsDerived ctx elements) :
    Derived ctx (.array info elements) := by
  intro hint scopes
  rw [infer]
  refine recorded_has (e := .array info elements) ?_
  refine .bind (shallow?_stays hint) fun known => ?_
  have rest (element : Ty) : Stays ctx scopes (fun s => s.Knows element) (do
      inferItems ctx elements element
      return .array element) fun t s => s.Knows t ∧ s.Obeys ctx scopes (.array info elements) t := by
    refine .bind (itemsDerived element scopes) fun _ => ?_
    refine .pure fun s _ given => ⟨Ty.proper_array.mpr given.1, ?_⟩
    intro last notes before settled
    rw [Engine.resolve_array]
    exact .array (given.2 last notes before settled)
  dsimp only
  split
  next element =>
    rw [pure_bind]
    exact (rest element).imp (fun _ _ given => Ty.proper_array.mp (given.2 _ rfl)) fun _ _ _ _ found => found
  · refine .bind (fresh_stays .general) fun element => ?_
    exact (rest element).imp (fun _ _ given => given.2.1) fun _ _ _ _ found => found

theorem Derived.cast {operand : Expr} {written : WrittenType} (operandDerived : Derived ctx operand) :
    Derived ctx (.cast info operand written) := by
  intro hint scopes
  rw [infer]
  refine recorded_has (e := .cast info operand written) ?_
  refine .bind (resolve_stays written) fun target => ?_
  refine .step (operandDerived.unhinted (P := fun _ => True)) (fun _ _ _ => trivial) fun source => ?_
  refine .bind (pendCast_stays ⟨operand.id, info.span, target⟩) fun _ => ?_
  refine .pure fun s _ given => ?_
  obtain ⟨⟨⟨-, closed, reads⟩, -, has⟩, pending⟩ := given
  refine ⟨closed.mono List.nil_prefix, ?_⟩
  intro last notes before settled
  have typed := has.typed before settled
  -- The cast was put off, and when it was looked at its source was the type that is noted.
  rw [last.engine.resolve_closed closed]
  exact .cast typed reads (settled.casts (before.casts _ pending) typed.noted)

theorem Derived.assign {target value : Expr} (targetDerived : Derived ctx target) (valueDerived : Derived ctx value) :
    Derived ctx (.assign info target value) := by
  intro hint scopes
  rw [infer]
  refine recorded_has (e := .assign info target value) ?_
  refine .guard (report_sound _ _ _) ?_
  refine .step (targetDerived.unhinted (P := fun _ => True)) (fun _ _ _ => trivial) fun t => ?_
  refine .step (valueDerived.hinted t) (fun _ _ given => given.2.1) fun found => ?_
  refine .step (assign_stays value t found) (fun _ _ given => ⟨given.1.2.1, given.2.1⟩) fun _ => ?_
  refine .pure fun s _ given => ⟨Ty.proper_unit, ?_⟩
  intro last notes before settled
  obtain ⟨⟨⟨⟨-, place⟩, -, has⟩, -, stored⟩, stores⟩ := given
  exact .assign (by simpa using place) (has.typed before settled) (stored.stored stores last notes before settled)

theorem Derived.optional {condition consequent : Expr} (conditionDerived : Derived ctx condition)
    (consequentDerived : Derived ctx consequent) : Derived ctx (.branch info condition consequent none) := by
  intro hint scopes
  rw [infer]
  refine recorded_has (e := .branch info condition consequent none) ?_
  refine conditionDerived.condition fun _ => ?_
  refine .step (consequentDerived hint scopes) (fun _ _ given => given.1) fun t => ?_
  refine .step (unify_stays _ .unit t) (fun _ _ given => ⟨Ty.proper_unit, given.2.1⟩) fun _ => ?_
  refine .pure fun s _ given => ⟨Ty.proper_unit, ?_⟩
  intro last notes before settled
  obtain ⟨⟨⟨-, test⟩, -, has⟩, -, same⟩ := given
  exact .optional (test.typed before settled) ((has.agree same.symm).typed before settled)

theorem Derived.branch {condition consequent alternative : Expr} (conditionDerived : Derived ctx condition)
    (consequentDerived : Derived ctx consequent) (alternativeDerived : Derived ctx alternative) :
    Derived ctx (.branch info condition consequent (some alternative)) := by
  intro hint scopes
  rw [infer]
  refine recorded_has (e := .branch info condition consequent (some alternative)) ?_
  refine conditionDerived.condition fun _ => ?_
  refine .step (consequentDerived hint scopes) (fun _ _ given => given.1) fun t => ?_
  refine .step (alternativeDerived hint scopes) (fun _ _ given => given.1.1) fun found => ?_
  refine .step (unify_stays _ t found) (fun _ _ given => ⟨given.1.2.1, given.2.1⟩) fun _ => ?_
  refine .pure fun s _ given => ⟨given.1.1.2.1, ?_⟩
  intro last notes before settled
  obtain ⟨⟨⟨⟨-, test⟩, -, first⟩, -, second⟩, -, same⟩ := given
  exact .branch (test.typed before settled) (first.typed before settled) ((second.agree same.symm).typed before settled)

def ArmsDerived (ctx : Context) (arms : List MatchArm) : Prop :=
  ∀ (t result hint : Ty) (scopes : List (List (String × Ty))),
    Stays ctx scopes (fun s => s.Knows t ∧ s.Knows result ∧ s.Knows hint) (checkArms ctx arms t result hint) fun _ s =>
      s.Shows fun engine notes => ∀ arm ∈ arms,
        ArmTyped ctx notes (engine.env scopes) (engine.resolve t) (engine.resolve result) arm

theorem Derived.select {scrutinee : Expr} {arms : List MatchArm} (scrutineeDerived : Derived ctx scrutinee)
    (armsDerived : ArmsDerived ctx arms) : Derived ctx (.select info scrutinee arms) := by
  intro hint scopes
  rw [infer]
  refine recorded_has (e := .select info scrutinee arms) ?_
  refine .bind (scrutineeDerived.unhinted (P := fun s => ∀ t ∈ hint, s.Knows t)) fun t => ?_
  split
  next empty =>
    refine .pure fun s _ given => ⟨Ty.proper_unit, ?_⟩
    intro last notes before settled
    rw [List.isEmpty_iff.mp empty]
    exact .selectNone (given.2.2.typed before settled)
  next some =>
    refine .bind (fresh_stays .general) fun result => ?_
    refine .step (armsDerived t result _ scopes) (fun _ _ given => ⟨given.1.2.1, given.2.1, ?_⟩) fun _ => ?_
    · cases hint with
      | none => exact given.2.1
      | some t => exact given.1.1 t rfl
    · refine .pure fun s _ given => ⟨given.1.2.1, ?_⟩
      intro last notes before settled
      exact .select (given.1.1.2.2.typed before settled) (fun empty => some (List.isEmpty_iff.mpr empty))
        (given.2 last notes before settled)

/-- Names that a check has gone through: they were not seen before, and each is declared and given once. -/
structure Named (declared : List Field) (seen names : List String) : Prop where
  once : names.Nodup
  new : ∀ name ∈ names, name ∉ seen
  known : ∀ name ∈ names, ∃ f ∈ declared, f.name = name

namespace Named

variable {declared : List Field} {seen names : List String}

theorem nil : Named declared seen [] := ⟨List.nodup_nil, List.forall_mem_nil _, List.forall_mem_nil _⟩

theorem cons {name : String} (new : name ∉ seen) (known : ∃ f ∈ declared, f.name = name)
    (others : Named declared (name :: seen) names) : Named declared seen (name :: names) where
  once := List.nodup_cons.mpr ⟨fun member => others.new name member List.mem_cons_self, others.once⟩
  new := List.forall_mem_cons.mpr ⟨new, fun other member inside =>
    others.new other member (List.mem_cons_of_mem _ inside)⟩
  known := List.forall_mem_cons.mpr ⟨known, others.known⟩

theorem settled (named : Named declared seen names) (e : Engine) {name : String} (member : name ∈ names) :
    ∃ f ∈ e.settled declared, f.name = name := by
  obtain ⟨f, inside, same⟩ := named.known name member
  exact ⟨_, List.mem_map_of_mem inside, same⟩

theorem inits {fields : List FieldInit} (named : Named declared seen (fields.map FieldInit.name))
    (all : ∀ f ∈ declared, f.name ∈ fields.map FieldInit.name) (e : Engine) :
    FieldInit.Names fields (e.settled declared) where
  once := named.once
  known _ member := named.settled e (List.mem_map_of_mem member)
  all := List.forall_mem_map.mpr all

theorem patterns {fields : List FieldPattern} {rest : Bool} (named : Named declared seen (fields.map FieldPattern.name))
    (all : rest = false → ∀ f ∈ declared, f.name ∈ fields.map FieldPattern.name) (e : Engine) :
    FieldPattern.Names fields (e.settled declared) rest where
  once := named.once
  known _ member := named.settled e (List.mem_map_of_mem member)
  all closed := List.forall_mem_map.mpr (all closed)

end Named

/-- Initializers that will be stored as the declared fields of their names. -/
def InitsDerived (ctx : Context) (fields : List FieldInit) : Prop :=
  ∀ (owner : String) (declared : List Field) (seen : List String) (scopes : List (List (String × Ty))),
    Stays ctx scopes (fun s => (declared.map Field.name).Nodup ∧ ∀ f ∈ declared, s.Knows f.type)
      (checkInits ctx owner declared seen fields) fun _ s => Named declared seen (fields.map FieldInit.name) ∧
        s.Shows fun engine notes => ∀ init ∈ fields, ∀ f ∈ engine.settled declared, f.name = init.name →
          Stored ctx notes (engine.env scopes) init.value f.type

theorem requireFields_stays (span : Span) (owner : String) (declared : List Field) (names : List String) :
    Stays ctx scopes P (ctx.requireFields span owner declared names) fun _ _ => ∀ f ∈ declared, f.name ∈ names :=
  .of_leaves (none_missing Field.name fun _ => report_sound _ _ _) (ctx.requireFields_leaves _ _ _ _) rfl

theorem Derived.struct {name : String} {fields : List FieldInit} (collected : ctx.Collected)
    (initsDerived : InitsDerived ctx fields) : Derived ctx (.struct info name fields) := by
  intro hint scopes
  rw [infer]
  refine recorded_has (e := .struct info name fields) ?_
  refine .bind (.of_leaves (ctx.literalStruct?_sound info name _ hint) (ctx.literalStruct?_leaves _ _ _ _) rfl)
    fun found => ?_
  cases found with
  | some found =>
    obtain ⟨struct, args⟩ := found
    have applied {s : State}
        (known : ∃ found, some (struct, args) = some found ∧ Context.KnownStruct ctx name s found) :
        Context.KnownStruct ctx name s (struct, args) := by
      obtain ⟨_, same, known⟩ := known
      cases same
      exact known
    refine .bind (.of_leaves (note_sound { structs := [(info.id, struct)] } rfl fun _ => rfl) (struct_leaves _ _) rfl)
      fun _ => ?_
    refine .step (initsDerived struct _ [] scopes) (fun _ proper given =>
      ⟨collected.fields_nodup struct args, proper.table.decls.fields (applied given.1.2).args struct⟩) fun _ => ?_
    refine .bind (requireFields_stays _ _ _ _) fun _ => ?_
    refine .pure fun s proper given => ?_
    obtain ⟨⟨⟨⟨-, known⟩, -⟩, fit⟩, all⟩ := given
    have known := applied known
    refine ⟨Ty.proper_struct.mpr ⟨known.named, known.args⟩, ?_⟩
    intro last notes before settled
    -- The fields at the final type arguments are the fields that were checked, with their types settled.
    have resolved : ctx.table.decls.fields struct (args.map last.engine.resolve) =
        last.engine.settled (ctx.table.decls.fields struct args) := proper.table.decls.fields_resolve struct args
    rw [Engine.resolve_struct]
    refine .struct known.chosen known.declared ?_ ?_ <;> rw [resolved]
    · exact fit.1.inits all last.engine
    · exact fit.2 last notes before settled
  | none =>
    refine .step (.of_leaves (inferFields_sound collected.received fields) (inferFields_leaves fields) rfl)
      (fun _ _ _ => trivial) fun _ => ?_
    exact .pure fun _ _ given => absurd given.1.2 (by simp)

theorem Derived.variant {enum variant : String} {args : List Expr} {fields : List FieldInit}
    (collected : ctx.Collected) (argsDerived : ArgumentsDerived ctx args) (initsDerived : InitsDerived ctx fields) :
    Derived ctx (.variant info enum variant args fields) := by
  intro hint scopes
  rw [infer]
  refine recorded_has (e := .variant info enum variant args fields) ?_
  have received := collected.received
  refine .bind (.of_leaves (ctx.variant?_declared _ enum variant hint) (ctx.variant?_leaves _ _ _ _) rfl)
    fun found => ?_
  cases found with
  | some found =>
    have own (known : ∃ r, some found = some r ∧ r.Proper ∧ r.Declared ctx.table enum variant) :
        found.Proper ∧ found.Declared ctx.table enum variant := by simpa using known
    refine .step (.of_leaves (Context.enterVariant_sound info found hint) (Context.enterVariant_leaves _ _ _) rfl)
      (fun s _ given => ⟨(own given.2).1, given.1⟩) fun types => ?_
    have slots {s : State} (known : ∃ r, some found = some r ∧ r.Proper ∧ r.Declared ctx.table enum variant)
        (typed : ∀ a ∈ types, s.Knows a) : ∀ t ∈ Decls.slots found.enum types found.variant, s.Knows t :=
      Decls.Proper.slots (own known).1.2 typed
    dsimp only
    split
    next named =>
      refine .guard (report_sound _ _ _) ?_
      refine .step (initsDerived _ _ [] scopes) (fun _ _ given =>
        ⟨collected.slots_nodup (own given.1.1.2).2 named types, slotFields_known (slots given.1.1.2 given.1.2.1)⟩)
        fun _ => ?_
      refine .bind (requireFields_stays _ _ _ _) fun _ => ?_
      refine .pure fun s _ given => ?_
      obtain ⟨⟨⟨⟨⟨-, known⟩, typed, noted⟩, empty⟩, fit⟩, all⟩ := given
      obtain rfl : args = [] := by simpa using empty
      obtain ⟨known, declared⟩ := own known
      refine ⟨Ty.proper_enum.mpr ⟨known.1, typed⟩, ?_⟩
      intro last notes before settled
      have resolved : Context.slotFields found.variant
          (Decls.slots found.enum (types.map last.engine.resolve) found.variant) =
            last.engine.settled (Context.slotFields found.variant (Decls.slots found.enum types found.variant)) := by
        rw [Decls.slots_resolve known.2, Engine.slotFields_resolve]
      rw [Engine.resolve_enum]
      refine .named declared (settled.variants (before.notes.variants noted)) named ?_ ?_ <;> rw [resolved]
      · exact fit.1.inits all last.engine
      · exact fit.2 last notes before settled
    next unnamed =>
      refine .guard (report_sound _ _ _) ?_
      refine .step (.of_leaves (inferFields_sound received fields) (inferFields_leaves fields) rfl)
        (fun _ _ _ => trivial) fun _ => ?_
      refine argsDerived.all received (fun _ given => slots given.1.1.1.2 given.1.1.2.1) ?_
      refine .pure fun s _ given => ?_
      obtain ⟨⟨⟨⟨⟨-, known⟩, typed, noted⟩, empty⟩, -⟩, count, passed⟩ := given
      obtain rfl : fields = [] := by simpa using empty
      obtain ⟨known, declared⟩ := own known
      refine ⟨Ty.proper_enum.mpr ⟨known.1, typed⟩, ?_⟩
      intro last notes before settled
      rw [Engine.resolve_enum]
      refine .positional declared (settled.variants (before.notes.variants noted)) (by simpa using unnamed) ?_ ?_ <;>
        rw [Decls.slots_resolve known.2]
      · rw [List.length_map, count]
      · exact passed last notes before settled
  | none =>
    refine .step (.of_leaves (checkArgs_sound received args none) (checkArgs_leaves args none) rfl)
      (fun _ _ _ _ member => by cases member) fun _ => ?_
    refine .step (.of_leaves (inferFields_sound received fields) (inferFields_leaves fields) rfl)
      (fun _ _ _ => trivial) fun _ => ?_
    exact .pure fun _ _ given => absurd given.1.1.2 (by simp)

/-- Statements that will be typed and bind names. -/
def StmtsDerived (ctx : Context) (stmts : List Stmt) : Prop :=
  ∀ scopes : List (List (String × Ty)), Declares ctx scopes (fun _ => True) (checkStmts ctx stmts) fun _ declared s =>
    s.Shows fun engine notes => StmtsTyped ctx notes (engine.env scopes) stmts (engine.names declared)

/-- A block that a rule will give the type that is inferred for it. -/
def BlockDerived (ctx : Context) (b : Block) : Prop :=
  ∀ (hint : Option Ty) (scopes : List (List (String × Ty))), Stays ctx scopes (fun s => ∀ t ∈ hint, s.Knows t)
    (inferBlock ctx b hint) fun t s => s.Knows t ∧ s.Obeys ctx scopes (.block b) t

namespace BlockDerived

variable {stmts : List Stmt}

theorem noted {b : Block} (blockDerived : BlockDerived ctx b) (hint : Option Ty) :
    Stays ctx scopes (fun s => ∀ t ∈ hint, s.Knows t) (recorded b.id (inferBlock ctx b hint))
      fun t s => s.Knows t ∧ s.Has ctx scopes (.block b) t :=
  recorded_has (e := .block b) (blockDerived hint scopes)

theorem unhinted {b : Block} (blockDerived : BlockDerived ctx b) :
    Stays ctx scopes P (recorded b.id (inferBlock ctx b none)) fun t s => s.Knows t ∧ s.Has ctx scopes (.block b) t :=
  (blockDerived.noted none).imp (fun _ _ _ _ member => by cases member) fun _ _ _ _ found => found

theorem valued {value : Expr} (stmtsDerived : StmtsDerived ctx stmts) (valueDerived : Derived ctx value) :
    BlockDerived ctx (.mk info stmts (some value)) := by
  intro hint scopes
  rw [inferBlock]
  refine Declares.inScope (Q := fun t _ s => s.Knows t ∧ s.Obeys ctx scopes (.block (.mk info stmts (some value))) t)
    ?_ fun _ _ _ given => given
  refine .chain (stmtsDerived _) (fun _ _ _ => trivial) fun _ declared => ?_
  refine .nothing (valueDerived hint _) (fun _ _ given => given.1) fun t s _ given found => ⟨found.1, ?_⟩
  intro last notes before settled
  have typed := found.2.typed before settled
  rw [Engine.env_declareAll] at typed
  exact .block (given.2 last notes before settled) typed

theorem statements (stmtsDerived : StmtsDerived ctx stmts) : BlockDerived ctx (.mk info stmts none) := by
  intro hint scopes
  rw [inferBlock]
  refine Declares.inScope (Q := fun t _ s => s.Knows t ∧ s.Obeys ctx scopes (.block (.mk info stmts none)) t)
    ?_ fun _ _ _ given => given
  refine .chain (stmtsDerived _) (fun _ _ _ => trivial) fun _ declared => ?_
  split
  next returns =>
    refine .bind (fresh_stays .general) fun t => ?_
    refine .step (.of_leaves (diverge_sound t) (.modify (fun _ => rfl) fun _ => rfl) rfl)
      (fun _ _ given => given.2.1) fun _ => ?_
    refine .pure fun s _ given => ⟨given.1.2.1, fun last notes before settled => ?_⟩
    exact .leaving (given.1.1.2 last notes before settled) returns
  · refine .pure fun s _ given => ⟨Ty.proper_unit, fun last notes before settled => ?_⟩
    exact .running (given.2 last notes before settled)

end BlockDerived

theorem Derived.block {b : Block} (blockDerived : BlockDerived ctx b) : Derived ctx (.block b) := by
  intro hint scopes
  rw [infer]
  exact blockDerived.noted hint

end Expressions

/-! ### One statement -/

/-- A statement that will be typed and bind names. -/
def StmtDerived (ctx : Context) (stmt : Stmt) : Prop :=
  ∀ scopes : List (List (String × Ty)), Declares ctx scopes (fun _ => True) (checkStmt ctx stmt) fun _ declared s =>
    s.Shows fun engine notes => StmtTyped ctx notes (engine.env scopes) stmt (engine.names declared)

/-- A pattern that will match the type that it is checked against, and bind names. -/
def PatternDerived (ctx : Context) (p : Pattern) : Prop :=
  ∀ (t : Ty) (scopes : List (List (String × Ty))), Declares ctx scopes (fun s => s.Knows t) (checkPattern ctx p t)
    fun _ declared s => s.Binds ctx scopes p t declared

/-- A condition that will be of truth values, unless it is left out. -/
def ConditionDerived (ctx : Context) (condition : Option Expr) : Prop :=
  ∀ scopes : List (List (String × Ty)), Stays ctx scopes (fun _ => True) (checkCondition ctx condition) fun _ s =>
    s.Shows fun engine notes => ∀ c ∈ condition, HasType ctx notes (engine.env scopes) c .bool

/-- An initial value that will be stored as the declared type, unless it is left out. -/
def InitDerived (ctx : Context) (init : Option Expr) : Prop :=
  ∀ (t : Ty) (scopes : List (List (String × Ty))), Stays ctx scopes (fun s => s.Knows t) (inferInit ctx init (some t))
    fun _ s => s.Shows fun engine notes => ∀ value ∈ init, Stored ctx notes (engine.env scopes) value (engine.resolve t)

section Statements

variable {span : Span}

theorem InitDerived.given {value : Expr} (valueDerived : Derived ctx value) : InitDerived ctx (some value) := by
  intro t scopes
  rw [inferInit]
  refine .bind (valueDerived.hinted t) fun found => ?_
  refine .step (assign_stays value t found) (fun _ _ given => ⟨given.1, given.2.1⟩) fun _ => ?_
  refine .pure fun s _ given => ?_
  intro last notes before settled other same
  cases same
  exact given.1.2.2.stored given.2 last notes before settled

theorem InitDerived.left : InitDerived ctx none := by
  intro t scopes
  rw [inferInit]
  exact .pure fun _ _ _ _ _ _ _ _ none => by cases none

theorem StmtDerived.annotated {pattern : Pattern} {written : WrittenType} {init : Option Expr}
    (initDerived : InitDerived ctx init) (patternDerived : PatternDerived ctx pattern) :
    StmtDerived ctx (.bind span pattern (some written) init) := by
  intro scopes
  rw [checkStmt, map_eq_pure_bind, bind_assoc]
  refine .bind (resolve_stays written) fun t => ?_
  rw [pure_bind]
  refine .step (initDerived t scopes) (fun _ _ given => given.2.1.mono List.nil_prefix) fun found => ?_
  refine (patternDerived t scopes).imp (fun _ _ given => given.1.2.1.mono List.nil_prefix)
    fun _ declared s _ given binds => ?_
  obtain ⟨⟨-, closed, reads⟩, stored⟩ := given
  intro last notes before settled
  have same := last.engine.resolve_closed closed
  refine .annotated reads (same ▸ stored last notes before settled) (same ▸ binds last notes before settled)

theorem StmtDerived.bind {pattern : Pattern} {value : Expr} (valueDerived : Derived ctx value)
    (patternDerived : PatternDerived ctx pattern) : StmtDerived ctx (.bind span pattern none (some value)) := by
  intro scopes
  rw [checkStmt, pure_bind]
  dsimp only
  rw [inferInit, bind_assoc]
  refine .step (valueDerived.unhinted (P := fun _ => True)) (fun _ _ _ => trivial) fun t => ?_
  refine (patternDerived t scopes).imp (fun _ _ given => given.2.1) fun _ declared s _ given binds => ?_
  intro last notes before settled
  exact .bind (given.2.2.typed before settled) (binds last notes before settled)

theorem StmtDerived.declare {pattern : Pattern} (patternDerived : PatternDerived ctx pattern) :
    StmtDerived ctx (.bind span pattern none none) := by
  intro scopes
  rw [checkStmt, pure_bind]
  dsimp only
  rw [inferInit, pure_bind]
  refine .bind (fresh_stays .general) fun t => ?_
  refine (patternDerived t scopes).imp (fun _ _ given => given.2.1) fun _ declared s _ _ binds => ?_
  exact fun last notes before settled => .declare (binds last notes before settled)

theorem StmtDerived.expr {value : Expr} (valueDerived : Derived ctx value) : StmtDerived ctx (.expr span value) := by
  intro scopes
  rw [checkStmt]
  refine .step (valueDerived.unhinted (P := fun _ => True)) (fun _ _ _ => trivial) fun t => ?_
  exact .pure fun s _ given last notes before settled => .expr (.intro (given.2.2.typed before settled))

theorem StmtDerived.leave : StmtDerived ctx (.ret span none) := by
  intro scopes
  rw [checkStmt]
  refine .step (unify_stays span ctx.signature.result .unit)
    (fun _ proper _ => ⟨proper.signature.result.mono List.nil_prefix, Ty.proper_unit⟩) fun _ => ?_
  refine .pure fun s proper given => ?_
  intro last notes before settled
  have same := given.2.2 last before settled.proper
  rw [last.engine.resolve_closed proper.signature.result] at same
  exact .leave same

theorem StmtDerived.ret {value : Expr} (valueDerived : Derived ctx value) :
    StmtDerived ctx (.ret span (some value)) := by
  intro scopes
  rw [checkStmt]
  have result {s : State} (proper : ctx.Proper) : s.Knows ctx.signature.result :=
    proper.signature.result.mono List.nil_prefix
  refine .step (valueDerived.hinted ctx.signature.result) (fun _ proper _ => result proper) fun found => ?_
  refine .nothing (assign_stays value ctx.signature.result found) (fun _ proper given => ⟨result proper, given.2.1⟩)
    fun _ s proper given stores => ?_
  intro last notes before settled
  have stored := given.2.2.stored stores last notes before settled
  exact .ret (last.engine.resolve_closed proper.signature.result ▸ stored)

theorem StmtDerived.loop {condition : Expr} {body : Block} (conditionDerived : Derived ctx condition)
    (bodyDerived : BlockDerived ctx body) : StmtDerived ctx (.loop span condition body) := by
  intro scopes
  rw [checkStmt]
  refine .nothing (Q := fun _ s => s.Has ctx scopes condition .bool ∧ ∃ t, s.Has ctx scopes (.block body) t)
    (conditionDerived.condition fun _ => .bind bodyDerived.unhinted fun t =>
      .pure fun _ _ given => ⟨given.1.2, t, given.2.2⟩) (fun _ _ given => given) fun _ s _ _ found => ?_
  intro last notes before settled
  obtain ⟨test, t, inner⟩ := found
  exact .loop (test.typed before settled) (.intro (inner.typed before settled))

/-- Statements that will be typed in a loop before its first round. -/
def StartDerived (ctx : Context) (init : Option Stmt) : Prop :=
  ∀ scopes : List (List (String × Ty)), Declares ctx scopes (fun _ => True) (checkStmtOption ctx init)
    fun _ declared s => s.Shows fun engine notes =>
      StmtsTyped ctx notes (engine.env scopes) init.toList (engine.names declared)

def UpdateDerived (ctx : Context) (update : Option Expr) : Prop :=
  ∀ scopes : List (List (String × Ty)), Stays ctx scopes (fun _ => True) (inferOption ctx update) fun _ s =>
    s.Shows fun engine notes => ∀ e ∈ update, Typable ctx notes (engine.env scopes) e

theorem StmtDerived.counted {init : Option Stmt} {condition update : Option Expr} {body : Block}
    (startDerived : StartDerived ctx init) (conditionDerived : ConditionDerived ctx condition)
    (bodyDerived : BlockDerived ctx body) (updateDerived : UpdateDerived ctx update) :
    StmtDerived ctx (.counted span init condition update body) := by
  intro scopes
  rw [checkStmt]
  refine .nothing (?_ : Stays ctx scopes (fun _ => True) _ fun _ s => s.Shows fun engine notes =>
    StmtTyped ctx notes (engine.env scopes) (.counted span init condition update body) [])
    (fun _ _ given => given) fun _ _ _ _ found => found
  refine Declares.inScope (Q := fun _ _ s => s.Shows fun engine notes =>
    StmtTyped ctx notes (engine.env scopes) (.counted span init condition update body) []) ?_ fun _ _ _ given => given
  refine .chain (startDerived _) (fun _ _ given => given) fun _ declared => ?_
  refine .step (conditionDerived _) (fun _ _ _ => trivial) fun _ => ?_
  refine .bind bodyDerived.unhinted fun t => ?_
  refine .nothing (updateDerived _) (fun _ _ _ => trivial) fun _ s _ given updated => ?_
  obtain ⟨⟨⟨-, start⟩, test⟩, -, inner⟩ := given
  intro last notes before settled
  -- What the start binds is in scope in the condition, the body and the update.
  have grown := last.engine.env_declareAll declared ([] :: scopes)
  exact .counted (start last notes before settled) (grown ▸ test last notes before settled)
    (.intro (grown ▸ inner.typed before settled)) (grown ▸ updated last notes before settled)

end Statements

/-! ### One arm -/

theorem ArmsDerived.cons {span : Span} {pattern : Pattern} {guard : Option Expr} {body : Expr} {rest : List MatchArm}
    (patternDerived : PatternDerived ctx pattern) (guardDerived : ConditionDerived ctx guard)
    (bodyDerived : Derived ctx body) (armsDerived : ArmsDerived ctx rest) :
    ArmsDerived ctx (.mk span pattern guard body :: rest) := by
  intro t result hint scopes
  rw [checkArms_cons]
  refine Declares.enclosed (Q := fun _ _ s => s.Shows fun engine notes => ArmTyped ctx notes (engine.env scopes)
    (engine.resolve t) (engine.resolve result) (.mk span pattern guard body)) ?_ fun _ _ => ?_
  · refine .chain (patternDerived t _) (fun _ _ given => given.1) fun _ declared => ?_
    refine .step (guardDerived _) (fun _ _ _ => trivial) fun _ => ?_
    refine .step (bodyDerived.hinted hint) (fun _ _ given => given.1.1.2.2) fun found => ?_
    refine .nothing (unify_stays body.span result found) (fun _ _ given => ⟨given.1.1.1.2.1, given.2.1⟩)
      fun _ s _ given unified => ?_
    obtain ⟨⟨⟨-, matched⟩, guarded⟩, -, typed⟩ := given
    intro last notes before settled
    have grown := last.engine.env_declareAll declared ([] :: scopes)
    exact .intro (matched last notes before settled) (grown ▸ guarded last notes before settled)
      (grown ▸ (typed.agree unified.2.symm).typed before settled)
  · refine (armsDerived t result hint scopes).imp (fun _ _ given => given.1) fun _ s _ given others => ?_
    exact fun last notes before settled => List.forall_mem_cons.mpr
      ⟨given.2.2 last notes before settled, others last notes before settled⟩

end TreeCheck.Typing
