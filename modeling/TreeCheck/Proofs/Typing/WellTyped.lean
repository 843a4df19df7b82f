import TreeCheck.Proofs.Syntax.Documents
import TreeCheck.Proofs.Typing.Derivations
import TreeCheck.Proofs.Typing.TraceWalk

/-!
Accepted functions are well typed: what is noted about the nodes of one is a derivation in the type system.
-/

namespace TreeCheck.Typing

variable {ctx : Context} {P : State → Prop} [Lasting P] {scopes : List (List (String × Ty))}

/-! ### One pattern -/

/-- A rule will allow a pattern of a type, wherever the type is noted about it. -/
def State.Allows (s : State) (ctx : Context) (scopes : List (List (String × Ty))) (p : Pattern) (t : Ty)
    (declared : List (String × Ty)) : Prop :=
  s.Shows fun engine notes => notes.types.get? p.id = some (engine.resolve t) →
    MatchRule ctx notes (engine.env scopes) p (engine.resolve t) (engine.names declared)

theorem recorded_binds {p : Pattern} {t : Ty} {check : Check Unit}
    (inner : Declares ctx scopes (fun s => s.Knows t) check fun _ declared s => s.Allows ctx scopes p t declared) :
    Declares ctx scopes (fun s => s.Knows t) (record p.id t >>= fun _ => check)
      fun _ declared s => s.Binds ctx scopes p t declared := by
  refine .bind (record_stays p.id t) fun _ => ?_
  refine inner.imp (fun _ _ given => given.1) fun _ declared s _ given allows => ?_
  intro last notes before settled
  have noted := settled.types (before.notes.types given.2)
  exact .intro noted (allows last notes before settled noted)

section Patterns

variable {info : NodeInfo}

theorem PatternDerived.wildcard : PatternDerived ctx (.wildcard info) := by
  intro t scopes
  rw [checkPattern]
  refine .nothing (record_stays info.id t) (fun _ _ given => given) fun _ s _ _ noted => ?_
  exact fun last notes before settled => .intro (settled.types (before.notes.types noted)) .wildcard

theorem PatternDerived.binding {b : Binding} : PatternDerived ctx (.binding b) := by
  intro t scopes
  rw [checkPattern]
  refine recorded_binds (p := .binding b) ?_
  refine (declare_declares b.name t).imp (fun _ _ given => given) fun _ declared s _ _ same => ?_
  subst same
  exact fun last notes _ _ _ => .binding

theorem PatternDerived.literal {value : Literal} : PatternDerived ctx (.literal info value) := by
  intro t scopes
  cases value with
  | int n =>
    rw [checkPattern]
    refine recorded_binds (p := .literal info (.int n)) ?_
    refine .bind (fresh_stays .integer) fun number => ?_
    refine .step (unify_stays info.span t number) (fun _ _ given => ⟨given.1, given.2.1⟩) fun _ => ?_
    refine .nothing (pendLiteral_stays info.id info.span n) (fun _ _ given => given) fun _ s _ given _ => ?_
    obtain ⟨⟨-, known, literal⟩, -, same⟩ := given
    exact fun last notes before settled noted =>
      .int (State.integer_of_agree known literal same.symm before settled noted)
  | float value =>
    rw [checkPattern]
    refine recorded_binds (p := .literal info (.float value)) ?_
    refine .bind (fresh_stays .float) fun number => ?_
    refine .step (unify_stays info.span t number) (fun _ _ given => ⟨given.1, given.2.1⟩) fun _ => ?_
    refine .pure fun s _ given => ?_
    obtain ⟨⟨-, known, literal⟩, -, same⟩ := given
    exact fun last notes before settled noted =>
      .float (State.float_of_agree known literal same.symm before settled noted)
  | string text =>
    rw [checkPattern]
    refine recorded_binds (p := .literal info (.string text)) ?_
    refine .step (unify_stays info.span t .string) (fun _ _ given => ⟨given, Ty.proper_string⟩) fun _ => ?_
    refine .pure fun s _ given => ?_
    intro last notes before settled _
    rw [given.2.2 last before settled.proper]
    exact .string
  | bool value =>
    rw [checkPattern]
    refine recorded_binds (p := .literal info (.bool value)) ?_
    refine .step (unify_stays info.span t .bool) (fun _ _ given => ⟨given, Ty.proper_bool⟩) fun _ => ?_
    refine .pure fun s _ given => ?_
    intro last notes before settled _
    rw [given.2.2 last before settled.proper]
    exact .bool

theorem PatternDerived.range {low high : Int} {inclusive : Bool} :
    PatternDerived ctx (.range info low high inclusive) := by
  intro t scopes
  rw [checkPattern]
  refine recorded_binds (p := .range info low high inclusive) ?_
  refine .bind (fresh_stays .integer) fun number => ?_
  refine .step (unify_stays info.span t number) (fun _ _ given => ⟨given.1, given.2.1⟩) fun _ => ?_
  refine .bind (pendLiteral_stays info.id info.span low) fun _ => ?_
  refine .nothing (pendLiteral_stays info.id info.span high) (fun _ _ given => given) fun _ s _ given _ => ?_
  obtain ⟨⟨⟨-, known, literal⟩, -, same⟩, -⟩ := given
  exact fun last notes before settled noted =>
    .range (State.integer_of_agree known literal same.symm before settled noted)

def PatternsDerived (ctx : Context) (ps : List Pattern) : Prop :=
  ∀ (types : List Ty) (scopes : List (List (String × Ty))),
    Declares ctx scopes (fun s => ps.length = types.length ∧ ∀ t ∈ types, s.Knows t) (checkPatterns ctx ps types)
      fun _ declared s => s.Shows fun engine notes =>
        MatchesAll ctx notes (engine.env scopes) ps (types.map engine.resolve) (engine.names declared)

theorem PatternDerived.tuple {elements : List Pattern} (partsDerived : PatternsDerived ctx elements) :
    PatternDerived ctx (.tuple info elements) := by
  intro t scopes
  rw [checkPattern]
  refine recorded_binds (p := .tuple info elements) ?_
  refine .bind (.of_leaves (ctx.elementTypes_agrees info elements t) (Context.elementTypes_leaves _ _ _) rfl)
    fun types => ?_
  refine (partsDerived types scopes).imp (fun _ _ given => ⟨given.2.1.1.symm, given.2.1.2⟩)
    fun _ declared s _ given parts => ?_
  intro last notes before settled _
  rw [given.2.2 last before settled.proper, Engine.resolve_product]
  exact .tuple (parts last notes before settled)

def EachPatternDerived (ctx : Context) (ps : List Pattern) : Prop :=
  ∀ (t : Ty) (scopes : List (List (String × Ty))),
    Declares ctx scopes (fun s => ps = [] ∨ s.Knows t) (checkEach ctx ps t) fun _ declared s =>
      s.Shows fun engine notes => MatchesAll ctx notes (engine.env scopes) ps
        (List.replicate ps.length (engine.resolve t)) (engine.names declared)

theorem PatternDerived.list {front : List Pattern} {isOpen : Bool} {rest : Option Binding}
    (frontDerived : EachPatternDerived ctx front) : PatternDerived ctx (.list info front isOpen rest) := by
  intro t scopes
  rw [checkPattern]
  refine recorded_binds (p := .list info front isOpen rest) ?_
  refine .bind (fresh_stays .general) fun element => ?_
  refine .step (unify_stays info.span t (.array element)) (fun _ _ given => ⟨given.1, Ty.proper_array.mpr given.2.1⟩)
    fun fits => ?_
  have known {s : State} (given : s.Knows element ∧ fits = true) : s.Knows (if fits then element else .invalid) := by
    rw [if_pos given.2]
    exact given.1
  refine .chain (frontDerived _ scopes) (fun _ _ given => .inr (known ⟨given.1.2.1, given.2.1⟩)) fun _ declared => ?_
  cases rest with
  | none =>
    refine .pure fun s _ given => ?_
    obtain ⟨⟨-, worked, same⟩, parts⟩ := given
    rw [if_pos worked] at parts
    intro last notes before settled _
    rw [same last before settled.proper, Engine.resolve_array]
    exact .list (parts last notes before settled)
  | some b =>
    have array {s : State} (given : s.Knows element ∧ fits = true) :
        s.Knows (.array (if fits then element else .invalid)) := Ty.proper_array.mpr (known given)
    refine .step (record_stays b.info.id _) (fun _ _ given => array ⟨given.1.1.2.1, given.1.2.1⟩) fun _ => ?_
    refine (declare_declares b.name _).imp (fun _ _ given => array ⟨given.1.1.1.2.1, given.1.1.2.1⟩)
      fun _ more s _ given bound => ?_
    obtain ⟨⟨⟨-, worked, same⟩, parts⟩, noted⟩ := given
    subst bound
    rw [if_pos worked] at parts noted ⊢
    intro last notes before settled _
    have rest := settled.types (before.notes.types noted)
    rw [Engine.resolve_array] at rest
    have bound : last.engine.names [(b.name, .array element)] = [(b.name, .array (last.engine.resolve element))] := by
      simp [Engine.names]
    rw [same last before settled.proper, Engine.resolve_array, Engine.names_append, bound]
    exact .listRest (parts last notes before settled) rest

/-- Named patterns that will match the declared fields of their names. -/
def FieldsDerived (ctx : Context) (fields : List FieldPattern) : Prop :=
  ∀ (owner : String) (declared : List Field) (seen : List String) (scopes : List (List (String × Ty))),
    Declares ctx scopes (fun s => ∀ f ∈ declared, s.Knows f.type)
      (checkFieldPatterns ctx (some (owner, declared)) seen fields) fun _ bound s =>
        Named declared seen (fields.map FieldPattern.name) ∧ s.Shows fun engine notes =>
          FieldsMatch ctx notes (engine.settled declared) (engine.env scopes) fields (engine.names bound)

theorem FieldsDerived.all {fields : List FieldPattern} (fieldsDerived : FieldsDerived ctx fields) {owner : String}
    {declared : List Field} {rest : Bool} {span : Span} {Q : Unit → List (String × Ty) → State → Prop}
    (known : ∀ s, ctx.Proper → P s → ∀ f ∈ declared, s.Knows f.type)
    (give : ∀ bound s, ctx.Proper → P s →
      (∀ engine : Engine, FieldPattern.Names fields (engine.settled declared) rest) →
      (s.Shows fun engine notes =>
        FieldsMatch ctx notes (engine.settled declared) (engine.env scopes) fields (engine.names bound)) →
      Q () bound s) :
    Declares ctx scopes P (do
      checkFieldPatterns ctx (some (owner, declared)) [] fields
      if !rest then ctx.requireFieldPatterns span owner declared (fields.map FieldPattern.name)) Q := by
  refine .chain (fieldsDerived owner declared [] scopes) known fun _ bound => ?_
  split
  · refine .nothing
      (.of_leaves (none_missing Field.name fun _ => add_sound _) (ctx.requireFieldPatterns_leaves _ _ _ _) rfl)
      (fun _ _ given => given) fun _ s proper given all => ?_
    exact give bound s proper given.1 (given.2.1.patterns fun _ => all) given.2.2
  next closed =>
    refine .pure fun s proper given => give bound s proper given.1 (given.2.1.patterns fun none => ?_) given.2.2
    exact absurd none (by simpa using closed)

theorem PatternDerived.record {name : String} {fields : List FieldPattern} {rest : Bool}
    (received : ctx.table.Received) (fieldsDerived : FieldsDerived ctx fields) :
    PatternDerived ctx (.record info name fields rest) := by
  intro t scopes
  rw [checkPattern]
  refine recorded_binds (p := .record info name fields rest) ?_
  cases declared : ctx.table.decls.struct? name with
  | none =>
    -- Which is reported, so nothing that follows is reached.
    refine Sound.seq (report_sound _ _ _) fun _ => ?_
    exact (checkFieldPatterns_sound received none [] fields).unreachable fun _ _ given => given
  | some d =>
    have named (proper : ctx.Proper) : name ≠ "" := (proper.table.decls.struct declared).2.1
    refine .bind (.of_leaves (freshAll_sound d.params) (freshAll_leaves _) rfl) fun args => ?_
    refine .step (unify_stays info.span t (.struct name args))
      (fun _ proper given => ⟨given.1, Ty.proper_struct.mpr ⟨named proper, given.2.2⟩⟩) fun _ => ?_
    refine .bind (.of_leaves (note_sound { structs := [(info.id, name)] } rfl fun _ => rfl) (struct_leaves _ _) rfl)
      fun _ => ?_
    refine fieldsDerived.all (fun _ proper given => proper.table.decls.fields given.1.1.2.2 name)
      fun bound s proper given names parts => ?_
    intro last notes before settled _
    have resolved : ctx.table.decls.fields name (args.map last.engine.resolve) =
        last.engine.settled (ctx.table.decls.fields name args) := proper.table.decls.fields_resolve name args
    rw [given.1.2.2 last before settled.proper, Engine.resolve_struct]
    refine .record ?_ ?_ <;> rw [resolved]
    · exact names last.engine
    · exact parts last notes before settled

/-- Where there is no pattern, nothing is declared. -/
theorem checkEach_empty (received : ctx.table.Received) (ps : List Pattern) (t : Ty) :
    Stays ctx scopes (fun _ => ps = []) (checkEach ctx ps t) fun _ _ => True := by
  cases ps with
  | nil =>
    rw [checkEach]
    exact .pure fun _ _ _ => trivial
  | cons p rest => exact .unreachable (checkEach_sound received (p :: rest) t) fun _ _ none => by cases none

theorem checkFieldPatterns_empty (received : ctx.table.Received) (owner : Option (String × List Field))
    (seen : List String) (fields : List FieldPattern) :
    Stays ctx scopes (fun _ => fields = []) (checkFieldPatterns ctx owner seen fields) fun _ _ => True := by
  cases fields with
  | nil =>
    rw [checkFieldPatterns]
    exact .pure fun _ _ _ => trivial
  | cons field rest =>
    exact .unreachable (checkFieldPatterns_sound received owner seen (field :: rest)) fun _ _ none => by cases none

theorem PatternDerived.variant {enum variant : String} {args : List Pattern} {fields : List FieldPattern} {rest : Bool}
    (received : ctx.table.Received) (partsDerived : PatternsDerived ctx args)
    (fieldsDerived : FieldsDerived ctx fields) :
    PatternDerived ctx (.variant info enum variant args fields rest) := by
  intro t scopes
  rw [checkPattern]
  refine recorded_binds (p := .variant info enum variant args fields rest) ?_
  refine .step (.of_leaves (ctx.variant?_declared _ enum variant (some t)) (ctx.variant?_leaves _ _ _ _) rfl)
    (fun _ _ given _ member => Option.some.inj member ▸ given) fun found => ?_
  cases found with
  | none =>
    refine .step (Q := fun _ _ => False) (.unreachable (checkEach_sound received args .invalid)
      fun _ _ given => by simp at given) (fun _ _ given => given.2) fun _ => ?_
    exact (checkFieldPatterns_sound received none [] fields).unreachable fun _ _ given => given.1.2
  | some found =>
    have own (known : ∃ r, some found = some r ∧ r.Proper ∧ r.Declared ctx.table enum variant) :
        found.Proper ∧ found.Declared ctx.table enum variant := by simpa using known
    refine .bind (.of_leaves (freshAll_sound found.enum.params) (freshAll_leaves _) rfl) fun types => ?_
    refine .step (unify_stays info.span t (.enum found.enum.name types)) (fun s _ given =>
      ⟨given.1.1, Ty.proper_enum.mpr ⟨(own given.1.2).1.1, given.2.2⟩⟩) fun _ => ?_
    refine .bind (.of_leaves (variant_noted info.id found) (variant_leaves _ _) rfl) fun _ => ?_
    have slots {s : State} (known : ∃ r, some found = some r ∧ r.Proper ∧ r.Declared ctx.table enum variant)
        (typed : ∀ a ∈ types, s.Knows a) : ∀ t ∈ Decls.slots found.enum types found.variant, s.Knows t :=
      Decls.Proper.slots (own known).1.2 typed
    dsimp only
    split
    next named =>
      refine .guard (report_sound _ _ _) ?_
      refine .step (checkEach_empty received args .invalid) (fun _ _ given => by simpa using given.2) fun _ => ?_
      refine fieldsDerived.all (fun s _ given => ?_) fun bound s _ given names parts => ?_
      · obtain ⟨⟨⟨⟨⟨⟨-, known⟩, -, typed⟩, -⟩, -⟩, -⟩, -⟩ := given
        exact slotFields_known (slots known typed)
      · obtain ⟨⟨⟨⟨⟨-, known⟩, -⟩, -, same⟩, noted⟩, empty⟩ := given.1
        obtain rfl : args = [] := by simpa using empty
        obtain ⟨known, declared⟩ := own known
        intro last notes before settled _
        have resolved : Context.slotFields found.variant
            (Decls.slots found.enum (types.map last.engine.resolve) found.variant) =
              last.engine.settled
                (Context.slotFields found.variant (Decls.slots found.enum types found.variant)) := by
          rw [Decls.slots_resolve known.2, Engine.slotFields_resolve]
        rw [same last before settled.proper, Engine.resolve_enum]
        refine .named declared (settled.variants (before.notes.variants noted)) named ?_ ?_ <;> rw [resolved]
        · exact names last.engine
        · exact parts last notes before settled
    next unnamed =>
      refine .guard (report_sound _ _ _) ?_
      refine .step (checkFieldPatterns_empty received none [] fields) (fun _ _ given => by simpa using given.2)
        fun _ => ?_
      refine .guard (report_sound _ _ _) ?_
      have sized (differ : ¬ (args.length != (Decls.slots found.enum types found.variant).length) = true) :
          args.length = (Decls.slots found.enum types found.variant).length := by simpa using differ
      refine (partsDerived _ scopes).imp (fun _ _ given => ?_) fun _ bound s _ given parts => ?_
      · rw [if_pos (beq_iff_eq.mpr (sized given.2))]
        exact ⟨sized given.2, slots given.1.1.1.1.1.1.2 given.1.1.1.1.1.2.2⟩
      · obtain ⟨⟨⟨⟨⟨⟨⟨-, known⟩, -⟩, -, same⟩, noted⟩, empty⟩, -⟩, differ⟩ := given
        rw [if_pos (beq_iff_eq.mpr (sized differ))] at parts
        obtain rfl : fields = [] := by simpa using empty
        obtain ⟨known, declared⟩ := own known
        intro last notes before settled _
        have parts := parts last notes before settled
        rw [same last before settled.proper, Engine.resolve_enum]
        refine .positional declared (settled.variants (before.notes.variants noted)) (by simpa using unnamed) ?_
        rw [Decls.slots_resolve known.2]
        exact parts

/-- Other choices that will match a type, and bind the names that the first one has declared at the same types. -/
def OthersDerived (ctx : Context) (ps : List Pattern) : Prop :=
  ∀ (first : List String) (t : Ty) (declared : List (String × Ty)) (scopes : List (List (String × Ty))),
    Stays ctx (declareAll declared scopes)
      (fun s => (∀ name, name ∈ first ↔ name ∈ declared.map Prod.fst) ∧ s.Knows t) (checkOthers ctx first ps t)
      fun _ s => s.Shows fun engine notes => ∀ p ∈ ps, Alternative ctx notes
        (engine.names declared ++ engine.env scopes) (engine.resolve t) (engine.names declared) p

/-- A name that is bound in two scopes stands for the same type in both. -/
theorem lookup_names_eq {s last : State} {first : List String} {declared scope : List (String × Ty)}
    (inside : ∀ name, name ∈ first ↔ name ∈ declared.map Prod.fst)
    (other : ∀ name, name ∈ first ↔ name ∈ scope.map Prod.fst)
    (agree : ∀ name bound t, scope.lookup name = some bound → visible? (declareAll declared scopes) name = some t →
      s.Agree t bound) (before : s.Before last) (proper : last.Proper) (name : String) :
    (last.engine.names scope).lookup name = (last.engine.names declared).lookup name := by
  have bound (entries : List (String × Ty)) : (∃ t, entries.lookup name = some t) ↔ name ∈ entries.map Prod.fst := by
    rw [← Option.isSome_iff_exists, List.lookup_isSome_iff]
    simp
  rw [Engine.lookup_names, Engine.lookup_names]
  by_cases member : name ∈ first
  · obtain ⟨t, here⟩ := (bound declared).mpr ((inside name).mp member)
    obtain ⟨u, there⟩ := (bound scope).mpr ((other name).mp member)
    have seen : visible? (declareAll declared scopes) name = some t := by
      rw [visible?_eq_lookup, flatten_declareAll, List.lookup_append, here]
      rfl
    rw [here, there, Option.map_some, Option.map_some, agree name u t there seen last before proper]
  · have none (entries : List (String × Ty)) (out : name ∉ entries.map Prod.fst) : entries.lookup name = none :=
      Option.eq_none_iff_forall_ne_some.mpr fun t here => out ((bound entries).mp ⟨t, here⟩)
    rw [none declared fun here => member ((inside name).mpr here),
      none scope fun here => member ((other name).mpr here)]

theorem OthersDerived.nil : OthersDerived ctx [] := by
  intro first t declared scopes
  rw [checkOthers]
  exact .pure fun _ _ _ _ _ _ _ _ member => absurd member List.not_mem_nil

theorem OthersDerived.cons {p : Pattern} {rest : List Pattern} (patternDerived : PatternDerived ctx p)
    (othersDerived : OthersDerived ctx rest) : OthersDerived ctx (p :: rest) := by
  intro first t declared scopes
  rw [checkOthers]
  -- The choice has a scope of its own, and its names are compared with those of the first choice once it is closed.
  refine Declares.enclosed ((patternDerived t _).imp (fun _ _ given => given.2) fun _ _ _ _ _ binds => binds)
    fun _ scope => ?_
  refine .step (compareBindings_stays p.span first scope) (fun _ _ given => given.2.1) fun _ => ?_
  refine .imp (othersDerived first t declared scopes) (fun _ _ given => given.1.1) fun _ s _ given others => ?_
  obtain ⟨⟨⟨inside, -⟩, -, binds⟩, other, agree⟩ := given
  intro last notes before settled
  refine List.forall_mem_cons.mpr ⟨?_, others last notes before settled⟩
  have matched := binds last notes before settled
  exact .intro (last.engine.env_declareAll declared scopes ▸ matched)
    (lookup_names_eq inside other agree before settled.proper)

theorem PatternDerived.alternatives {first : Pattern} {rest : List Pattern} (firstDerived : PatternDerived ctx first)
    (othersDerived : OthersDerived ctx rest) : PatternDerived ctx (.alternatives info (first :: rest)) := by
  intro t scopes
  rw [checkPattern]
  refine recorded_binds (p := .alternatives info (first :: rest)) ?_
  rw [checkChoices]
  refine .chain ((firstDerived t scopes).declared (checkPattern_leaves first t)) (fun _ _ given => given)
    fun _ declared => ?_
  refine .nothing (othersDerived _ t declared scopes) (fun _ _ given => ⟨fun name => ?_, given.1⟩)
    fun _ s _ given others => ?_
  · rw [List.mem_eraseDups]
    exact given.2.2.names name
  · exact fun last notes before settled _ =>
      .alternatives (given.2.1 last notes before settled) (others last notes before settled)

theorem PatternDerived.noChoice : PatternDerived ctx (.alternatives info []) := by
  intro t scopes
  rw [checkPattern]
  refine recorded_binds (p := .alternatives info []) ?_
  rw [checkChoices]
  exact .pure fun _ _ _ _ _ _ _ _ => .noChoice

theorem PatternDerived.guarded {inner : Pattern} {condition : Expr} (innerDerived : PatternDerived ctx inner)
    (conditionDerived : Derived ctx condition) : PatternDerived ctx (.guarded info inner condition) := by
  intro t scopes
  rw [checkPattern]
  refine recorded_binds (p := .guarded info inner condition) ?_
  refine .chain (innerDerived t scopes) (fun _ _ given => given) fun _ declared => ?_
  refine .nothing (Q := fun _ s => s.Has ctx (declareAll declared scopes) condition .bool)
    (conditionDerived.condition (P := fun _ => True) fun _ => .pure fun _ _ given => given.2) (fun _ _ _ => trivial)
    fun _ s _ given test => ?_
  intro last notes before settled _
  have grown := last.engine.env_declareAll declared scopes
  exact .guarded (given.2 last notes before settled) (grown ▸ test.typed before settled)

end Patterns

/-!
### Whole trees

The recursion is that of inference. Each case is the lemma about its form, given what is known of its parts; a list of
parts is gone through from the front, with the names that the first part binds in scope behind it.
-/

mutual

theorem infer_derived (collected : ctx.Collected) : ∀ e : Expr, Derived ctx e
  | .int .. => .int
  | .float .. => .float
  | .string .. => .string
  | .template _ parts => .template (inferParts_derived collected parts)
  | .bool .. => .bool
  | .ident .. => .ident
  | .binary _ _ left right => .binary (infer_derived collected left) (infer_derived collected right)
  | .unary _ _ operand => .unary (infer_derived collected operand)
  | .call _ callee args => .call collected.received (infer_derived collected callee) (checkArgs_derived collected args)
  | .methodCall _ receiver _ args =>
    .methodCall collected.received (infer_derived collected receiver) (checkArgs_derived collected args)
  | .field _ object _ => .field (infer_derived collected object)
  | .index _ object index => .index (infer_derived collected object) (infer_derived collected index)
  | .ref _ _ operand => .ref (infer_derived collected operand)
  | .deref _ operand => .deref (infer_derived collected operand)
  | .struct _ _ fields => .struct collected (checkInits_derived collected fields)
  | .variant _ _ _ args fields =>
    .variant collected (checkArgs_derived collected args) (checkInits_derived collected fields)
  | .tuple _ elements => .tuple (inferEach_derived collected elements)
  | .array _ elements => .array (inferItems_derived collected elements)
  | .cast _ operand _ => .cast (infer_derived collected operand)
  | .assign _ target value => .assign (infer_derived collected target) (infer_derived collected value)
  | .select _ scrutinee arms => .select (infer_derived collected scrutinee) (checkArms_derived collected arms)
  | .branch _ condition consequent none =>
    .optional (infer_derived collected condition) (infer_derived collected consequent)
  | .branch _ condition consequent (some alternative) =>
    .branch (infer_derived collected condition) (infer_derived collected consequent)
      (infer_derived collected alternative)
  | .block body => .block (inferBlock_derived collected body)

theorem checkArgs_derived (collected : ctx.Collected) : ∀ args : List Expr, ArgumentsDerived ctx args
  | [] => fun wants scopes _ => by
    rw [checkArgs]
    exact .pure fun _ _ _ _ _ _ _ _ member => absurd member List.not_mem_nil
  | a :: rest => fun wants scopes sized => by
    cases wants with
    | nil => cases sized
    | cons want wants =>
      rw [checkArgs]
      refine .step (shallow_stays want) (fun _ _ given => given want List.mem_cons_self) fun known => ?_
      refine .step (infer_derived collected a _ scopes) (fun s _ given t member => ?_) fun found => ?_
      · split at member
        · cases member
        · cases member
          exact given.1 want List.mem_cons_self
      refine .step (pass_stays a want known found)
        (fun s _ given => ⟨⟨given.1.1 want List.mem_cons_self, given.1.2.1, given.2.1⟩, given.1.2.2⟩) fun _ => ?_
      refine (checkArgs_derived collected rest wants scopes (Nat.succ.inj sized)).imp (fun s _ given t member =>
        given.1.1.1 t (List.mem_cons_of_mem _ member)) fun _ s _ given others => ?_
      exact fun last notes before settled => List.forall_mem_cons.mpr
        ⟨given.1.2.2.given given.2 last notes before settled, others last notes before settled⟩

theorem inferEach_derived (collected : ctx.Collected) : ∀ elements : List Expr, EachDerived ctx elements
  | [] => fun hints scopes => by
    rw [inferEach]
    exact .pure fun _ _ _ => ⟨⟨List.forall_mem_nil _, rfl⟩, fun _ _ _ _ _ member => absurd member List.not_mem_nil⟩
  | e :: rest => fun hints scopes => by
    rw [inferEach]
    refine .step (infer_derived collected e _ scopes)
      (fun _ _ given t member => given t (List.mem_of_mem_head? member)) fun t => ?_
    refine .step (inferEach_derived collected rest hints.tail scopes)
      (fun _ _ given t member => given.1 t (List.mem_of_mem_tail member)) fun types => ?_
    refine .pure fun s _ given => ?_
    obtain ⟨⟨-, known, has⟩, ⟨each, sized⟩, others⟩ := given
    exact ⟨⟨List.forall_mem_cons.mpr ⟨known, each⟩, congrArg Nat.succ sized⟩, fun last notes before settled =>
      List.forall_mem_cons.mpr ⟨has.typed before settled, others last notes before settled⟩⟩

theorem inferItems_derived (collected : ctx.Collected) : ∀ elements : List Expr, ItemsDerived ctx elements
  | [] => fun element scopes => by
    rw [inferItems]
    exact .pure fun _ _ _ _ _ _ _ _ member => absurd member List.not_mem_nil
  | e :: rest => fun element scopes => by
    rw [inferItems]
    refine (infer_derived collected e).against (fun _ _ given => given) fun _ => ?_
    refine (inferItems_derived collected rest element scopes).imp (fun _ _ given => given.1)
      fun _ s _ given others => ?_
    exact fun last notes before settled =>
      List.forall_mem_cons.mpr ⟨given.2.1.typed before settled, others last notes before settled⟩

theorem inferParts_derived (collected : ctx.Collected) : ∀ parts : List TemplatePart, PartsDerived ctx parts
  | [] => fun scopes => by
    rw [inferParts]
    exact .pure fun _ _ _ _ _ _ _ _ member => absurd member List.not_mem_nil
  | .text _ :: rest => fun scopes => by
    rw [inferParts]
    refine (inferParts_derived collected rest scopes).imp (fun _ _ given => given) fun _ s _ _ others => ?_
    exact fun last notes before settled e member =>
      others last notes before settled e ((List.mem_cons.mp member).resolve_left nofun)
  | .value e :: rest => fun scopes => by
    rw [inferParts]
    refine .step ((infer_derived collected e).unhinted (P := fun _ => True)) (fun _ _ _ => trivial) fun t => ?_
    refine (inferParts_derived collected rest scopes).imp (fun _ _ _ => trivial) fun _ s _ given others => ?_
    intro last notes before settled other member
    rcases List.mem_cons.mp member with same | member
    · cases same
      exact .intro (given.2.2.typed before settled)
    · exact others last notes before settled other member

theorem checkInits_derived (collected : ctx.Collected) : ∀ fields : List FieldInit, InitsDerived ctx fields
  | [] => fun owner declared seen scopes => by
    rw [checkInits]
    exact .pure fun _ _ _ => ⟨.nil, fun _ _ _ _ _ member => absurd member List.not_mem_nil⟩
  | .mk name _ value :: rest => fun owner declared seen scopes => by
    rw [checkInits]
    have others := checkInits_derived collected rest owner declared (name :: seen) scopes
    cases found : fieldNamed? declared name with
    | none =>
      refine Sound.seq (report_sound _ _ _) fun _ => ?_
      refine Sound.bind (P := fun _ => False) (infer_sound collected.received value none).unhinted fun _ => ?_
      exact Sound.unreachable others fun _ _ given => given.1
    | some t =>
      obtain ⟨f, member, rfl, rfl⟩ := fieldNamed?_mem found
      refine .guard (report_sound _ _ _) ?_
      refine .step ((infer_derived collected value).hinted f.type) (fun _ _ given => given.1.2 f member) fun u => ?_
      refine .step (assign_stays value f.type u) (fun _ _ given => ⟨given.1.1.2 f member, given.2.1⟩) fun _ => ?_
      refine others.imp (fun _ _ given => given.1.1.1) fun _ s _ given fit => ?_
      obtain ⟨⟨⟨⟨once, -⟩, new⟩, -, has⟩, stores⟩ := given
      refine ⟨fit.1.cons (by simpa [FieldInit.name] using new) ⟨f, member, rfl⟩, fun last notes before settled => ?_⟩
      refine List.forall_mem_cons.mpr ⟨fun g inside same => ?_, fit.2 last notes before settled⟩
      rw [Engine.settled_type once member inside same]
      exact has.stored stores last notes before settled

theorem checkArms_derived (collected : ctx.Collected) : ∀ arms : List MatchArm, ArmsDerived ctx arms
  | [] => fun t result hint scopes => by
    rw [checkArms]
    exact .pure fun _ _ _ _ _ _ _ _ member => absurd member List.not_mem_nil
  | .mk _ pattern guard body :: rest => fun t result hint scopes => by
    exact ArmsDerived.cons (checkPattern_derived collected pattern) (checkCondition_derived collected guard)
      (infer_derived collected body) (checkArms_derived collected rest) t result hint scopes

theorem checkCondition_derived (collected : ctx.Collected) : ∀ condition : Option Expr, ConditionDerived ctx condition
  | none => fun scopes => by
    rw [checkCondition]
    exact .pure fun _ _ _ _ _ _ _ _ none => by cases none
  | some condition => fun scopes => by
    rw [checkCondition]
    refine (infer_derived collected condition).condition fun _ => ?_
    refine .pure fun s _ given last notes before settled c same => ?_
    cases same
    exact given.2.typed before settled

theorem inferBlock_derived (collected : ctx.Collected) : ∀ body : Block, BlockDerived ctx body
  | .mk _ stmts (some value) => .valued (checkStmts_derived collected stmts) (infer_derived collected value)
  | .mk _ stmts none => .statements (checkStmts_derived collected stmts)

theorem checkStmts_derived (collected : ctx.Collected) : ∀ stmts : List Stmt, StmtsDerived ctx stmts
  | [] => fun scopes => by
    rw [checkStmts]
    exact .pure fun _ _ _ _ _ _ _ => .nil
  | stmt :: rest => fun scopes => by
    rw [checkStmts]
    refine .chain (checkStmt_derived collected stmt scopes) (fun _ _ given => given) fun _ declared => ?_
    refine (checkStmts_derived collected rest _).imp (fun _ _ _ => trivial) fun _ more s _ given others => ?_
    intro last notes before settled
    have others := others last notes before settled
    rw [last.engine.names_append]
    exact .cons (given.2 last notes before settled) (last.engine.env_declareAll declared scopes ▸ others)

theorem checkStmt_derived (collected : ctx.Collected) : ∀ stmt : Stmt, StmtDerived ctx stmt
  | .bind _ pattern (some _) init =>
    .annotated (inferInit_derived collected init) (checkPattern_derived collected pattern)
  | .bind _ pattern none (some value) =>
    .bind (infer_derived collected value) (checkPattern_derived collected pattern)
  | .bind _ pattern none none => .declare (checkPattern_derived collected pattern)
  | .expr _ value => .expr (infer_derived collected value)
  | .ret _ none => .leave
  | .ret _ (some value) => .ret (infer_derived collected value)
  | .loop _ condition body => .loop (infer_derived collected condition) (inferBlock_derived collected body)
  | .counted _ init condition update body =>
    .counted (checkStmtOption_derived collected init) (checkCondition_derived collected condition)
      (inferBlock_derived collected body) (inferOption_derived collected update)

theorem checkStmtOption_derived (collected : ctx.Collected) : ∀ init : Option Stmt, StartDerived ctx init
  | none => fun scopes => by
    rw [checkStmtOption]
    exact .pure fun _ _ _ _ _ _ _ => .nil
  | some stmt => fun scopes => by
    rw [checkStmtOption]
    refine (checkStmt_derived collected stmt scopes).imp (fun _ _ given => given) fun _ declared s _ _ typed => ?_
    exact fun last notes before settled => .cons (typed last notes before settled) .nil

theorem inferOption_derived (collected : ctx.Collected) : ∀ update : Option Expr, UpdateDerived ctx update
  | none => fun scopes => by
    rw [inferOption]
    exact .pure fun _ _ _ _ _ _ _ _ none => by cases none
  | some e => fun scopes => by
    rw [inferOption]
    refine .step ((infer_derived collected e).unhinted (P := fun _ => True)) (fun _ _ _ => trivial) fun t => ?_
    refine .pure fun s _ given last notes before settled other same => ?_
    cases same
    exact .intro (given.2.2.typed before settled)

theorem inferInit_derived (collected : ctx.Collected) : ∀ init : Option Expr, InitDerived ctx init
  | none => .left
  | some value => .given (infer_derived collected value)

theorem checkPattern_derived (collected : ctx.Collected) : ∀ p : Pattern, PatternDerived ctx p
  | .wildcard _ => .wildcard
  | .binding _ => .binding
  | .literal .. => .literal
  | .range .. => .range
  | .tuple _ elements => .tuple (checkPatterns_derived collected elements)
  | .list _ front _ _ => .list (checkEach_derived collected front)
  | .record _ _ fields _ => .record collected.received (checkFieldPatterns_derived collected fields)
  | .variant _ _ _ args fields _ =>
    .variant collected.received (checkPatterns_derived collected args) (checkFieldPatterns_derived collected fields)
  | .alternatives _ [] => .noChoice
  | .alternatives _ (first :: rest) =>
    .alternatives (checkPattern_derived collected first) (checkOthers_derived collected rest)
  | .guarded _ inner condition => .guarded (checkPattern_derived collected inner) (infer_derived collected condition)

theorem checkPatterns_derived (collected : ctx.Collected) : ∀ ps : List Pattern, PatternsDerived ctx ps
  | [] => fun types scopes => by
    rw [checkPatterns]
    refine .pure fun s _ given last notes _ _ => ?_
    rw [List.eq_nil_of_length_eq_zero given.1.symm]
    exact .nil
  | p :: rest => fun types scopes => by
    cases types with
    | nil =>
      refine Sound.unreachable (checkPatterns_sound collected.received (p :: rest) []) fun _ _ given => ?_
      simp at given
    | cons t types =>
      rw [checkPatterns]
      refine .chain (checkPattern_derived collected p t scopes) (fun _ _ given => given.2 t List.mem_cons_self)
        fun _ declared => ?_
      refine (checkPatterns_derived collected rest types _).imp
        (fun _ _ given => ⟨by simpa using given.1.1, fun u member => given.1.2 u (List.mem_cons_of_mem _ member)⟩)
        fun _ more s _ given others => ?_
      intro last notes before settled
      have others := others last notes before settled
      rw [last.engine.names_append]
      exact .cons (given.2 last notes before settled) (last.engine.env_declareAll declared scopes ▸ others)

theorem checkEach_derived (collected : ctx.Collected) : ∀ ps : List Pattern, EachPatternDerived ctx ps
  | [] => fun t scopes => by
    rw [checkEach]
    exact .pure fun _ _ _ _ _ _ _ => .nil
  | p :: rest => fun t scopes => by
    rw [checkEach]
    have known {s : State} (given : p :: rest = [] ∨ s.Knows t) : s.Knows t := given.resolve_left (by simp)
    refine .chain (checkPattern_derived collected p t scopes) (fun _ _ given => known given) fun _ declared => ?_
    refine (checkEach_derived collected rest t _).imp (fun _ _ given => .inr (known given.1))
      fun _ more s _ given others => ?_
    intro last notes before settled
    have others := others last notes before settled
    rw [last.engine.names_append]
    exact .cons (given.2 last notes before settled) (last.engine.env_declareAll declared scopes ▸ others)

theorem checkFieldPatterns_derived (collected : ctx.Collected) : ∀ fields : List FieldPattern, FieldsDerived ctx fields
  | [] => fun owner declared seen scopes => by
    rw [checkFieldPatterns]
    exact .pure fun _ _ _ => ⟨.nil, fun _ _ _ _ => .nil⟩
  | .mk name p :: rest => fun owner declared seen scopes => by
    rw [checkFieldPatterns]
    have others := checkFieldPatterns_derived collected rest owner declared (name :: seen)
    cases found : fieldNamed? declared name with
    | none =>
      refine Sound.seq (report_sound _ _ _) fun _ => ?_
      refine Sound.bind (P := fun _ => False) (Q := fun _ _ => True)
        ((checkPattern_sound collected.received p .invalid).unreachable fun _ _ given => given) fun _ => ?_
      exact Sound.unreachable (others scopes) fun _ _ given => given.1
    | some t =>
      obtain ⟨f, member, rfl, rfl⟩ := fieldNamed?_mem found
      refine .guard (report_sound _ _ _) ?_
      refine .chain (checkPattern_derived collected p f.type scopes) (fun _ _ given => given.1 f member)
        fun _ bound => ?_
      refine (others _).imp (fun _ _ given => given.1.1) fun _ more s _ given matched => ?_
      refine ⟨matched.1.cons (by simpa [FieldPattern.name] using given.1.2) ⟨f, member, rfl⟩,
        fun last notes before settled => ?_⟩
      have others := matched.2 last notes before settled
      beta_reduce
      rw [last.engine.names_append]
      exact .cons (f := { f with type := last.engine.resolve f.type }) (List.mem_map_of_mem member)
        (given.2 last notes before settled) (last.engine.env_declareAll bound scopes ▸ others)

theorem checkOthers_derived (collected : ctx.Collected) : ∀ ps : List Pattern, OthersDerived ctx ps
  | [] => .nil
  | p :: rest => .cons (checkPattern_derived collected p) (checkOthers_derived collected rest)

end

/-! ### Functions -/

theorem tail_mem_nodes {b : Block} {value : Expr} (last : b.tail = some value) : .expr value ∈ b.nodes := by
  cases b with
  | mk info stmts tail =>
    cases last
    rw [Block.nodes, Expr.nodesOption]
    exact List.mem_cons_of_mem _ (List.mem_append_right _ value.mem_nodes)

namespace Context

/-- Parameters are declared with their types, the last one innermost. -/
theorem params_declare (params : List Signature.Param) : Declares ctx scopes (fun _ => ∀ p ∈ params, p.type.Proper [])
    (params.forM fun p => declare p.name p.type)
    fun _ declared _ => declared = (params.map fun p => (p.name, p.type)).reverse := by
  induction params generalizing scopes with
  | nil => exact .pure fun _ _ _ => rfl
  | cons p params ih =>
    refine .chain (declare_declares p.name p.type)
      (fun _ _ closed => (closed p List.mem_cons_self).mono List.nil_prefix) fun _ declared => ?_
    refine ih.imp (fun _ _ given q member => given.1 q (List.mem_cons_of_mem _ member))
      fun _ more s _ given same => ?_
    rw [same, given.2, List.map_cons, List.reverse_cons]

/-- What is checked behind the body of a function: its value is stored as the result, or it has none. -/
def checkValue (ctx : Context) (f : FuncDecl) : Check Unit :=
  match f.body.tail with
  | some value => do
    if let some found := (← get).notes.types.get? value.id then ctx.assign value ctx.signature.result found
  | none =>
    if !f.body.endsInReturn && !ctx.signature.result.isUnit then
      ctx.report .typeMismatch f.span
        (s!"function `{ctx.signature.name}` returns `{ctx.signature.result.text}` "
          ++ "but its body produces no value")
    else pure ()

theorem checkValue_stays (f : FuncDecl) : Stays ctx scopes (fun s => s.Covers ctx f.body.nodes) (ctx.checkValue f)
    fun _ s => (∀ e ∈ f.body.tail, ∃ t, (e.id, t) ∈ s.notes.types ∧ s.Stores e ctx.signature.result t) ∧
      (f.body.tail = none → f.body.endsInReturn = true ∨ ctx.signature.result = .unit) := by
  have result {s : State} (proper : ctx.Proper) : s.Knows ctx.signature.result :=
    proper.signature.result.mono List.nil_prefix
  unfold checkValue
  split
  next value last =>
    refine get_sound (fun s s' => (s.Records value.id ∧ ∀ t, s.notes.types.get? value.id = some t →
      s'.Knows t ∧ (value.id, t) ∈ s'.notes.types) ∧ s'.scopes = scopes) (fun s _ known given => ?_) fun s => ?_
    · refine ⟨⟨(given.1 _ (tail_mem_nodes last)).1, fun t found => ?_⟩, given.2⟩
      have noted := NodeTable.get?_mem found
      exact ⟨known.types _ noted, noted⟩
    · split
      next found entry =>
        refine Stays.imp (P := fun s' => s.Records value.id ∧ ∀ t, s.notes.types.get? value.id = some t →
          s'.Knows t ∧ (value.id, t) ∈ s'.notes.types) (assign_stays value ctx.signature.result found)
          (fun _ proper given => ⟨result proper, (given.2 found entry).1⟩) fun _ _ _ given stores => ?_
        refine ⟨fun e same => ?_, fun none => ?_⟩
        · cases last.symm.trans same
          exact ⟨found, (given.2 found entry).2, stores⟩
        · cases last.symm.trans none
      next missing =>
        refine .pure fun _ _ given => ?_
        obtain ⟨t, found⟩ := Option.isSome_iff_exists.mp given.1.1
        exact absurd found (missing t)
  next last =>
    split
    · exact Sound.consequence (report_sound _ _ _) (fun _ _ given => given) fun _ _ never => never.elim
    next fine =>
      refine Stays.pure fun _ _ _ => ⟨fun e same => ?_, fun _ => ?_⟩
      · cases last.symm.trans same
      · rcases Bool.and_eq_false_iff.mp (Bool.eq_false_iff.mpr fine) with returns | unit
        · exact .inl (by simpa using returns)
        · refine .inr ?_
          cases same : ctx.signature.result <;> first | rfl | simp [same, Ty.isUnit] at unit

/-- The body of a function will have a type, with its parameters in scope, and its value is stored as the result. -/
theorem paramsBody_typed (collected : ctx.Collected) (f : FuncDecl) (scopes : List (List (String × Ty))) :
    Declares ctx scopes (fun _ => True) (do
      ctx.signature.params.forM fun p => declare p.name p.type
      let _ ← recorded f.body.id (inferBlock ctx f.body (some ctx.signature.result))
      ctx.checkValue f) fun _ _ s => s.Shows fun engine notes => ∃ t,
        HasType ctx notes ((ctx.signature.params.map fun p => (p.name, p.type)).reverse ++ engine.env scopes)
          (.block f.body) t ∧ (∀ e ∈ f.body.tail, notes.Stores e t ctx.signature.result) ∧
        (f.body.tail = none → f.body.endsInReturn = true ∨ ctx.signature.result = .unit) := by
  refine .chain (params_declare ctx.signature.params) (fun _ proper _ => proper.signature.params) fun _ declared => ?_
  have block : Stays ctx (declareAll declared scopes) (fun s => ∀ t ∈ some ctx.signature.result, s.Knows t)
      (recorded f.body.id (inferBlock ctx f.body (some ctx.signature.result))) fun t s =>
        s.Has ctx (declareAll declared scopes) (.block f.body) t ∧ s.Covers ctx f.body.nodes :=
    (Sound.and ((inferBlock_derived collected f.body).noted _) ((block_sound collected.received f.body _).consequence
      (fun _ _ given => given.1) fun _ _ found => found.2)).consequence (fun _ _ given => given)
        fun _ _ found => ⟨⟨found.1.1.2, found.2⟩, found.1.2⟩
  refine .step block (fun _ proper _ t same => ?_) fun t => ?_
  · cases same
    exact proper.signature.result.mono List.nil_prefix
  refine .nothing (checkValue_stays f) (fun _ _ given => given.2.2) fun _ s proper given found => ?_
  obtain ⟨⟨-, same⟩, has, -⟩ := given
  subst same
  intro last notes before settled
  have typed := has.typed before settled
  rw [Engine.env_declareAll, Engine.names_closed] at typed
  · refine ⟨_, typed, fun e member => ?_, found.2⟩
    obtain ⟨u, noted, stores⟩ := found.1 e member
    have stored := stores last notes before settled
    beta_reduce at stored
    rw [last.engine.resolve_closed proper.signature.result] at stored
    -- The type that was noted about the value has become that of the block.
    have same := (typed.value member).symm.trans (settled.types (before.notes.types noted))
    rwa [Option.some.inj same]
  · intro entry member
    obtain ⟨p, inside, rfl⟩ := List.mem_map.mp (List.mem_reverse.mp member)
    exact proper.signature.params p inside

theorem checkBody_typed (collected : ctx.Collected) (f : FuncDecl) : Stays ctx [] (fun _ => True) (ctx.checkBody f)
    fun _ s => s.Shows fun _ notes => ∃ t, FunctionTyped ctx notes f t := by
  refine Declares.inScope (Q := fun _ _ s => s.Shows fun _ notes => ∃ t, FunctionTyped ctx notes f t) ?_
    fun _ _ _ given => given
  cases own : ctx.signature.receiverType? with
  | some t =>
    refine .chain (declare_declares "self" t)
      (fun _ proper _ => (proper.signature.receiverType own).mono List.nil_prefix) fun _ declared => ?_
    refine (paramsBody_typed collected f _).imp (fun _ _ _ => trivial) fun _ _ s proper given typed => ?_
    intro last notes before settled
    obtain ⟨t', body, value, none⟩ := typed last notes before settled
    have closed : ∀ entry ∈ [("self", t)], entry.2.Proper [] :=
      List.forall_mem_singleton.mpr (proper.signature.receiverType own)
    rw [given.2, Engine.env_declareAll, last.engine.names_closed closed] at body
    refine ⟨t', ?_, value, none⟩
    rw [own]
    exact body
  | none =>
    refine (paramsBody_typed collected f _).imp (fun _ _ _ => trivial) fun _ _ s _ _ typed => ?_
    intro last notes before settled
    obtain ⟨t, body, value, none⟩ := typed last notes before settled
    refine ⟨t, ?_, value, none⟩
    rw [own]
    exact body

/-- What is found about the body of a function stays so until its types are final. -/
theorem prepare_typed (collected : ctx.Collected) (f : FuncDecl) : Sound ctx (fun s => s.scopes = []) (ctx.prepare f)
    fun _ s => s.Shows fun _ notes => ∃ t, FunctionTyped ctx notes f t := by
  refine .seq ((checkBody_typed collected f).consequence (fun _ _ given => ⟨trivial, given⟩)
    fun _ _ found => found.1) fun _ => ?_
  refine .step settle_sound (fun _ _ _ => trivial) fun _ => ?_
  refine .step checkLiterals_sound (fun _ _ _ => trivial) fun _ => ?_
  exact checkCasts_sound.imp (fun _ _ _ => trivial) fun _ _ given _ => given.1.1

end Context

/-! ### Accepted functions -/

/-- Where faults are reported and nothing is, there are none, and nothing has changed. -/
theorem forM_faultless {α : Type} {fault : α → Prop} [DecidablePred fault] {report : α → Diagnostic} {items : List α}
    (ctx : Context) {s s' : State}
    (ran : (items.forM fun a => if fault a then ctx.add (report a) else pure ()) s = .ok ((), s'))
    (quiet : s'.Quiet) : s' = s ∧ ∀ a ∈ items, ¬ fault a := by
  induction items generalizing s with
  | nil =>
    cases ran
    exact ⟨rfl, List.forall_mem_nil _⟩
  | cons a rest ih =>
    change ((if fault a then ctx.add (report a) else pure ()) >>= fun _ =>
      rest.forM fun a => if fault a then ctx.add (report a) else pure ()) s = .ok ((), s') at ran
    by_cases found : fault a
    · rw [if_pos found] at ran
      have traces : Traces ctx [] (rest.forM fun a => if fault a then ctx.add (report a) else pure ()) :=
        .forM fun a => .ite (add_traces _) (.pure _)
      exact absurd (traces _ _ _ _ ran quiet (.refl _)).1 (Bag.add_ne_nil _ _)
    · rw [if_neg found] at ran
      obtain ⟨same, others⟩ := ih ran
      exact ⟨same, List.forall_mem_cons.mpr ⟨found, others⟩⟩

namespace Context

/-- Casts of which nothing is reported are allowed, where the type of the operand is known. -/
theorem checkCasts_quiet {s s' : State} (ran : ctx.checkCasts s = .ok ((), s')) (quiet : s'.Quiet) :
    s' = s ∧ ∀ cast ∈ s.casts, (s.engine.resolve (s.notes.typeOf cast.operand)).isVar = false →
      (s.engine.resolve (s.notes.typeOf cast.operand)).canCast cast.target = true := by
  obtain ⟨same, none⟩ := forM_faultless ctx ran quiet
  refine ⟨same, fun cast member known => ?_⟩
  simpa [known] using none cast member

end Context

namespace Accepted

variable {p : Program} {f : FuncDecl} {result : Result} {last : State}

/-- A type that is looked up at the end is the one that is told, once it is resolved. -/
theorem typeOf_resolve (done : Accepted p f result ctx last) {id : Nat} {t : Ty}
    (found : result.notes.types.get? id = some t) : t = last.engine.resolve (last.notes.typeOf id) := by
  have member := NodeTable.get?_mem found
  rw [done.notes] at member
  obtain ⟨⟨_, raw⟩, inside, same⟩ := List.mem_map.mp member
  cases same
  have own := (NodeTable.get?_eq_some_iff done.single.types).mpr (NodeTable.mem_of_mem_entries inside)
  rw [Annotations.typeOf, own]
  rfl

/-- The casts that wait at the end are allowed. -/
theorem casts (done : Accepted p f result ctx last) : ∀ cast ∈ last.casts,
    (last.engine.resolve (last.notes.typeOf cast.operand)).isVar = false →
      (last.engine.resolve (last.notes.typeOf cast.operand)).canCast cast.target = true := by
  obtain ⟨_, _, -, ran⟩ := ran_bind done.prepared
  obtain ⟨_, _, -, ran⟩ := ran_bind ran
  obtain ⟨_, _, -, ran⟩ := ran_bind ran
  obtain ⟨rfl, legal⟩ := Context.checkCasts_quiet ran done.quiet
  exact legal

theorem settled (done : Accepted p f result ctx last) : Settled last result.notes where
  proper := done.proper
  types := done.get?_type
  shut := done.type_shut
  coercions := done.get?_coercion.mpr
  methods := done.get?_method.mpr
  variants := done.get?_variant.mpr
  casts {cast t} pending found := by
    have closed := done.closed _ (NodeTable.get?_mem found)
    rw [Ty.hasVars_eq] at closed
    have known := (Bool.or_eq_false_iff.mp closed).1
    rw [done.typeOf_resolve found] at known ⊢
    exact done.casts cast pending known

/-- A type is noted about each expression, and a rule gives it; but not about the name of a function that is called,
which is not inferred. -/
theorem expr_typed (done : Accepted p f result ctx last) (collected : ctx.Collected) {e : Expr}
    (inside : .expr e ∈ f.body.nodes) (inferred : ∀ info name, e ≠ .ident info name) :
    ∃ Γ t, HasType ctx result.notes Γ e t := by
  obtain ⟨-, (⟨info, name, same⟩ | ⟨hint, ran⟩)⟩ := done.covered _ inside
  · exact absurd same (inferred info name)
  have sound : Sound ctx (fun s => ∀ t ∈ hint, s.Knows t) (infer ctx e hint)
      fun _ s => s.Shows fun _ notes => ∃ Γ t, HasType ctx notes Γ e t :=
    .entering fun scopes => (infer_derived collected e hint scopes).consequence (fun _ _ given => given)
      fun _ _ found last notes before settled => ⟨_, _, found.1.2 last notes before settled⟩
  obtain ⟨-, s, before, shows⟩ := done.of_ran sound ran
  exact shows last result.notes before done.settled

theorem pattern_typed (done : Accepted p f result ctx last) (collected : ctx.Collected) {q : Pattern}
    (inside : .pattern q ∈ f.body.nodes) : ∃ Γ t Δ, Matches ctx result.notes Γ q t Δ := by
  obtain ⟨t, -, ran⟩ := done.covered _ inside
  have sound : Sound ctx (fun s => s.Knows t) (checkPattern ctx q t)
      fun _ s => s.Shows fun _ notes => ∃ Γ t Δ, Matches ctx notes Γ q t Δ :=
    .entering fun scopes => (checkPattern_derived collected q t scopes).consequence (fun _ _ given => given)
      fun _ _ found last notes before settled => by
        obtain ⟨declared, binds, -⟩ := found
        exact ⟨_, _, _, binds last notes before settled⟩
  obtain ⟨-, s, before, shows⟩ := done.of_ran sound ran
  exact shows last result.notes before done.settled

end Accepted

/-- Accepted functions are well typed. What is noted about the nodes of a function is a derivation of its body in the
type system, under its own signature, and the value of the body is stored as the result. -/
theorem check_well_typed {p : Program} (decoded : p.Decoded) (collected : p.collect.2 = []) (named : p.Named)
    {f : FuncDecl} {position : Nat} (member : (f, position) ∈ p.functions.zipIdx) {result : Result}
    (checked : check p.collect.1 position f = .ok result) (accepted : result.diagnostics = []) :
    ∃ signature, p.collect.1.signature? position f = some signature ∧
      ∃ t, FunctionTyped ⟨p.collect.1, signature⟩ result.notes f t := by
  obtain ⟨⟨table, signature⟩, last, own, done⟩ := check_accepted_own decoded collected named member checked accepted
  obtain rfl : table = p.collect.1 := done.table
  refine ⟨signature, own, ?_⟩
  have typed := Context.prepare_typed (Context.collected decoded done.table) f {}
  rw [done.prepared] at typed
  obtain ⟨-, -, shows⟩ := typed.2 done.quiet done.context .start rfl
  exact shows last result.notes (.refl last) done.settled

section

open Syntax

/-- A function that answers with a wider number than it is given. -/
def widening : Input :=
  documentOf [mappingNode [("fn", textNode "f"), ("params", listNode [mappingNode [("n", textNode "u8")]]),
    ("returns", textNode "u16"), ("value", textNode "n")]]

def widener : FuncDecl :=
  { (default : FuncDecl) with
    name := "f"
    params := [⟨"n", ⟨origin, .named "u8" []⟩, false, origin⟩]
    result := some ⟨origin, .named "u16" []⟩
    body := .mk unnumbered [] (some (.ident unnumbered "n"))
    span := origin }

theorem readProgram_widening : readProgram widening = .ok ⟨"", "t.yaml", [.function widener]⟩ := by
  with_unfolding_all rfl

theorem check_well_typed_widening : ∃ p : Program, p.Decoded ∧ p.collect.2 = [] ∧ p.Named ∧
    ∃ f result, (f, 0) ∈ p.functions.zipIdx ∧ check p.collect.1 0 f = .ok result ∧ result.diagnostics = [] ∧
    result.notes.coercions.get? 2 = some .widen ∧
    ∃ signature, p.collect.1.signature? 0 f = some signature ∧
      ∃ t, FunctionTyped ⟨p.collect.1, signature⟩ result.notes f t := by
  let p : Program := (Program.number ⟨"", "t.yaml", [.function widener]⟩).1
  let f : FuncDecl := { widener with body := (widener.body.number 0).1 }
  have decoded : p.Decoded := ⟨_, _, readProgram_widening, rfl⟩
  have collected : p.collect.2 = [] := List.eq_nil_of_length_eq_zero (by decide +kernel)
  have named : p.Named := by
    have items : p.items = [.function f] := rfl
    simp [Program.Named, items, Item.typeName?]
  have passed : passes (check p.collect.1 0 f) = true := by cbv
  obtain ⟨result, checked, accepted⟩ := exists_of_passes passed
  have noted : ((check p.collect.1 0 f).toOption.bind fun result => result.notes.coercions.get? 2) = some .widen := by
    cbv
  rw [checked] at noted
  exact ⟨p, decoded, collected, named, f, result, List.mem_cons_self, checked, accepted, noted,
    check_well_typed decoded collected named List.mem_cons_self checked accepted⟩

/-- A function that stores the result of a method there is none of. -/
def relying : Input :=
  let call := mappingNode [("method", textNode "m"),
    ("on", mappingNode [("fields", mappingNode [("x", truthNode "true")])])]
  documentOf [mappingNode [("struct", textNode ""), ("fields", mappingNode [("x", textNode "bool")])],
    mappingNode [("fn", textNode "f"),
      ("body", listNode [mappingNode [("let", textNode "y"), ("type", textNode "bool"), ("value", call)]])]]

def relier : FuncDecl :=
  let call : Expr := .methodCall unnumbered (.struct unnumbered "" [.mk "x" origin (.bool unnumbered true)]) "m" []
  { (default : FuncDecl) with
    name := "f"
    body := .mk unnumbered [.bind origin (.binding ⟨unnumbered, "y", false⟩) (some boolean) (some call)] none
    span := origin }

theorem readProgram_relying : readProgram relying = .ok ⟨"", "t.yaml", [.struct unnamed, .function relier]⟩ := by
  with_unfolding_all rfl

/-- A call of a method that is not declared has no type, and on a struct without a name it is accepted. -/
theorem check_accepts_untypable : ∃ p : Program, p.Decoded ∧ p.collect.2 = [] ∧
    ∃ f result, (f, 0) ∈ p.functions.zipIdx ∧ check p.collect.1 0 f = .ok result ∧ result.diagnostics = [] ∧
    ¬ ∃ signature t, FunctionTyped ⟨p.collect.1, signature⟩ result.notes f t := by
  let p : Program := (Program.number ⟨"", "t.yaml", [.struct unnamed, .function relier]⟩).1
  let f : FuncDecl := { relier with body := (relier.body.number 0).1 }
  have collected : p.collect.2 = [] := List.eq_nil_of_length_eq_zero (by decide +kernel)
  have passed : passes (check p.collect.1 0 f) = true := by cbv
  obtain ⟨result, checked, accepted⟩ := exists_of_passes passed
  refine ⟨p, ⟨_, _, readProgram_relying, rfl⟩, collected, f, result, List.mem_cons_self, checked, accepted, ?_⟩
  have missing (type : String) : p.collect.1.method? type "m" = none := by
    have none : p.collect.1.methods = [] := List.eq_nil_of_length_eq_zero (by decide +kernel)
    rw [Table.method?, none]
    rfl
  rintro ⟨signature, t, ⟨-, rule⟩, -, -⟩
  cases rule with
  | leaving _ returns => cases returns
  | running steps =>
    obtain _ | ⟨first, -⟩ := steps
    cases first with
    | annotated _ stored _ =>
      obtain ⟨⟨-, rule⟩, -⟩ := stored _ rfl
      cases rule with
      | method _ _ known =>
        rw [missing] at known
        cases known

end

end TreeCheck.Typing
