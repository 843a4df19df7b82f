import TreeCheck.Proofs.Syntax.Documents
import TreeCheck.Proofs.Typing.Scopes

/-!
The alternatives of an or-pattern. In an accepted function they can stand for one another: whichever is chosen, the
same names are bound, and a name that is bound once is bound to a value of one type.
-/

namespace TreeCheck

namespace Pattern

mutual

/-- What a pattern binds, for each way to choose one alternative of every or-pattern in it. -/
def selections : Pattern → List (List Binding)
  | .binding b => [[b]]
  | .tuple _ elements => selectionsAll elements
  | .list _ front _ rest => (selectionsAll front).map (· ++ rest.toList)
  | .record _ _ fields _ => selectionsFields fields
  | .variant _ _ _ args fields _ => (selectionsAll args).flatMap fun way => (selectionsFields fields).map (way ++ ·)
  | .alternatives _ choices => selectionsFirst choices
  | .guarded _ inner _ => inner.selections
  | .wildcard _ | .literal .. | .range .. => [[]]

def selectionsAll : List Pattern → List (List Binding)
  | [] => [[]]
  | p :: rest => p.selections.flatMap fun way => (selectionsAll rest).map (way ++ ·)

def selectionsFields : List FieldPattern → List (List Binding)
  | [] => [[]]
  | .mk _ p :: rest => p.selections.flatMap fun way => (selectionsFields rest).map (way ++ ·)

/-- An or-pattern without alternatives binds nothing. -/
def selectionsFirst : List Pattern → List (List Binding)
  | [] => [[]]
  | p :: rest => p.selections ++ selectionsAny rest

def selectionsAny : List Pattern → List (List Binding)
  | [] => []
  | p :: rest => p.selections ++ selectionsAny rest

end

theorem mem_selectionsAny {way : List Binding} {ps : List Pattern} :
    way ∈ selectionsAny ps ↔ ∃ p ∈ ps, way ∈ p.selections := by
  induction ps with
  | nil => simp [selectionsAny]
  | cons p rest ih => simp [selectionsAny, ih]

end Pattern

def Binding.names (bs : List Binding) : List String := bs.map Binding.name

namespace Binding

variable {bs : List Binding} {b b' : Binding}

theorem mem_names (member : b ∈ bs) : b.name ∈ names bs := List.mem_map_of_mem member

@[simp] theorem names_append (bs more : List Binding) : names (bs ++ more) = names bs ++ names more := List.map_append

theorem eq_of_once (member : b ∈ bs) (other : b' ∈ bs) (same : b.name = b'.name) (once : (names bs).count b.name ≤ 1) :
    b = b' := by
  have counted : (bs.filter fun c => c.name == b.name).length ≤ 1 := by
    rw [← List.countP_eq_length_filter]
    simpa [names, List.count, List.countP_map, Function.comp_def] using once
  have inside : b ∈ bs.filter fun c => c.name == b.name := by simp [member]
  have also : b' ∈ bs.filter fun c => c.name == b.name := by simp [other, same]
  match found : bs.filter fun c => c.name == b.name with
  | [] => simp [found] at inside
  | [c] =>
    rw [found, List.mem_singleton] at inside also
    rw [inside, also]
  | c :: d :: rest => simp [found] at counted

end Binding

namespace Typing

/-- Bindings that can stand for others: the names are the same, and one that is bound once has the same type. -/
structure Interchangeable (types : NodeTable Ty) (bs others : List Binding) : Prop where
  names : ∀ name, name ∈ Binding.names bs ↔ name ∈ Binding.names others
  types : ∀ b ∈ bs, ∀ b' ∈ others, b.name = b'.name → (Binding.names bs).count b.name ≤ 1 →
    (Binding.names others).count b.name ≤ 1 →
    ∃ t, types.get? b.info.id = some t ∧ types.get? b'.info.id = some t

/-- Ways to bind names, of which one is that of the first alternatives. -/
structure Uniform (types : NodeTable Ty) (ways : List (List Binding)) (bs : List Binding) : Prop where
  first : bs ∈ ways
  names : ∀ way ∈ ways, ∀ name, name ∈ Binding.names way ↔ name ∈ Binding.names bs
  types : ∀ name, (∀ way ∈ ways, (Binding.names way).count name ≤ 1) → ∀ way ∈ ways, ∀ b ∈ way, ∀ b' ∈ bs,
    b.name = name → b'.name = name → types.get? b.info.id = types.get? b'.info.id

namespace Uniform

variable {types : NodeTable Ty} {ways more : List (List Binding)} {bs others : List Binding}

theorem single (bs : List Binding) : Uniform types [bs] bs where
  first := List.mem_singleton_self bs
  names way member name := by rw [List.mem_singleton.mp member]
  types name once way member b inside b' also same same' := by
    obtain rfl := List.mem_singleton.mp member
    rw [Binding.eq_of_once inside also (same.trans same'.symm) (same ▸ once _ (List.mem_singleton_self _))]

theorem append (start : Uniform types ways bs) (rest : Uniform types more others) :
    Uniform types (ways.flatMap fun way => more.map (way ++ ·)) (bs ++ others) where
  first := List.mem_flatMap.mpr ⟨bs, start.first, List.mem_map_of_mem rest.first⟩
  names way member name := by
    obtain ⟨early, inWays, member⟩ := List.mem_flatMap.mp member
    obtain ⟨late, inMore, rfl⟩ := List.mem_map.mp member
    rw [Binding.names_append, Binding.names_append, List.mem_append, List.mem_append, start.names early inWays,
      rest.names late inMore]
  types name once way member b inside b' also same same' := by
    obtain ⟨early, inWays, member⟩ := List.mem_flatMap.mp member
    obtain ⟨late, inMore, rfl⟩ := List.mem_map.mp member
    have counted {a c : List Binding} (left : a ∈ ways) (right : c ∈ more) :
        (Binding.names a).count name + (Binding.names c).count name ≤ 1 := by
      have := once (a ++ c) (List.mem_flatMap.mpr ⟨a, left, List.mem_map_of_mem right⟩)
      rwa [Binding.names_append, List.count_append] at this
    -- a name that both parts bind would be bound twice
    have apart : name ∈ Binding.names bs → name ∈ Binding.names others → False := fun left right => by
      have := counted start.first rest.first
      have := List.count_pos_iff.mpr left
      have := List.count_pos_iff.mpr right
      omega
    have early' : ∀ a ∈ ways, (Binding.names a).count name ≤ 1 := fun a left => by
      have := counted left rest.first
      omega
    have late' : ∀ c ∈ more, (Binding.names c).count name ≤ 1 := fun c right => by
      have := counted start.first right
      omega
    rcases List.mem_append.mp inside with inEarly | inLate <;> rcases List.mem_append.mp also with inFirst | inOthers
    · exact start.types name early' early inWays b inEarly b' inFirst same same'
    · exact (apart ((start.names early inWays name).mp (same ▸ Binding.mem_names inEarly))
        (same' ▸ Binding.mem_names inOthers)).elim
    · exact (apart (same' ▸ Binding.mem_names inFirst)
        ((rest.names late inMore name).mp (same ▸ Binding.mem_names inLate))).elim
    · exact rest.types name late' late inMore b inLate b' inOthers same same'

/-- The ways of another alternative are ways of the first one. -/
theorem exchange (uniform : Uniform types ways others) (alike : Interchangeable types others bs) {way : List Binding}
    (member : way ∈ ways) : (∀ name, name ∈ Binding.names way ↔ name ∈ Binding.names bs) ∧
      ∀ name, (∀ way ∈ ways, (Binding.names way).count name ≤ 1) → (Binding.names bs).count name ≤ 1 →
        ∀ b ∈ way, ∀ b' ∈ bs, b.name = name → b'.name = name → types.get? b.info.id = types.get? b'.info.id := by
  refine ⟨fun name => (uniform.names way member name).trans (alike.names name), ?_⟩
  intro name once single b inside b' also same same'
  obtain ⟨c, there, named⟩ := List.mem_map.mp
    ((uniform.names way member name).mp (same ▸ Binding.mem_names inside))
  obtain ⟨t, own, other⟩ := alike.types c there b' also (named.trans same'.symm)
    (named ▸ once _ uniform.first) (named ▸ single)
  rw [uniform.types name once way member b inside c there same named, own, other]

theorem choose {first : Pattern} {rest : List Pattern}
    (each : ∀ c ∈ first :: rest, Uniform types c.selections c.bindings)
    (alike : ∀ c ∈ first :: rest, Interchangeable types c.bindings first.bindings) :
    Uniform types (Pattern.selectionsAny (first :: rest)) first.bindings where
  first := Pattern.mem_selectionsAny.mpr ⟨first, List.mem_cons_self, (each first List.mem_cons_self).first⟩
  names way member := by
    obtain ⟨c, chosen, inside⟩ := Pattern.mem_selectionsAny.mp member
    exact ((each c chosen).exchange (alike c chosen) inside).1
  types name once way member := by
    obtain ⟨c, chosen, inside⟩ := Pattern.mem_selectionsAny.mp member
    refine ((each c chosen).exchange (alike c chosen) inside).2 name
      (fun way within => once way (Pattern.mem_selectionsAny.mpr ⟨c, chosen, within⟩)) ?_
    exact once _ (Pattern.mem_selectionsAny.mpr
      ⟨first, List.mem_cons_self, (each first List.mem_cons_self).first⟩)

end Uniform

/-- The alternatives of each or-pattern among some nodes are alike. -/
def Even (types : NodeTable Ty) (nodes : List TreeNode) : Prop :=
  ∀ info choices, .pattern (.alternatives info choices) ∈ nodes → ∀ c ∈ choices,
    Interchangeable types c.bindings (Pattern.bindingsFirst choices)

section

variable {types : NodeTable Ty}

theorem Even.mono {nodes more : List TreeNode} (even : Even types nodes) (sub : more ⊆ nodes) : Even types more :=
  fun info choices member => even info choices (sub member)

mutual

/-- What holds of the alternatives of each or-pattern holds of all ways to choose among them. -/
theorem Even.uniform : ∀ {p : Pattern}, Even types p.nodes → Uniform types p.selections p.bindings
  | .wildcard _, _ => by
    rw [Pattern.selections, Pattern.bindings]
    exact .single []
  | .binding b, _ => by
    rw [Pattern.selections, Pattern.bindings]
    exact .single [b]
  | .literal .., _ => by
    rw [Pattern.selections, Pattern.bindings]
    exact .single []
  | .range .., _ => by
    rw [Pattern.selections, Pattern.bindings]
    exact .single []
  | .tuple info elements, even => by
    rw [Pattern.selections, Pattern.bindings]
    exact uniform_all (even.mono (by simp [Pattern.nodes]))
  | .list info front isOpen rest, even => by
    rw [Pattern.selections, Pattern.bindings]
    have inner : Uniform types _ _ :=
      uniform_all (even.mono (show Pattern.nodesAll front ⊆ _ by simp [Pattern.nodes]))
    simpa [List.map_eq_flatMap] using inner.append (.single rest.toList)
  | .record info name fields rest, even => by
    rw [Pattern.selections, Pattern.bindings]
    exact uniform_fields (even.mono (by simp [Pattern.nodes]))
  | .variant info enum tag args fields rest, even => by
    rw [Pattern.selections, Pattern.bindings]
    exact (uniform_all (even.mono (by simp [Pattern.nodes]))).append
      (uniform_fields (even.mono (by simp [Pattern.nodes])))
  | .alternatives info [], _ => by
    rw [Pattern.selections, Pattern.bindings]
    exact .single []
  | .alternatives info (first :: rest), even => by
    rw [Pattern.selections, Pattern.bindings]
    exact .choose (uniform_each (even.mono (by simp [Pattern.nodes])))
      (even info (first :: rest) (by simp [Pattern.nodes]))
  | .guarded info inner condition, even => by
    rw [Pattern.selections, Pattern.bindings]
    exact Even.uniform (even.mono (by simp [Pattern.nodes]))

theorem uniform_all : ∀ {ps : List Pattern}, Even types (Pattern.nodesAll ps) →
    Uniform types (Pattern.selectionsAll ps) (Pattern.bindingsAll ps)
  | [], _ => .single []
  | p :: rest, even => by
    rw [Pattern.selectionsAll, Pattern.bindingsAll]
    exact (Even.uniform (even.mono (by simp [Pattern.nodesAll]))).append
      (uniform_all (even.mono (by simp [Pattern.nodesAll])))

theorem uniform_fields : ∀ {fields : List FieldPattern}, Even types (FieldPattern.nodesAll fields) →
    Uniform types (Pattern.selectionsFields fields) (Pattern.bindingsFields fields)
  | [], _ => .single []
  | .mk name p :: rest, even => by
    rw [Pattern.selectionsFields, Pattern.bindingsFields]
    exact (Even.uniform (even.mono (by simp [FieldPattern.nodesAll]))).append
      (uniform_fields (even.mono (by simp [FieldPattern.nodesAll])))

theorem uniform_each : ∀ {ps : List Pattern}, Even types (Pattern.nodesAll ps) →
    ∀ p ∈ ps, Uniform types p.selections p.bindings
  | [], _ => List.forall_mem_nil _
  | p :: rest, even => List.forall_mem_cons.mpr
      ⟨Even.uniform (even.mono (by simp [Pattern.nodesAll])), uniform_each (even.mono (by simp [Pattern.nodesAll]))⟩

end

end

/-! ### Checks of alternatives -/

variable {ctx : Context}

/-- Bindings that can stand for others, as far as their types are found out yet. -/
structure State.Alike (s : State) (bs others : List Binding) : Prop where
  names : ∀ name, name ∈ Binding.names bs ↔ name ∈ Binding.names others
  types : ∀ b ∈ bs, ∀ b' ∈ others, b.name = b'.name → (Binding.names bs).count b.name ≤ 1 →
    (Binding.names others).count b.name ≤ 1 →
    ∃ t u, (b.info.id, t) ∈ s.notes.types ∧ (b'.info.id, u) ∈ s.notes.types ∧ s.Agree u t

instance (bs others : List Binding) : Lasting fun s => s.Alike bs others where
  lasts before alike := ⟨alike.names, fun b member b' also same once single => by
    obtain ⟨t, u, noted, other, agree⟩ := alike.types b member b' also same once single
    exact ⟨t, u, before.notes.types noted, before.notes.types other, agree.later before⟩⟩

namespace State.Declared

variable {s : State} {bs others : List Binding} {declared scope : List (String × Ty)}

theorem noted (known : s.Declared bs declared) {b : Binding} (member : b ∈ bs)
    (once : (Binding.names bs).count b.name ≤ 1) {t : Ty} (entry : (b.name, t) ∈ declared) :
    (b.info.id, t) ∈ s.notes.types := by
  obtain ⟨c, inside, same, found⟩ := known.only _ entry
  rwa [Binding.eq_of_once member inside same.symm once]

theorem alike_self (known : s.Declared bs declared) : s.Alike bs bs where
  names _ := .rfl
  types b member b' also same once _ := by
    obtain rfl := Binding.eq_of_once member also same once
    obtain ⟨t, -, noted⟩ := known.each b member
    exact ⟨t, t, noted, noted, fun _ _ _ => rfl⟩

theorem alike (outside : s.Declared others declared) (inside : s.Declared bs scope)
    (names : ∀ name, name ∈ Binding.names others ↔ name ∈ scope.map Prod.fst) {outer : List (List (String × Ty))}
    (agree : ∀ name bound t, scope.lookup name = some bound → visible? (declareAll declared outer) name = some t →
      s.Agree t bound) : s.Alike bs others where
  names name := (inside.names name).trans (names name).symm
  types b member b' also same once single := by
    obtain ⟨t, here, -⟩ := inside.each b member
    obtain ⟨bound, found⟩ := Option.isSome_iff_exists.mp
      (List.lookup_isSome_iff.mpr ⟨(b.name, t), here, beq_self_eq_true b.name⟩)
    obtain ⟨front, back, split, -⟩ := List.lookup_eq_some_iff.mp found
    obtain ⟨u, seen, there⟩ := visible?_declareAll ((outside.names b'.name).mp (Binding.mem_names also)) outer
    exact ⟨bound, u, inside.noted member once (by simp [split]), outside.noted also (same ▸ single) there,
      agree b.name bound u found (same ▸ seen)⟩

end State.Declared

theorem checkOthers_alike (collected : ctx.Collected) (first : Pattern) (declared : List (String × Ty))
    (outer : List (List (String × Ty))) (ps : List Pattern) (t : Ty) :
    Sound ctx (fun s => (s.Knows t ∧ s.Declared first.bindings declared) ∧ s.scopes = declareAll declared outer)
      (checkOthers ctx (first.bindings.map Binding.name).eraseDups ps t)
      fun _ s => ∀ p ∈ ps, s.Alike p.bindings first.bindings := by
  induction ps with
  | nil =>
    rw [checkOthers]
    exact .pure fun _ _ _ => List.forall_mem_nil _
  | cons p rest ih =>
    rw [checkOthers]
    let known (s : State) : Prop := s.Knows t ∧ s.Declared first.bindings declared
    refine .seq (push_within (P := known) _) fun _ => ?_
    have checked : Sound ctx known (checkPattern ctx p t) fun _ s => known s :=
      (checkPattern_sound collected.received p t).imp (fun _ _ given => given.1) fun _ _ given _ => given
    refine .seq (checked.within (checkPattern_leaves p t) _) fun _ => ?_
    refine .seq (pop_within (P := known) p.bindings _) fun scope => ?_
    have compared := ((ctx.compareBindings_agrees p.span (first.bindings.map Binding.name).eraseDups scope
      (declareAll declared outer)).frame fun s => known s ∧ s.Declared p.bindings scope).still
      (Context.compareBindings_leaves _ _ _) rfl (declareAll declared outer)
    refine .seq (compared.consequence (fun _ _ (given : (_ ∧ _ ∧ _) ∧ _) => ?_) fun _ _ found => found) fun _ => ?_
    · exact ⟨⟨⟨given.1.2.2, given.2⟩, given.1.1, given.1.2.1⟩, given.2⟩
    refine (ih.frame fun s => s.Alike p.bindings first.bindings) |>.consequence (fun s _ (given : (_ ∧ _) ∧ _) => ?_) fun _ _ found =>
        List.forall_mem_cons.mpr ⟨found.2, found.1⟩
    refine ⟨⟨given.1.2.1, given.2⟩, given.1.2.1.2.alike given.1.2.2 (fun name => ?_) given.1.1.2⟩
    rw [← given.1.1.1 name, List.mem_eraseDups]
    rfl

theorem checkChoices_alike (collected : ctx.Collected) (choices : List Pattern) (t : Ty) :
    Sound ctx (fun s => s.Knows t) (checkChoices ctx choices t)
      fun _ s => ∀ c ∈ choices, s.Alike c.bindings (Pattern.bindingsFirst choices) := by
  cases choices with
  | nil =>
    rw [checkChoices]
    exact .pure fun _ _ _ => List.forall_mem_nil _
  | cons first rest =>
    rw [checkChoices]
    refine .entering fun scopes => ?_
    have checked : Sound ctx (fun s => s.Knows t) (checkPattern ctx first t) fun _ s => s.Knows t :=
      (checkPattern_sound collected.received first t).imp (fun _ _ given => given) fun _ _ given _ => given
    refine .seq (checked.within (checkPattern_leaves first t) scopes) fun _ => ?_
    refine .consequence (.of_exists fun declared =>
      (checkOthers_alike collected first declared scopes rest t).frame fun s => s.Alike first.bindings first.bindings)
      (fun _ _ given => ?_) fun _ _ found => List.forall_mem_cons.mpr ⟨found.2, found.1⟩
    obtain ⟨known, declared, own, same⟩ := given
    exact ⟨declared, ⟨⟨known, own⟩, same⟩, own.alike_self⟩

theorem checkPattern_alike (collected : ctx.Collected) (info : NodeInfo) (choices : List Pattern) (t : Ty) :
    Sound ctx (fun s => s.Knows t) (checkPattern ctx (.alternatives info choices) t)
      fun _ s => ∀ c ∈ choices, s.Alike c.bindings (Pattern.bindingsFirst choices) := by
  rw [checkPattern]
  refine .bind (record_sound info.id t) fun _ => ?_
  exact (checkChoices_alike collected choices t).imp (fun _ _ given => given.1) fun _ _ _ found => found

theorem Accepted.even {p : Program} {f : FuncDecl} {result : Result} {last : State}
    (done : Accepted p f result ctx last) (collected : ctx.Collected) : Even result.notes.types f.body.nodes := by
  intro info choices inside c chosen
  obtain ⟨t, -, ran⟩ := done.covered _ inside
  obtain ⟨-, s, before, alike⟩ := done.of_ran (checkPattern_alike collected info choices t) ran
  refine ⟨(alike c chosen).names, fun b member b' also same once single => ?_⟩
  obtain ⟨t, u, noted, other, agree⟩ := (alike c chosen).types b member b' also same once single
  refine ⟨last.engine.resolve t, done.get?_type (before.notes.types noted), ?_⟩
  rw [done.get?_type (before.notes.types other), agree last before done.proper]

/-- The or-patterns of a function that is accepted: each choice among its alternatives, and among those of the
or-patterns inside, binds the names that the first alternatives bind, and a name that no choice binds twice has one type
in all of them. -/
theorem check_alternatives_agree {p : Program} (decoded : p.Decoded) (collected : p.collect.2 = []) (named : p.Named)
    {f : FuncDecl} {position : Nat} (member : (f, position) ∈ p.functions.zipIdx) {result : Result}
    (checked : check p.collect.1 position f = .ok result) (accepted : result.diagnostics = []) :
    ∀ info choices, .pattern (.alternatives info choices) ∈ f.body.nodes →
      (∀ way ∈ (Pattern.alternatives info choices).selections, ∀ name,
        name ∈ Binding.names way ↔ name ∈ Binding.names (Pattern.alternatives info choices).bindings) ∧
      ∀ name, (∀ way ∈ (Pattern.alternatives info choices).selections, (Binding.names way).count name ≤ 1) →
        ∃ t, ∀ way ∈ (Pattern.alternatives info choices).selections, ∀ b ∈ way, b.name = name →
          result.notes.types.get? b.info.id = some t := by
  intro info choices inside
  obtain ⟨ctx, last, done⟩ := check_accepted decoded collected named member checked accepted
  have even := done.even (Context.collected decoded done.table)
  have uniform : Uniform _ (Pattern.alternatives info choices).selections _ :=
    (even.mono (Block.nodes_nested f.body _ inside)).uniform
  refine ⟨uniform.names, fun name once => ?_⟩
  by_cases bound : name ∈ Binding.names (Pattern.alternatives info choices).bindings
  · obtain ⟨b, there, rfl⟩ := List.mem_map.mp bound
    have single := once _ uniform.first
    rw [Pattern.bindings] at there single
    obtain ⟨first, chosen, own⟩ : ∃ first ∈ choices, Pattern.bindingsFirst choices = first.bindings := by
      cases choices with
      | nil => simp [Pattern.bindingsFirst] at there
      | cons first rest => exact ⟨first, List.mem_cons_self, rfl⟩
    obtain ⟨t, noted, -⟩ := (even info choices inside first chosen).types b (own ▸ there) b there rfl
      (own ▸ single) single
    refine ⟨t, fun way member c within same => ?_⟩
    exact (uniform.types _ once way member c within b (by rwa [Pattern.bindings]) same rfl).trans noted
  · refine ⟨.unit, fun way member c within same => absurd ?_ bound⟩
    exact (uniform.names way member name).mp (same ▸ Binding.mem_names within)

section

open Syntax

def orNode (choices : List Document.Node) : Document.Node := mappingNode [("or", listNode choices)]

def choosingNodes : List Document.Node :=
  [orNode [mappingNode [("variant", textNode "E::A"), ("args", listNode [textNode "z"])],
    mappingNode [("variant", textNode "E::B"), ("fields", mappingNode [("x", textNode "z"),
      ("y", orNode [truthNode "true", truthNode "false"])])]]]

def choosingPatterns : List Pattern :=
  [.alternatives unnumbered [.variant unnumbered "E" "A" [.binding ⟨unnumbered, "z", false⟩] [] false,
    .variant unnumbered "E" "B" [] [.mk "x" (.binding ⟨unnumbered, "z", false⟩),
      .mk "y" (.alternatives unnumbered [.literal unnumbered (.bool true), .literal unnumbered (.bool false)])] false]]

theorem readProgram_choosing : readProgram (matchingOn choosingNodes) =
    .ok ⟨"", "t.yaml", [.enum shape, .function (matchingFunction choosingPatterns)]⟩ := by
  with_unfolding_all rfl

theorem check_alternatives_agree_choosing : ∃ p : Program, p.Decoded ∧ p.collect.2 = [] ∧ p.Named ∧
    ∃ f result, (f, 0) ∈ p.functions.zipIdx ∧ check p.collect.1 0 f = .ok result ∧ result.diagnostics = [] ∧
    ∀ info choices, .pattern (.alternatives info choices) ∈ f.body.nodes →
      (∀ way ∈ (Pattern.alternatives info choices).selections, ∀ name,
        name ∈ Binding.names way ↔ name ∈ Binding.names (Pattern.alternatives info choices).bindings) ∧
      ∀ name, (∀ way ∈ (Pattern.alternatives info choices).selections, (Binding.names way).count name ≤ 1) →
        ∃ t, ∀ way ∈ (Pattern.alternatives info choices).selections, ∀ b ∈ way, b.name = name →
          result.notes.types.get? b.info.id = some t := by
  have decoded : (matchingProgram choosingPatterns).Decoded := ⟨_, _, readProgram_choosing, rfl⟩
  have collected : (matchingProgram choosingPatterns).collect.2 = [] :=
    List.eq_nil_of_length_eq_zero (by decide +kernel)
  have passed : passes (check (matchingProgram choosingPatterns).collect.1 0 (matching choosingPatterns)) = true := by
    cbv
  obtain ⟨result, checked, accepted⟩ := exists_of_passes passed
  exact ⟨_, decoded, collected, matchingProgram_named _, _, result, matching_mem _, checked, accepted,
    check_alternatives_agree decoded collected (matchingProgram_named _) (matching_mem _) checked accepted⟩

/-- A function that matches a pair, of which one part is a call of a method there is none of. -/
def swapping : Input :=
  let pair (parts : List Document.Node) := mappingNode [("tuple", listNode parts)]
  let call := mappingNode [("method", textNode "m"),
    ("on", mappingNode [("fields", mappingNode [("x", truthNode "true")])])]
  documentOf [mappingNode [("struct", textNode ""), ("fields", mappingNode [("x", textNode "bool")])],
    mappingNode [("fn", textNode "f"), ("body", listNode [mappingNode [("match", pair [call, truthNode "true"]),
      ("arms", listNode [mappingNode [
        ("pattern", orNode [pair [textNode "a", textNode "_"], pair [textNode "_", textNode "a"]]),
        ("body", mappingNode [("block", listNode [])])]])]])]]

def swap : FuncDecl :=
  let pattern (parts : List Pattern) : Pattern := .tuple unnumbered parts
  let call : Expr := .methodCall unnumbered (.struct unnumbered "" [.mk "x" origin (.bool unnumbered true)]) "m" []
  { (default : FuncDecl) with
    name := "f"
    body := .mk unnumbered [.expr origin (.select unnumbered (.tuple unnumbered [call, .bool unnumbered true])
      [.mk origin (.alternatives unnumbered
        [pattern [.binding ⟨unnumbered, "a", false⟩, .wildcard unnumbered],
          pattern [.wildcard unnumbered, .binding ⟨unnumbered, "a", false⟩]]) none
        (.block (.mk unnumbered [] none))])] none
    span := origin }

theorem readProgram_swapping : readProgram swapping = .ok ⟨"", "t.yaml", [.struct unnamed, .function swap]⟩ := by
  with_unfolding_all rfl

/-- A fault goes with every type, so that a name may have one in one alternative only. -/
theorem check_accepts_swapped : ∃ p : Program, p.Decoded ∧ p.collect.2 = [] ∧
    ∃ f result, (f, 0) ∈ p.functions.zipIdx ∧ check p.collect.1 0 f = .ok result ∧ result.diagnostics = [] ∧
    ∃ info first second, .pattern (.alternatives info [first, second]) ∈ f.body.nodes ∧
      ∃ b b', first.bindings = [b] ∧ second.bindings = [b'] ∧ b.name = b'.name ∧
        result.notes.types.get? b.info.id ≠ result.notes.types.get? b'.info.id := by
  let p : Program := (Program.number ⟨"", "t.yaml", [.struct unnamed, .function swap]⟩).1
  let f : FuncDecl := { swap with body := (swap.body.number 0).1 }
  have collected : p.collect.2 = [] := List.eq_nil_of_length_eq_zero (by decide +kernel)
  have passed : passes (check p.collect.1 0 f) = true := by cbv
  obtain ⟨result, checked, accepted⟩ := exists_of_passes passed
  refine ⟨p, ⟨_, _, readProgram_swapping, rfl⟩, collected, f, result, List.mem_cons_self, checked, accepted,
    _, _, _, List.mem_of_getElem? (i := 8) rfl, _, _, rfl, rfl, rfl, ?_⟩
  have faulty : ((check p.collect.1 0 f).toOption.map fun result =>
      ((result.notes.types.get? 10).map Ty.isInvalid, (result.notes.types.get? 14).map Ty.isInvalid)) =
        some (some true, some false) := by cbv
  rw [checked] at faulty
  obtain ⟨first, second⟩ := Prod.mk.inj (Option.some.inj faulty)
  intro same
  have same : result.notes.types.get? 10 = result.notes.types.get? 14 := same
  rw [same, second] at first
  cases first

end

end Typing

end TreeCheck
