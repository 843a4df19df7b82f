import TreeCheck.Proofs.Match.Verdicts
import TreeCheck.Proofs.Syntax.Documents
import TreeCheck.Proofs.Syntax.Legible
import TreeCheck.Proofs.Typing.WellTyped

/-!
The patterns of accepted functions. Each is a pattern of the type that is found for it, so match compilation and the
reference matcher look for the same patterns at the same places, wherever a rest stands for named fields only.
-/

namespace TreeCheck

namespace Pattern

/-- A pattern that is read as it is written: it is no float literal, what it binds has a name, the elements behind its
last one are bound only if there may be some, and only variants with named fields are matched with a rest. -/
def plain (decls : Decls) : Pattern → Bool
  | .binding b => !b.name.isEmpty
  | .literal _ (.float _) => false
  | .list _ _ isOpen rest => (isOpen || rest.isNone) && rest.all fun b => !b.name.isEmpty
  | .variant _ _ tag _ _ rest => !rest || decls.enums.all fun d => (d.variant? tag).all Variant.isNamed
  | _ => true

variable {decls : Decls}

theorem strip_integer {t : Ty} (integer : t.isInteger = true) : t.strip.2 = t := by
  cases t <;> first
    | rfl
    | cases integer

theorem unrest {info : NodeInfo} {enum variant : String} {args : List Pattern} {fields : List FieldPattern}
    {rest : Bool} (plain : (Pattern.variant info enum variant args fields rest).plain decls = true) {d : EnumDef}
    {v : Variant} (declared : decls.enum? d.name = some d) (member : d.variant? variant = some v)
    (unnamed : v.isNamed = false) : rest = false := by
  rw [Pattern.plain, Bool.or_eq_true] at plain
  refine plain.elim (by simp) fun all => ?_
  have named := List.all_eq_true.mp all d (List.mem_of_find?_eq_some declared)
  simp [member, unnamed] at named

mutual

theorem HasType.fits : ∀ {p : Pattern} {t : Ty}, HasType decls p t → p.every (plain decls) = true →
    Match.fits decls p t = true
  | .wildcard _, _, _, _ => by rw [Match.fits]
  | .binding b, _, _, plain => by
    rw [Match.fits]
    simpa [every, Pattern.plain] using plain
  | .literal _ value, t, typed, plain => by
    rw [Match.fits]
    cases typed with
    | int integer =>
      rw [strip_integer integer]
      cases t <;> first
        | rfl
        | cases integer
    | float => simp [every, Pattern.plain] at plain
    | string => rfl
    | bool => rfl
  | .range .., _, typed, _ => by
    rw [Match.fits]
    cases typed with
    | range integer => rw [strip_integer integer, integer]
  | .tuple _ elements, _, typed, plain => by
    obtain ⟨-, each⟩ := Bool.and_eq_true_iff.mp (by rwa [every] at plain)
    cases typed with
    | tuple parts =>
      have inside := fits_all parts each
      rw [Match.fits]
      cases parts with
      | nil => rfl
      | cons => exact inside
  | .list _ front isOpen rest, _, typed, plain => by
    obtain ⟨own, each⟩ := Bool.and_eq_true_iff.mp (by rwa [every] at plain)
    cases typed with
    | list parts =>
      have own : (isOpen || rest.isNone) = true ∧ (rest.all fun b => !b.name.isEmpty) = true :=
        Bool.and_eq_true_iff.mp own
      rw [Match.fits]
      simp only [Ty.strip, fits_each parts each, own.1, own.2, Bool.and_self]
  | .record _ _ fields _, _, typed, plain => by
    obtain ⟨-, each⟩ := Bool.and_eq_true_iff.mp (by rwa [every] at plain)
    cases typed with
    | record names parts =>
      rw [Match.fits]
      exact fits_fields names.once names.known parts each
  | .variant _ _ _ args fields rest, _, typed, plain => by
    obtain ⟨own, inside⟩ := Bool.and_eq_true_iff.mp (by rwa [every] at plain)
    obtain ⟨each, eachField⟩ := Bool.and_eq_true_iff.mp inside
    rw [Match.fits]
    cases typed with
    | named declared member named names parts =>
      simp only [Ty.strip, declared, member, named, if_true, List.isEmpty_nil, Bool.true_and]
      exact fits_fields names.once names.known parts eachField
    | positional declared member unnamed parts =>
      simp only [Ty.strip, declared, member, unnamed, unrest own declared member unnamed, Bool.false_eq_true,
        if_false, List.isEmpty_nil, Bool.not_false, Bool.true_and]
      exact fits_all parts each
  | .alternatives _ choices, _, typed, plain => by
    obtain ⟨-, each⟩ := Bool.and_eq_true_iff.mp (by rwa [every] at plain)
    cases typed with
    | alternatives parts =>
      rw [Match.fits]
      exact fits_each parts each
  | .guarded _ inner _, _, typed, plain => by
    obtain ⟨-, each⟩ := Bool.and_eq_true_iff.mp (by rwa [every] at plain)
    cases typed with
    | guarded inside =>
      rw [Match.fits]
      exact inside.fits each

theorem fits_each : ∀ {ps : List Pattern} {t : Ty}, (∀ p ∈ ps, HasType decls p t) →
    everyEach (plain decls) ps = true → Match.fitsEach decls ps t = true
  | [], _, _, _ => by rw [Match.fitsEach]
  | p :: rest, _, typed, plain => by
    obtain ⟨first, others⟩ := Bool.and_eq_true_iff.mp (by rwa [everyEach] at plain)
    obtain ⟨head, tail⟩ := List.forall_mem_cons.mp typed
    rw [Match.fitsEach, head.fits first, fits_each tail others, Bool.and_self]

theorem fits_all : ∀ {ps : List Pattern} {types : List Ty}, List.Forall₂ (HasType decls) ps types →
    everyEach (plain decls) ps = true → Match.fitsAll decls ps types = true
  | [], _, typed, _ => by
    cases typed
    rw [Match.fitsAll]
  | p :: rest, _, typed, plain => by
    obtain ⟨first, others⟩ := Bool.and_eq_true_iff.mp (by rwa [everyEach] at plain)
    cases typed with
    | cons head tail => rw [Match.fitsAll, head.fits first, fits_all tail others, Bool.and_self]

theorem fits_fields : ∀ {fields : List FieldPattern} {declared : List Field},
    (fields.map FieldPattern.name).Nodup → (∀ field ∈ fields, ∃ f ∈ declared, f.name = field.name) →
    (∀ field ∈ fields, ∀ f ∈ declared, f.name = field.name → HasType decls field.pattern f.type) →
    everyField (plain decls) fields = true → Match.fitsFields decls fields declared = true
  | [], _, _, _, _, _ => by rw [Match.fitsFields]
  | .mk name p :: rest, declared, once, known, typed, plain => by
    obtain ⟨first, others⟩ := Bool.and_eq_true_iff.mp (by rwa [everyField] at plain)
    obtain ⟨new, once⟩ := List.nodup_cons.mp once
    obtain ⟨here, known⟩ := List.forall_mem_cons.mp known
    obtain ⟨own, typed⟩ := List.forall_mem_cons.mp typed
    rw [Match.fitsFields, fits_fields once known typed others, Bool.and_true]
    refine Bool.and_eq_true_iff.mpr ⟨Bool.and_eq_true_iff.mpr ⟨?_, ?_⟩, ?_⟩
    · exact List.any_eq_true.mpr (here.imp fun f given => ⟨given.1, beq_iff_eq.mpr given.2⟩)
    · refine List.all_eq_true.mpr fun f member => ?_
      by_cases same : f.name = name
      · exact Bool.or_eq_true_iff.mpr (.inr ((own f member same).fits first))
      · simp [same]
    · refine Bool.not_eq_true' _ |>.mpr (List.any_eq_false.mpr fun other member same => new ?_)
      exact List.mem_map.mpr ⟨other, member, beq_iff_eq.mp same⟩

end

end Pattern

namespace Typing

section

variable {ctx : Context} {notes : Annotations}

mutual

theorem Matches.hasType (collected : ctx.Collected) : ∀ {p : Pattern} {Γ Δ : Env} {t : Ty},
    Matches ctx notes Γ p t Δ → Pattern.HasType ctx.table.decls p t
  | .wildcard _, _, _, _, _ => .wildcard
  | .binding _, _, _, _, _ => .binding
  | .literal _ _, _, _, _, ⟨_, rule⟩ => by
    cases rule with
    | int integer => exact .int integer
    | float float => exact .float float
    | string => exact .string
    | bool => exact .bool
  | .range .., _, _, _, ⟨_, rule⟩ => by
    cases rule with
    | range integer => exact .range integer
  | .tuple .., _, _, _, ⟨_, rule⟩ => by
    cases rule with
    | tuple parts => exact .tuple (hasType_all collected parts)
  | .list .., _, _, _, ⟨_, rule⟩ => by
    cases rule with
    | list parts | listRest parts =>
      have each := hasType_all collected parts
      rw [← List.map_const', List.forall₂_map_right_iff, List.forall₂_same] at each
      exact .list each
  | .record .., _, _, _, ⟨_, rule⟩ => by
    cases rule with
    | record names parts => exact .record names (hasType_fields collected (collected.fields_nodup _ _) parts)
  | .variant .., _, _, _, ⟨_, rule⟩ => by
    cases rule with
    | named declared _ named names parts =>
      obtain ⟨enum, variant⟩ := collected.variant declared
      exact .named enum variant named names (hasType_fields collected (collected.slots_nodup declared named _) parts)
    | positional declared _ unnamed parts =>
      obtain ⟨enum, variant⟩ := collected.variant declared
      exact .positional enum variant unnamed (hasType_all collected parts)
  | .alternatives _ choices, _, _, t, ⟨_, rule⟩ => by
    have each : ∀ p ∈ choices, ∃ Γ Δ, Matches ctx notes Γ p t Δ := by
      cases rule with
      | noChoice => exact List.forall_mem_nil _
      | alternatives start others =>
        refine List.forall_mem_cons.mpr ⟨⟨_, _, start⟩, fun p member => ?_⟩
        obtain ⟨matched, -⟩ := others p member
        exact ⟨_, _, matched⟩
    exact .alternatives (hasType_each collected each)
  | .guarded .., _, _, _, ⟨_, rule⟩ => by
    cases rule with
    | guarded matched _ => exact .guarded (Matches.hasType collected matched)

theorem hasType_all (collected : ctx.Collected) : ∀ {ps : List Pattern} {Γ Δ : Env} {types : List Ty},
    MatchesAll ctx notes Γ ps types Δ → List.Forall₂ (Pattern.HasType ctx.table.decls) ps types
  | [], _, _, _, .nil => .nil
  | _ :: _, _, _, _, .cons first others => .cons (Matches.hasType collected first) (hasType_all collected others)

theorem hasType_fields (collected : ctx.Collected) {declared : List Field} (once : (declared.map Field.name).Nodup) :
    ∀ {fields : List FieldPattern} {Γ Δ : Env}, FieldsMatch ctx notes declared Γ fields Δ →
      ∀ field ∈ fields, ∀ f ∈ declared, f.name = field.name → Pattern.HasType ctx.table.decls field.pattern f.type
  | [], _, _, _ => List.forall_mem_nil _
  | .mk _ _ :: _, _, _, .cons known first others => List.forall_mem_cons.mpr
      ⟨fun _ member same => List.inj_on_of_nodup_map once known member same.symm ▸ Matches.hasType collected first,
        hasType_fields collected once others⟩

theorem hasType_each (collected : ctx.Collected) {t : Ty} : ∀ {choices : List Pattern},
    (∀ p ∈ choices, ∃ Γ Δ, Matches ctx notes Γ p t Δ) → ∀ p ∈ choices, Pattern.HasType ctx.table.decls p t
  | [], _ => List.forall_mem_nil _
  | p :: rest, matched => by
    obtain ⟨⟨Γ, Δ, first⟩, others⟩ := List.forall_mem_cons.mp matched
    exact List.forall_mem_cons.mpr ⟨Matches.hasType collected first, hasType_each collected others⟩

end

end

/-- The patterns of a function that is accepted: each is a pattern of the type that is found for it. So it is read as
it is written, wherever it is plain. -/
theorem check_types_patterns {p : Program} (decoded : p.Decoded) (collected : p.collect.2 = []) (named : p.Named)
    {f : FuncDecl} {position : Nat} (member : (f, position) ∈ p.functions.zipIdx) {result : Result}
    (checked : check p.collect.1 position f = .ok result) (accepted : result.diagnostics = []) :
    ∀ q, .pattern q ∈ f.body.nodes → ∃ t, result.notes.types.get? q.id = some t ∧
      Pattern.HasType p.collect.1.decls q t ∧
      (q.every (Pattern.plain p.collect.1.decls) = true → Match.fits p.collect.1.decls q t = true) := by
  intro q inside
  obtain ⟨ctx, last, done⟩ := check_accepted decoded collected named member checked accepted
  have known := Context.collected decoded done.table
  obtain ⟨_, t, _, matched⟩ := done.pattern_typed known inside
  obtain ⟨noted, -⟩ := id matched
  have typed := matched.hasType known
  rw [done.table] at typed
  exact ⟨t, noted, typed, typed.fits⟩

/-! ### Patterns of an enum -/

section

open Syntax

def shapeNodes : List Document.Node :=
  [mappingNode [("variant", textNode "E::A"), ("args", listNode [textNode "x"])],
    mappingNode [("variant", textNode "E::B"), ("fields", mappingNode [("y", truthNode "true")]),
      ("rest", truthNode "true")],
    textNode "_"]

def shapePatterns : List Pattern :=
  [.variant unnumbered "E" "A" [.binding ⟨unnumbered, "x", false⟩] [] false,
    .variant unnumbered "E" "B" [] [.mk "y" (.literal unnumbered (.bool true))] true, .wildcard unnumbered]

theorem readProgram_shapes : readProgram (matchingOn shapeNodes) =
    .ok ⟨"", "t.yaml", [.enum shape, .function (matchingFunction shapePatterns)]⟩ := by
  with_unfolding_all rfl

theorem check_types_patterns_shapes : ∃ p : Program, p.Decoded ∧ p.collect.2 = [] ∧ p.Named ∧
    ∃ f result, (f, 0) ∈ p.functions.zipIdx ∧ check p.collect.1 0 f = .ok result ∧ result.diagnostics = [] ∧
    ∀ q, .pattern q ∈ f.body.nodes → ∃ t, result.notes.types.get? q.id = some t ∧
      Pattern.HasType p.collect.1.decls q t ∧
      (q.every (Pattern.plain p.collect.1.decls) = true → Match.fits p.collect.1.decls q t = true) := by
  have decoded : (matchingProgram shapePatterns).Decoded := ⟨_, _, readProgram_shapes, rfl⟩
  have collected : (matchingProgram shapePatterns).collect.2 = [] := List.eq_nil_of_length_eq_zero (by decide +kernel)
  have passed : passes (check (matchingProgram shapePatterns).collect.1 0 (matching shapePatterns)) = true := by cbv
  obtain ⟨result, checked, accepted⟩ := exists_of_passes passed
  exact ⟨_, decoded, collected, matchingProgram_named _, _, result, matching_mem _, checked, accepted,
    check_types_patterns decoded collected (matchingProgram_named _) (matching_mem _) checked accepted⟩

def loosePatterns : List Pattern :=
  [.variant unnumbered "E" "A" [.binding ⟨unnumbered, "x", false⟩] [] true,
    .variant unnumbered "E" "B" [] [.mk "x" (.binding ⟨unnumbered, "z", false⟩),
      .mk "y" (.binding ⟨unnumbered, "z", false⟩)] false, .wildcard unnumbered]

def looseNodes : List Document.Node :=
  [mappingNode [("variant", textNode "E::A"), ("args", listNode [textNode "x"]), ("rest", truthNode "true")],
    mappingNode [("variant", textNode "E::B"), ("fields", mappingNode [("x", textNode "z"), ("y", textNode "z")])],
    textNode "_"]

theorem readProgram_loose : readProgram (matchingOn looseNodes) =
    .ok ⟨"", "t.yaml", [.enum shape, .function (matchingFunction loosePatterns)]⟩ := by
  with_unfolding_all rfl

/-- A rest is accepted next to positional arguments, and so is a name that is bound twice. -/
theorem check_accepts_loose : ∃ p : Program, p.Decoded ∧ p.collect.2 = [] ∧ p.Named ∧
    ∃ f result, (f, 0) ∈ p.functions.zipIdx ∧ check p.collect.1 0 f = .ok result ∧ result.diagnostics = [] ∧
      (∃ info argument, .pattern (.variant info "E" "A" [argument] [] true) ∈ f.body.nodes ∧
        ((p.collect.1.decls.enum? "E").bind fun d => d.variant? "A").map Variant.isNamed = some false) ∧
      ∃ q, .pattern q ∈ f.body.nodes ∧ ¬ (q.bindings.map Binding.name).Nodup := by
  have decoded : (matchingProgram loosePatterns).Decoded := ⟨_, _, readProgram_loose, rfl⟩
  have collected : (matchingProgram loosePatterns).collect.2 = [] := List.eq_nil_of_length_eq_zero (by decide +kernel)
  have passed : passes (check (matchingProgram loosePatterns).collect.1 0 (matching loosePatterns)) = true := by cbv
  obtain ⟨result, checked, accepted⟩ := exists_of_passes passed
  refine ⟨_, decoded, collected, matchingProgram_named _, _, result, matching_mem _, checked, accepted,
    ⟨_, _, List.mem_of_getElem? (i := 3) rfl, by decide +kernel⟩,
    _, List.mem_of_getElem? (i := 6) rfl, by decide +kernel⟩

end

end Typing

end TreeCheck
