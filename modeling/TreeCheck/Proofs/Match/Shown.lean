import TreeCheck.Proofs.Match.Columns

/-!
What the patterns of witnesses match. A pattern put together for a product or for a passed test matches the values of
that form whose parts are matched by its own; for a range only the lowest integer is shown, and wild fields are left
out.
-/

namespace TreeCheck.Match

def Matches (p : Pattern) (x : Value) : Prop := ways p x ≠ []

/-- Whether a value passes a test and is one that the pattern shown for the test stands for: of a range only the
lowest integer is shown. -/
def Test.picks : Test → Value → Bool
  | .range low _, x => literalMatches (.int low) x
  | test, x => test.accepts x

/-- Patterns match the values at their positions, as far as there are both. -/
def MatchesAll (ps : List Pattern) (values : List Value) : Prop :=
  ∀ (i : Nat) p x, ps[i]? = some p → values[i]? = some x → Matches p x

theorem matches_wild {p : Pattern} (wild : Frame.isWildcard p = true) (x : Value) : Matches p x := by
  cases p <;> simp [Frame.isWildcard] at wild
  simp [Matches, ways]

theorem matchesAll_nil (values : List Value) : MatchesAll [] values := by
  simp [MatchesAll]

theorem matchesAll_cons {p : Pattern} {ps : List Pattern} {x : Value} {values : List Value} :
    MatchesAll (p :: ps) (x :: values) ↔ Matches p x ∧ MatchesAll ps values := by
  constructor
  · intro all
    exact ⟨all 0 p x rfl rfl, fun i q y left right => all (i + 1) q y left right⟩
  · rintro ⟨first, later⟩ i q y left right
    cases i with
    | zero =>
      cases left
      cases right
      exact first
    | succ i => exact later i q y left right

theorem matchesAll_take {ps : List Pattern} {values : List Value} {count : Nat} (fewer : ps.length ≤ count) :
    MatchesAll ps (values.take count) ↔ MatchesAll ps values := by
  have same {i : Nat} {p : Pattern} (left : ps[i]? = some p) : (values.take count)[i]? = values[i]? := by
    have inside := (List.getElem?_eq_some_iff.mp left).1
    exact List.getElem?_take_of_lt (by omega)
  constructor
  · intro all i p x left right
    exact all i p x left ((same left).trans right)
  · intro all i p x left right
    exact all i p x left ((same left).symm.trans right)

/-- Wildcards at the end do not matter. -/
theorem matchesAll_append_wild {ps wilds : List Pattern} (all : ∀ p ∈ wilds, Frame.isWildcard p = true)
    {values : List Value} : MatchesAll (ps ++ wilds) values ↔ MatchesAll ps values := by
  constructor
  · intro every i p x left right
    have inside := (List.getElem?_eq_some_iff.mp left).1
    exact every i p x (by rw [List.getElem?_append_left inside, left]) right
  · intro every i p x left right
    rcases Nat.lt_or_ge i ps.length with inside | outside
    · rw [List.getElem?_append_left inside] at left
      exact every i p x left right
    · rw [List.getElem?_append_right outside] at left
      exact matches_wild (all p (List.mem_of_getElem? left)) x

theorem waysAll_ne_nil {ps : List Pattern} {values : List Value} (enough : ps.length ≤ values.length) :
    waysAll ps values ≠ [] ↔ MatchesAll ps values := by
  induction ps generalizing values with
  | nil => exact iff_of_true (by simp [waysAll]) (matchesAll_nil values)
  | cons p ps ih =>
    cases values with
    | nil => simp at enough
    | cons x values =>
      have step : waysAll (p :: ps) (x :: values) = cross (ways p x) (waysAll ps values) := rfl
      rw [step, Ne, cross_eq_nil, not_or, matchesAll_cons]
      exact and_congr Iff.rfl (ih (by simpa using enough))

theorem waysFields_ne_nil {fields : List FieldPattern} {names : List String} {values : List Value} :
    waysFields fields names values ≠ [] ↔
      ∀ name p, FieldPattern.mk name p ∈ fields → ∃ x, fieldValue? name names values = some x ∧ Matches p x := by
  induction fields with
  | nil => simp [waysFields]
  | cons f fields ih =>
    obtain ⟨name, p⟩ := f
    have split : (∀ other q, FieldPattern.mk other q ∈ FieldPattern.mk name p :: fields →
          ∃ x, fieldValue? other names values = some x ∧ Matches q x) ↔
        (∃ x, fieldValue? name names values = some x ∧ Matches p x) ∧
          ∀ other q, FieldPattern.mk other q ∈ fields →
            ∃ x, fieldValue? other names values = some x ∧ Matches q x := by
      simp [or_imp, forall_and]
    rw [split, ← ih, waysFields]
    cases fieldValue? name names values with
    | none => simp
    | some x =>
      have step : ((ways p x).flatMap fun way => (waysFields fields names values).map way.append) =
        cross (ways p x) (waysFields fields names values) := rfl
      simp [step, cross_eq_nil, Matches]

/-- Fields by their names match as their patterns do by position, wild ones left out. -/
theorem waysFields_shown {names : List String} (once : names.Nodup) {values : List Value}
    (sized : names.length = values.length) {args : List Pattern} {shown : List FieldPattern}
    (sound : ∀ name p, FieldPattern.mk name p ∈ shown →
      ∃ i : Nat, names[i]? = some name ∧ args[i]? = some p)
    (complete : ∀ (i : Nat) name p, names[i]? = some name → args[i]? = some p →
      Frame.isWildcard p = true ∨ FieldPattern.mk name p ∈ shown) :
    waysFields shown names values ≠ [] ↔ MatchesAll args values := by
  have value {i : Nat} {name : String} {x : Value} (named : names[i]? = some name)
      (there : values[i]? = some x) : fieldValue? name names values = some x :=
    fieldValue?_eq_some once sized.le named there
  rw [waysFields_ne_nil]
  constructor
  · intro each i p x left right
    have inside : i < names.length := by
      rw [sized]
      exact (List.getElem?_eq_some_iff.mp right).1
    have named := List.getElem?_eq_getElem inside
    rcases complete i names[i] p named left with wild | member
    · exact matches_wild wild x
    · obtain ⟨y, found, hit⟩ := each _ p member
      obtain rfl := Option.some.inj (found.symm.trans (value named right))
      exact hit
  · intro all name p member
    obtain ⟨i, named, left⟩ := sound name p member
    have inside : i < values.length := by
      rw [← sized]
      exact (List.getElem?_eq_some_iff.mp named).1
    have there := List.getElem?_eq_getElem inside
    exact ⟨values[i], value named there, all i p _ left there⟩

theorem structPattern_matches {fields : List Field} (once : (fields.map Field.name).Nodup) (name : String)
    (args : List Pattern) {values : List Value} (sized : values.length = fields.length) :
    Matches (Frame.structPattern name fields args) (.struct (fields.map Field.name) values) ↔
      MatchesAll args values := by
  refine waysFields_shown once (by simpa using sized.symm) ?_ ?_
  · intro label p member
    obtain ⟨⟨f, q⟩, pair, kept⟩ := List.mem_filterMap.mp member
    obtain ⟨i, here⟩ := List.mem_iff_getElem?.mp pair
    obtain ⟨left, right⟩ := List.getElem?_zip_eq_some.mp here
    obtain ⟨rfl, rfl⟩ := FieldPattern.mk.inj (Option.some.inj (Option.ite_none_left_eq_some.mp kept).2)
    exact ⟨i, by simp [left], right⟩
  · intro i label p named there
    obtain ⟨f, here, rfl⟩ : ∃ f, fields[i]? = some f ∧ f.name = label := by simpa using named
    cases wild : Frame.isWildcard p with
    | true => exact .inl rfl
    | false =>
      refine .inr (List.mem_filterMap.mpr ⟨(f, p), ?_, by simp [wild]⟩)
      exact List.mem_of_getElem? (List.getElem?_zip_eq_some.mpr ⟨here, there⟩)

theorem variantPattern_picks (d : EnumDef) {v : Variant} (named : v.isNamed = true) (args : List Pattern) :
    ∃ pick : String × Option Pattern → Option FieldPattern,
      Family.variantPattern d v args = .variant default d.name v.name []
        ((v.fields.zipIdx.map fun (f, i) => (f.name, args[i]?)).filterMap pick)
        (((v.fields.zipIdx.map fun (f, i) => (f.name, args[i]?)).filterMap pick).length <
          (v.fields.zipIdx.map fun (f, i) => (f.name, args[i]?)).length) ∧
      ∀ label slot name p, pick (label, slot) = some (.mk name p) ↔
        Frame.isWildcard p = false ∧ label = name ∧ slot = some p := by
  refine ⟨_, by rw [Family.variantPattern, if_pos named], fun label slot name p => ?_⟩
  rcases slot with _ | q
  · simp
  · cases q <;> cases p <;> simp [Frame.isWildcard, eq_comm]

/-- A variant with named fields is shown with the patterns that are given and not wild. -/
theorem variantPattern_named (d : EnumDef) {v : Variant} (named : v.isNamed = true) (args : List Pattern) :
    ∃ shown rest, Family.variantPattern d v args = .variant default d.name v.name [] shown rest ∧
      ∀ name p, FieldPattern.mk name p ∈ shown ↔ Frame.isWildcard p = false ∧
        ∃ i : Nat, (v.fields.map Field.name)[i]? = some name ∧ args[i]? = some p := by
  obtain ⟨pick, equal, picked⟩ := variantPattern_picks d named args
  refine ⟨_, _, equal, fun name p => ?_⟩
  simp only [List.mem_filterMap, List.mem_map, Prod.exists]
  constructor
  · rintro ⟨label, slot, ⟨f, i, numbered, same⟩, kept⟩
    obtain ⟨rfl, rfl⟩ := Prod.mk.inj same
    obtain ⟨tests, rfl, shown⟩ := (picked _ _ _ _).mp kept
    have here : v.fields[i]? = some f := List.mem_zipIdx_iff_getElem?.mp numbered
    exact ⟨tests, i, by simp [here], shown⟩
  · rintro ⟨tests, i, here, shown⟩
    obtain ⟨f, field, rfl⟩ : ∃ f, v.fields[i]? = some f ∧ f.name = name := by simpa using here
    exact ⟨_, _, ⟨f, i, List.mem_zipIdx_iff_getElem?.mpr field, rfl⟩, (picked _ _ _ _).mpr ⟨tests, rfl, shown⟩⟩

/-- A pattern for a variant matches by the payload, whether it is given by names or by position. -/
theorem variantPattern_matches (d : EnumDef) {v : Variant} (once : (v.fields.map Field.name).Nodup)
    (args : List Pattern) {values : List Value} (sized : values.length = v.arity) :
    Matches (Family.variantPattern d v args) (.variant v.name (v.fields.map Field.name) values) ↔
      MatchesAll args values := by
  unfold Matches
  cases named : v.isNamed with
  | true =>
    have wide : values.length = v.fields.length := by simpa [Variant.arity, Variant.slots, named] using sized
    obtain ⟨shown, rest, equal, members⟩ := variantPattern_named d named args
    have positional : ways (.variant default d.name v.name [] shown rest)
        (.variant v.name (v.fields.map Field.name) values) =
          waysFields shown (v.fields.map Field.name) values := by
      cases shown <;> simp [ways, waysFields, waysAll]
    rw [equal, positional]
    refine waysFields_shown once (by simpa using wide.symm) ?_ ?_
    · exact fun name p member => ((members name p).mp member).2
    · intro i name p named there
      cases wild : Frame.isWildcard p with
      | true => exact .inl rfl
      | false => exact .inr ((members name p).mpr ⟨wild, i, named, there⟩)
  | false =>
    have wide : values.length = v.payload.length := by simpa [Variant.arity, Variant.slots, named] using sized
    have filled : ways (Family.variantPattern d v args) (.variant v.name (v.fields.map Field.name) values) =
        waysAll ((List.range v.payload.length).map fun i => args[i]?.getD (.wildcard default)) values := by
      simp [Family.variantPattern, named, ways, wide]
    rw [filled, waysAll_ne_nil (by simp [wide])]
    constructor
    · intro all i p x left right
      have inside : i < v.payload.length := by
        rw [← wide]
        exact (List.getElem?_eq_some_iff.mp right).1
      exact all i p x (by simp [inside, left]) right
    · intro all i p x left right
      have inside : i < v.payload.length := by
        rw [← wide]
        exact (List.getElem?_eq_some_iff.mp right).1
      cases given : args[i]? with
      | some q =>
        obtain rfl : q = p := by simpa [inside, given] using left
        exact all i q x given right
      | none =>
        obtain rfl : Pattern.wildcard default = p := by simpa [inside, given] using left
        exact matches_wild rfl x

theorem variantPattern_tag {d : EnumDef} {v : Variant} {args : List Pattern} {x : Value}
    (hit : Matches (Family.variantPattern d v args) x) : (Test.variant v).accepts x = true := by
  have tagged {info : NodeInfo} {ps : List Pattern} {fields : List FieldPattern} {rest : Bool}
      (hit : ways (.variant info d.name v.name ps fields rest) x ≠ []) :
      (Test.variant v).accepts x = true := by
    cases x <;> simp [ways] at hit
    simp [Test.accepts, hit.1]
  unfold Matches Family.variantPattern at hit
  split at hit
  · exact tagged hit
  · exact tagged hit

theorem listPattern_matches {front : List Pattern} {isOpen : Bool} {values : List Value} :
    Matches (.list default front isOpen none) (.array values) ↔
      (if isOpen then front.length ≤ values.length else front.length = values.length) ∧
        MatchesAll front values := by
  have bare (ws : List Way) : ws.map (Way.append {}) = ws := by
    simp [show Way.append {} = id from funext fun a => Way.empty_append a]
  by_cases long : if isOpen then front.length ≤ values.length else front.length = values.length
  · have enough : front.length ≤ values.length := by
      split at long
      · exact long
      · exact long.le
    have taken : ¬ (values.length < front.length || (!isOpen && values.length != front.length)) = true := by
      cases isOpen <;> simp_all
    rw [Matches, ways, if_neg taken, bare, waysAll_ne_nil enough]
    exact (and_iff_right long).symm
  · have short : (values.length < front.length || (!isOpen && values.length != front.length)) = true := by
      cases isOpen with
      | false =>
        have differ : values.length ≠ front.length := fun same => long same.symm
        simp [differ]
      | true => simpa using long
    rw [Matches, ways, if_pos short]
    simp [long]

section

variable {ctx : Context} (regular : ctx.decls.Regular) {inner : Value → Ty → Prop}

include regular

theorem productPattern_matches {col : Column} (opens : Opens ctx.decls col.type) {args : List Pattern}
    (sized : args.length = (Matrix.parts ctx.decls col).length) {p : Pattern}
    (shown : Frame.productPattern ctx.decls col.type args = .ok p) {x : Value}
    (built : Built ctx inner x col.type) : Matches p x ↔ MatchesAll args (x.pieces col.type) := by
  obtain ⟨path, t⟩ := col
  rcases opens with ⟨types, known⟩ | ⟨mutable, target, rfl⟩
  · cases t <;> simp [Decls.productTypes?] at known <;> subst known
    case unit =>
      obtain rfl : args = [] := List.length_eq_zero_iff.mp (by simpa [Matrix.parts] using sized)
      cases shown
      cases built with
      | unit => exact iff_of_true (by simp [Matches, ways]) (matchesAll_nil _)
      | abstract hidden => simp [Ty.isAbstract] at hidden
    case tuple elements =>
      cases shown
      cases built with
      | @tuple values _ parts =>
        have wide : args.length = values.length := by simpa [Matrix.parts, parts.length_eq] using sized
        rw [Matches, ways, if_pos (by simpa using wide), waysAll_ne_nil wide.le]
        rfl
      | abstract hidden => simp [Ty.isAbstract] at hidden
    case struct name typeArgs =>
      obtain rfl : Frame.structPattern name (ctx.decls.fields name typeArgs) args = p := by
        have enough : ¬ (ctx.decls.fields name typeArgs).length < args.length := by
          simp [sized, Matrix.parts]
        simpa [Frame.productPattern, enough] using shown
      cases built with
      | @struct _ _ values parts =>
        exact structPattern_matches (fields_nodup regular name typeArgs) name args
          (by simpa using parts.length_eq)
      | abstract hidden => simp [Ty.isAbstract] at hidden
  · obtain ⟨only, rfl⟩ : ∃ only, args = [only] := List.length_eq_one_iff.mp (by simpa [Matrix.parts] using sized)
    cases shown
    simp [Value.pieces, matchesAll_cons, matchesAll_nil]

/-- The pattern put together for a passed test matches by the parts, among the values that it is shown for. -/
theorem testPattern_matches {t : Ty} {test : Test} (suits : test.Suits ctx.decls t) {args : List Pattern}
    (sized : args.length = test.arity) {p : Pattern}
    (shown : Frame.testPattern ctx.decls t args test = .ok p) {x : Value} (built : Built ctx inner x t) :
    Matches p x ↔ test.picks x = true ∧ MatchesAll args (x.parts.take test.arity) := by
  have literal (value : Literal) (none : args = []) :
      Matches (.literal default value) x ↔
        literalMatches value x = true ∧ MatchesAll args (x.parts.take test.arity) := by
    simp [Matches, ways, none, matchesAll_nil]
  cases test with
  | bool value =>
    cases shown
    refine (literal _ (List.length_eq_zero_iff.mp sized)).trans ?_
    cases x <;> rfl
  | range low high =>
    cases shown
    exact literal _ (List.length_eq_zero_iff.mp sized)
  | string value =>
    cases shown
    refine (literal _ (List.length_eq_zero_iff.mp sized)).trans ?_
    cases x <;> rfl
  | float value =>
    cases shown
    refine (literal _ (List.length_eq_zero_iff.mp sized)).trans ?_
    cases x <;> rfl
  | variant v =>
    obtain ⟨name, typeArgs, d, rfl, known, member⟩ := suits
    simp only [Frame.testPattern, known, Except.ok.injEq] at shown
    subst shown
    have whole (tag : (Test.variant v).accepts x = true) : Matches (Family.variantPattern d v args) x ↔
        MatchesAll args (x.parts.take v.arity) := by
      cases built with
      | @variant _ _ d' w values declared member' parts =>
        obtain rfl : d' = d := by simpa [known] using declared.symm
        have same : w.name = v.name := by simpa [Test.accepts] using tag
        obtain rfl := (variant_eq regular known member' member).1.mp same
        have wide : values.length = w.arity := by simp [parts.length_eq, Decls.slots, Variant.arity]
        rw [Value.parts, List.take_of_length_le wide.le]
        exact variantPattern_matches d' (regular.payloads d' (enum?_mem known) w member) args wide
      | abstract hidden => simp [Ty.isAbstract] at hidden
    constructor
    · intro hit
      have tag := variantPattern_tag hit
      exact ⟨tag, (whole tag).mp hit⟩
    · rintro ⟨tag, all⟩
      exact (whole tag).mpr all
  | length count =>
    obtain ⟨element, rfl⟩ := suits
    obtain rfl : args.length = count := sized
    cases shown
    cases built with
    | @array values _ parts =>
      rw [listPattern_matches, Test.arity, Value.parts, matchesAll_take (le_refl _)]
      exact and_congr (by simpa [Test.picks, Test.accepts] using eq_comm) Iff.rfl
    | abstract hidden => simp [Ty.isAbstract] at hidden
  | atLeast count front =>
    obtain ⟨⟨element, rfl⟩, fewer⟩ := suits
    obtain rfl : args.length = front := sized
    cases shown
    cases built with
    | @array values _ parts =>
      rw [listPattern_matches, Test.arity, Value.parts, matchesAll_take (le_refl _)]
      have padded : MatchesAll (args ++ List.replicate (count - args.length) (.wildcard default)) values ↔
          MatchesAll args values :=
        matchesAll_append_wild fun p member => by rw [List.eq_of_mem_replicate member]; rfl
      have long : (args ++ List.replicate (count - args.length) (Pattern.wildcard default)).length = count := by
        simp
        omega
      rw [padded, long]
      exact and_congr (by simp [Test.picks, Test.accepts]) Iff.rfl
    | abstract hidden => simp [Ty.isAbstract] at hidden

end

end TreeCheck.Match
