import Mathlib.Data.Fintype.EquivFin
import Mathlib.Data.List.Induction
import Mathlib.Data.Set.List
import Mathlib.Logic.Relation
import TreeCheck.Proofs.Match.Segments
import TreeCheck.Proofs.Match.Shown
import TreeCheck.Proofs.Match.Steps
import TreeCheck.Proofs.Text.Quotation

/-!
Families of tests are complete and have no test in vain. A value that passes no test of a family is
admitted only by shapes that test nothing, and it is missing; every test is passed by some value with
any given parts, and a missing value exists when patterns for it are shown.
-/

namespace TreeCheck

def Decls.inside (decls : Decls) : Ty → List Ty
  | .tuple types => types
  | .array element => [element]
  | .ref _ target => [target]
  | t => decls.components t

namespace Match

/-- A type and all types inside it have values. -/
def Peopled (ctx : Context) (t : Ty) : Prop :=
  ∀ part, Relation.ReflTransGen (fun a b => b ∈ ctx.decls.inside a) t part → ∃ x, HasType ctx x part

theorem Peopled.self {ctx : Context} {t : Ty} (peopled : Peopled ctx t) : ∃ x, HasType ctx x t :=
  peopled t .refl

theorem Peopled.inside {ctx : Context} {t part : Ty} (peopled : Peopled ctx t)
    (member : part ∈ ctx.decls.inside t) : Peopled ctx part :=
  fun other reached => peopled other (.head member reached)

theorem exists_values {inner : Value → Ty → Prop} {types : List Ty} (each : ∀ t ∈ types, ∃ x, inner x t) :
    ∃ values, List.Forall₂ inner values types := by
  induction types with
  | nil => exact ⟨[], .nil⟩
  | cons t types ih =>
    obtain ⟨x, typed⟩ := each t (by simp)
    obtain ⟨values, others⟩ := ih fun t member => each t (by simp [member])
    exact ⟨x :: values, .cons typed others⟩

/-- The family that a column of a type is switched on by. -/
inductive FamilyOf (decls : Decls) (options : Options) (floats : Bool) (t : Ty) (column : List Shape) :
    List Test × List Pattern → Prop
  | bools (same : t = .bool) : FamilyOf decls options floats t column (Family.bools column)
  | variants {name : String} {args : List Ty} {d : EnumDef} (same : t = .enum name args)
      (known : decls.enum? name = some d) :
      FamilyOf decls options floats t column (Family.variants d column)
  | integers {k : IntType} (same : t = .int k) :
      FamilyOf decls options floats t column (Family.integers column (options.bounds t))
  | constants (same : t = .string ∨ floats = true ∧ ∃ k, t = .float k) :
      FamilyOf decls options floats t column (Family.constants column)
  | lengths {element : Ty} (same : t = .array element) :
      FamilyOf decls options floats t column (Family.lengths column)
  | untested (all : ∀ s ∈ column, s.isAny = true) :
      FamilyOf decls options floats t column ([], [.wildcard default])

theorem Matrix.family_eq {decls : Decls} {floats : Bool} {m : Matrix} {i : Nat} {col : Column}
    (options : Options) (fit : m.Fits decls floats) (here : m.cols[i]? = some col)
    (heads : ∀ s ∈ m.column i, s.isHead = true) (flat : ∀ s ∈ m.column i, s.isProduct = false) :
    ∃ family, m.family decls options i = .ok family ∧
      FamilyOf decls options floats col.type (m.column i) family := by
  simp only [family, column?_eq here, bind, Except.bind, pure, Except.pure]
  cases found : (m.column i).find? fun s => !s.isAny with
  | none =>
    refine ⟨_, rfl, .untested fun s member => ?_⟩
    simpa using List.find?_eq_none.mp found s member
  | some s =>
    have member := List.mem_of_find?_eq_some found
    have fits := fit.column here member
    have head := heads s member
    have single := flat s member
    have tests := List.find?_some found
    cases s <;> simp [Shape.isHead, Shape.isProduct, Shape.isAny] at head single tests
    case bool => exact ⟨_, rfl, .bools fits⟩
    case variant =>
      obtain ⟨name, args, d, same, known, -⟩ := fits
      simp only [same, known]
      exact ⟨_, rfl, .variants rfl known⟩
    case range =>
      obtain ⟨k, same⟩ := fits
      exact ⟨_, rfl, .integers same⟩
    case string => exact ⟨_, rfl, .constants (.inl fits)⟩
    case float => exact ⟨_, rfl, .constants (.inr fits)⟩
    case list =>
      obtain ⟨element, same, -⟩ := fits
      exact ⟨_, rfl, .lengths same⟩

/-- The first entries of a list with their texts. -/
def once {α : Type} (text : α → String) (list : List α) : List α :=
  list.foldl (fun kept a => if kept.any fun other => text other == text a then kept else kept ++ [a]) []

theorem once_concat {α : Type} (text : α → String) (list : List α) (a : α) : once text (list ++ [a]) =
    if (once text list).any fun other => text other == text a then once text list else once text list ++ [a] := by
  simp [once, List.foldl_append]

/-- Dropping repeated texts keeps one entry for each text and adds none. -/
theorem once_spec {α : Type} (text : α → String) (list : List α) :
    (∀ a ∈ once text list, a ∈ list) ∧ ∀ a ∈ list, ∃ kept ∈ once text list, text kept = text a := by
  induction list using List.reverseRecOn with
  | nil => simp [once]
  | append_singleton list a ih =>
    obtain ⟨old, all⟩ := ih
    rw [once_concat]
    split
    next known =>
      obtain ⟨other, member, same⟩ := List.any_eq_true.mp known
      refine ⟨fun kept inside => List.mem_append_left _ (old kept inside), fun wanted inside => ?_⟩
      rcases List.mem_append.mp inside with earlier | last
      · exact all wanted earlier
      · obtain rfl := List.mem_singleton.mp last
        exact ⟨other, member, by simpa using same⟩
    next fresh =>
      constructor
      · intro kept inside
        rcases List.mem_append.mp inside with earlier | last
        · exact List.mem_append_left _ (old kept earlier)
        · exact List.mem_append_right _ last
      · intro wanted inside
        rcases List.mem_append.mp inside with earlier | last
        · obtain ⟨kept, member, same⟩ := all wanted earlier
          exact ⟨kept, List.mem_append_left _ member, same⟩
        · exact ⟨wanted, List.mem_append_right _ last, rfl⟩

namespace Family

theorem le_foldl {α : Type} {step : Nat → α → Nat} (grows : ∀ n a, n ≤ step n a) (list : List α)
    (start : Nat) : start ≤ list.foldl step start ∧
      ∀ a ∈ list, ∀ k, (∀ n, k ≤ step n a) → k ≤ list.foldl step start := by
  induction list generalizing start with
  | nil => simp
  | cons head rest ih =>
    obtain ⟨grown, each⟩ := ih (step start head)
    refine ⟨Nat.le_trans (grows start head) grown, fun a member k reached => ?_⟩
    rcases List.mem_cons.mp member with rfl | later
    · exact Nat.le_trans (reached start) grown
    · exact each a later k reached

theorem foldl_le_foldl {α : Type} {step step' : Nat → α → Nat}
    (smaller : ∀ n n' a, n ≤ n' → step n a ≤ step' n' a) (list : List α) {start start' : Nat}
    (first : start ≤ start') : list.foldl step start ≤ list.foldl step' start' := by
  induction list generalizing start start' with
  | nil => exact first
  | cons head rest ih => exact ih (smaller start start' head first)

theorem lengths_eq (column : List Shape) : ∃ longest longestOpen, longestOpen ≤ longest ∧
    lengths column = ((List.range (longest + 1)).map .length ++ [.atLeast (longest + 1) longestOpen], []) ∧
      ∀ front isOpen rest, .list front isOpen rest ∈ column →
        front.length ≤ longest ∧ (isOpen = true → front.length ≤ longestOpen) := by
  refine ⟨_, _, ?_, rfl, ?_⟩
  · refine foldl_le_foldl (fun n n' s smaller => ?_) column (le_refl 0)
    cases s with
    | list front isOpen rest => cases isOpen <;> simp <;> omega
    | _ => exact smaller
  · intro front isOpen rest member
    constructor
    · refine (le_foldl (fun n s => ?_) column 0).2 _ member _ fun n => ?_
      · cases s <;> simp
      · exact Nat.le_max_right n front.length
    · rintro rfl
      refine (le_foldl (fun n s => ?_) column 0).2 _ member _ fun n => ?_
      · cases s with
        | list front isOpen rest => cases isOpen <;> simp
        | _ => simp
      · exact Nat.le_max_right n front.length

theorem distinct_spec (tests : List Test) : (∀ test ∈ distinct tests, test ∈ tests) ∧
    ∀ test ∈ tests, ∃ kept ∈ distinct tests, kept.text = test.text :=
  once_spec Test.text tests

theorem mem_constants {column : List Shape} (strings : ∀ s ∈ column, ∀ value, s ≠ .float value)
    {test : Test} :
    test ∈ (constants column).1 ↔ ∃ value, test = .string value ∧ .string value ∈ column := by
  obtain ⟨pick, equal, picked⟩ : ∃ pick : Shape → Option Test,
      (constants column).1 = distinct (column.filterMap pick) ∧ ∀ s test, pick s = some test ↔
        (∃ value, s = .string value ∧ test = .string value) ∨
          ∃ value, s = .float value ∧ test = .float value := by
    refine ⟨_, rfl, fun s test => ?_⟩
    cases s <;> simp [eq_comm]
  rw [equal]
  obtain ⟨old, all⟩ := distinct_spec (column.filterMap pick)
  have occurs {test : Test} (member : test ∈ column.filterMap pick) :
      ∃ value, test = .string value ∧ .string value ∈ column := by
    obtain ⟨s, inside, known⟩ := List.mem_filterMap.mp member
    rcases (picked s test).mp known with ⟨value, rfl, rfl⟩ | ⟨value, rfl, rfl⟩
    · exact ⟨value, rfl, inside⟩
    · exact absurd rfl (strings _ inside value)
  constructor
  · exact fun member => occurs (old test member)
  · rintro ⟨value, rfl, inside⟩
    have present : .string value ∈ column.filterMap pick :=
      List.mem_filterMap.mpr ⟨_, inside, (picked _ _).mpr (.inl ⟨value, rfl, rfl⟩)⟩
    obtain ⟨kept, member, same⟩ := all (.string value) present
    obtain ⟨other, rfl, -⟩ := occurs (old kept member)
    obtain rfl := Octets.quoted_inj.mp same
    exact member

theorem bools_eq (column : List Shape) : ∃ occurs : Bool → Bool,
    (∀ value, occurs value = true ↔ .bool value ∈ column) ∧
      bools column = (([false, true].filter occurs).map .bool,
        ([false, true].filter fun b => !occurs b).map fun b => .literal default (.bool b)) := by
  refine ⟨_, fun value => ?_, rfl⟩
  rw [List.any_eq_true]
  constructor
  · rintro ⟨s, member, found⟩
    cases s <;> simp at found
    exact found ▸ member
  · exact fun member => ⟨_, member, by simp⟩

theorem variants_eq (d : EnumDef) (column : List Shape) : ∃ occurs : Variant → Bool,
    (∀ v, occurs v = true ↔ ∃ w args, .variant w args ∈ column ∧ w.index = v.index) ∧
      variants d column = ((d.variants.filter occurs).map .variant,
        (d.variants.filter fun v => !occurs v).map fun v => variantPattern d v []) := by
  refine ⟨_, fun v => ?_, rfl⟩
  rw [List.any_eq_true]
  constructor
  · rintro ⟨s, member, found⟩
    cases s <;> simp at found
    exact ⟨_, _, member, found⟩
  · rintro ⟨w, args, member, same⟩
    exact ⟨_, member, by simp [same]⟩

section

variable {column : List Shape} {bounds : Int × Int}

theorem mem_integers {test : Test} : test ∈ (integers column bounds).1 ↔
    ∃ s ∈ Segment.all column bounds.1 bounds.2, s.cover ≠ [] ∧ test = .range s.low s.high := by
  simp only [integers, List.mem_filterMap]
  refine exists_congr fun s => and_congr_right fun _ => ?_
  cases s.cover <;> simp [eq_comm]

theorem integers_ne_nil : (integers column bounds).2 ≠ [] ↔
    ∃ s ∈ Segment.all column bounds.1 bounds.2, s.cover = [] := by
  simp only [integers, ne_eq, List.map_eq_nil_iff, Option.toList_eq_nil_iff, List.find?_eq_none, not_forall]
  simp

theorem mem_integers_missing {p : Pattern} (member : p ∈ (integers column bounds).2) :
    ∃ s ∈ Segment.all column bounds.1 bounds.2, s.cover = [] ∧ p = .literal default (.int s.low) := by
  obtain ⟨s, found, rfl⟩ := List.mem_map.mp member
  have first := Option.mem_toList.mp found
  exact ⟨s, List.mem_of_find?_eq_some first, by simpa using List.find?_some first, rfl⟩

/-- No test admits the least integer of a segment that no range covers. -/
theorem integers_refused (ordered : bounds.1 ≤ bounds.2) {s : Segment}
    (segment : s ∈ Segment.all column bounds.1 bounds.2) (uncovered : s.cover = []) :
    ∀ test ∈ (integers column bounds).1, test.accepts (.int s.low) = false := by
  intro test member
  have precise := Segment.all_exact ordered s segment
  obtain ⟨other, segment', covered, rfl⟩ := mem_integers.mp member
  obtain ⟨i, inCover⟩ := List.exists_mem_of_ne_nil _ covered
  -- a range that admits an integer of both segments is in the cover of both
  have outside : ¬ (other.low ≤ s.low ∧ s.low ≤ other.high) := by
    rintro ⟨low, high⟩
    have admits := ((Segment.all_exact ordered other segment').cover _ low high i).mp inCover
    have both := (precise.cover _ (le_refl _) precise.ordered i).mpr admits
    simp [uncovered] at both
  simpa [Test.accepts] using outside

end

end Family

/-- A type has a value whose parts are as `inner` says, and such a part is there for each type inside. -/
def Alive (ctx : Context) (inner : Value → Ty → Prop) (t : Ty) : Prop :=
  (∃ x, Built ctx inner x t) ∧ ∀ part ∈ ctx.decls.inside t, ∃ x, inner x part

theorem Peopled.alive {ctx : Context} {t : Ty} (peopled : Peopled ctx t) : Alive ctx (HasType ctx) t := by
  obtain ⟨x, typed⟩ := peopled.self
  exact ⟨⟨x, hasType_iff_built.mp typed⟩, fun part member => (peopled.inside member).self⟩

/-- What a family of tests says about the values of a type whose parts are as `inner` says. -/
structure Spans (ctx : Context) (inner : Value → Ty → Prop) (t : Ty) (column : List Shape)
    (family : List Test × List Pattern) : Prop where
  /-- The values that pass a test are alike to the column. -/
  sharp : ∀ x, Built ctx inner x t → ∀ test ∈ family.1, test.Sharp column
  /-- A value that passes no test is missing and matches no shape that tests something. -/
  missed : ∀ x, Built ctx inner x t → (∀ test ∈ family.1, test.accepts x = false) →
    family.2 ≠ [] ∧ ∀ s ∈ column, s.isAny = false → s.ways x = []
  /-- Any parts belong to a value that the pattern shown for the test stands for. -/
  passed : Alive ctx inner t → ∀ test ∈ family.1, ∀ parts,
    List.Forall₂ inner parts (test.types ctx.decls t) →
      ∃ x, Built ctx inner x t ∧ test.picks x = true ∧ x.parts.take test.arity = parts
  /-- The pattern shown for a test stands for values that pass it. -/
  picked : ∀ x, Built ctx inner x t → ∀ test ∈ family.1, test.picks x = true → test.accepts x = true
  /-- Each pattern that is shown as missing matches a value that passes no test. -/
  shown : Alive ctx inner t → ∀ p ∈ family.2,
    ∃ x, Built ctx inner x t ∧ Matches p x ∧ ∀ test ∈ family.1, test.accepts x = false
  /-- It matches no others, unless strings are tested. -/
  apart : (∀ value, .string value ∉ column) → ∀ p ∈ family.2, ∀ x, Built ctx inner x t → Matches p x →
    ∀ test ∈ family.1, test.accepts x = false

section

variable {ctx : Context} {inner : Value → Ty → Prop} {column : List Shape}

theorem matches_literal {value : Literal} {x : Value} :
    Matches (.literal default value) x ↔ literalMatches value x = true := by
  simp [Matches, ways]

theorem bools_span (heads : ∀ s ∈ column, s.isHead = true)
    (fits : ∀ s ∈ column, Shape.Fits ctx.decls false s .bool) :
    Spans ctx inner .bool column (Family.bools column) := by
  obtain ⟨occurs, known, equal⟩ := Family.bools_eq column
  rw [equal]
  have listed (value : Bool) : value ∈ [false, true] := by cases value <;> simp
  have missing {p : Pattern} (member : p ∈ ([false, true].filter fun b => !occurs b).map
      fun b => Pattern.literal default (.bool b)) :
      ∃ value, p = .literal default (.bool value) ∧ ∀ test ∈ ([false, true].filter occurs).map Test.bool,
        test.accepts (.bool value) = false := by
    obtain ⟨value, absent, rfl⟩ := List.mem_map.mp member
    refine ⟨value, rfl, fun test inside => ?_⟩
    obtain ⟨wanted, present, rfl⟩ := List.mem_map.mp inside
    have differ : value ≠ wanted := by
      rintro rfl
      simp_all
    simp [Test.accepts, differ]
  constructor
  · intro x _ test member
    obtain ⟨value, -, rfl⟩ := List.mem_map.mp member
    trivial
  · intro x built refused
    cases built with
    | bool value =>
      have absent : occurs value = false := by
        by_contra present
        have passes := refused (.bool value) (List.mem_map_of_mem
          (List.mem_filter.mpr ⟨listed value, by simpa using present⟩))
        simp [Test.accepts] at passes
      refine ⟨List.ne_nil_of_mem (List.mem_map_of_mem
        (List.mem_filter.mpr ⟨listed value, by simpa using absent⟩)), fun s inColumn tests => ?_⟩
      obtain ⟨wanted, rfl⟩ := Shape.eq_bool (heads s inColumn) tests (fits s inColumn)
      have differ : value ≠ wanted := by
        rintro rfl
        simp [(known value).mpr inColumn] at absent
      simp [Shape.ways, Test.accepts, differ]
    | abstract hidden => simp [Ty.isAbstract] at hidden
  · intro _ test member parts typed
    obtain ⟨value, -, rfl⟩ := List.mem_map.mp member
    cases typed
    exact ⟨.bool value, .bool value, by simp [Test.picks, Test.accepts], rfl⟩
  · intro x _ test member picks
    obtain ⟨value, -, rfl⟩ := List.mem_map.mp member
    exact picks
  · intro _ p member
    obtain ⟨value, rfl, refused⟩ := missing member
    exact ⟨.bool value, .bool value, matches_literal.mpr (by simp [literalMatches]), refused⟩
  · intro _ p member x _ hit
    obtain ⟨value, rfl, refused⟩ := missing member
    cases x <;> simp [matches_literal, literalMatches] at hit
    exact hit ▸ refused

theorem variants_span (regular : ctx.decls.Regular) {name : String} {args : List Ty} {d : EnumDef}
    (declared : ctx.decls.enum? name = some d) (heads : ∀ s ∈ column, s.isHead = true)
    (fits : ∀ s ∈ column, Shape.Fits ctx.decls false s (.enum name args)) :
    Spans ctx inner (.enum name args) column (Family.variants d column) := by
  obtain ⟨occurs, known, equal⟩ := Family.variants_eq d column
  rw [equal]
  have slots (v : Variant) :
      (Test.variant v).types ctx.decls (.enum name args) = Decls.slots d args v := by
    simp [Test.types, declared]
  have missing {p : Pattern} (member : p ∈ (d.variants.filter fun v => !occurs v).map
      fun v => Family.variantPattern d v []) :
      ∃ v ∈ d.variants, p = Family.variantPattern d v [] ∧ ∀ x, (Test.variant v).accepts x = true →
        ∀ test ∈ (d.variants.filter occurs).map Test.variant, test.accepts x = false := by
    obtain ⟨v, inside, rfl⟩ := List.mem_map.mp member
    obtain ⟨inEnum, absent⟩ := List.mem_filter.mp inside
    refine ⟨v, inEnum, rfl, fun x tag test tested => ?_⟩
    obtain ⟨w, present, rfl⟩ := List.mem_map.mp tested
    have differ : v.name ≠ w.name := by
      intro same
      obtain rfl := (variant_eq regular declared inEnum (List.mem_filter.mp present).1).1.mp same
      simp_all
    cases x <;> simp [Test.accepts] at tag
    simp [Test.accepts, tag, differ]
  constructor
  · intro x _ test member
    obtain ⟨v, -, rfl⟩ := List.mem_map.mp member
    trivial
  · intro x built refused
    cases built with
    | @variant _ _ d' v values declared' member parts =>
      obtain rfl := Option.some.inj (declared.symm.trans declared')
      have absent : occurs v = false := by
        by_contra present
        have passes := refused (.variant v) (List.mem_map_of_mem
          (List.mem_filter.mpr ⟨member, by simpa using present⟩))
        simp [Test.accepts] at passes
      refine ⟨List.ne_nil_of_mem (List.mem_map_of_mem
        (List.mem_filter.mpr ⟨member, by simpa using absent⟩)), fun s inColumn tests => ?_⟩
      obtain ⟨w, shapes, rfl, inside, -⟩ :=
        Shape.eq_variant (heads s inColumn) tests declared (fits s inColumn)
      have differ : v.name ≠ w.name := by
        intro same
        obtain rfl := (variant_eq regular declared member inside).1.mp same
        simp [(known v).mpr ⟨v, shapes, inColumn, rfl⟩] at absent
      simp [Shape.ways, Test.accepts, differ]
    | abstract hidden => simp [Ty.isAbstract] at hidden
  · intro _ test member parts typed
    obtain ⟨v, inside, rfl⟩ := List.mem_map.mp member
    rw [slots] at typed
    refine ⟨_, .variant declared (List.mem_filter.mp inside).1 typed, by simp [Test.picks, Test.accepts], ?_⟩
    apply List.take_of_length_le
    simp [Value.parts, typed.length_eq, Decls.slots, Test.arity, Variant.arity]
  · intro x _ test member picks
    obtain ⟨v, -, rfl⟩ := List.mem_map.mp member
    exact picks
  · intro alive p member
    obtain ⟨v, inEnum, rfl, refused⟩ := missing member
    obtain ⟨values, typed⟩ : ∃ values, List.Forall₂ inner values (Decls.slots d args v) := by
      refine exists_values fun t slot => ?_
      have inside : t ∈ ctx.decls.inside (.enum name args) := by
        simp only [Decls.inside, Decls.components, declared]
        exact List.mem_flatMap.mpr ⟨v, inEnum, slot⟩
      exact alive.2 t inside
    have once := regular.payloads d (enum?_mem declared) v inEnum
    have sized : values.length = v.arity := by simp [typed.length_eq, Decls.slots, Variant.arity]
    refine ⟨_, .variant declared inEnum typed, ?_, refused _ (by simp [Test.accepts])⟩
    exact (variantPattern_matches d once [] sized).mpr (matchesAll_nil values)
  · intro _ p member x _ hit
    obtain ⟨v, -, rfl, refused⟩ := missing member
    exact refused x (variantPattern_tag hit)

theorem integers_span {k : IntType} (heads : ∀ s ∈ column, s.isHead = true)
    (fits : ∀ s ∈ column, Shape.Fits ctx.decls false s (.int k)) :
    Spans ctx inner (.int k) column (Family.integers column (ctx.options.bounds (.int k))) := by
  have ordered {x : Value} (built : Built ctx inner x (.int k)) :
      (ctx.options.bounds (.int k)).1 ≤ (ctx.options.bounds (.int k)).2 := by
    cases built with
    | int above below => exact Int.le_trans above below
    | abstract hidden => simp [Ty.isAbstract] at hidden
  generalize same : ctx.options.bounds (.int k) = bounds at ordered ⊢
  -- an end of a segment lies in the domain, if there is a value at all
  have lowest {x : Value} (built : Built ctx inner x (.int k)) {s : Segment}
      (segment : s ∈ Segment.all column bounds.1 bounds.2) : Built ctx inner (.int s.low) (.int k) := by
    have within := (Segment.all_tile column (ordered built)).inside segment
    have rising := (Segment.all_exact (ordered built) s segment).ordered
    refine .int ?_ ?_
    · rw [same]
      omega
    · rw [same]
      omega
  constructor
  · intro x built test member
    obtain ⟨s, segment, -, rfl⟩ := Family.mem_integers.mp member
    exact fun least greatest inColumn n above below =>
      (Segment.all_exact (ordered built) s segment).uniform inColumn above below
  · intro x built refused
    have rising := ordered built
    cases built with
    | @int n _ above below =>
      rw [same] at above below
      obtain ⟨s, segment, low, high⟩ := (Segment.all_tile column rising).exists above below
      have uncovered : s.cover = [] := by
        by_contra covered
        have passes := refused _ (Family.mem_integers.mpr ⟨s, segment, covered, rfl⟩)
        simp [Test.accepts, low, high] at passes
      refine ⟨Family.integers_ne_nil.mpr ⟨s, segment, uncovered⟩, fun shape inColumn tests => ?_⟩
      obtain ⟨least, greatest, rfl⟩ :=
        Shape.eq_range (heads shape inColumn) tests (fits shape inColumn)
      obtain ⟨i, here⟩ := List.mem_iff_getElem?.mp inColumn
      have outside : ¬ (least ≤ n ∧ n ≤ greatest) := by
        intro within
        have covered := ((Segment.all_exact rising s segment).cover n low high i).mpr
          ⟨least, greatest, here, within⟩
        simp [uncovered] at covered
      simpa [Shape.ways, Test.accepts] using outside
    | abstract hidden => simp [Ty.isAbstract] at hidden
  · rintro ⟨⟨x, some⟩, -⟩ test member parts typed
    obtain ⟨s, segment, -, rfl⟩ := Family.mem_integers.mp member
    cases typed
    exact ⟨.int s.low, lowest some segment, by simp [Test.picks, literalMatches], rfl⟩
  · intro x built test member picks
    obtain ⟨s, segment, -, rfl⟩ := Family.mem_integers.mp member
    have rising := (Segment.all_exact (ordered built) s segment).ordered
    cases x <;> simp [Test.picks, literalMatches] at picks
    simp [Test.accepts, picks, rising]
  · rintro ⟨⟨x, some⟩, -⟩ p member
    obtain ⟨s, segment, uncovered, rfl⟩ := Family.mem_integers_missing member
    exact ⟨.int s.low, lowest some segment, matches_literal.mpr (by simp [literalMatches]),
      Family.integers_refused (ordered some) segment uncovered⟩
  · intro _ p member x built hit
    obtain ⟨s, segment, uncovered, rfl⟩ := Family.mem_integers_missing member
    have none := Family.integers_refused (ordered built) segment uncovered
    cases x <;> simp [matches_literal, literalMatches] at hit
    exact hit ▸ none

theorem exists_fresh (used : List Octets) : ∃ value, value ∉ used := by
  have many : Infinite Octets := Infinite.of_injective (fun n => (⟨List.replicate n 0⟩ : Octets)) <| by
    intro n n' same
    simpa using congrArg (fun o => o.bytes.length) same
  obtain ⟨value, fresh⟩ := Infinite.exists_notMem_finset used.toFinset
  exact ⟨value, by simpa using fresh⟩

theorem constants_span (heads : ∀ s ∈ column, s.isHead = true)
    (fits : ∀ s ∈ column, Shape.Fits ctx.decls false s .string) :
    Spans ctx inner .string column (Family.constants column) := by
  have member {test : Test} : test ∈ (Family.constants column).1 ↔
      ∃ value, test = .string value ∧ .string value ∈ column := by
    refine Family.mem_constants fun s inColumn value same => ?_
    have wrong := fits s inColumn
    simp [same, Shape.Fits] at wrong
  have wild {p : Pattern} (shown : p ∈ (Family.constants column).2) : Frame.isWildcard p = true := by
    rw [List.mem_singleton.mp shown]
    rfl
  constructor
  · intro x _ test inside
    obtain ⟨value, rfl, -⟩ := member.mp inside
    trivial
  · intro x built refused
    refine ⟨by simp [Family.constants], fun s inColumn tests => ?_⟩
    cases built with
    | string value =>
      obtain ⟨wanted, rfl⟩ := Shape.eq_string (heads s inColumn) tests (fits s inColumn)
      have fails := refused _ (member.mpr ⟨wanted, rfl, inColumn⟩)
      simp [Shape.ways, fails]
    | abstract hidden => simp [Ty.isAbstract] at hidden
  · intro _ test inside parts typed
    obtain ⟨value, rfl, -⟩ := member.mp inside
    cases typed
    exact ⟨.string value, .string value, by simp [Test.picks, Test.accepts], rfl⟩
  · intro x _ test inside picks
    obtain ⟨value, rfl, -⟩ := member.mp inside
    exact picks
  · intro _ p shown
    obtain ⟨values, all⟩ : (Family.constants column).1 ∈ Set.range (List.map Test.string) := by
      rw [Set.range_list_map]
      intro test inside
      obtain ⟨value, rfl, -⟩ := member.mp inside
      exact ⟨value, rfl⟩
    obtain ⟨value, fresh⟩ := exists_fresh values
    refine ⟨.string value, .string value, matches_wild (wild shown) _, fun test inside => ?_⟩
    rw [← all] at inside
    obtain ⟨used, present, rfl⟩ := List.mem_map.mp inside
    have differ : value ≠ used := fun same => fresh (same ▸ present)
    simp [Test.accepts, differ]
  · intro none p _ x _ _ test inside
    obtain ⟨value, -, inColumn⟩ := member.mp inside
    exact absurd inColumn (none value)

theorem lengths_span (column : List Shape) (element : Ty) :
    Spans ctx inner (.array element) column (Family.lengths column) := by
  obtain ⟨longest, longestOpen, fewer, equal, bounds⟩ := Family.lengths_eq column
  rw [equal]
  have tested {test : Test} (member : test ∈ (List.range (longest + 1)).map Test.length ++
      [.atLeast (longest + 1) longestOpen]) :
      (∃ count, test = .length count) ∨ test = .atLeast (longest + 1) longestOpen := by
    rcases List.mem_append.mp member with short | long
    · obtain ⟨count, -, rfl⟩ := List.mem_map.mp short
      exact Or.inl ⟨count, rfl⟩
    · exact Or.inr (List.mem_singleton.mp long)
  constructor
  · intro x _ test member
    rcases tested member with ⟨count, rfl⟩ | rfl
    · trivial
    · intro front isOpen rest inColumn
      obtain ⟨short, shortOpen⟩ := bounds front isOpen rest inColumn
      cases isOpen with
      | false => simpa using Nat.lt_succ_of_le short
      | true => simpa using shortOpen rfl
  · intro x built refused
    cases built with
    | @array values _ parts =>
      by_cases short : values.length ≤ longest
      · have passes := refused (.length values.length) (List.mem_append_left _
          (List.mem_map_of_mem (List.mem_range.mpr (Nat.lt_succ_of_le short))))
        simp [Test.accepts] at passes
      · have passes := refused _ (List.mem_append_right _ (List.mem_singleton.mpr rfl))
        simp [Test.accepts] at passes
        omega
    | abstract hidden => simp [Ty.isAbstract] at hidden
  · intro alive test member parts typed
    obtain ⟨filler, some⟩ := alive.2 element (by simp [Decls.inside])
    have filled (front : List Value) {count : Nat}
        (typed : List.Forall₂ inner front (List.replicate count element)) :
        ∀ v ∈ front, inner v element := by
      intro v present
      obtain ⟨i, here⟩ := List.mem_iff_getElem?.mp present
      have inside : i < count := by
        have := (List.getElem?_eq_some_iff.mp here).1
        simpa [typed.length_eq] using this
      exact forall₂_get? typed here (by simp [inside])
    rcases tested member with ⟨count, rfl⟩ | rfl
    · have exact := typed.length_eq
      simp only [Test.types, List.length_replicate] at exact
      refine ⟨.array parts, .array (filled parts typed), by simp [Test.picks, Test.accepts, exact], ?_⟩
      simp [Value.parts, Test.arity, ← exact]
    · have exact := typed.length_eq
      simp only [Test.types, List.length_replicate] at exact
      refine ⟨.array (parts ++ List.replicate (longest + 1) filler), .array fun v present => ?_, ?_, ?_⟩
      · rcases List.mem_append.mp present with first | later
        · exact filled parts typed v first
        · exact List.eq_of_mem_replicate later ▸ some
      · simp [Test.picks, Test.accepts]
      · simp [Value.parts, Test.arity, ← exact]
  · intro x _ test member picks
    rcases tested member with ⟨count, rfl⟩ | rfl
    · exact picks
    · exact picks
  · intro _ p shown
    cases shown
  · intro _ p shown
    cases shown

theorem untested_span {t : Ty} (all : ∀ s ∈ column, s.isAny = true) :
    Spans ctx inner t column ([], [.wildcard default]) := by
  constructor
  · simp
  · intro x _ _
    refine ⟨by simp, fun s inColumn tests => ?_⟩
    simp [all s inColumn] at tests
  · simp
  · simp
  · rintro ⟨⟨x, built⟩, -⟩ p shown
    obtain rfl := List.mem_singleton.mp shown
    exact ⟨x, built, matches_wild rfl x, by simp⟩
  · simp

/-- The family of a column without float literals spans its type. -/
theorem FamilyOf.spans (regular : ctx.decls.Regular) {t : Ty} {family : List Test × List Pattern}
    (known : FamilyOf ctx.decls ctx.options false t column family)
    (heads : ∀ s ∈ column, s.isHead = true) (fits : ∀ s ∈ column, Shape.Fits ctx.decls false s t) :
    Spans ctx inner t column family := by
  cases known with
  | bools same => subst same; exact bools_span heads fits
  | variants same declared => subst same; exact variants_span regular declared heads fits
  | integers same => subst same; exact integers_span heads fits
  | constants same =>
    rcases same with rfl | ⟨impossible, -⟩
    · exact constants_span heads fits
    · simp at impossible
  | lengths same => subst same; exact lengths_span column _
  | untested all => exact untested_span all

end

/-- What a family of tests says about the values of a type. -/
structure Covers (ctx : Context) (t : Ty) (column : List Shape) (family : List Test × List Pattern) :
    Prop where
  /-- The values that pass a test are alike to the column. -/
  sharp : ∀ x, HasType ctx x t → ∀ test ∈ family.1, test.Sharp column
  /-- A value that passes no test is missing and matches no shape that tests something. -/
  missed : ∀ x, HasType ctx x t → (∀ test ∈ family.1, test.accepts x = false) →
    family.2 ≠ [] ∧ ∀ s ∈ column, s.isAny = false → s.ways x = []
  /-- Any parts belong to a value that passes the test. -/
  passed : Peopled ctx t → ∀ test ∈ family.1, ∀ parts,
    List.Forall₂ (HasType ctx) parts (test.types ctx.decls t) →
      ∃ x, HasType ctx x t ∧ test.accepts x = true ∧ x.parts.take test.arity = parts
  /-- What is shown as missing occurs. -/
  shown : Peopled ctx t → family.2 ≠ [] →
    ∃ x, HasType ctx x t ∧ ∀ test ∈ family.1, test.accepts x = false

section

variable {ctx : Context} {column : List Shape}

theorem Spans.covers {t : Ty} {family : List Test × List Pattern}
    (spans : Spans ctx (HasType ctx) t column family) : Covers ctx t column family := by
  constructor
  · exact fun x typed => spans.sharp x (hasType_iff_built.mp typed)
  · exact fun x typed => spans.missed x (hasType_iff_built.mp typed)
  · intro peopled test member parts typed
    obtain ⟨x, built, picks, taken⟩ := spans.passed peopled.alive test member parts typed
    exact ⟨x, hasType_iff_built.mpr built, spans.picked x built test member picks, taken⟩
  · intro peopled some
    obtain ⟨p, member⟩ := List.exists_mem_of_ne_nil _ some
    obtain ⟨x, built, -, refused⟩ := spans.shown peopled.alive p member
    exact ⟨x, hasType_iff_built.mpr built, refused⟩

/-- The family of a column without float literals covers its type. -/
theorem FamilyOf.covers (regular : ctx.decls.Regular) {t : Ty} {family : List Test × List Pattern}
    (known : FamilyOf ctx.decls ctx.options false t column family)
    (heads : ∀ s ∈ column, s.isHead = true) (fits : ∀ s ∈ column, Shape.Fits ctx.decls false s t) :
    Covers ctx t column family :=
  (known.spans regular heads fits).covers

theorem FamilyOf.suits {decls : Decls} {options : Options} {floats : Bool} {t : Ty}
    {family : List Test × List Pattern} (known : FamilyOf decls options floats t column family)
    (fits : ∀ s ∈ column, Shape.Fits decls floats s t) : ∀ test ∈ family.1, test.Suits decls t := by
  intro test member
  cases known with
  | bools same =>
    obtain ⟨value, -, rfl⟩ := List.mem_map.mp member
    exact same
  | @variants name args d same declared =>
    obtain ⟨v, inside, rfl⟩ := List.mem_map.mp member
    exact ⟨name, args, d, same, declared, (List.mem_filter.mp inside).1⟩
  | @integers k same =>
    obtain ⟨s, -, kept⟩ := List.mem_filterMap.mp member
    obtain rfl : Test.range s.low s.high = test := by simpa using (Option.ite_none_left_eq_some.mp kept).2
    exact ⟨k, same⟩
  | constants same =>
    obtain ⟨s, inColumn, kept⟩ := List.mem_filterMap.mp ((Family.distinct_spec _).1 test member)
    have suited := fits s inColumn
    cases s <;> simp at kept
    · exact kept ▸ suited
    · exact kept ▸ suited.2
  | @lengths element same =>
    obtain ⟨longest, longestOpen, fewer, equal, -⟩ := Family.lengths_eq column
    rw [equal] at member
    rcases List.mem_append.mp member with short | long
    · obtain ⟨count, -, rfl⟩ := List.mem_map.mp short
      exact ⟨element, same⟩
    · obtain rfl := List.mem_singleton.mp long
      exact ⟨⟨element, same⟩, Nat.le_succ_of_le fewer⟩
  | untested all => simp at member

end

end Match

end TreeCheck
