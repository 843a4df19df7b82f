import TreeCheck.Proofs.Match.Exhaustive
import TreeCheck.Proofs.Match.Sound

/-!
Values by levels. Whether an arm is reached is decided without asking whether types have values, so it is explained by
values of which only so many levels are as a type asks for; and by the values of a type, where types are known to have
them. Each replacement of a column leads from values of one level to values of the level below, and back.
-/

namespace TreeCheck.Match

/-- A value of which so many levels are as a type asks for. Where no value is, nothing is asked for. -/
def Approx (ctx : Context) : Nat → Value → Ty → Prop
  | 0, _, _ => True
  | level + 1, x, t => (∃ y, Built ctx (Approx ctx level) y t) → Built ctx (Approx ctx level) x t

section

variable {ctx : Context}

theorem exists_approx (level : Nat) (t : Ty) : ∃ x, Approx ctx level x t := by
  cases level with
  | zero => exact ⟨default, trivial⟩
  | succ level =>
    by_cases some : ∃ y, Built ctx (Approx ctx level) y t
    · obtain ⟨y, built⟩ := some
      exact ⟨y, fun _ => built⟩
    · exact ⟨default, fun other => absurd other some⟩

/-- Whether a type has a value does not depend on what its parts are asked for. -/
theorem Built.refill {inner inner' : Value → Ty → Prop} {x : Value} {t : Ty} (built : Built ctx inner x t)
    (some : ∀ t, ∃ y, inner' y t) : ∃ y, Built ctx inner' y t := by
  have filled (types : List Ty) : ∃ values, List.Forall₂ inner' values types :=
    exists_values fun t _ => some t
  cases built with
  | unit => exact ⟨_, .unit⟩
  | bool value => exact ⟨_, .bool value⟩
  | int above below => exact ⟨_, .int above below⟩
  | float value k => exact ⟨_, .float value k⟩
  | string value => exact ⟨_, .string value⟩
  | @tuple _ types parts =>
    obtain ⟨values, typed⟩ := filled types
    exact ⟨_, .tuple typed⟩
  | array parts => exact ⟨.array [], .array (List.forall_mem_nil _)⟩
  | struct parts =>
    obtain ⟨values, typed⟩ := filled _
    exact ⟨_, .struct typed⟩
  | variant declared member parts =>
    obtain ⟨values, typed⟩ := filled _
    exact ⟨_, .variant declared member typed⟩
  | @ref _ mutable target behind =>
    obtain ⟨y, typed⟩ := some target
    exact ⟨y, .ref typed⟩
  | abstract hidden => exact ⟨default, .abstract hidden⟩

theorem Approx.down {level : Nat} {x : Value} {t : Ty} (typed : Approx ctx (level + 1) x t) :
    Approx ctx level x t := by
  induction level generalizing x t with
  | zero => trivial
  | succ level ih =>
    rintro ⟨y, built⟩
    obtain ⟨z, above⟩ := built.refill (exists_approx (level + 1))
    exact (typed ⟨z, above⟩).mono fun y s inner => ih inner

theorem Approx.of_built {level : Nat} {x : Value} {t : Ty} (built : Built ctx (Approx ctx level) x t) :
    Approx ctx level x t :=
  Approx.down fun _ => built

end

/-- Whether a range holds an integer of the domain. Floats are left out. -/
def Context.overlaps (ctx : Context) : Shape → Ty → Bool
  | .range low high, t => max low (ctx.options.bounds t).1 ≤ min high (ctx.options.bounds t).2
  | .float _, _ => false
  | _, _ => true

/-- Whether a shape by itself can match: a range holds an integer of the domain, and a choice has alternatives. -/
def Context.meets (ctx : Context) (s : Shape) (t : Ty) : Bool := ctx.overlaps s t && s.offers t

/-- A shape is sound and tests the values of its type, or takes them apart. -/
structure Shape.Probes (decls : Decls) (ok : Shape → Ty → Bool) (s : Shape) (t : Ty) : Prop where
  sound : s.Sound decls ok t
  head : s.isHead = true
  tests : s.isAny = false

/-- A shape that takes a product apart tests its type. -/
theorem Shape.Sound.probes {decls : Decls} {s : Shape} {t : Ty} (sound : s.Sound decls ok t)
    (product : s.isProduct = true) : s.Probes decls ok t := by
  refine ⟨sound, ?_, ?_⟩
  · cases s <;> simp [Shape.isProduct] at product <;> rfl
  · cases s <;> simp [Shape.isProduct] at product <;> rfl

/-- Where a shape that can match tests a type, the type has a value, if parts are there. -/
theorem Shape.Probes.built {ctx : Context} {s : Shape} {t : Ty} (probes : s.Probes ctx.decls ctx.meets t)
    {inner : Value → Ty → Prop} (some : ∀ t, ∃ y, inner y t) : ∃ x, Built ctx inner x t := by
  obtain ⟨sound, head, tests⟩ := probes
  have filled (types : List Ty) : ∃ values, List.Forall₂ inner values types :=
    exists_values fun t _ => some t
  have holds := sound.holds
  cases s <;> simp [Shape.isHead, Shape.isAny] at head tests
  case bool value =>
    obtain rfl := sound.fits
    exact ⟨_, .bool value⟩
  case variant v args =>
    obtain ⟨name, typeArgs, d, rfl, known, member⟩ := sound.variant.1
    obtain ⟨values, typed⟩ := filled (Decls.slots d typeArgs v)
    exact ⟨_, .variant known member typed⟩
  case range low high =>
    obtain ⟨k, rfl⟩ := sound.fits
    have overlap : max low (ctx.options.bounds (.int k)).1 ≤ min high (ctx.options.bounds (.int k)).2 := by
      simpa [Context.meets, Context.overlaps, Shape.offers] using holds
    exact ⟨.int (max low (ctx.options.bounds (.int k)).1), .int (by omega) (by omega)⟩
  case string value =>
    obtain rfl := sound.fits
    exact ⟨_, .string value⟩
  case float value => simpa [Shape.Fits] using sound.fits
  case list front isOpen rest =>
    obtain ⟨element, rfl, -⟩ := sound.list
    exact ⟨.array [], .array (List.forall_mem_nil _)⟩
  case product args =>
    obtain ⟨types, product, -⟩ := sound.product
    have opens : Opens ctx.decls (Column.type ⟨[], t⟩) := .inl ⟨types, product⟩
    obtain ⟨values, typed⟩ := filled ((Matrix.parts ctx.decls ⟨[], t⟩).map Column.type)
    obtain ⟨x, built, -⟩ := exists_product opens typed
    exact ⟨x, built⟩
  case target inner =>
    obtain ⟨mutable, target, rfl, -⟩ := sound.target
    obtain ⟨y, typed⟩ := some target
    exact ⟨y, .ref typed⟩

/-- Values by levels, such that a value of a level has parts of the level below where a shape tests its type. -/
structure Layers (ctx : Context) (ok : Shape → Ty → Bool) (lively : Ty → Prop)
    (level : Nat → Value → Ty → Prop) : Prop where
  wild : ∀ t, ok Shape.wild t = true
  built : ∀ {n : Nat} {x : Value} {t : Ty}, Built ctx (level n) x t → level (n + 1) x t
  down : ∀ {n : Nat} {x : Value} {t : Ty}, level (n + 1) x t → level n x t
  firm : ∀ {n : Nat} {x : Value} {s : Shape} {t : Ty}, s.Probes ctx.decls ok t → level (n + 1) x t →
    Built ctx (level n) x t
  exist : ∀ {t : Ty}, lively t → ∀ n, ∃ x, level n x t
  inside : ∀ {t : Ty}, lively t → ∀ part ∈ ctx.decls.inside t, lively part
  tested : ∀ {s : Shape} {t : Ty}, s.Probes ctx.decls ok t → lively t → ∀ n, ∃ x, Built ctx (level n) x t

/-- The values of the types, at every level. -/
theorem hasType_layers (ctx : Context) :
    Layers ctx (fun _ _ => true) (Peopled ctx) (fun _ => HasType ctx) where
  wild _ := rfl
  built := hasType_iff_built.mpr
  down := id
  firm _ := hasType_iff_built.mp
  exist peopled _ := peopled.self
  inside peopled _ := peopled.inside
  tested _ peopled _ := peopled.alive.1

theorem approx_layers (ctx : Context) : Layers ctx ctx.meets (fun _ => True) (Approx ctx) where
  wild _ := rfl
  built known _ := known
  down := Approx.down
  firm probes typed := typed (probes.built (exists_approx _))
  exist _ n := exists_approx n _
  inside _ _ _ := trivial
  tested probes _ n := probes.built (exists_approx n)

abbrev FilledBy (inner : Value → Ty → Prop) (cols : List Column) (values : List Value) : Prop :=
  List.Forall₂ (fun col x => inner x col.type) cols values

theorem filledBy_iff {inner : Value → Ty → Prop} {cols : List Column} {values : List Value} :
    FilledBy inner cols values ↔ List.Forall₂ inner values (cols.map Column.type) := by
  rw [List.forall₂_map_right_iff]
  exact ⟨fun filled => filled.flip, fun typed => typed.flip⟩

theorem lookBelow_paths (path : Path) (x : Value) (q : Path) : lookBelow path x (path ++ q) = x.at? q := by
  simp [lookBelow]

/-- One value of a list gives way to others, and a change follows them for some shapes at its position. -/
def Traced (shapes : List Shape) (i : Nat) (change : Shape → Option (List Shape × List Extraction))
    (values values' : List Value) : Prop :=
  ∃ front x parts back look, values = front ++ x :: back ∧ values' = front ++ parts ++ back ∧
    front.length = i ∧ ∀ s ∈ shapes, Follows look change x parts s

theorem Traced.admits {m : Matrix} {i : Nat} {col : Column} {ctx : Context} (fit : m.Fits ctx.decls false)
    (here : m.cols[i]? = some col) {sub : List Column} {change : Shape → Option (List Shape × List Extraction)}
    {values values' : List Value} (traced : Traced (m.column i) i change values values') :
    m.Admits values ↔ (m.spliced i sub change).Admits values' := by
  obtain ⟨front, x, parts, back, look, rfl, rfl, sized, follows⟩ := traced
  exact Matrix.splice_admits fit here follows sized back

theorem Traced.subset {shapes shapes' : List Shape} {i : Nat} {values values' : List Value}
    {change : Shape → Option (List Shape × List Extraction)} (traced : Traced shapes i change values values')
    (fewer : ∀ s ∈ shapes', s ∈ shapes) : Traced shapes' i change values values' := by
  obtain ⟨front, x, parts, back, look, first, second, sized, follows⟩ := traced
  exact ⟨front, x, parts, back, look, first, second, sized, fun s member => follows s (fewer s member)⟩

/-- Where some columns came from one, their values stand between those of the others. -/
theorem forall₂_splice {α β : Type} {R : α → β → Prop} {l sub : List α} {i : Nat} {a : α} (here : l[i]? = some a)
    {l' : List β} (related : List.Forall₂ R (l.take i ++ sub ++ l.drop (i + 1)) l') :
    ∃ front parts back, l' = front ++ parts ++ back ∧ front.length = i ∧ List.Forall₂ R sub parts ∧
      ∀ b, R a b → List.Forall₂ R l (front ++ b :: back) := by
  obtain ⟨rest, back, rfl, before, after⟩ := forall₂_append_left related
  obtain ⟨front, parts, rfl, first, middle⟩ := forall₂_append_left before
  obtain ⟨inside, rfl⟩ := List.getElem?_eq_some_iff.mp here
  have sized : front.length = i := by
    rw [← first.length_eq, List.length_take]
    omega
  refine ⟨front, parts, back, rfl, sized, middle, fun b own => ?_⟩
  have whole : l = l.take i ++ l[i] :: l.drop (i + 1) := by
    rw [← List.drop_eq_getElem_cons inside, List.take_append_drop]
  rw [whole]
  exact List.rel_append first (.cons own after)

namespace Layers

variable {ctx : Context} {ok : Shape → Ty → Bool} {lively : Ty → Prop} {level : Nat → Value → Ty → Prop}
variable (layers : Layers ctx ok lively level)

include layers

theorem down_le {n k : Nat} (fewer : n ≤ k) {x : Value} {t : Ty} (typed : level k x t) : level n x t := by
  induction k, fewer using Nat.le_induction with
  | base => exact typed
  | succ k _ ih => exact ih (layers.down typed)

theorem filled_down {n : Nat} {cols : List Column} {values : List Value}
    (filled : FilledBy (level (n + 1)) cols values) : FilledBy (level n) cols values :=
  filled.imp fun _ _ typed => layers.down typed

theorem alive {s : Shape} {t : Ty} (probes : s.Probes ctx.decls ok t) (lives : lively t) (n : Nat) :
    Alive ctx (level n) t :=
  ⟨layers.tested probes lives n, fun part member => layers.exist (layers.inside lives part member) n⟩

/-- The values of a level have parts of the level below, at a column that some shape tests. -/
theorem split {n i : Nat} {cols : List Column} {col : Column} (here : cols[i]? = some col) {key : Shape}
    (probes : key.Probes ctx.decls ok col.type) {values : List Value}
    (filled : FilledBy (level (n + 1)) cols values) :
    ∃ front x back, values = front ++ x :: back ∧ front.length = i ∧ Built ctx (level n) x col.type ∧
      ∀ sub parts, FilledBy (level n) sub parts →
        FilledBy (level n) (cols.take i ++ sub ++ cols.drop (i + 1)) (front ++ parts ++ back) := by
  obtain ⟨front, x, back, rfl, sized, -, replaced⟩ := forall₂_split (layers.filled_down filled) here
  have there : (front ++ x :: back)[i]? = some x := by simp [← sized]
  exact ⟨front, x, back, rfl, sized, layers.firm probes (forall₂_get? filled here there), replaced⟩

variable {n i : Nat} {cols : List Column} {col : Column} (here : cols[i]? = some col)
variable {shapes : List Shape} (suit : ∀ s ∈ shapes, Shape.Fits ctx.decls false s col.type ∧ s.isHead = true)
variable {values values' : List Value}

include here suit

theorem open_down (opens : Opens ctx.decls col.type) {key : Shape} (probes : key.Probes ctx.decls ok col.type)
    (filled : FilledBy (level (n + 1)) cols values) :
    ∃ values', FilledBy (level n) (cols.take i ++ Matrix.parts ctx.decls col ++ cols.drop (i + 1)) values' ∧
      Traced shapes i (openShape ctx.decls col) values values' := by
  obtain ⟨front, x, back, rfl, sized, built, replaced⟩ := layers.split here probes filled
  refine ⟨_, replaced _ _ (filledBy_iff.mpr (built.pieces opens)), front, x, _, back, lookBelow col.path x, rfl, rfl,
    sized, fun s member => ?_⟩
  exact follows_open (lookBelow_paths col.path x) built opens (suit s member).1 (suit s member).2

theorem open_up (opens : Opens ctx.decls col.type)
    (filled : FilledBy (level n) (cols.take i ++ Matrix.parts ctx.decls col ++ cols.drop (i + 1)) values') :
    ∃ values, FilledBy (level n) cols values ∧ Traced shapes i (openShape ctx.decls col) values values' := by
  obtain ⟨front, parts, back, rfl, sized, middle, whole⟩ := forall₂_splice here filled
  obtain ⟨x, built, rfl⟩ := exists_product opens (filledBy_iff.mp middle)
  refine ⟨_, whole x (layers.down (layers.built built)), front, x, _, back, lookBelow col.path x, rfl, rfl, sized,
    fun s member => ?_⟩
  exact follows_open (lookBelow_paths col.path x) built opens (suit s member).1 (suit s member).2

variable (regular : ctx.decls.Regular) {family : List Test × List Pattern}
variable (spans : Spans ctx (level n) col.type shapes family)

include regular spans

/-- A value passes a test and goes on with the parts that it opens up, or it is missing. -/
theorem switch_down (suits : ∀ test ∈ family.1, test.Suits ctx.decls col.type) {key : Shape}
    (probes : key.Probes ctx.decls ok col.type) (filled : FilledBy (level (n + 1)) cols values) :
    (∃ test ∈ family.1, ∃ sub values', test.columns ctx.decls col = .ok sub ∧
      FilledBy (level n) (cols.take i ++ sub ++ cols.drop (i + 1)) values' ∧
      Traced shapes i (passShape col test sub.length) values values') ∨
    (family.2 ≠ [] ∧ ∃ values', FilledBy (level n) (cols.take i ++ [] ++ cols.drop (i + 1)) values' ∧
      Traced shapes i (missShape col) values values') := by
  obtain ⟨front, x, back, rfl, sized, built, replaced⟩ := layers.split here probes filled
  have paths := lookBelow_paths col.path x
  by_cases some : ∃ test ∈ family.1, test.accepts x = true
  · obtain ⟨test, member, accepted⟩ := some
    obtain ⟨sub, opened, -, types⟩ := Test.columns_eq (suits test member)
    have parts := built.opened regular (suits test member) accepted
    rw [← types] at parts
    refine .inl ⟨test, member, sub, _, opened, replaced _ _ (filledBy_iff.mpr parts), front, x, _, back,
      lookBelow col.path x, rfl, rfl, sized, fun s inside => ?_⟩
    exact follows_pass regular paths built (suits test member) accepted (spans.sharp x built test member) inside
      (suit s inside).1 (suit s inside).2 opened
  · have refused : ∀ test ∈ family.1, test.accepts x = false := by
      intro test member
      simpa using fun accepted => some ⟨test, member, accepted⟩
    obtain ⟨shown, misses⟩ := spans.missed x built refused
    exact .inr ⟨shown, _, replaced _ _ .nil, front, x, _, back, lookBelow col.path x, rfl, rfl, sized,
      fun s inside => follows_miss paths (misses s inside)⟩

theorem pass_up (alive : Alive ctx (level n) col.type) {test : Test} (member : test ∈ family.1)
    (suits : test.Suits ctx.decls col.type) {sub : List Column} (opened : test.columns ctx.decls col = .ok sub)
    (filled : FilledBy (level n) (cols.take i ++ sub ++ cols.drop (i + 1)) values') :
    ∃ values, FilledBy (level n) cols values ∧
      Traced shapes i (passShape col test sub.length) values values' := by
  obtain ⟨front, parts, back, rfl, sized, middle, whole⟩ := forall₂_splice here filled
  obtain ⟨sub', opened', -, types⟩ := Test.columns_eq suits
  obtain rfl := Except.ok.inj (opened.symm.trans opened')
  obtain ⟨x, built, picks, rfl⟩ := spans.passed alive test member parts (types ▸ filledBy_iff.mp middle)
  have accepted := spans.picked x built test member picks
  refine ⟨_, whole x (layers.down (layers.built built)), front, x, _, back, lookBelow col.path x, rfl, rfl, sized,
    fun s inside => ?_⟩
  exact follows_pass regular (lookBelow_paths col.path x) built suits accepted (spans.sharp x built test member) inside
    (suit s inside).1 (suit s inside).2 opened

omit regular suit in
theorem miss_up (alive : Alive ctx (level n) col.type) (shown : family.2 ≠ [])
    (filled : FilledBy (level n) (cols.take i ++ [] ++ cols.drop (i + 1)) values') :
    ∃ values, FilledBy (level n) cols values ∧ Traced shapes i (missShape col) values values' := by
  obtain ⟨front, parts, back, rfl, sized, middle, whole⟩ := forall₂_splice here filled
  obtain ⟨p, member⟩ := List.exists_mem_of_ne_nil _ shown
  obtain ⟨x, built, -, refused⟩ := spans.shown alive p member
  cases middle
  exact ⟨_, whole x (layers.down (layers.built built)), front, x, _, back, lookBelow col.path x, rfl, rfl, sized,
    fun s inside => follows_miss (lookBelow_paths col.path x) ((spans.missed x built refused).2 s inside)⟩

end Layers

end TreeCheck.Match
