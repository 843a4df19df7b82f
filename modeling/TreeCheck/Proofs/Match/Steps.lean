import TreeCheck.Proofs.Match.Columns

/-!
The steps of match compilation on the shapes of a column. Taking a product apart, passing a test and
passing none of them change the shapes so that they match the parts of a value in the same ways in
which they matched the value.
-/

namespace TreeCheck.Match

section
-- The equations of these definitions are made here once, so that no proof below waits while another makes them.
attribute [local simp] Follows Matrix.partShapes Matrix.parts Shape.bound Shape.isAny Shape.isHead Test.specialize? gather
end

/-- How taking a column apart changes its shapes. -/
def openShape (decls : Decls) (col : Column) (s : Shape) : Option (List Shape × List Extraction) :=
  some (Matrix.partShapes (Matrix.parts decls col).length s, s.bound col.path)

/-- How a passed test that opens up `count` parts changes the shapes of its column. -/
def passShape (col : Column) (test : Test) (count : Nat) (s : Shape) :
    Option (List Shape × List Extraction) :=
  if s.isAny then some (Shape.wilds count, s.bound col.path) else test.specialize? col.path s

/-- How the shapes of a column change for a value that passes none of the tests. -/
def missShape (col : Column) (s : Shape) : Option (List Shape × List Extraction) :=
  if s.isAny then some ([], s.bound col.path) else none

/-- A shape that tests nothing binds the value and leaves its parts alone. -/
theorem follows_any {look : Path → Option Value} {col : Column} {x : Value}
    (paths : ∀ q, look (col.path ++ q) = x.at? q)
    {change : Shape → Option (List Shape × List Extraction)} {parts : List Value} (bind : Option String)
    (changed : change (.any bind) = some (Shape.wilds parts.length, (Shape.any bind).bound col.path)) :
    Follows look change x parts (.any bind) := by
  simp only [Follows, changed, Shape.waysAll_wilds (le_refl parts.length), cross_unit_right]
  have here : look col.path = some x := by simpa [Value.at?] using paths []
  refine ⟨by simp [Shape.wilds], ?_⟩
  cases bind with
  | none => simp [Shape.ways, Shape.bound, gather]
  | some name => simp [Shape.ways, Shape.bound, gather, here]

theorem follows_open {ctx : Context} {floats : Bool} {look : Path → Option Value} {col : Column}
    {x : Value} (paths : ∀ q, look (col.path ++ q) = x.at? q) {inner : Value → Ty → Prop}
    (built : Built ctx inner x col.type) (opens : Opens ctx.decls col.type) {s : Shape}
    (fits : Shape.Fits ctx.decls floats s col.type) (head : s.isHead = true) :
    Follows look (openShape ctx.decls col) x (x.pieces col.type) s := by
  have sized : (Matrix.parts ctx.decls col).length = (x.pieces col.type).length := by
    simpa using (built.pieces opens).length_eq.symm
  cases s <;> simp [Shape.isHead] at head
  case any bind =>
    refine follows_any paths bind ?_
    simp [openShape, Matrix.partShapes, sized]
  case product args =>
    obtain ⟨types, product, inner⟩ := fits
    have count := congrArg List.length (map_type_parts product)
    have exact : args.length = (Matrix.parts ctx.decls col).length := by
      simpa [(Shape.fitsAll_iff.mp inner).length_eq] using count.symm
    have whole : x.pieces col.type = x.parts := by
      cases same : col.type <;> simp_all [Decls.productTypes?, Value.pieces]
    simp only [Follows, openShape, Matrix.partShapes, ← exact, Shape.fit_length, Shape.bound]
    refine ⟨by rw [exact, sized], ?_⟩
    simp [Shape.ways, gather, whole]
  case target inner =>
    obtain ⟨mutable, target, same, -⟩ := fits
    have one : Matrix.partShapes (Matrix.parts ctx.decls col).length (.target inner) = [inner] := by
      simp [Matrix.parts, same, Matrix.partShapes, Shape.fit, Shape.wilds]
    simp only [Follows, openShape, one, Shape.bound]
    refine ⟨by simp [same, Value.pieces], ?_⟩
    simp [Shape.ways, gather, same, Value.pieces, Shape.waysAll]
  all_goals
    rcases opens with ⟨types, product⟩ | ⟨mutable, target, same⟩
    · cases same : col.type <;> simp_all [Decls.productTypes?, Shape.Fits]
    · simp_all [Shape.Fits]

theorem open_fits {decls : Decls} {floats : Bool} {col : Column} {s : Shape}
    (fits : Shape.Fits decls floats s col.type) (head : s.isHead = true) {shapes : List Shape}
    {binds : List Extraction} (changed : openShape decls col s = some (shapes, binds)) :
    List.Forall₂ (Shape.Fits decls floats) shapes ((Matrix.parts decls col).map Column.type) := by
  obtain ⟨rfl, -⟩ : Matrix.partShapes (Matrix.parts decls col).length s = shapes ∧ _ = binds := by
    simpa [openShape] using changed
  rw [← Shape.fitsAll_iff]
  cases s <;> simp [Shape.isHead] at head
  case product args =>
    obtain ⟨types, product, inner⟩ := fits
    have known := map_type_parts product
    have exact : args.length = (Matrix.parts decls col).length := by
      simpa [(Shape.fitsAll_iff.mp inner).length_eq] using (congrArg List.length known).symm
    rw [Matrix.partShapes, ← exact, Shape.fit_length, known]
    exact inner
  case target inner =>
    obtain ⟨mutable, target, same, fits⟩ := fits
    simpa [Matrix.parts, same, Matrix.partShapes, Shape.fit, Shape.wilds, Shape.FitsAll] using fits
  all_goals
    have wild : Shape.FitsAll decls floats _ _ :=
      Shape.fitsAll_wilds ((Matrix.parts decls col).map Column.type)
    simpa [Matrix.partShapes] using wild

/-- An open list that looks at no more elements than a test, on an array that has them. -/
theorem follows_openList {look : Path → Option Value} {path : Path} {values : List Value}
    (paths : ∀ q, look (path ++ q) = (Value.array values).at? q) {front : List Shape}
    (rest : Option String) {count : Nat} (fewer : front.length ≤ count) (enough : count ≤ values.length) :
    ∃ shapes binds, Test.specialize?.openList path count front rest = some (shapes, binds) ∧
      shapes.length = count ∧ (Shape.list front true rest).ways (.array values) =
        cross [{ env := gather look binds }] (Shape.waysAll shapes (values.take count)) := by
  refine ⟨_, _, by rw [Test.specialize?.openList, if_neg (by omega)], ?_, ?_⟩
  · simp [Shape.fit, Shape.wilds]
    omega
  · have bound : gather look (rest.toList.map fun name => ⟨name, path ++ [.rest front.length]⟩) =
        rest.toList.map fun name => (name, .array (values.drop front.length)) := by
      have there := paths [.rest front.length]
      have within : ¬ values.length < front.length := by omega
      simp only [Value.at?, Value.step?, Value.parts, within, if_false, Option.bind_some] at there
      cases rest <;> simp [gather, there]
    have split : values.take count =
        values.take front.length ++ (values.take count).drop front.length := by
      rw [← List.take_append_drop front.length (values.take count), List.take_take,
        Nat.min_eq_left fewer, List.drop_left' (by simp; omega)]
    have wild : Shape.waysAll (Shape.wilds (count - front.length)) ((values.take count).drop front.length) =
        [{}] := Shape.waysAll_wilds (by simp; omega)
    have same : Shape.waysAll front values = Shape.waysAll front (values.take front.length) := by
      conv_lhs => rw [← List.take_append_drop front.length values, ← List.append_nil front]
      rw [Shape.waysAll_append (by simp; omega)]
      simp [Shape.waysAll]
    have long : ¬ values.length < front.length := by omega
    rw [bound, split, Shape.fit, List.take_of_length_le fewer, Shape.waysAll_append (by simp; omega), wild]
    simp [Shape.ways, long, same]

namespace Shape

-- A head that tests something is of the one kind that the type of its column has.
section

variable {decls : Decls} {floats : Bool} {s : Shape} (head : s.isHead = true) (tests : s.isAny = false)

include head tests

theorem eq_bool (fits : Fits decls floats s .bool) : ∃ wanted, s = .bool wanted := by
  cases s <;> simp_all [Fits, isHead, isAny, Decls.productTypes?]

theorem eq_string (fits : Fits decls floats s .string) : ∃ wanted, s = .string wanted := by
  cases s <;> simp_all [Fits, isHead, isAny, Decls.productTypes?]

theorem eq_range {k : IntType} (fits : Fits decls floats s (.int k)) :
    ∃ least greatest, s = .range least greatest := by
  cases s <;> simp_all [Fits, isHead, isAny, Decls.productTypes?]

theorem eq_list {element : Ty} (fits : Fits decls floats s (.array element)) :
    ∃ front isOpen rest, s = .list front isOpen rest ∧ FitsEach decls floats front element := by
  cases s <;> simp_all [Fits, isHead, isAny, Decls.productTypes?]

theorem eq_variant {name : String} {args : List Ty} {d : EnumDef} (known : decls.enum? name = some d)
    (fits : Fits decls floats s (.enum name args)) :
    ∃ w shapes, s = .variant w shapes ∧ w ∈ d.variants ∧
      FitsAll decls floats shapes (Decls.slots d args w) := by
  cases s <;> simp_all [Fits, isHead, isAny, Decls.productTypes?]

end

end Shape

/-- A shape without parts that admits all values that pass a test, or none. -/
theorem follows_constant {look : Path → Option Value} {col : Column} {x : Value} {test : Test}
    {s : Shape} (count : Nat) (admits : Bool) (tests : s.isAny = false)
    (specialized : test.specialize? col.path s = if admits then some ([], []) else none)
    (ways : s.ways x = if admits then [{}] else []) : Follows look (passShape col test count) x [] s := by
  simp only [Follows, passShape, tests, Bool.false_eq_true, if_false, specialized]
  cases admits with
  | false => simpa using ways
  | true =>
    refine ⟨rfl, ?_⟩
    simpa [gather, Shape.waysAll] using ways

theorem follows_variant {ctx : Context} (regular : ctx.decls.Regular) {look : Path → Option Value}
    {col : Column} {name : String} {typeArgs : List Ty} {d : EnumDef}
    (known : ctx.decls.enum? name = some d) {v w : Variant} (member : v ∈ d.variants)
    (member' : w ∈ d.variants) {floats : Bool} {args : List Shape}
    (inner : Shape.FitsAll ctx.decls floats args (Decls.slots d typeArgs w)) {names : List String}
    {values : List Value} (sized : values.length = v.arity) (count : Nat) :
    Follows look (passShape col (.variant v) count) (.variant v.name names values) values
      (.variant w args) := by
  have positions := (variant_eq regular known member' member).2
  have tags := (variant_eq regular known member member').1
  by_cases same : w = v
  · subst same
    have exact : args.length = w.arity := by
      simpa [Decls.slots, Variant.arity] using (Shape.fitsAll_iff.mp inner).length_eq
    simp only [Follows, passShape, Shape.isAny, Bool.false_eq_true, if_false, Test.specialize?,
      beq_self_eq_true, if_true, ← exact, Shape.fit_length]
    refine ⟨by rw [exact, sized], ?_⟩
    simp [Shape.ways, Test.accepts, Value.parts, gather]
  · have other : (w.index == v.index) = false := by simpa [positions] using same
    have differ : (v.name == w.name) = false := by simpa [tags] using fun h => same h.symm
    simp only [Follows, passShape, Shape.isAny, Bool.false_eq_true, if_false, Test.specialize?, other]
    simp [Shape.ways, Test.accepts, differ]

theorem follows_length {look : Path → Option Value} {col : Column} {values : List Value}
    (paths : ∀ q, look (col.path ++ q) = (Value.array values).at? q) (front : List Shape)
    (isOpen : Bool) (rest : Option String) (count : Nat) :
    Follows look (passShape col (.length values.length) count) (.array values) values
      (.list front isOpen rest) := by
  simp only [Follows, passShape, Shape.isAny, Bool.false_eq_true, if_false]
  cases isOpen with
  | false =>
    simp only [Test.specialize?]
    by_cases exact : front.length = values.length
    · simp only [exact, beq_self_eq_true, if_true]
      refine ⟨trivial, ?_⟩
      simp [Shape.ways, exact, gather]
    · have differ : ¬ values.length = front.length := fun h => exact h.symm
      simp [Shape.ways, exact, differ]
  | true =>
    simp only [Test.specialize?]
    by_cases fewer : front.length ≤ values.length
    · obtain ⟨shapes, binds, opened, sized, same⟩ :=
        follows_openList paths rest fewer (le_refl values.length)
      simp only [opened]
      exact ⟨sized, by simpa using same⟩
    · have more : values.length < front.length := by omega
      simp [Test.specialize?.openList, more, Shape.ways]

theorem follows_atLeast {look : Path → Option Value} {col : Column} {values : List Value}
    (paths : ∀ q, look (col.path ++ q) = (Value.array values).at? q) {front : List Shape}
    {isOpen : Bool} {rest : Option String} {least looked : Nat} (enough : least ≤ values.length)
    (fewer : looked ≤ least)
    (sharp : if isOpen then front.length ≤ looked else front.length < least) (count : Nat) :
    Follows look (passShape col (.atLeast least looked) count) (.array values) (values.take looked)
      (.list front isOpen rest) := by
  simp only [Follows, passShape, Shape.isAny, Bool.false_eq_true, if_false]
  cases isOpen with
  | false =>
    have short : front.length < least := by simpa using sharp
    have differ : ¬ values.length = front.length := by omega
    simp [Test.specialize?, Shape.ways, differ]
  | true =>
    obtain ⟨shapes, binds, opened, sized, same⟩ :=
      follows_openList paths rest (by simpa using sharp) (Nat.le_trans fewer enough)
    simp only [Test.specialize?, opened]
    exact ⟨by simp [sized]; omega, same⟩

theorem follows_pass {ctx : Context} (regular : ctx.decls.Regular) {look : Path → Option Value}
    {col : Column} {x : Value} (paths : ∀ q, look (col.path ++ q) = x.at? q)
    {inner : Value → Ty → Prop} (built : Built ctx inner x col.type) {test : Test}
    (suits : test.Suits ctx.decls col.type) (accepted : test.accepts x = true) {column : List Shape}
    (sharp : test.Sharp column) {s : Shape} (member : s ∈ column)
    (fits : Shape.Fits ctx.decls false s col.type) (head : s.isHead = true)
    {sub : List Column} (opened : test.columns ctx.decls col = .ok sub) :
    Follows look (passShape col test sub.length) x (x.parts.take test.arity) s := by
  have sized : sub.length = (x.parts.take test.arity).length := by
    obtain ⟨sub', opened', -, types⟩ := Test.columns_eq suits
    obtain rfl : sub' = sub := Except.ok.inj (opened'.symm.trans opened)
    rw [(built.opened regular suits accepted).length_eq, ← types, List.length_map]
  by_cases any : s.isAny = true
  · cases s <;> simp [Shape.isAny] at any
    refine follows_any paths _ ?_
    simp [passShape, Shape.isAny, sized]
  have tests : s.isAny = false := by simpa using any
  cases test with
  | bool value =>
    obtain ⟨wanted, rfl⟩ := Shape.eq_bool head tests (suits ▸ fits)
    cases x <;> simp [Test.accepts] at accepted
    refine follows_constant _ (wanted == value) rfl rfl ?_
    simp [Shape.ways, Test.accepts, accepted, eq_comm (a := wanted)]
  | string value =>
    obtain ⟨wanted, rfl⟩ := Shape.eq_string head tests (suits ▸ fits)
    cases x <;> simp [Test.accepts] at accepted
    refine follows_constant _ (wanted == value) rfl rfl ?_
    simp [Shape.ways, Test.accepts, accepted, eq_comm (a := wanted)]
  | float value => exact sharp.elim
  | range low high =>
    obtain ⟨k, same⟩ := suits
    obtain ⟨least, greatest, rfl⟩ := Shape.eq_range head tests (same ▸ fits)
    cases x <;> simp [Test.accepts] at accepted
    have whole := sharp least greatest member _ accepted.1 accepted.2
    refine follows_constant _ (decide (least ≤ low ∧ high ≤ greatest)) rfl ?_ ?_
    · simp [Test.specialize?]
    · simp [Shape.ways, Test.accepts, whole]
  | variant v =>
    obtain ⟨name, args, d, same, known, inside⟩ := suits
    obtain ⟨w, shapes, rfl, inside', fitting⟩ := Shape.eq_variant head tests known (same ▸ fits)
    rw [same] at built
    cases built with
    | @variant _ _ d' u values declared uMember parts =>
      obtain rfl : d' = d := by simpa [known] using declared.symm
      have tag : u.name = v.name := by simpa [Test.accepts] using accepted
      obtain rfl := (variant_eq regular known uMember inside).1.mp tag
      have length : values.length = u.arity := by
        simp [parts.length_eq, Decls.slots, Variant.arity]
      simp only [Value.parts, Test.arity, ← length, List.take_length]
      exact follows_variant regular known inside inside' fitting length _
    | abstract hidden => simp [Ty.isAbstract] at hidden
  | length count =>
    obtain ⟨element, same⟩ := suits
    obtain ⟨front, isOpen, rest, rfl, -⟩ := Shape.eq_list head tests (same ▸ fits)
    cases x <;> simp [Test.accepts] at accepted
    subst accepted
    simpa [Value.parts, Test.arity] using follows_length paths front isOpen rest _
  | atLeast least looked =>
    obtain ⟨⟨element, same⟩, fewer⟩ := suits
    obtain ⟨front, isOpen, rest, rfl, -⟩ := Shape.eq_list head tests (same ▸ fits)
    cases x <;> simp [Test.accepts] at accepted
    exact follows_atLeast paths accepted fewer (sharp front isOpen rest member) _

/-- The tests on values without parts. -/
def Test.isConstant : Test → Bool
  | .bool _ | .range .. | .string _ | .float _ => true
  | _ => false

def Test.isLength : Test → Bool
  | .length _ | .atLeast .. => true
  | _ => false

/-- The shapes that test values without parts. -/
def Shape.isConstant : Shape → Bool
  | .bool _ | .range .. | .string _ | .float _ => true
  | _ => false

/-- What a passed test makes of a shape that tests something. -/
inductive Specialized : Test → Shape → List Shape → Prop
  | constant {test : Test} {s : Shape} (plain : test.isConstant = true) (plain' : s.isConstant = true) :
      Specialized test s []
  | variant {v w : Variant} {args : List Shape} (same : w.index = v.index) :
      Specialized (.variant v) (.variant w args) (Shape.fit args v.arity)
  | list {test : Test} {front : List Shape} {isOpen : Bool} {rest : Option String}
      (measured : test.isLength = true) (fewer : front.length ≤ test.arity) :
      Specialized test (.list front isOpen rest) (Shape.fit front test.arity)

theorem Test.specialized {path : Path} {test : Test} {s : Shape} {shapes : List Shape}
    {binds : List Extraction} (admitted : test.specialize? path s = some (shapes, binds)) :
    Specialized test s shapes := by
  have opened (count : Nat) (front : List Shape) (rest : Option String)
      (known : specialize?.openList path count front rest = some (shapes, binds)) :
      front.length ≤ count ∧ Shape.fit front count = shapes := by
    rw [specialize?.openList] at known
    split at known
    · simp at known
    · exact ⟨by omega, (Prod.mk.inj (Option.some.inj known)).1⟩
  revert admitted
  fun_cases specialize? path test s
  case case3 v w args same =>
    rintro ⟨⟩
    exact .variant (by simpa using same)
  case case11 count front rest exact =>
    rintro ⟨⟩
    obtain rfl : shapes.length = count := by simpa using exact
    have whole : Specialized (.length shapes.length) (.list shapes false rest)
        (Shape.fit shapes shapes.length) := .list rfl (le_refl _)
    rwa [Shape.fit_length] at whole
  case case13 count front rest =>
    intro known
    obtain ⟨fewer, rfl⟩ := opened count front rest known
    have whole : Specialized (.length count) (.list front true rest) (Shape.fit front count) :=
      .list rfl fewer
    exact whole
  case case14 least count front rest =>
    intro known
    obtain ⟨fewer, rfl⟩ := opened count front rest known
    have whole : Specialized (.atLeast least count) (.list front true rest) (Shape.fit front count) :=
      .list rfl fewer
    exact whole
  all_goals
    rintro ⟨⟩
  all_goals
    exact .constant rfl rfl

theorem Shape.fitsAll_fit {decls : Decls} {floats : Bool} {front : List Shape} {element : Ty}
    (inner : FitsEach decls floats front element) {count : Nat} (fewer : front.length ≤ count) :
    FitsAll decls floats (fit front count) (List.replicate count element) := by
  rw [fitsAll_iff]
  refine forall₂_of_get? (by simp [fit, wilds]; omega) fun i s t left right => ?_
  obtain rfl : element = t := by
    have inside : i < count := by simpa using (List.getElem?_eq_some_iff.mp right).1
    simpa [inside] using right
  have member := List.mem_of_getElem? left
  simp only [fit, List.mem_append] at member
  rcases member with member | member
  · exact fitsEach_iff.mp inner s (List.mem_of_mem_take member)
  · rw [List.eq_of_mem_replicate member]
    exact fits_wild element

/-- The shapes that a passed test leaves suit the parts that it opens up. -/
theorem Specialized.fits {decls : Decls} (regular : decls.Regular) {floats : Bool} {t : Ty} {test : Test}
    {s : Shape} {shapes : List Shape} (specialized : Specialized test s shapes)
    (suits : test.Suits decls t) (fits : Shape.Fits decls floats s t) :
    Shape.FitsAll decls floats shapes (test.types decls t) := by
  cases specialized with
  | constant plain =>
    cases test <;> simp [Test.isConstant] at plain <;> trivial
  | @variant v w args same =>
    obtain ⟨name, typeArgs, d, rfl, declared, member⟩ := suits
    obtain ⟨name', typeArgs', d', known, declared', member', inner⟩ := fits
    obtain ⟨rfl, rfl⟩ := Ty.enum.inj known
    obtain rfl := Option.some.inj (declared.symm.trans declared')
    obtain rfl := (variant_eq regular declared member' member).2.mp same
    have exact : args.length = w.arity := by
      simpa [Decls.slots, Variant.arity] using (Shape.fitsAll_iff.mp inner).length_eq
    simpa [Test.types, declared, ← exact, Shape.fit_length] using inner
  | @list _ front isOpen rest measured fewer =>
    obtain ⟨element, rfl, inner⟩ := fits
    have replicated : test.types decls (.array element) = List.replicate test.arity element := by
      cases test <;> simp [Test.isLength] at measured <;> rfl
    rw [replicated]
    exact Shape.fitsAll_fit inner fewer

theorem Test.length_types {decls : Decls} {t : Ty} {test : Test} (suits : test.Suits decls t) :
    (test.types decls t).length = test.arity := by
  have suits' : test.Suits decls (⟨[], t⟩ : Column).type := suits
  obtain ⟨sub, -, sized, types⟩ := Test.columns_eq suits'
  have length := congrArg List.length types
  rw [List.length_map, sized] at length
  exact length.symm

theorem pass_fits {decls : Decls} (regular : decls.Regular) {floats : Bool} {col : Column} {test : Test}
    (suits : test.Suits decls col.type) {s : Shape} (fits : Shape.Fits decls floats s col.type)
    {shapes : List Shape} {binds : List Extraction}
    (changed : passShape col test test.arity s = some (shapes, binds)) :
    List.Forall₂ (Shape.Fits decls floats) shapes (test.types decls col.type) := by
  rw [← Shape.fitsAll_iff]
  by_cases any : s.isAny = true
  · obtain ⟨rfl, -⟩ : Shape.wilds test.arity = shapes ∧ _ = binds := by
      simpa [passShape, any] using changed
    rw [← Test.length_types suits]
    exact Shape.fitsAll_wilds _
  · simp only [passShape, any] at changed
    exact (Test.specialized changed).fits regular suits fits

theorem follows_miss {look : Path → Option Value} {col : Column} {x : Value}
    (paths : ∀ q, look (col.path ++ q) = x.at? q) {s : Shape} (misses : s.isAny = false → s.ways x = []) :
    Follows look (missShape col) x [] s := by
  by_cases any : s.isAny = true
  · cases s <;> simp [Shape.isAny] at any
    exact follows_any paths _ (by simp [missShape, Shape.isAny, Shape.wilds])
  · have tests : s.isAny = false := by simpa using any
    simpa [Follows, missShape, tests] using misses tests

namespace Matrix

variable {decls : Decls} {floats : Bool} {m : Matrix} {i : Nat} {col : Column}

theorem expand_eq (fit : m.Fits decls floats) (here : m.cols[i]? = some col) :
    m.expand decls i =
      .ok (m.spliced i (parts decls col) (openShape decls col), (parts decls col).length) := by
  have spliced := splice_eq fit here (parts decls col) (openShape decls col)
  simp only [expand, column?_eq here, bind, Except.bind, pure, Except.pure]
  unfold openShape at spliced ⊢
  rw [spliced]

theorem specialize_eq (fit : m.Fits decls floats) (here : m.cols[i]? = some col) {test : Test}
    {sub : List Column} (opened : test.columns decls col = .ok sub) :
    m.specialize decls i test = .ok (m.spliced i sub (passShape col test sub.length)) := by
  have spliced := splice_eq fit here sub (passShape col test sub.length)
  simp only [specialize, column?_eq here, opened, bind, Except.bind]
  unfold passShape at spliced ⊢
  rw [spliced]

theorem without_eq (fit : m.Fits decls floats) (here : m.cols[i]? = some col) :
    m.without i = .ok (m.spliced i [] (missShape col)) := by
  have spliced := splice_eq fit here [] (missShape col)
  simp only [without, column?_eq here, bind, Except.bind]
  unfold missShape at spliced ⊢
  rw [spliced]

theorem expand_fits (fit : m.Fits decls floats) (heads : ∀ s ∈ m.column i, s.isHead = true)
    (here : m.cols[i]? = some col) :
    (m.spliced i (parts decls col) (openShape decls col)).Fits decls floats :=
  splice_fits fit here fun s member _ _ changed =>
    open_fits (fit.column here member) (heads s member) changed

theorem specialize_fits (regular : decls.Regular) (fit : m.Fits decls floats)
    (here : m.cols[i]? = some col) {test : Test} (suits : test.Suits decls col.type)
    {sub : List Column} (opened : test.columns decls col = .ok sub) :
    (m.spliced i sub (passShape col test sub.length)).Fits decls floats := by
  obtain ⟨sub', opened', sized, types⟩ := Test.columns_eq suits
  obtain rfl : sub' = sub := Except.ok.inj (opened'.symm.trans opened)
  refine splice_fits fit here fun s member _ _ changed => ?_
  rw [types]
  exact pass_fits regular suits (fit.column here member) (sized ▸ changed)

theorem without_fits (fit : m.Fits decls floats) (here : m.cols[i]? = some col) :
    (m.spliced i [] (missShape col)).Fits decls floats := by
  refine splice_fits fit here fun s member shapes binds changed => ?_
  cases any : s.isAny <;> simp [missShape, any] at changed
  rw [changed.1]
  exact .nil

end Matrix

end TreeCheck.Match
