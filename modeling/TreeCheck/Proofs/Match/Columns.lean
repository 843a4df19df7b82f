import TreeCheck.Proofs.Match.Splice

/-!
Columns that hold values. The columns that come in place of one, when a product is taken apart or a
test is passed, hold the parts of the value that it held.
-/

namespace TreeCheck.Match

/-- A column holds a value: its paths lead into the value, and the value is of its type. -/
structure Holds (ctx : Context) (look : Path → Option Value) (col : Column) (x : Value) : Prop where
  paths : ∀ q, look (col.path ++ q) = x.at? q
  typed : HasType ctx x col.type

section

variable {ctx : Context} {look : Path → Option Value} {col : Column} {x : Value}

theorem Holds.here (holds : Holds ctx look col x) : look col.path = some x := by
  simpa [Value.at?] using holds.paths []

theorem Holds.built (holds : Holds ctx look col x) : Built ctx (HasType ctx) x col.type :=
  hasType_iff_built.mp holds.typed

theorem Holds.part (holds : Holds ctx look col x) {step : Step} {y : Value} {t : Ty}
    (stepped : x.step? step = some y) (typed : HasType ctx y t) :
    Holds ctx look ⟨col.path ++ [step], t⟩ y := by
  refine ⟨fun q => ?_, typed⟩
  have inner := holds.paths (step :: q)
  simpa [Value.at?, stepped] using inner

theorem forall₂_of_get? {α β : Type} {R : α → β → Prop} {l : List α} {l' : List β}
    (sized : l.length = l'.length)
    (each : ∀ (i : Nat) a b, l[i]? = some a → l'[i]? = some b → R a b) : List.Forall₂ R l l' := by
  rw [List.forall₂_iff_get]
  refine ⟨sized, fun i inside inside' => each i _ _ ?_ ?_⟩
  · simp [inside]
  · simp [inside']

theorem forall₂_get? {α β : Type} {R : α → β → Prop} {l : List α} {l' : List β}
    (related : List.Forall₂ R l l') {i : Nat} {a : α} {b : β} (left : l[i]? = some a)
    (right : l'[i]? = some b) : R a b := by
  obtain ⟨inside, rfl⟩ := List.getElem?_eq_some_iff.mp left
  obtain ⟨inside', rfl⟩ := List.getElem?_eq_some_iff.mp right
  simpa using (List.forall₂_iff_get.mp related).2 i inside inside'

/-- Columns one step further each hold the parts of a value, if the steps lead to them. -/
theorem Holds.parts {α : Type} (holds : Holds ctx look col x) {list : List α} {values : List Value}
    (step : Nat → α → Step) (type : α → Ty)
    (stepped : ∀ (i : Nat) a y, values[i]? = some y → x.step? (step i a) = some y)
    (typed : List.Forall₂ (HasType ctx) values (list.map type)) :
    List.Forall₂ (Holds ctx look)
      (list.mapIdx fun i a => ⟨col.path ++ [step i a], type a⟩) values := by
  have sized := typed.length_eq
  refine forall₂_of_get? (by simpa using sized.symm) fun i c y left right => ?_
  obtain ⟨a, there, rfl⟩ : ∃ a, list[i]? = some a ∧ ⟨col.path ++ [step i a], type a⟩ = c := by
    simpa using left
  exact holds.part (stepped i a y right) (forall₂_get? typed right (by simp [there]))

/-- The first elements of an array stand in columns of their own. -/
theorem Holds.items (holds : Holds ctx look col x) {values : List Value} {element : Ty} {count : Nat}
    (array : x = .array values)
    (typed : List.Forall₂ (HasType ctx) (values.take count) (List.replicate count element)) :
    List.Forall₂ (Holds ctx look) (Test.items col.path element count) (values.take count) := by
  have sized := typed.length_eq
  refine forall₂_of_get? (by simpa [Test.items] using sized.symm) fun i c y left right => ?_
  have inside : i < count := by
    have := (List.getElem?_eq_some_iff.mp left).1
    simpa [Test.items] using this
  obtain rfl : ⟨col.path ++ [.item i], element⟩ = c := by
    simpa [Test.items, inside] using left
  have there : values[i]? = some y := by simpa [List.getElem?_take, inside] using right
  refine holds.part ?_ (forall₂_get? typed right (by simp [inside]))
  simpa [array, Value.step?, Value.parts] using there

end

def Shape.isHead : Shape → Bool
  | .choice _ | .guarded _ => false
  | _ => true

/-- The types that are taken apart without a test. -/
def Opens (decls : Decls) (t : Ty) : Prop :=
  (∃ types, decls.productTypes? t = some types) ∨ ∃ mutable target, t = .ref mutable target

/-- What comes in place of a value that is taken apart without a test. -/
def Value.pieces (x : Value) : Ty → List Value
  | .ref .. => [x]
  | _ => x.parts

theorem opens_of_isProduct {decls : Decls} {floats : Bool} {s : Shape} {t : Ty}
    (fits : Shape.Fits decls floats s t) (product : s.isProduct = true) : Opens decls t := by
  cases s <;> simp [Shape.isProduct] at product
  · obtain ⟨types, known, -⟩ := fits
    exact Or.inl ⟨types, known⟩
  · obtain ⟨mutable, target, rfl, -⟩ := fits
    exact Or.inr ⟨mutable, target, rfl⟩

theorem map_type_mapIdx {α : Type} (list : List α) (path : Nat → α → Path) (type : α → Ty) :
    (list.mapIdx fun i a => (⟨path i a, type a⟩ : Column)).map Column.type = list.map type := by
  apply List.ext_getElem?
  intro i
  simp [Function.comp_def]

theorem map_type_parts {decls : Decls} {col : Column} {types : List Ty}
    (product : decls.productTypes? col.type = some types) :
    (Matrix.parts decls col).map Column.type = types := by
  obtain ⟨path, t⟩ := col
  cases t <;> simp [Decls.productTypes?] at product <;> subst product
  case unit => rfl
  case tuple elements =>
    exact (map_type_mapIdx elements (fun i _ => path ++ [.element i]) id).trans (List.map_id _)
  case struct name args =>
    exact map_type_mapIdx (decls.fields name args) (fun i f => path ++ [.field i f.name]) Field.type

/-- A value of a type that is taken apart without a test has the parts that the type asks for. -/
theorem Built.pieces {ctx : Context} {inner : Value → Ty → Prop} {col : Column} {x : Value}
    (built : Built ctx inner x col.type) (opens : Opens ctx.decls col.type) :
    List.Forall₂ inner (x.pieces col.type) ((Matrix.parts ctx.decls col).map Column.type) := by
  rcases opens with ⟨types, known⟩ | ⟨mutable, target, same⟩
  · rw [map_type_parts known]
    obtain ⟨path, t⟩ := col
    cases t <;> simp [Decls.productTypes?] at known <;> subst known
    case unit =>
      cases built with
      | unit => exact .nil
      | abstract hidden => simp [Ty.isAbstract] at hidden
    case tuple elements =>
      cases built with
      | tuple parts => exact parts
      | abstract hidden => simp [Ty.isAbstract] at hidden
    case struct name args =>
      cases built with
      | struct parts => exact parts
      | abstract hidden => simp [Ty.isAbstract] at hidden
  · obtain ⟨path, t⟩ := col
    obtain rfl : t = .ref mutable target := same
    cases built with
    | ref inner => exact .cons inner .nil
    | abstract hidden => simp [Ty.isAbstract] at hidden

/-- Parts of the types that a type is taken apart into make up a value of it. -/
theorem exists_product {ctx : Context} {inner : Value → Ty → Prop} {col : Column}
    (opens : Opens ctx.decls col.type) {parts : List Value}
    (typed : List.Forall₂ inner parts ((Matrix.parts ctx.decls col).map Column.type)) :
    ∃ x, Built ctx inner x col.type ∧ x.pieces col.type = parts := by
  obtain ⟨path, t⟩ := col
  rcases opens with ⟨types, product⟩ | ⟨mutable, target, rfl⟩
  · rw [map_type_parts product] at typed
    cases t <;> simp [Decls.productTypes?] at product <;> subst product
    case unit =>
      cases typed
      exact ⟨.unit, .unit, rfl⟩
    case tuple => exact ⟨.tuple parts, .tuple typed, rfl⟩
    case struct => exact ⟨.struct _ parts, .struct typed, rfl⟩
  · cases typed with
    | cons behind none =>
      cases none
      exact ⟨_, .ref behind, rfl⟩

theorem parts_holds {ctx : Context} {look : Path → Option Value} {col : Column} {x : Value}
    (holds : Holds ctx look col x) (opens : Opens ctx.decls col.type) :
    List.Forall₂ (Holds ctx look) (Matrix.parts ctx.decls col) (x.pieces col.type) := by
  have typed := holds.built.pieces opens
  rcases opens with ⟨types, known⟩ | ⟨mutable, target, same⟩
  · rw [map_type_parts known] at typed
    obtain ⟨path, t⟩ := col
    cases t <;> simp [Decls.productTypes?] at known <;> subst known
    case unit =>
      rw [List.forall₂_nil_right_iff.mp typed]
      exact .nil
    case tuple elements =>
      refine holds.parts (fun i _ => .element i) id ?_ (by simpa using typed)
      intro i _ y there
      simpa [Value.step?, Value.pieces] using there
    case struct name args =>
      refine holds.parts (fun i f => .field i f.name) Field.type ?_ typed
      intro i _ y there
      simpa [Value.step?, Value.pieces] using there
  · obtain ⟨path, t⟩ := col
    obtain rfl : t = .ref mutable target := same
    cases typed with
    | cons inner _ => exact .cons (holds.part rfl inner) .nil

namespace Test

/-- A test is one on values of a type. -/
def Suits (decls : Decls) (t : Ty) : Test → Prop
  | .bool _ => t = .bool
  | .variant v => ∃ name args d, t = .enum name args ∧ decls.enum? name = some d ∧ v ∈ d.variants
  | .range .. => ∃ k, t = .int k
  | .string _ => t = .string
  | .float _ => ∃ k, t = .float k
  | .length _ => ∃ element, t = .array element
  | .atLeast count front => (∃ element, t = .array element) ∧ front ≤ count

/-- The values that pass a test are alike to the shapes of a column: a range admits all of them or
none, and the elements that are looked at are those that some list asks for. -/
def Sharp (column : List Shape) : Test → Prop
  | .range low high => ∀ least greatest, .range least greatest ∈ column → ∀ n, low ≤ n → n ≤ high →
      ((least ≤ n ∧ n ≤ greatest) ↔ (least ≤ low ∧ high ≤ greatest))
  | .atLeast count front => ∀ shapes isOpen rest, .list shapes isOpen rest ∈ column →
      if isOpen then shapes.length ≤ front else shapes.length < count
  | .float _ => False
  | _ => True

/-- The types of the parts that a passed test opens up. -/
def types (decls : Decls) (t : Ty) : Test → List Ty
  | .variant v =>
    match t with
    | .enum name args => ((decls.enum? name).map fun d => Decls.slots d args v).getD []
    | _ => []
  | .length count | .atLeast _ count =>
    match t with
    | .array element => List.replicate count element
    | _ => []
  | .bool _ | .range .. | .string _ | .float _ => []

section
-- The equations of these definitions are made here once, so that no proof below waits while another makes them.
attribute [local simp] types arity columns items Variant.arity Value.at? Value.step? Shape.isProduct
end

theorem map_type_items (path : Path) (element : Ty) (count : Nat) :
    (items path element count).map Column.type = List.replicate count element := by
  simp [items, Function.comp_def, List.map_const']

theorem columns_eq {decls : Decls} {col : Column} {test : Test} (suits : test.Suits decls col.type) :
    ∃ sub, test.columns decls col = .ok sub ∧ sub.length = test.arity ∧
      sub.map Column.type = test.types decls col.type := by
  cases test with
  | variant v =>
    obtain ⟨name, args, d, same, known, -⟩ := suits
    refine ⟨_, by simp only [columns, same, known]; rfl, ?_, ?_⟩
    · simp [arity, Variant.arity, Decls.slots]
    · simp only [types, same, known, Option.map_some, Option.getD_some]
      exact (map_type_mapIdx _ (fun i _ => col.path ++ [.payload v.name i]) id).trans (List.map_id _)
  | length count =>
    obtain ⟨element, same⟩ := suits
    refine ⟨_, by simp only [columns, same]; rfl, by simp [items, arity], ?_⟩
    simp only [types, same, map_type_items]
  | atLeast count front =>
    obtain ⟨⟨element, same⟩, -⟩ := suits
    refine ⟨_, by simp only [columns, same]; rfl, by simp [items, arity], ?_⟩
    simp only [types, same, map_type_items]
  | bool value => exact ⟨[], rfl, rfl, rfl⟩
  | range low high => exact ⟨[], rfl, rfl, rfl⟩
  | string value => exact ⟨[], rfl, rfl, rfl⟩
  | float value => exact ⟨[], rfl, rfl, rfl⟩

end Test

/-- The variants of an enum are told apart by their names, and by their positions. -/
theorem variant_eq {decls : Decls} (regular : decls.Regular) {name : String} {d : EnumDef}
    (known : decls.enum? name = some d) {v w : Variant} (member : v ∈ d.variants)
    (member' : w ∈ d.variants) : (v.name = w.name ↔ v = w) ∧ (v.index = w.index ↔ v = w) := by
  have declared := enum?_mem known
  constructor
  · exact ⟨List.inj_on_of_nodup_map (regular.variants d declared) member member', congrArg _⟩
  · exact ⟨List.inj_on_of_nodup_map (regular.indices d declared) member member', congrArg _⟩

/-- A value that passes a test starts with the parts that the test opens up. -/
theorem Built.opened {ctx : Context} (regular : ctx.decls.Regular) {inner : Value → Ty → Prop} {t : Ty}
    {x : Value} (built : Built ctx inner x t) {test : Test} (suits : test.Suits ctx.decls t)
    (accepted : test.accepts x = true) :
    List.Forall₂ inner (x.parts.take test.arity) (test.types ctx.decls t) := by
  have elements {values : List Value} {element : Ty} {count : Nat}
      (parts : ∀ v ∈ values, inner v element) (enough : count ≤ values.length) :
      List.Forall₂ inner (values.take count) (List.replicate count element) := by
    refine forall₂_of_get? (by simp [enough]) fun i y t left right => ?_
    obtain rfl : t = element := List.eq_of_mem_replicate (List.mem_of_getElem? right)
    exact parts y (List.mem_of_mem_take (List.mem_of_getElem? left))
  cases test with
  | variant v =>
    obtain ⟨name, args, d, rfl, known, member⟩ := suits
    cases built with
    | @variant _ _ d' w values declared member' parts =>
      obtain rfl : d' = d := by simpa [known] using declared.symm
      have same : w.name = v.name := by simpa [Test.accepts] using accepted
      obtain rfl := (variant_eq regular known member' member).1.mp same
      have all : values.take (Test.variant w).arity = values := by
        apply List.take_of_length_le
        simp [parts.length_eq, Test.arity, Decls.slots, Variant.arity]
      simpa [Value.parts, all, Test.types, known] using parts
    | abstract hidden => simp [Ty.isAbstract] at hidden
  | length count =>
    obtain ⟨element, rfl⟩ := suits
    cases built with
    | @array values _ parts =>
      have exact : values.length = count := by simpa [Test.accepts] using accepted
      exact elements parts (Nat.le_of_eq exact.symm)
    | abstract hidden => simp [Ty.isAbstract] at hidden
  | atLeast count front =>
    obtain ⟨⟨element, rfl⟩, fewer⟩ := suits
    cases built with
    | @array values _ parts =>
      have enough : count ≤ values.length := by simpa [Test.accepts] using accepted
      exact elements parts (Nat.le_trans fewer enough)
    | abstract hidden => simp [Ty.isAbstract] at hidden
  | bool value => exact .nil
  | range low high => exact .nil
  | string value => exact .nil
  | float value => exact .nil

/-- The columns that a passed test opens up hold the first parts of the value. -/
theorem columns_holds {ctx : Context} {look : Path → Option Value} {col : Column} {x : Value}
    (regular : ctx.decls.Regular) (holds : Holds ctx look col x) {test : Test}
    (suits : test.Suits ctx.decls col.type) (accepted : test.accepts x = true) {sub : List Column}
    (opened : test.columns ctx.decls col = .ok sub) :
    List.Forall₂ (Holds ctx look) sub (x.parts.take test.arity) := by
  have typed := holds.built.opened regular suits accepted
  obtain ⟨path, t⟩ := col
  cases test with
  | variant v =>
    obtain ⟨name, args, d, rfl, known, member⟩ := suits
    simp only [Test.columns, known, Except.ok.injEq] at opened
    subst opened
    refine holds.parts (fun i _ => .payload v.name i) id ?_ (by simpa [Test.types, known] using typed)
    intro i _ y there
    cases x <;> simp [Test.accepts] at accepted
    rw [List.getElem?_take] at there
    simpa [Value.step?, Value.parts, accepted] using (Option.ite_none_right_eq_some.mp there).2
  | length count =>
    obtain ⟨element, rfl⟩ := suits
    simp only [Test.columns, Except.ok.injEq] at opened
    subst opened
    cases x <;> simp [Test.accepts] at accepted
    exact holds.items rfl typed
  | atLeast count front =>
    obtain ⟨⟨element, rfl⟩, fewer⟩ := suits
    simp only [Test.columns, Except.ok.injEq] at opened
    subst opened
    cases x <;> simp [Test.accepts] at accepted
    exact holds.items rfl typed
  | bool value =>
    obtain rfl : [] = sub := by simpa [Test.columns] using opened
    exact .nil
  | range low high =>
    obtain rfl : [] = sub := by simpa [Test.columns] using opened
    exact .nil
  | string value =>
    obtain rfl : [] = sub := by simpa [Test.columns] using opened
    exact .nil
  | float value =>
    obtain rfl : [] = sub := by simpa [Test.columns] using opened
    exact .nil

end TreeCheck.Match
