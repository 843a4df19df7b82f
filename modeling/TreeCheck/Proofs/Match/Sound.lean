import TreeCheck.Proofs.Match.Search
import TreeCheck.Proofs.Syntax.Legible

/-!
What holds everywhere in a shape. Match compilation takes shapes apart and adds none but wild ones, so what holds of
every shape inside the patterns at the start holds of every shape that it meets.
-/

namespace TreeCheck.Match

namespace Shape

mutual

def every (decls : Decls) (ok : Shape → Ty → Bool) : Shape → Ty → Bool
  | .variant v args, t => ok (.variant v args) t && everyAll decls ok args ((Test.variant v).types decls t)
  | .list front isOpen rest, t => ok (.list front isOpen rest) t &&
    match t with
    | .array element => everyEach decls ok front element
    | _ => true
  | .product args, t => ok (.product args) t && everyAll decls ok args ((decls.productTypes? t).getD [])
  | .target inner, t => ok (.target inner) t &&
    match t with
    | .ref _ pointed => every decls ok inner pointed
    | _ => true
  | .choice alternatives, t => ok (.choice alternatives) t && everyEach decls ok alternatives t
  | .guarded inner, t => ok (.guarded inner) t && every decls ok inner t
  | .any bind, t => ok (.any bind) t
  | .bool value, t => ok (.bool value) t
  | .range low high, t => ok (.range low high) t
  | .string value, t => ok (.string value) t
  | .float value, t => ok (.float value) t

def everyEach (decls : Decls) (ok : Shape → Ty → Bool) : List Shape → Ty → Bool
  | [], _ => true
  | s :: rest, t => every decls ok s t && everyEach decls ok rest t

def everyAll (decls : Decls) (ok : Shape → Ty → Bool) : List Shape → List Ty → Bool
  | s :: rest, t :: types => every decls ok s t && everyAll decls ok rest types
  | _, _ => true

end

/-- A shape suits a type without testing floats, and a property holds everywhere in it. -/
def Sound (decls : Decls) (ok : Shape → Ty → Bool) (s : Shape) (t : Ty) : Prop :=
  Fits decls false s t ∧ s.every decls ok t = true

variable {decls : Decls} {ok : Shape → Ty → Bool}

theorem ok_of_every {s : Shape} {t : Ty} (holds : s.every decls ok t = true) : ok s t = true := by
  cases s <;> simp_all [every]

mutual

theorem every_true : ∀ (s : Shape) (t : Ty), s.every decls (fun _ _ => true) t = true
  | .variant _ args, t => by simp [every, everyAll_true args]
  | .list front _ _, t => by cases t <;> simp [every, everyEach_true front]
  | .product args, t => by simp [every, everyAll_true args]
  | .target inner, t => by cases t <;> simp [every, every_true inner]
  | .choice alternatives, t => by simp [every, everyEach_true alternatives]
  | .guarded inner, t => by simp [every, every_true inner]
  | .any _, _ | .bool _, _ | .range .., _ | .string _, _ | .float _, _ => by simp [every]

theorem everyEach_true : ∀ (shapes : List Shape) (t : Ty), everyEach decls (fun _ _ => true) shapes t = true
  | [], _ => by simp [everyEach]
  | s :: rest, t => by simp [everyEach, every_true s, everyEach_true rest]

theorem everyAll_true : ∀ (shapes : List Shape) (types : List Ty),
    everyAll decls (fun _ _ => true) shapes types = true
  | [], _ => by simp [everyAll]
  | _ :: _, [] => by simp [everyAll]
  | s :: rest, t :: types => by simp [everyAll, every_true s, everyAll_true rest]

end

mutual

/-- Two properties hold everywhere together if each of them does. -/
theorem every_and {one other : Shape → Ty → Bool} : ∀ (s : Shape) (t : Ty), s.every decls one t = true →
    s.every decls other t = true → s.every decls (fun s t => one s t && other s t) t = true
  | .variant _ args, t, first, second => by
    simp only [every, Bool.and_eq_true] at first second ⊢
    exact ⟨⟨first.1, second.1⟩, everyAll_and args _ first.2 second.2⟩
  | .list front _ _, t, first, second => by
    simp only [every, Bool.and_eq_true] at first second ⊢
    refine ⟨⟨first.1, second.1⟩, ?_⟩
    cases t with
    | array element => exact everyEach_and front element first.2 second.2
    | _ => rfl
  | .product args, t, first, second => by
    simp only [every, Bool.and_eq_true] at first second ⊢
    exact ⟨⟨first.1, second.1⟩, everyAll_and args _ first.2 second.2⟩
  | .target inner, t, first, second => by
    simp only [every, Bool.and_eq_true] at first second ⊢
    refine ⟨⟨first.1, second.1⟩, ?_⟩
    cases t with
    | ref _ pointed => exact every_and inner pointed first.2 second.2
    | _ => rfl
  | .choice alternatives, t, first, second => by
    simp only [every, Bool.and_eq_true] at first second ⊢
    exact ⟨⟨first.1, second.1⟩, everyEach_and alternatives t first.2 second.2⟩
  | .guarded inner, t, first, second => by
    simp only [every, Bool.and_eq_true] at first second ⊢
    exact ⟨⟨first.1, second.1⟩, every_and inner t first.2 second.2⟩
  | .any _, _, first, second | .bool _, _, first, second | .range .., _, first, second
  | .string _, _, first, second | .float _, _, first, second => by
    simp only [every, Bool.and_eq_true] at first second ⊢
    exact ⟨first, second⟩

theorem everyEach_and {one other : Shape → Ty → Bool} : ∀ (shapes : List Shape) (t : Ty),
    everyEach decls one shapes t = true → everyEach decls other shapes t = true →
    everyEach decls (fun s t => one s t && other s t) shapes t = true
  | [], _, _, _ => rfl
  | s :: rest, t, first, second => by
    simp only [everyEach, Bool.and_eq_true] at first second ⊢
    exact ⟨every_and s t first.1 second.1, everyEach_and rest t first.2 second.2⟩

theorem everyAll_and {one other : Shape → Ty → Bool} : ∀ (shapes : List Shape) (types : List Ty),
    everyAll decls one shapes types = true → everyAll decls other shapes types = true →
    everyAll decls (fun s t => one s t && other s t) shapes types = true
  | [], _, _, _ => by simp [everyAll]
  | _ :: _, [], _, _ => by simp [everyAll]
  | s :: rest, t :: types, first, second => by
    simp only [everyAll, Bool.and_eq_true] at first second ⊢
    exact ⟨every_and s t first.1 second.1, everyAll_and rest types first.2 second.2⟩

end

theorem everyEach_iff {shapes : List Shape} {t : Ty} :
    everyEach decls ok shapes t = true ↔ ∀ s ∈ shapes, s.every decls ok t = true := by
  induction shapes with
  | nil => simp [everyEach]
  | cons s rest ih => simp [everyEach, ih]

theorem forall₂_sound {shapes : List Shape} {types : List Ty} (fits : FitsAll decls false shapes types)
    (every : everyAll decls ok shapes types = true) : List.Forall₂ (Sound decls ok) shapes types := by
  induction shapes generalizing types with
  | nil =>
    cases types with
    | nil => exact .nil
    | cons t types => cases fits
  | cons s shapes ih =>
    cases types with
    | nil => cases fits
    | cons t types =>
      simp only [everyAll, Bool.and_eq_true] at every
      exact .cons ⟨fits.1, every.1⟩ (ih fits.2 every.2)

theorem sound_wild (wild : ∀ t, ok Shape.wild t = true) (t : Ty) : Sound decls ok Shape.wild t :=
  ⟨trivial, wild t⟩

theorem forall₂_sound_wilds (wild : ∀ t, ok Shape.wild t = true) (types : List Ty) :
    List.Forall₂ (Sound decls ok) (wilds types.length) types := by
  induction types with
  | nil => exact .nil
  | cons t types ih => exact .cons (sound_wild wild t) ih

mutual

theorem fits_of_every (floats : ∀ value t, ok (.float value) t = false) : ∀ (s : Shape) (t : Ty),
    Fits decls true s t → s.every decls ok t = true → Fits decls false s t
  | .variant v args, t, fits, every => by
    obtain ⟨name, typeArgs, d, rfl, known, member, inner⟩ := fits
    simp only [Shape.every, Test.types, known, Option.map_some, Option.getD_some, Bool.and_eq_true] at every
    exact ⟨name, typeArgs, d, rfl, known, member, fitsAll_of_every floats args _ inner every.2⟩
  | .list front _ _, t, fits, every => by
    obtain ⟨element, rfl, inner⟩ := fits
    simp only [Shape.every, Bool.and_eq_true] at every
    exact ⟨element, rfl, fitsEach_of_every floats front element inner every.2⟩
  | .product args, t, fits, every => by
    obtain ⟨types, known, inner⟩ := fits
    simp only [Shape.every, known, Option.getD_some, Bool.and_eq_true] at every
    exact ⟨types, known, fitsAll_of_every floats args types inner every.2⟩
  | .target inner, t, fits, every => by
    obtain ⟨mutable, target, rfl, below⟩ := fits
    simp only [Shape.every, Bool.and_eq_true] at every
    exact ⟨mutable, target, rfl, fits_of_every floats inner target below every.2⟩
  | .choice alternatives, t, fits, every => by
    simp only [Shape.every, Bool.and_eq_true] at every
    exact fitsEach_of_every floats alternatives t fits every.2
  | .guarded inner, t, fits, every => by
    simp only [Shape.every, Bool.and_eq_true] at every
    exact fits_of_every floats inner t fits every.2
  | .float value, t, _, every => by simp [Shape.every, floats] at every
  | .any _, _, fits, _ | .bool _, _, fits, _ | .range .., _, fits, _ | .string _, _, fits, _ => fits

theorem fitsEach_of_every (floats : ∀ value t, ok (.float value) t = false) : ∀ (shapes : List Shape) (t : Ty),
    FitsEach decls true shapes t → everyEach decls ok shapes t = true → FitsEach decls false shapes t
  | [], _, _, _ => trivial
  | s :: rest, t, fits, every => by
    simp only [everyEach, Bool.and_eq_true] at every
    exact ⟨fits_of_every floats s t fits.1 every.1, fitsEach_of_every floats rest t fits.2 every.2⟩

theorem fitsAll_of_every (floats : ∀ value t, ok (.float value) t = false) :
    ∀ (shapes : List Shape) (types : List Ty), FitsAll decls true shapes types →
      everyAll decls ok shapes types = true → FitsAll decls false shapes types
  | [], [], _, _ => trivial
  | [], _ :: _, fits, _ => by cases fits
  | _ :: _, [], fits, _ => by cases fits
  | s :: rest, t :: types, fits, every => by
    simp only [everyAll, Bool.and_eq_true] at every
    exact ⟨fits_of_every floats s t fits.1 every.1, fitsAll_of_every floats rest types fits.2 every.2⟩

end

/-- Where a property holds of no float, it holds everywhere only in shapes that test none. -/
theorem sound_of_every (floats : ∀ value t, ok (.float value) t = false) {s : Shape} {t : Ty}
    (fits : Fits decls true s t) (every : s.every decls ok t = true) : Sound decls ok s t :=
  ⟨fits_of_every floats s t fits every, every⟩

namespace Sound

theorem fits {s : Shape} {t : Ty} (sound : Sound decls ok s t) : Fits decls false s t := sound.1

theorem holds {s : Shape} {t : Ty} (sound : Sound decls ok s t) : ok s t = true := ok_of_every sound.2

theorem choice {alternatives : List Shape} {t : Ty} (sound : Sound decls ok (.choice alternatives) t) :
    ∀ s ∈ alternatives, Sound decls ok s t := by
  obtain ⟨fits, every⟩ := sound
  simp only [Shape.every, Bool.and_eq_true] at every
  exact fun s member => ⟨fitsEach_iff.mp fits s member, everyEach_iff.mp every.2 s member⟩

theorem guarded {inner : Shape} {t : Ty} (sound : Sound decls ok (.guarded inner) t) : Sound decls ok inner t := by
  obtain ⟨fits, every⟩ := sound
  simp only [Shape.every, Bool.and_eq_true] at every
  exact ⟨fits, every.2⟩

theorem product {args : List Shape} {t : Ty} (sound : Sound decls ok (.product args) t) :
    ∃ types, decls.productTypes? t = some types ∧ List.Forall₂ (Sound decls ok) args types := by
  obtain ⟨⟨types, known, fits⟩, every⟩ := sound
  simp only [Shape.every, known, Option.getD_some, Bool.and_eq_true] at every
  exact ⟨types, known, forall₂_sound fits every.2⟩

theorem target {inner : Shape} {t : Ty} (sound : Sound decls ok (.target inner) t) :
    ∃ mutable target, t = .ref mutable target ∧ Sound decls ok inner target := by
  obtain ⟨⟨mutable, target, rfl, fits⟩, every⟩ := sound
  simp only [Shape.every, Bool.and_eq_true] at every
  exact ⟨mutable, target, rfl, fits, every.2⟩

theorem list {front : List Shape} {isOpen : Bool} {rest : Option String} {t : Ty}
    (sound : Sound decls ok (.list front isOpen rest) t) :
    ∃ element, t = .array element ∧ ∀ s ∈ front, Sound decls ok s element := by
  obtain ⟨⟨element, rfl, fits⟩, every⟩ := sound
  simp only [Shape.every, Bool.and_eq_true] at every
  exact ⟨element, rfl, fun s member =>
    ⟨fitsEach_iff.mp fits s member, everyEach_iff.mp every.2 s member⟩⟩

theorem variant {v : Variant} {args : List Shape} {t : Ty} (sound : Sound decls ok (.variant v args) t) :
    (Test.variant v).Suits decls t ∧ List.Forall₂ (Sound decls ok) args ((Test.variant v).types decls t) := by
  obtain ⟨⟨name, typeArgs, d, rfl, known, member, fits⟩, every⟩ := sound
  simp only [Shape.every, Bool.and_eq_true] at every
  refine ⟨⟨name, typeArgs, d, rfl, known, member⟩, forall₂_sound ?_ every.2⟩
  simpa [Test.types, known] using fits

end Sound

mutual

theorem heads_sound : ∀ (s : Shape) (t : Ty), Sound decls ok s t → ∀ h ∈ s.heads, Sound decls ok h.2 t
  | .choice alternatives, t, sound => by
    simp only [heads]
    exact headsAll_sound alternatives t sound.choice
  | .guarded inner, t, sound => by
    simp only [heads, List.mem_map]
    rintro _ ⟨h, member, rfl⟩
    exact heads_sound inner t sound.guarded h member
  | .any _, _, sound | .bool _, _, sound | .variant .., _, sound | .range .., _, sound
  | .string _, _, sound | .float _, _, sound | .list .., _, sound | .product _, _, sound
  | .target _, _, sound => by simpa [heads] using sound

theorem headsAll_sound : ∀ (shapes : List Shape) (t : Ty), (∀ s ∈ shapes, Sound decls ok s t) →
    ∀ h ∈ headsAll shapes, Sound decls ok h.2 t
  | [], _, _ => by simp [headsAll]
  | s :: rest, t, sound => by
    intro h member
    rcases List.mem_append.mp (by simpa [headsAll] using member) with first | later
    · exact heads_sound s t (sound s (by simp)) h first
    · exact headsAll_sound rest t (fun s member => sound s (by simp [member])) h later

end

theorem spread_sound {shapes : List Shape} {types : List Ty} (sound : List.Forall₂ (Sound decls ok) shapes types) :
    ∀ a ∈ spread shapes, List.Forall₂ (Sound decls ok) a.2 types := by
  induction sound with
  | nil => simp [spread]
  | @cons s t shapes types first later ih =>
    rintro ⟨unsure, row⟩ member
    obtain ⟨a, h, b, tail, inHeads, inRest, -, rfl⟩ := mem_spread_cons.mp member
    exact .cons (heads_sound s t first _ inHeads) (ih _ inRest)

/-- A list of sound shapes stays sound when it is cut or filled up. -/
theorem forall₂_sound_fit (wild : ∀ t, ok Shape.wild t = true) {front : List Shape} {element : Ty}
    (sound : ∀ s ∈ front, Sound decls ok s element) {count : Nat} (fewer : front.length ≤ count) :
    List.Forall₂ (Sound decls ok) (fit front count) (List.replicate count element) := by
  refine forall₂_of_get? (by simp [fit, wilds]; omega) fun i s t left right => ?_
  obtain rfl : t = element := List.eq_of_mem_replicate (List.mem_of_getElem? right)
  have member := List.mem_of_getElem? left
  simp only [fit, List.mem_append] at member
  rcases member with member | member
  · exact sound s (List.mem_of_mem_take member)
  · rw [List.eq_of_mem_replicate member]
    exact sound_wild wild t

end Shape

section

variable {decls : Decls} {ok : Shape → Ty → Bool} (wild : ∀ t, ok Shape.wild t = true)

include wild

theorem open_sound {col : Column} {s : Shape} (sound : s.Sound decls ok col.type) (head : s.isHead = true)
    {shapes : List Shape} {binds : List Extraction} (changed : openShape decls col s = some (shapes, binds)) :
    List.Forall₂ (Shape.Sound decls ok) shapes ((Matrix.parts decls col).map Column.type) := by
  obtain ⟨rfl, -⟩ : Matrix.partShapes (Matrix.parts decls col).length s = shapes ∧ _ = binds := by
    simpa [openShape] using changed
  cases s <;> simp [Shape.isHead] at head
  case product args =>
    obtain ⟨types, product, inner⟩ := sound.product
    have known := map_type_parts product
    have exact : args.length = (Matrix.parts decls col).length := by
      simpa [inner.length_eq] using (congrArg List.length known).symm
    rw [Matrix.partShapes, ← exact, Shape.fit_length, known]
    exact inner
  case target inner =>
    obtain ⟨mutable, target, same, inner⟩ := sound.target
    simpa [Matrix.parts, same, Matrix.partShapes, Shape.fit, Shape.wilds] using inner
  all_goals
    have filled := @Shape.forall₂_sound_wilds decls ok wild ((Matrix.parts decls col).map Column.type)
    simpa [Matrix.partShapes] using filled

theorem Specialized.sound (regular : decls.Regular) {t : Ty} {test : Test} {s : Shape} {shapes : List Shape}
    (specialized : Specialized test s shapes) (suits : test.Suits decls t) (sound : s.Sound decls ok t) :
    List.Forall₂ (Shape.Sound decls ok) shapes (test.types decls t) := by
  cases specialized with
  | constant plain =>
    cases test <;> simp [Test.isConstant] at plain <;> exact .nil
  | @variant v w args same =>
    obtain ⟨name, typeArgs, d, rfl, declared, member⟩ := suits
    obtain ⟨⟨name', typeArgs', d', known, declared', member'⟩, inner⟩ := sound.variant
    obtain ⟨rfl, rfl⟩ := Ty.enum.inj known
    obtain rfl := Option.some.inj (declared.symm.trans declared')
    obtain rfl := (variant_eq regular declared member' member).2.mp same
    have exact : args.length = w.arity := by
      simpa [Test.types, declared, Decls.slots, Variant.arity] using inner.length_eq
    rwa [← exact, Shape.fit_length]
  | @list _ front isOpen rest measured fewer =>
    obtain ⟨element, rfl, inner⟩ := sound.list
    have replicated : test.types decls (.array element) = List.replicate test.arity element := by
      cases test <;> simp [Test.isLength] at measured <;> rfl
    rw [replicated]
    exact Shape.forall₂_sound_fit wild inner fewer

theorem pass_sound (regular : decls.Regular) {col : Column} {test : Test} (suits : test.Suits decls col.type)
    {s : Shape} (sound : s.Sound decls ok col.type) {shapes : List Shape} {binds : List Extraction}
    (changed : passShape col test test.arity s = some (shapes, binds)) :
    List.Forall₂ (Shape.Sound decls ok) shapes (test.types decls col.type) := by
  by_cases any : s.isAny = true
  · obtain ⟨rfl, -⟩ : Shape.wilds test.arity = shapes ∧ _ = binds := by
      simpa [passShape, any] using changed
    rw [← Test.length_types suits]
    exact Shape.forall₂_sound_wilds wild _
  · simp only [passShape, any] at changed
    exact (Test.specialized changed).sound wild regular suits sound

end

namespace Matrix

def Sound (decls : Decls) (ok : Shape → Ty → Bool) (m : Matrix) : Prop :=
  ∀ r ∈ m.rows, List.Forall₂ (Shape.Sound decls ok) r.pats (m.cols.map Column.type)

variable {decls : Decls} {ok : Shape → Ty → Bool} {m : Matrix} {i : Nat} {col : Column}

theorem Sound.fits (sound : m.Sound decls ok) : m.Fits decls false :=
  fun r member => (sound r member).imp fun _ _ suits => suits.fits

theorem Sound.column (sound : m.Sound decls ok) (here : m.cols[i]? = some col) {s : Shape}
    (inColumn : s ∈ m.column i) : s.Sound decls ok col.type := by
  obtain ⟨r, member, shape⟩ := mem_column.mp inColumn
  exact forall₂_get? (sound r member) shape (by simp [here])

theorem splice_sound (sound : m.Sound decls ok) {sub : List Column}
    {change : Shape → Option (List Shape × List Extraction)}
    (each : ∀ s ∈ m.column i, ∀ shapes binds, change s = some (shapes, binds) →
      List.Forall₂ (Shape.Sound decls ok) shapes (sub.map Column.type)) : (m.spliced i sub change).Sound decls ok := by
  intro r' kept
  obtain ⟨r, member, spliced⟩ := List.mem_filterMap.mp kept
  obtain ⟨⟨shapes, binds⟩, changed, rfl⟩ := Option.map_eq_some_iff.mp spliced
  obtain ⟨s, shape, changed⟩ := Option.bind_eq_some_iff.mp changed
  have fitting := each s (mem_column.mpr ⟨r, member, shape⟩) shapes binds changed
  have whole := sound r member
  simp only [Matrix.spliced, List.map_append, List.map_take, List.map_drop]
  exact List.rel_append (List.rel_append (List.forall₂_take _ whole) fitting) (List.forall₂_drop _ whole)

theorem spread_sound (sound : m.Sound decls ok) : m.spread.Sound decls ok := by
  intro r' member
  obtain ⟨r, inside, alternative⟩ := List.mem_flatMap.mp member
  obtain ⟨⟨unsure, shapes⟩, chosen, rfl⟩ := List.mem_map.mp alternative
  exact Shape.spread_sound (sound r inside) _ chosen

theorem sure_sound (sound : m.Sound decls ok) : m.sure.Sound decls ok := by
  intro r' member
  obtain ⟨r, inside, chosen⟩ := List.mem_flatMap.mp member
  have whole := sound r inside
  rcases mem_sureHead chosen with ⟨rfl, -⟩ | ⟨head, s, rest, pats, alternative, pats'⟩
  · exact whole
  · rw [pats] at whole
    rw [pats']
    obtain ⟨t, types, first, later, same⟩ := List.forall₂_cons_left_iff.mp whole
    rw [sure, same]
    exact .cons (Shape.heads_sound head t first _ alternative) later

theorem expand_sound (wild : ∀ t, ok Shape.wild t = true) (sound : m.Sound decls ok)
    (heads : ∀ s ∈ m.column i, s.isHead = true) (here : m.cols[i]? = some col) :
    (m.spliced i (parts decls col) (openShape decls col)).Sound decls ok :=
  splice_sound sound fun s inColumn _ _ changed =>
    open_sound wild (sound.column here inColumn) (heads s inColumn) changed

theorem specialize_sound (wild : ∀ t, ok Shape.wild t = true) (regular : decls.Regular)
    (sound : m.Sound decls ok) (here : m.cols[i]? = some col) {test : Test}
    (suits : test.Suits decls col.type) {sub : List Column} (opened : test.columns decls col = .ok sub) :
    (m.spliced i sub (passShape col test sub.length)).Sound decls ok := by
  obtain ⟨sub', opened', sized, types⟩ := Test.columns_eq suits
  obtain rfl : sub' = sub := Except.ok.inj (opened'.symm.trans opened)
  refine splice_sound sound fun s inColumn _ _ changed => ?_
  rw [types]
  exact pass_sound wild regular suits (sound.column here inColumn) (sized ▸ changed)

theorem without_sound (sound : m.Sound decls ok) : (m.spliced i [] (missShape col)).Sound decls ok := by
  refine splice_sound sound fun s inColumn shapes binds changed => ?_
  cases any : s.isAny <;> simp [missShape, any] at changed
  rw [changed.1]
  exact .nil

theorem ofArms_sound {type : Ty} {arms : List Arm}
    (sound : ∀ a ∈ arms, (Shape.ofPattern decls a.pattern type).Sound decls ok type) :
    (Matrix.ofArms decls type arms).Sound decls ok := by
  intro r member
  obtain ⟨⟨a, j⟩, entry, rfl⟩ := List.mem_map.mp member
  exact .cons (sound a (List.fst_mem_of_mem_zipIdx entry)) .nil

end Matrix

/-! ### Shapes of patterns -/

namespace Shape

def wordless : Shape → Ty → Bool
  | .string _, _ => false
  | _, _ => true

def offers : Shape → Ty → Bool
  | .choice alternatives, _ => !alternatives.isEmpty
  | _, _ => true

def isPlain : Shape → Bool
  | .string _ | .choice _ => false
  | _ => true

/-- Shapes have one property if the patterns that they are read from have another, which decides about strings and
choices only. -/
structure Carries (good : Pattern → Bool) (ok : Shape → Ty → Bool) : Prop where
  free : ∀ s t, s.isPlain = true → ok s t = true
  string : ∀ info value t, good (.literal info (.string value)) = true → ok (.string value) t = true
  choice : ∀ info choices shapes t, good (.alternatives info choices) = true → shapes.length = choices.length →
    ok (.choice shapes) t = true

theorem carries_wordless : Carries Pattern.wordless wordless where
  free s t plain := by cases s <;> simp [isPlain] at plain <;> rfl
  string _ _ _ own := own
  choice _ _ _ _ _ _ := rfl

theorem carries_offers : Carries Pattern.offers offers where
  free s t plain := by cases s <;> simp [isPlain] at plain <;> rfl
  string _ _ _ _ := rfl
  choice info choices shapes t own same := by
    cases shapes with
    | nil =>
      obtain rfl : choices = [] := List.length_eq_zero_iff.mp same.symm
      exact own
    | cons s rest => rfl

variable {decls : Decls}

/-- What holds of references and of a shape holds of the shape behind references. -/
theorem every_behind {ok : Shape → Ty → Bool} (through : ∀ s t, ok (.target s) t = true) (s : Shape) (t : Ty)
    (inner : s.every decls ok t.strip.2 = true) : (behind t.strip.1 s).every decls ok t = true := by
  induction t using Ty.strip.induct with
  | case1 mutable target count core stripped ih =>
    simp only [Ty.strip, behind] at inner ⊢
    simpa [every, through] using ih inner
  | case2 t other =>
    have bare : t.strip = (0, t) := by cases t <;> simp_all [Ty.strip]
    simpa only [bare, behind] using inner

theorem everyAll_wilds {ok : Shape → Ty → Bool} (wild : ∀ t, ok Shape.wild t = true) (count : Nat)
    (types : List Ty) : everyAll decls ok (wilds count) types = true := by
  induction count generalizing types with
  | zero => cases types <;> rfl
  | succ count ih =>
    cases types with
    | nil => rfl
    | cons t types =>
      have first : ok (.any none) t = true := wild t
      simpa [wilds, List.replicate_succ, everyAll, every, Shape.wild, first] using ih types

theorem everyAll_update {ok : Shape → Ty → Bool} {declared : List Field} {shapes : List Shape} (name : String)
    (p : Pattern) (every : everyAll decls ok shapes (declared.map Field.type) = true)
    (each : ∀ t, (ofPattern decls p t).every decls ok t = true) :
    everyAll decls ok ((declared.zip shapes).map fun (f, old) =>
      if f.name == name then ofPattern decls p f.type else old) (declared.map Field.type) = true := by
  induction declared generalizing shapes with
  | nil => rfl
  | cons f declared ih =>
    cases shapes with
    | nil => rfl
    | cons s shapes =>
      simp only [List.map_cons, everyAll, List.zip_cons_cons, Bool.and_eq_true] at every ⊢
      refine ⟨?_, ih every.2⟩
      split
      · exact each f.type
      · exact every.1

variable {good : Pattern → Bool} {ok : Shape → Ty → Bool}

mutual

/-- What holds everywhere in a pattern carries over to its shape. -/
theorem ofPattern_every (carries : Carries good ok) : ∀ (p : Pattern) (t : Ty), p.every good = true →
    (ofPattern decls p t).every decls ok t = true
  | .wildcard _, _, _ | .binding _, _, _ => carries.free _ _ rfl
  | .alternatives info choices, t, own => by
    simp only [Pattern.every, Bool.and_eq_true] at own
    simp only [ofPattern, every, Bool.and_eq_true]
    have sized := length_ofEach decls choices t
    exact ⟨carries.choice info choices _ t own.1 sized, ofEach_every carries choices t own.2⟩
  | .guarded _ inner _, t, own => by
    simp only [Pattern.every, Bool.and_eq_true] at own
    simp only [ofPattern, every, Bool.and_eq_true]
    exact ⟨carries.free _ _ rfl, ofPattern_every carries inner t own.2⟩
  | .literal info value, t, own => by
    simp only [Pattern.every, Bool.and_true] at own
    refine every_behind (fun _ _ => carries.free _ _ rfl) _ t ?_
    cases value <;> cases t.strip.2 <;> first | exact carries.free _ _ rfl | exact carries.string info _ _ own
  | .range .., t, _ => by
    refine every_behind (fun _ _ => carries.free _ _ rfl) _ t ?_
    cases t.strip.2 <;> exact carries.free _ _ rfl
  | .tuple _ elements, t, own => by
    simp only [Pattern.every, Bool.and_eq_true] at own
    refine every_behind (fun _ _ => carries.free _ _ rfl) _ t ?_
    cases t.strip.2 with
    | unit => simp [every, everyAll, carries.free (.product []) .unit rfl]
    | tuple types =>
      simp only [every, Decls.productTypes?, Option.getD_some, Bool.and_eq_true]
      exact ⟨carries.free _ _ rfl, ofAll_every carries elements types own.2⟩
    | _ => exact carries.free _ _ rfl
  | .record _ _ fields _, t, own => by
    simp only [Pattern.every, Bool.and_eq_true] at own
    refine every_behind (fun _ _ => carries.free _ _ rfl) _ t ?_
    cases t.strip.2 with
    | struct name args =>
      simp only [every, Decls.productTypes?, Option.getD_some, Bool.and_eq_true]
      exact ⟨carries.free _ _ rfl,
        ofFields_every carries fields _ _ own.2 (everyAll_wilds (fun _ => carries.free _ _ rfl) _ _)⟩
    | _ => exact carries.free _ _ rfl
  | .variant _ _ tag args fields _, t, own => by
    simp only [Pattern.every, Bool.and_eq_true] at own
    refine every_behind (fun _ _ => carries.free _ _ rfl) _ t ?_
    cases t.strip.2 with
    | enum name typeArgs =>
      dsimp only
      cases known : decls.enum? name with
      | none => exact carries.free _ _ rfl
      | some d =>
        dsimp only
        cases d.variant? tag with
        | none => exact carries.free _ _ rfl
        | some v =>
          dsimp only
          split
          next isNamed =>
            have slots := map_type_withTypes (Nat.le_of_eq (length_slots isNamed d typeArgs))
            have inner := ofFields_every carries fields
              ((v.fields.zip (Decls.slots d typeArgs v)).map fun (f, type) => { f with type })
              (wilds (Decls.slots d typeArgs v).length) own.2.2
              (everyAll_wilds (fun _ => carries.free _ _ rfl) _ _)
            rw [slots] at inner
            simpa [every, Test.types, known, carries.free] using ⟨carries.free _ _ rfl, inner⟩
          next =>
            simpa [every, Test.types, known] using ⟨carries.free _ _ rfl, ofAll_every carries args _ own.2.1⟩
    | _ => exact carries.free _ _ rfl
  | .list _ front _ _, t, own => by
    simp only [Pattern.every, Bool.and_eq_true] at own
    refine every_behind (fun _ _ => carries.free _ _ rfl) _ t ?_
    cases t.strip.2 with
    | array element =>
      simp only [every, Bool.and_eq_true]
      exact ⟨carries.free _ _ rfl, ofEach_every carries front element own.2⟩
    | _ => exact carries.free _ _ rfl

theorem ofEach_every (carries : Carries good ok) : ∀ (ps : List Pattern) (t : Ty),
    Pattern.everyEach good ps = true → everyEach decls ok (ofEach decls ps t) t = true
  | [], _, _ => rfl
  | p :: rest, t, own => by
    simp only [Pattern.everyEach, Bool.and_eq_true] at own
    simp [ofEach, everyEach, ofPattern_every carries p t own.1, ofEach_every carries rest t own.2]

theorem ofAll_every (carries : Carries good ok) : ∀ (ps : List Pattern) (types : List Ty),
    Pattern.everyEach good ps = true → everyAll decls ok (ofAll decls ps types) types = true
  | [], _, _ => everyAll_wilds (fun _ => carries.free _ _ rfl) _ _
  | _ :: _, [], _ => rfl
  | p :: rest, t :: types, own => by
    simp only [Pattern.everyEach, Bool.and_eq_true] at own
    simp [ofAll, everyAll, ofPattern_every carries p t own.1, ofAll_every carries rest types own.2]

theorem ofFields_every (carries : Carries good ok) : ∀ (fields : List FieldPattern) (declared : List Field)
    (shapes : List Shape), Pattern.everyField good fields = true →
    everyAll decls ok shapes (declared.map Field.type) = true →
    everyAll decls ok (ofFields decls fields declared shapes) (declared.map Field.type) = true
  | [], _, _, _, every => by simpa [ofFields] using every
  | .mk name p :: rest, declared, shapes, own, every => by
    simp only [Pattern.everyField, Bool.and_eq_true] at own
    simp only [ofFields]
    refine ofFields_every carries rest declared _ own.2 ?_
    exact everyAll_update name p every fun t => ofPattern_every carries p t own.1

end

end Shape

end TreeCheck.Match
