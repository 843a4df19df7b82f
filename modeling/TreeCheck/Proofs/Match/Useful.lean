import TreeCheck.Proofs.Match.Layers

/-!
What the search for useful rows finds. If it finds nothing, the matrix admits all values that the row matches; if it
finds something, the row matches values that the matrix does not admit. Both are shown for values by levels, for the
search goes on as if every type had values.
-/

namespace TreeCheck.Match

theorem Alike.eq_nil_iff {xs ys : List Way} (alike : Alike xs ys) : xs = [] ↔ ys = [] := by
  have heads := alike.first
  cases xs <;> cases ys <;> simp_all

theorem exists_cross_unguarded {xs ys : List Way} : (∃ w ∈ cross xs ys, w.guarded = false) ↔
    (∃ a ∈ xs, a.guarded = false) ∧ ∃ b ∈ ys, b.guarded = false := by
  constructor
  · rintro ⟨w, member, sure⟩
    obtain ⟨a, inside, b, inside', rfl⟩ := mem_cross.mp member
    obtain ⟨first, second⟩ := Bool.or_eq_false_iff.mp sure
    exact ⟨⟨a, inside, first⟩, b, inside', second⟩
  · rintro ⟨⟨a, inside, first⟩, b, inside', second⟩
    exact ⟨a.append b, mem_cross.mpr ⟨a, inside, b, inside', rfl⟩, by simp [Way.append, first, second]⟩

theorem Shape.exists_unguarded_sureHeads {s : Shape} {x : Value} : (∃ w ∈ s.ways x, w.guarded = false) ↔
    ∃ head ∈ s.sureHeads, ∃ w ∈ head.ways x, w.guarded = false := by
  rw [Shape.ways_heads]
  constructor
  · rintro ⟨w, member, sure⟩
    obtain ⟨⟨unsure, head⟩, inside, hit⟩ := List.mem_flatMap.mp member
    obtain ⟨⟨a, single, free⟩, w', hit', sure'⟩ := exists_cross_unguarded.mp ⟨w, hit, sure⟩
    obtain rfl := List.mem_singleton.mp single
    obtain rfl : unsure = false := free
    exact ⟨head, List.mem_filterMap.mpr ⟨_, inside, rfl⟩, w', hit', sure'⟩
  · rintro ⟨head, member, w, hit, sure⟩
    obtain ⟨w', hit', sure'⟩ := exists_cross_unguarded.mpr
      ⟨⟨({} : Way), List.mem_singleton.mpr rfl, rfl⟩, w, hit, sure⟩
    exact ⟨w', List.mem_flatMap.mpr ⟨_, Matrix.mem_sureHeads member, hit'⟩, sure'⟩

theorem Shape.waysAny_ne_nil {shapes : List Shape} {x : Value} :
    Shape.waysAny shapes x ≠ [] ↔ ∃ s ∈ shapes, s.ways x ≠ [] := by
  induction shapes with
  | nil => simp [Shape.waysAny]
  | cons s shapes ih =>
    have split : Shape.waysAny (s :: shapes) x ≠ [] ↔ s.ways x ≠ [] ∨ Shape.waysAny shapes x ≠ [] := by
      rw [Shape.waysAny, Ne, List.append_eq_nil_iff, not_and_or]
    rw [split, ih, List.exists_mem_cons_iff]

theorem Matrix.sure_admits {m : Matrix} {values : List Value} : m.sure.Admits values ↔ m.Admits values := by
  have row (r : Row) : (∃ r' ∈ r.sureHead, r'.guarded = false ∧ ∃ w ∈ Shape.waysAll r'.pats values, w.guarded = false) ↔
      r.guarded = false ∧ ∃ w ∈ Shape.waysAll r.pats values, w.guarded = false := by
    unfold Row.sureHead
    cases pats : r.pats with
    | nil => simp [pats]
    | cons head rest =>
      cases values with
      | nil => simp [Shape.waysAll]
      | cons x others =>
        simp only [List.mem_map, exists_exists_and_eq_and, Shape.waysAll, exists_cross_unguarded,
          Shape.exists_unguarded_sureHeads (s := head)]
        constructor
        · rintro ⟨s, inside, free, hit, later⟩
          exact ⟨free, ⟨s, inside, hit⟩, later⟩
        · rintro ⟨free, ⟨s, inside, hit⟩, later⟩
          exact ⟨s, inside, free, hit, later⟩
  simp only [Admits, sure, List.mem_flatMap]
  constructor
  · rintro ⟨r', ⟨r, inside, chosen⟩, sure⟩
    exact ⟨r, inside, (row r).mp ⟨r', chosen, sure⟩⟩
  · rintro ⟨r, inside, sure⟩
    obtain ⟨r', chosen, sure'⟩ := (row r).mpr sure
    exact ⟨r', ⟨r, inside, chosen⟩, sure'⟩

/-- What the rows admit that test nothing in the first column, they admit with any value there. -/
theorem Matrix.admits_of_without {m : Matrix} {col : Column} {others : List Value}
    (admits : (m.spliced 0 [] (missShape col)).Admits others) (x : Value) : m.Admits (x :: others) := by
  obtain ⟨r', kept, sure, w, hit, free⟩ := admits
  obtain ⟨r, member, spliced⟩ := List.mem_filterMap.mp kept
  obtain ⟨⟨shapes, binds⟩, changed, rfl⟩ := Option.map_eq_some_iff.mp spliced
  obtain ⟨s, shape, changed⟩ := Option.bind_eq_some_iff.mp changed
  cases pats : r.pats with
  | nil => simp [pats] at shape
  | cons head rest =>
    obtain rfl : head = s := by simpa [pats] using shape
    have own : shapes = [] ∧ ∃ a ∈ head.ways x, a.guarded = false := by
      cases head <;> simp [missShape, Shape.isAny] at changed
      exact ⟨changed.1, by simp [Shape.ways]⟩
    obtain ⟨rfl, free'⟩ := own
    refine ⟨r, member, sure, ?_⟩
    rw [pats, Shape.waysAll, exists_cross_unguarded]
    exact ⟨free', w, by simpa [pats] using hit, free⟩

theorem waysAll_cons_ne_nil {s : Shape} {rest : List Shape} {x : Value} {values : List Value} :
    Shape.waysAll (s :: rest) (x :: values) ≠ [] ↔ s.ways x ≠ [] ∧ Shape.waysAll rest values ≠ [] := by
  rw [Shape.waysAll, Ne, cross_eq_nil, not_or]

/-- A row whose first shape is changed matches as before. -/
theorem Traced.row {shapes : List Shape} {change : Shape → Option (List Shape × List Extraction)}
    {values values' : List Value} (traced : Traced shapes 0 change values values') {head : Shape}
    (member : head ∈ shapes) (rest : List Shape) : match change head with
      | some (args, _) => Shape.waysAll (head :: rest) values ≠ [] ↔ Shape.waysAll (args ++ rest) values' ≠ []
      | none => Shape.waysAll (head :: rest) values = [] := by
  obtain ⟨front, x, parts, back, look, rfl, rfl, sized, follows⟩ := traced
  obtain rfl := List.length_eq_zero_iff.mp sized
  have own := follows head member
  unfold Follows at own
  cases changed : change head with
  | none =>
    simp only [changed] at own
    simp [Shape.waysAll, own]
  | some result =>
    obtain ⟨args, binds⟩ := result
    simp only [changed] at own
    have hit : head.ways x ≠ [] ↔ Shape.waysAll args parts ≠ [] := by
      rw [Ne, own.2, cross_eq_nil]
      simp
    simp only [List.nil_append]
    rw [waysAll_cons_ne_nil, Shape.waysAll_append own.1, hit, Ne, Ne, Ne, cross_eq_nil, not_or]

theorem anyM_false {α : Type} {test : α → Except Failure Bool} {list : List α} (none : anyM test list = .ok false) :
    ∀ a ∈ list, test a = .ok false := by
  induction list with
  | nil => simp
  | cons a list ih =>
    rw [anyM] at none
    cases first : test a with
    | error failure => simp [first, bind, Except.bind] at none
    | ok found =>
      cases found with
      | true => simp [first, bind, Except.bind, pure, Except.pure] at none
      | false =>
        have later := ih (by simpa [first, bind, Except.bind] using none)
        exact List.forall_mem_cons.mpr ⟨first, later⟩

theorem anyM_true {α : Type} {test : α → Except Failure Bool} {list : List α} (some : anyM test list = .ok true) :
    ∃ a ∈ list, test a = .ok true := by
  induction list with
  | nil => simp [anyM] at some
  | cons a list ih =>
    rw [anyM] at some
    cases first : test a with
    | error failure => simp [first, bind, Except.bind] at some
    | ok found =>
      cases found with
      | true => exact ⟨a, by simp, first⟩
      | false =>
        obtain ⟨b, member, found⟩ := ih (by simpa [first, bind, Except.bind] using some)
        exact ⟨b, by simp [member], found⟩

/-- A search among sound shapes. -/
structure Searching (ctx : Context) (ok : Shape → Ty → Bool) (m : Matrix) (row : List Shape) : Prop where
  rows : m.Sound ctx.decls ok
  row : List.Forall₂ (Shape.Sound ctx.decls ok) row (m.cols.map Column.type)

section

variable {ctx : Context} {ok : Shape → Ty → Bool} {lively : Ty → Prop} {level : Nat → Value → Ty → Prop}
variable {m : Matrix} {head : Shape} {rest : List Shape}

namespace Searching

theorem first (searching : Searching ctx ok m (head :: rest)) : ∃ col cols, m.cols = col :: cols ∧
    head.Sound ctx.decls ok col.type ∧ List.Forall₂ (Shape.Sound ctx.decls ok) rest (cols.map Column.type) := by
  obtain ⟨t, types, own, later, same⟩ := List.forall₂_cons_left_iff.mp searching.row
  obtain ⟨col, cols, known, rfl, rfl⟩ := List.map_eq_cons_iff.mp same
  exact ⟨col, cols, known, own, later⟩

theorem sure {row : List Shape} (searching : Searching ctx ok m row) : Searching ctx ok m.sure row :=
  ⟨Matrix.sure_sound searching.rows, searching.row⟩

variable {col : Column} {cols : List Column} (searching : Searching ctx ok m (head :: rest))
variable (known : m.cols = col :: cols)

include searching known

theorem replaced {s : Shape} (sound : s.Sound ctx.decls ok col.type) : Searching ctx ok m (s :: rest) := by
  refine ⟨searching.rows, ?_⟩
  have whole := searching.row
  rw [known] at whole ⊢
  cases whole with
  | cons own later => exact .cons sound later

theorem spliced {sub : List Column} {change : Shape → Option (List Shape × List Extraction)}
    (sound : (m.spliced 0 sub change).Sound ctx.decls ok) {args : List Shape}
    (fits : List.Forall₂ (Shape.Sound ctx.decls ok) args (sub.map Column.type)) :
    Searching ctx ok (m.spliced 0 sub change) (args ++ rest) := by
  refine ⟨sound, ?_⟩
  have whole := searching.row
  rw [map_type_spliced known]
  rw [known] at whole
  cases whole with
  | cons own later => exact List.rel_append fits later

end Searching

/-- A search that finds nothing shows that the matrix admits all values of a level that the row matches. -/
def Refutes (ctx : Context) (ok : Shape → Ty → Bool) (inner : Value → Ty → Prop)
    (search : Matrix → List Shape → Except Failure Bool) : Prop :=
  ∀ {m : Matrix} {row : List Shape}, Searching ctx ok m row → (∀ r ∈ m.rows, r.guarded = false) →
    search m row = .ok false → ∀ {values : List Value}, FilledBy inner m.cols values →
      Shape.waysAll row values ≠ [] → m.Admits values

theorem Matrix.unguarded_sure (unguarded : ∀ r ∈ m.rows, r.guarded = false) :
    ∀ r ∈ m.sure.rows, r.guarded = false := by
  intro r' member
  obtain ⟨r, inside, chosen⟩ := List.mem_flatMap.mp member
  unfold Row.sureHead at chosen
  split at chosen
  · obtain rfl := List.mem_singleton.mp chosen
    exact unguarded _ inside
  · obtain ⟨s, -, rfl⟩ := List.mem_map.mp chosen
    exact unguarded r inside

theorem Matrix.unguarded_spliced (unguarded : ∀ r ∈ m.rows, r.guarded = false) (i : Nat) (sub : List Column)
    (change : Shape → Option (List Shape × List Extraction)) :
    ∀ r ∈ (m.spliced i sub change).rows, r.guarded = false := by
  intro r' kept
  obtain ⟨r, member, spliced⟩ := List.mem_filterMap.mp kept
  obtain ⟨_, -, rfl⟩ := Option.map_eq_some_iff.mp spliced
  exact unguarded r member

theorem suit_both {col : Column} (here : m.cols[0]? = some col) (fit : m.Fits ctx.decls false)
    (heads : ∀ s ∈ m.column 0, s.isHead = true) (own : Shape.Fits ctx.decls false head col.type)
    (isHead : head.isHead = true) :
    ∀ s ∈ m.column 0 ++ [head], Shape.Fits ctx.decls false s col.type ∧ s.isHead = true :=
  List.forall_mem_append.mpr
    ⟨fun s member => ⟨fit.column here member, heads s member⟩, by simpa using ⟨own, isHead⟩⟩

/-- Where the row or the first column takes a product apart, its type opens. -/
theorem probes_of_product {decls : Decls} {col : Column} (here : m.cols[0]? = some col) (sound : m.Sound decls ok)
    (own : head.Sound decls ok col.type)
    (product : head.isProduct = true ∨ ∃ s ∈ m.column 0, s.isProduct = true) :
    Opens decls col.type ∧ ∃ key : Shape, key.Probes decls ok col.type := by
  rcases product with single | ⟨s, inColumn, single⟩
  · exact ⟨opens_of_isProduct own.fits single, head, own.probes single⟩
  · have suits := sound.column here inColumn
    exact ⟨opens_of_isProduct suits.fits single, s, suits.probes single⟩

theorem probes_both {col : Column} (here : m.cols[0]? = some col) (sound : m.Sound ctx.decls ok)
    (heads : ∀ s ∈ m.column 0, s.isHead = true) (own : head.Sound ctx.decls ok col.type)
    (isHead : head.isHead = true) (tested : ∃ key ∈ m.column 0 ++ [head], key.isAny = false) :
    ∃ key : Shape, key.Probes ctx.decls ok col.type := by
  obtain ⟨key, member, tests⟩ := tested
  rcases List.mem_append.mp member with inColumn | new
  · exact ⟨key, sound.column here inColumn, heads key inColumn, tests⟩
  · obtain rfl := List.mem_singleton.mp new
    exact ⟨key, own, isHead, tests⟩

section

variable {search : Matrix → List Shape → Except Failure Bool} {n : Nat} {col : Column} {cols : List Column}
variable {values : List Value} (layers : Layers ctx ok lively level) (refutes : Refutes ctx ok (level n) search)
variable (searching : Searching ctx ok m (head :: rest)) (unguarded : ∀ r ∈ m.rows, r.guarded = false)
variable (heads : ∀ s ∈ m.column 0, s.isHead = true) (known : m.cols = col :: cols)
variable (own : head.Sound ctx.decls ok col.type) (isHead : head.isHead = true)
variable (hit : Shape.waysAll (head :: rest) values ≠ []) (placed : FilledBy (level (n + 1)) m.cols values)

include layers refutes searching unguarded heads known own isHead hit placed

theorem refutes_expanded (product : head.isProduct = true ∨ ∃ s ∈ m.column 0, s.isProduct = true)
    (found : search (m.spliced 0 (Matrix.parts ctx.decls col) (openShape ctx.decls col))
      (Matrix.partShapes (Matrix.parts ctx.decls col).length head ++ rest) = .ok false) : m.Admits values := by
  have here : m.cols[0]? = some col := by simp [known]
  have fit := searching.rows.fits
  obtain ⟨opens, key, probes⟩ := probes_of_product here searching.rows own product
  obtain ⟨values', placed', traced⟩ :=
    layers.open_down here (suit_both here fit heads own.fits isHead) opens probes placed
  have admits := refutes (searching.spliced known (Matrix.expand_sound layers.wild searching.rows heads here)
    (open_sound layers.wild own isHead rfl)) (Matrix.unguarded_spliced unguarded 0 _ _) found placed'
    ((traced.row (by simp) rest).mp hit)
  exact ((traced.subset fun s member => List.mem_append_left _ member).admits fit here).mpr admits

/-- If a column is tested, the value of the row there passes a test of the family, or it is missing and the head
does not match it. -/
theorem refutes_switched (regular : ctx.decls.Regular) {family : List Test × List Pattern}
    (switch : FamilyOf ctx.decls ctx.options false col.type (m.column 0 ++ [head]) family)
    (tested : ∃ key ∈ m.column 0 ++ [head], key.isAny = false) (whole : head.isAny = true → family.2 = [])
    (found : ∀ test ∈ family.1, ctx.behind search m col head rest test = .ok false) : m.Admits values := by
  have here : m.cols[0]? = some col := by simp [known]
  have fit := searching.rows.fits
  have suit := suit_both here fit heads own.fits isHead
  have suits := switch.suits fun s member => (suit s member).1
  have spans : Spans ctx (level n) col.type (m.column 0 ++ [head]) family :=
    switch.spans regular (fun s member => (suit s member).2) fun s member => (suit s member).1
  obtain ⟨key, probes⟩ := probes_both here searching.rows heads own isHead tested
  rcases layers.switch_down here suit regular spans suits probes placed with
    ⟨test, member, sub, values', opened, placed', traced⟩ | ⟨shown, values', placed', traced⟩
  · have row := traced.row (by simp : head ∈ _) rest
    have nothing := found test member
    rw [Context.behind, opened, Except.bind] at nothing
    cases changed : passShape col test sub.length head with
    | none =>
      simp only [changed] at row
      exact absurd row hit
    | some result =>
      obtain ⟨args, binds⟩ := result
      simp only [changed] at row nothing
      obtain ⟨sub', opened', sized, types⟩ := Test.columns_eq (suits test member)
      obtain rfl := Except.ok.inj (opened.symm.trans opened')
      have fits := pass_sound layers.wild regular (suits test member) own (sized ▸ changed)
      have admits := refutes (searching.spliced known
        (Matrix.specialize_sound layers.wild regular searching.rows here (suits test member) opened)
        (types ▸ fits)) (Matrix.unguarded_spliced unguarded 0 _ _) nothing placed' (row.mp hit)
      exact ((traced.subset fun s inside => List.mem_append_left _ inside).admits fit here).mpr admits
  · have tests : head.isAny = false := by
      by_contra any
      exact shown (whole (by simpa using any))
    have row := traced.row (by simp : head ∈ _) rest
    simp only [missShape, tests] at row
    exact absurd row hit

end

/-- One step of a search that finds nothing, if the searches that it starts show what they should. -/
theorem usefulStep_refutes (layers : Layers ctx ok lively level) (regular : ctx.decls.Regular) {n : Nat}
    {search : Matrix → List Shape → Except Failure Bool} (refutes : Refutes ctx ok (level n) search) :
    Refutes ctx ok (level (n + 1)) (ctx.usefulStep search) := by
  intro m row
  induction row generalizing m with
  | nil =>
    intro searching unguarded found values placed _
    cases rows : m.rows with
    | nil => simp [Context.usefulStep, rows] at found
    | cons r others =>
      have member : r ∈ m.rows := by simp [rows]
      have none : r.pats = [] := by
        have width := (searching.rows r member).length_eq
        rw [← searching.row.length_eq] at width
        exact List.length_eq_zero_iff.mp width
      exact ⟨r, member, unguarded r member, {}, by simp [none, Shape.waysAll], rfl⟩
  | cons head rest ih =>
    intro searching unguarded found values placed hit
    obtain ⟨col, cols, known, own, later⟩ := searching.first
    have fit := searching.rows.fits
    have heads := Matrix.sure_column fit
    have known' : m.sure.cols = col :: cols := known
    have searching' := searching.sure
    have unguarded' := Matrix.unguarded_sure unguarded
    have step : Stepped ctx false search m col head rest (ctx.usefulStep search m (head :: rest)) :=
      usefulStep_stepped fit known own.fits (later.imp fun _ _ sound => sound.fits)
    have below := layers.filled_down placed
    obtain ⟨x, others, rfl⟩ : ∃ x others, values = x :: others := by
      cases values with
      | nil => simp [known] at placed
      | cons x others => exact ⟨x, others, rfl⟩
    obtain ⟨own_hit, later_hit⟩ := waysAll_cons_ne_nil.mp hit
    generalize ctx.usefulStep search m (head :: rest) = result at step found
    cases step with
    | unmatched => cases found
    | @choice alternatives shape =>
      subst shape
      obtain ⟨s, member, s_hit⟩ : ∃ s ∈ alternatives, s.ways x ≠ [] := by
        rw [Shape.ways] at own_hit
        exact Shape.waysAny_ne_nil.mp own_hit
      exact refutes (searching.replaced known (own.choice s member)) unguarded
        (anyM_false found s member) below (waysAll_cons_ne_nil.mpr ⟨s_hit, later_hit⟩)
    | @guarded inner shape =>
      subst shape
      have inner_hit : inner.ways x ≠ [] := by
        simpa [Shape.ways, cross_eq_nil] using own_hit
      exact refutes (searching.replaced known own.guarded) unguarded found below
        (waysAll_cons_ne_nil.mpr ⟨inner_hit, later_hit⟩)
    | expanded isHead product =>
      exact Matrix.sure_admits.mp <| refutes_expanded layers refutes searching' unguarded' heads known' own isHead
        hit placed product found
    | switched isHead switch tested whole =>
      exact Matrix.sure_admits.mp <| refutes_switched layers refutes searching' unguarded' heads known' own isHead
        hit placed regular switch tested whole (anyM_false found)
    | skipped =>
      rw [known] at placed
      have others_placed := (List.forall₂_cons.mp placed).2
      refine Matrix.sure_admits.mp (Matrix.admits_of_without (ih ?_ ?_ found ?_ later_hit) x)
      · exact searching'.spliced known' (Matrix.without_sound searching'.rows) .nil
      · exact Matrix.unguarded_spliced unguarded' 0 _ _
      · simpa [Matrix.spliced, known'] using others_placed

theorem usefulWithin_refutes (layers : Layers ctx ok lively level) (regular : ctx.decls.Regular) (fuel : Nat) :
    Refutes ctx ok (level fuel) (ctx.usefulWithin fuel) := by
  induction fuel with
  | zero =>
    intro m row _ _ found
    cases found
  | succ fuel ih => exact usefulStep_refutes layers regular ih

end

/-! ### Values that a search finds -/

section

variable {ctx : Context}

mutual

theorem exists_matched (n : Nat) : ∀ (s : Shape) (t : Ty), s.Sound ctx.decls ctx.meets t →
    ∃ x, Approx ctx n x t ∧ s.ways x ≠ []
  | .any _, t, _ => by
    obtain ⟨x, typed⟩ := @exists_approx ctx n t
    exact ⟨x, typed, by simp [Shape.ways]⟩
  | .bool value, t, sound => by
    obtain rfl : t = .bool := sound.fits
    exact ⟨.bool value, Approx.of_built (.bool value), by simp [Shape.ways, Test.accepts]⟩
  | .variant v args, t, sound => by
    obtain ⟨⟨name, typeArgs, d, rfl, known, member⟩, inner⟩ := sound.variant
    obtain ⟨values, typed, hit⟩ := exists_matchedAll n args _ inner
    have slots : (Test.variant v).types ctx.decls (.enum name typeArgs) = Decls.slots d typeArgs v := by
      simp [Test.types, known]
    rw [slots] at typed
    refine ⟨_, Approx.of_built (.variant known member typed), ?_⟩
    simpa [Shape.ways, Test.accepts, Value.parts] using hit
  | .range low high, t, sound => by
    obtain ⟨k, rfl⟩ := sound.fits
    have overlap : max low (ctx.options.bounds (.int k)).1 ≤ min high (ctx.options.bounds (.int k)).2 := by
      simpa [Context.meets, Context.overlaps, Shape.offers] using sound.holds
    refine ⟨_, Approx.of_built (.int (n := max low (ctx.options.bounds (.int k)).1) (by omega) (by omega)), ?_⟩
    have inside : low ≤ max low (ctx.options.bounds (.int k)).1 ∧ max low (ctx.options.bounds (.int k)).1 ≤ high := by
      omega
    rw [Shape.ways, Test.accepts]
    simp only [inside]
    simp
  | .string value, t, sound => by
    obtain rfl : t = .string := sound.fits
    exact ⟨.string value, Approx.of_built (.string value), by simp [Shape.ways, Test.accepts]⟩
  | .float _, t, sound => by simpa [Shape.Fits] using sound.fits
  | .list front isOpen rest, t, sound => by
    obtain ⟨element, rfl, inner⟩ := sound.list
    obtain ⟨values, typed, hit⟩ := exists_matchedAll n front (List.replicate front.length element) <|
      forall₂_of_get? (by simp) fun i s t left right => by
        rw [List.eq_of_mem_replicate (List.mem_of_getElem? right)]
        exact inner s (List.mem_of_getElem? left)
    have sized : values.length = front.length := by simpa using typed.length_eq
    have each : ∀ v ∈ values, Approx ctx n v element := by
      intro v present
      obtain ⟨t, inside, known⟩ := forall₂_mem_right typed.flip present
      exact List.eq_of_mem_replicate inside ▸ known
    refine ⟨.array values, Approx.of_built (.array each), ?_⟩
    simpa [Shape.ways, sized, cross_eq_nil] using hit
  | .product args, t, sound => by
    obtain ⟨types, product, inner⟩ := sound.product
    obtain ⟨values, typed, hit⟩ := exists_matchedAll n args types inner
    have opens : Opens ctx.decls (Column.type ⟨[], t⟩) := .inl ⟨types, product⟩
    have types := map_type_parts (show ctx.decls.productTypes? (Column.type ⟨[], t⟩) = some types from product)
    obtain ⟨x, built, same⟩ := exists_product opens (types ▸ typed)
    have whole : x.pieces t = x.parts := by
      cases t <;> simp_all [Decls.productTypes?, Value.pieces]
    refine ⟨x, Approx.of_built built, ?_⟩
    rw [Shape.ways, ← whole]
    exact same ▸ hit
  | .target inner, t, sound => by
    obtain ⟨mutable, target, rfl, below⟩ := sound.target
    obtain ⟨x, typed, hit⟩ := exists_matched n inner target below
    exact ⟨x, Approx.of_built (.ref typed), by simpa [Shape.ways] using hit⟩
  | .choice [], _, sound => by simpa [Context.meets, Shape.offers] using sound.holds
  | .choice (s :: rest), t, sound => by
    obtain ⟨x, typed, hit⟩ := exists_matched n s t (sound.choice s (by simp))
    refine ⟨x, typed, ?_⟩
    rw [Shape.ways]
    exact Shape.waysAny_ne_nil.mpr ⟨s, by simp, hit⟩
  | .guarded inner, t, sound => by
    obtain ⟨x, typed, hit⟩ := exists_matched n inner t sound.guarded
    exact ⟨x, typed, by simpa [Shape.ways, cross_eq_nil] using hit⟩

theorem exists_matchedAll (n : Nat) : ∀ (shapes : List Shape) (types : List Ty),
    List.Forall₂ (Shape.Sound ctx.decls ctx.meets) shapes types →
      ∃ values, List.Forall₂ (Approx ctx n) values types ∧ Shape.waysAll shapes values ≠ []
  | [], types, sound => by
    cases sound
    exact ⟨[], .nil, by simp [Shape.waysAll]⟩
  | s :: rest, types, sound => by
    cases sound with
    | @cons _ t _ types first later =>
      obtain ⟨x, typed, hit⟩ := exists_matched n s t first
      obtain ⟨values, others, hits⟩ := exists_matchedAll n rest types later
      exact ⟨x :: values, .cons typed others, waysAll_cons_ne_nil.mpr ⟨hit, hits⟩⟩

end

/-- A search that finds something shows, at every level, values that the row matches and the matrix does not admit. -/
def Finds (ctx : Context) (search : Matrix → List Shape → Except Failure Bool) : Prop :=
  ∀ {m : Matrix} {row : List Shape}, Searching ctx ctx.meets m row → search m row = .ok true →
    ∀ n, ∃ values, FilledBy (Approx ctx n) m.cols values ∧ Shape.waysAll row values ≠ [] ∧ ¬ m.Admits values

/-- Without rows nothing is admitted, and the row matches something. -/
theorem finds_unmatched {m : Matrix} {row : List Shape} (searching : Searching ctx ctx.meets m row)
    (none : ∀ values, ¬ m.Admits values) (n : Nat) :
    ∃ values, FilledBy (Approx ctx n) m.cols values ∧ Shape.waysAll row values ≠ [] ∧ ¬ m.Admits values := by
  obtain ⟨values, typed, hit⟩ := exists_matchedAll n row _ searching.row
  exact ⟨values, filledBy_iff.mpr typed, hit, none values⟩

section

variable {search : Matrix → List Shape → Except Failure Bool} {m : Matrix} {head : Shape} {rest : List Shape}
variable {col : Column} {cols : List Column} (finds : Finds ctx search)
variable (searching : Searching ctx ctx.meets m (head :: rest)) (heads : ∀ s ∈ m.column 0, s.isHead = true)
variable (known : m.cols = col :: cols) (own : head.Sound ctx.decls ctx.meets col.type)

include searching heads known own

section

variable (isHead : head.isHead = true)

include finds isHead

theorem finds_expanded (product : head.isProduct = true ∨ ∃ s ∈ m.column 0, s.isProduct = true)
    (found : search (m.spliced 0 (Matrix.parts ctx.decls col) (openShape ctx.decls col))
      (Matrix.partShapes (Matrix.parts ctx.decls col).length head ++ rest) = .ok true) (n : Nat) :
    ∃ values, FilledBy (Approx ctx n) m.cols values ∧ Shape.waysAll (head :: rest) values ≠ [] ∧
      ¬ m.Admits values := by
  have here : m.cols[0]? = some col := by simp [known]
  have fit := searching.rows.fits
  have layers := approx_layers ctx
  have opens := (probes_of_product here searching.rows own product).1
  obtain ⟨values', placed', hit, free⟩ := finds (searching.spliced known
    (Matrix.expand_sound layers.wild searching.rows heads here) (open_sound layers.wild own isHead rfl)) found n
  obtain ⟨values, placed, traced⟩ := layers.open_up here (suit_both here fit heads own.fits isHead) opens placed'
  refine ⟨values, placed, (traced.row (by simp) rest).mpr hit, fun admits => free ?_⟩
  exact ((traced.subset fun s member => List.mem_append_left _ member).admits fit here).mp admits

/-- Values found behind a test belong to values that pass it. -/
theorem finds_switched (regular : ctx.decls.Regular) {family : List Test × List Pattern}
    (switch : FamilyOf ctx.decls ctx.options false col.type (m.column 0 ++ [head]) family)
    (tested : ∃ key ∈ m.column 0 ++ [head], key.isAny = false) {test : Test} (member : test ∈ family.1)
    (found : ctx.behind search m col head rest test = .ok true) (n : Nat) :
    ∃ values, FilledBy (Approx ctx n) m.cols values ∧ Shape.waysAll (head :: rest) values ≠ [] ∧
      ¬ m.Admits values := by
  have here : m.cols[0]? = some col := by simp [known]
  have fit := searching.rows.fits
  have layers := approx_layers ctx
  have suit := suit_both here fit heads own.fits isHead
  have suits := switch.suits (fun s member => (suit s member).1) test member
  have spans : Spans ctx (Approx ctx n) col.type (m.column 0 ++ [head]) family :=
    switch.spans regular (fun s member => (suit s member).2) fun s member => (suit s member).1
  obtain ⟨key, probes⟩ := probes_both here searching.rows heads own isHead tested
  obtain ⟨sub, opened, sized, types⟩ := Test.columns_eq suits
  rw [Context.behind, opened, Except.bind] at found
  rcases changed : passShape col test sub.length head with _ | ⟨args, binds⟩
  · simp [changed] at found
  · simp only [changed] at found
    have fits := pass_sound layers.wild regular suits own (sized ▸ changed)
    obtain ⟨values', placed', hit, free⟩ := finds (searching.spliced known
      (Matrix.specialize_sound layers.wild regular searching.rows here suits opened) (types ▸ fits)) found n
    obtain ⟨values, placed, traced⟩ :=
      layers.pass_up here suit regular spans (layers.alive probes trivial n) member suits opened placed'
    have row := traced.row (by simp : head ∈ _) rest
    simp only [changed] at row
    refine ⟨values, placed, row.mpr hit, fun admits => free ?_⟩
    exact ((traced.subset fun s inside => List.mem_append_left _ inside).admits fit here).mp admits

end

/-- Values found behind no test are put together with a value that no row tests for. -/
theorem finds_skipped (regular : ctx.decls.Regular) {family : List Test × List Pattern}
    (switch : FamilyOf ctx.decls ctx.options false col.type (m.column 0 ++ [head]) family)
    (any : head.isAny = true) (silent : family.2 = [] → family.1 = []) {n : Nat} {others : List Value}
    (placed : FilledBy (Approx ctx n) cols others) (hit : Shape.waysAll rest others ≠ [])
    (free : ¬ (m.spliced 0 [] (missShape col)).Admits others) :
    ∃ values, FilledBy (Approx ctx n) m.cols values ∧ Shape.waysAll (head :: rest) values ≠ [] ∧
      ¬ m.Admits values := by
  have here : m.cols[0]? = some col := by simp [known]
  have fit := searching.rows.fits
  have isHead : head.isHead = true := by
    cases head <;> simp [Shape.isAny] at any
    rfl
  have suit := suit_both here fit heads own.fits isHead
  have spans : Spans ctx (Approx ctx n) col.type (m.column 0 ++ [head]) family :=
    switch.spans regular (fun s member => (suit s member).2) fun s member => (suit s member).1
  obtain ⟨x, typed, misses⟩ : ∃ x, Approx ctx n x col.type ∧ ∀ s ∈ m.column 0, s.isAny = false → s.ways x = [] := by
    by_cases tested : ∃ s ∈ m.column 0, s.isAny = false
    · obtain ⟨key, inColumn, tests⟩ := tested
      have probes : key.Probes ctx.decls ctx.meets col.type :=
        ⟨searching.rows.column here inColumn, heads key inColumn, tests⟩
      obtain ⟨y, built⟩ := probes.built (exists_approx n)
      -- a family without tests leaves any value missing
      have shown : family.2 ≠ [] := fun complete =>
        (spans.missed y built (by simp [silent complete])).1 complete
      obtain ⟨p, member⟩ := List.exists_mem_of_ne_nil _ shown
      obtain ⟨x, built', -, refused⟩ := spans.shown ((approx_layers ctx).alive probes trivial n) p member
      exact ⟨x, Approx.of_built built', fun s inside =>
        (spans.missed x built' refused).2 s (List.mem_append_left _ inside)⟩
    · obtain ⟨x, typed⟩ := @exists_approx ctx n col.type
      exact ⟨x, typed, fun s member tests => absurd ⟨s, member, tests⟩ tested⟩
  have own_hit : head.ways x ≠ [] := by
    cases head <;> simp [Shape.isAny] at any
    simp [Shape.ways]
  refine ⟨x :: others, ?_, waysAll_cons_ne_nil.mpr ⟨own_hit, hit⟩, fun admits => free ?_⟩
  · rw [known]
    exact .cons typed placed
  · have follows : ∀ s ∈ m.column 0, Follows (lookBelow col.path x) (missShape col) x [] s :=
      fun s member => follows_miss (lookBelow_paths col.path x) (misses s member)
    exact (Matrix.splice_admits fit here follows (show ([] : List Value).length = 0 from rfl) others).mp admits

omit heads own in
/-- Values found for a shape that matches less than the head are found for the head. -/
theorem finds_replaced (finds : Finds ctx search) {s : Shape} (sound : s.Sound ctx.decls ctx.meets col.type)
    (wider : ∀ x, s.ways x ≠ [] → head.ways x ≠ []) (found : search m (s :: rest) = .ok true) (n : Nat) :
    ∃ values, FilledBy (Approx ctx n) m.cols values ∧ Shape.waysAll (head :: rest) values ≠ [] ∧
      ¬ m.Admits values := by
  obtain ⟨values, placed, hit, free⟩ := finds (searching.replaced known sound) found n
  refine ⟨values, placed, ?_, free⟩
  cases values with
  | nil => simp [known] at placed
  | cons x others =>
    obtain ⟨first, later⟩ := waysAll_cons_ne_nil.mp hit
    exact waysAll_cons_ne_nil.mpr ⟨wider x first, later⟩

end

/-- One step of a search that finds something, if the searches that it starts show what they should. -/
theorem usefulStep_finds (regular : ctx.decls.Regular) {search : Matrix → List Shape → Except Failure Bool}
    (finds : Finds ctx search) : Finds ctx (ctx.usefulStep search) := by
  intro m row
  induction row generalizing m with
  | nil =>
    intro searching found n
    have empty : m.rows = [] := by simpa [Context.usefulStep] using found
    exact finds_unmatched searching (by simp [Matrix.Admits, empty]) n
  | cons head rest ih =>
    intro searching found n
    obtain ⟨col, cols, known, own, later⟩ := searching.first
    have fit := searching.rows.fits
    have heads := Matrix.sure_column fit
    have known' : m.sure.cols = col :: cols := known
    have searching' := searching.sure
    have unsure (result : ∃ values, FilledBy (Approx ctx n) m.cols values ∧
        Shape.waysAll (head :: rest) values ≠ [] ∧ ¬ m.sure.Admits values) :
        ∃ values, FilledBy (Approx ctx n) m.cols values ∧ Shape.waysAll (head :: rest) values ≠ [] ∧
          ¬ m.Admits values := by
      simpa only [Matrix.sure_admits] using result
    have step : Stepped ctx false search m col head rest (ctx.usefulStep search m (head :: rest)) :=
      usefulStep_stepped fit known own.fits (later.imp fun _ _ sound => sound.fits)
    generalize ctx.usefulStep search m (head :: rest) = result at step found
    cases step with
    | unmatched empty => exact unsure (finds_unmatched searching' (by simp [Matrix.Admits, empty]) n)
    | @choice alternatives shape =>
      subst shape
      obtain ⟨s, member, found⟩ := anyM_true found
      refine finds_replaced searching known finds (own.choice s member) (fun x hit => ?_) found n
      rw [Shape.ways]
      exact Shape.waysAny_ne_nil.mpr ⟨s, member, hit⟩
    | @guarded inner shape =>
      subst shape
      refine finds_replaced searching known finds own.guarded (fun x hit => ?_) found n
      simpa [Shape.ways, cross_eq_nil] using hit
    | expanded isHead product =>
      exact unsure (finds_expanded finds searching' heads known' own isHead product found n)
    | switched isHead switch tested whole =>
      obtain ⟨test, member, found⟩ := anyM_true found
      exact unsure (finds_switched finds searching' heads known' own isHead regular switch tested member found n)
    | skipped any switch silent =>
      obtain ⟨others, placed, hit, free⟩ := ih
        (searching'.spliced known' (Matrix.without_sound searching'.rows) .nil) found n
      exact unsure (finds_skipped searching' heads known' own regular switch any silent
        (by simpa [Matrix.spliced, known'] using placed) hit free)

theorem usefulWithin_finds (regular : ctx.decls.Regular) (fuel : Nat) : Finds ctx (ctx.usefulWithin fuel) := by
  induction fuel with
  | zero =>
    intro m row _ found
    cases found
  | succ fuel ih => exact usefulStep_finds regular ih

end

end TreeCheck.Match
