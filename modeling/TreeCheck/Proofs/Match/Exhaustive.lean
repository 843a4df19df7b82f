import TreeCheck.Proofs.Match.Selection

/-!
The verdict on exhaustiveness is exact. A tree has no failure exactly when the rows that it has grown
from admit, without asking a guard, all values of their columns; each step on the way keeps this, for
the parts of a value can be put together again.
-/

namespace TreeCheck.Match

/-- Some outcome needs no guard. -/
def Sure (outs : List (Nat × Way)) : Prop := ∃ o ∈ outs, o.2.guarded = false

theorem Agree.sure_iff {xs ys : List (Nat × Way)} (agree : Agree xs ys) : Sure xs ↔ Sure ys := by
  have found (outs : List (Nat × Way)) :
      Sure outs ↔ ((outs.find? fun o => !(label o).2.2).map Prod.fst).isSome = true := by
    simp [Sure, label, Way.gist]
  rw [found, found, agree.chosen fun l => !l.2.2]

theorem choose_isSome {outs : List (Nat × Way)} (sure : Sure outs) (guard : Guard) :
    (choose guard outs).isSome = true := by
  obtain ⟨o, member, unguarded⟩ := sure
  rw [choose_eq_find?, Option.isSome_map, List.find?_isSome]
  exact ⟨o, member, by simp [unguarded]⟩

theorem sure_of_choose {outs : List (Nat × Way)}
    (chosen : (choose (fun _ _ => false) outs).isSome = true) : Sure outs := by
  rw [choose_eq_find?, Option.isSome_map, List.find?_isSome] at chosen
  obtain ⟨o, member, unguarded⟩ := chosen
  exact ⟨o, member, by simpa using unguarded⟩

abbrev Filled (ctx : Context) (cols : List Column) (values : List Value) : Prop :=
  List.Forall₂ (fun col x => HasType ctx x col.type) cols values

theorem filled_iff {ctx : Context} {cols : List Column} {values : List Value} :
    Filled ctx cols values ↔ List.Forall₂ (HasType ctx) values (cols.map Column.type) := by
  rw [List.forall₂_map_right_iff]
  exact ⟨fun filled => filled.flip, fun typed => typed.flip⟩

/-- Some row admits the values without asking a guard. -/
def Matrix.Admits (m : Matrix) (values : List Value) : Prop :=
  ∃ r ∈ m.rows, r.guarded = false ∧ ∃ w ∈ Shape.waysAll r.pats values, w.guarded = false

theorem Matrix.sure_iff (m : Matrix) (look : Path → Option Value) (values : List Value) :
    Sure (outcomes look values m.rows) ↔ m.Admits values := by
  constructor
  · rintro ⟨o, member, unguarded⟩
    obtain ⟨r, inside, way⟩ := List.mem_flatMap.mp member
    obtain ⟨w, matched, rfl⟩ := List.mem_map.mp way
    rw [Row.ways, cross_singleton] at matched
    obtain ⟨inner, known, rfl⟩ := List.mem_map.mp matched
    obtain ⟨first, later⟩ := Bool.or_eq_false_iff.mp unguarded
    exact ⟨r, inside, first, inner, known, later⟩
  · rintro ⟨r, inside, first, inner, known, later⟩
    refine ⟨(r.arm, Way.append ⟨gather look r.binds, r.guarded⟩ inner), ?_, ?_⟩
    · refine List.mem_flatMap.mpr ⟨r, inside, List.mem_map.mpr ⟨_, ?_, rfl⟩⟩
      rw [Row.ways, cross_singleton]
      exact List.mem_map_of_mem known
    · simp [Way.append, first, later]

/-- Every value of the columns is admitted. -/
def Matrix.AdmitsAll (ctx : Context) (m : Matrix) : Prop :=
  ∀ values, Filled ctx m.cols values → m.Admits values

theorem Matrix.spread_admits (m : Matrix) (values : List Value) :
    m.spread.Admits values ↔ m.Admits values := by
  rw [← m.sure_iff (fun _ => none) values, ← m.spread.sure_iff (fun _ => none) values]
  exact (m.spread_agree (fun _ => none) values).sure_iff.symm

theorem forall₂_append_left {α β : Type} {R : α → β → Prop} {a b : List α} {l : List β}
    (related : List.Forall₂ R (a ++ b) l) :
    ∃ front back, l = front ++ back ∧ List.Forall₂ R a front ∧ List.Forall₂ R b back := by
  refine ⟨l.take a.length, l.drop a.length, (List.take_append_drop _ _).symm, ?_, ?_⟩
  · simpa using List.forall₂_take a.length related
  · simpa using List.forall₂_drop a.length related

def lookBelow (path : Path) (x : Value) : Path → Option Value := fun p => x.at? (p.drop path.length)

theorem holds_lookBelow {ctx : Context} {col : Column} {x : Value} (typed : HasType ctx x col.type) :
    Holds ctx (lookBelow col.path x) col x :=
  ⟨fun q => by simp [lookBelow], typed⟩

section

variable {ctx : Context} {m : Matrix} {i : Nat} {col : Column}

def Parted (ctx : Context) (m : Matrix) (i : Nat) (col : Column) (sub : List Column)
    (change : Shape → Option (List Shape × List Extraction)) (x : Value) (parts : List Value) : Prop :=
  HasType ctx x col.type ∧ Filled ctx sub parts ∧
    ∀ s ∈ m.column i, Follows (lookBelow col.path x) change x parts s

theorem Matrix.splice_admits (fit : m.Fits ctx.decls false) (here : m.cols[i]? = some col)
    {look : Path → Option Value} {sub : List Column}
    {change : Shape → Option (List Shape × List Extraction)} {x : Value} {parts : List Value}
    (follows : ∀ s ∈ m.column i, Follows look change x parts s) {front : List Value}
    (sized : front.length = i) (back : List Value) :
    m.Admits (front ++ x :: back) ↔ (m.spliced i sub change).Admits (front ++ parts ++ back) := by
  rw [← m.sure_iff look, ← Matrix.sure_iff _ look]
  exact (Matrix.splice_agree fit here back sized follows).sure_iff

theorem Parted.admits_iff {sub : List Column} {change : Shape → Option (List Shape × List Extraction)}
    {x : Value} {parts : List Value} (parted : Parted ctx m i col sub change x parts)
    (fit : m.Fits ctx.decls false) (here : m.cols[i]? = some col) {front : List Value}
    (sized : front.length = i) (back : List Value) :
    m.Admits (front ++ x :: back) ↔ (m.spliced i sub change).Admits (front ++ parts ++ back) :=
  Matrix.splice_admits fit here parted.2.2 sized back

/-- If every value of a column goes to a branch that admits everything, everything is admitted. -/
theorem admitsAll_of_branches (fit : m.Fits ctx.decls false) (here : m.cols[i]? = some col)
    (branches : ∀ x, HasType ctx x col.type → ∃ sub change parts,
      Parted ctx m i col sub change x parts ∧ (m.spliced i sub change).AdmitsAll ctx) :
    m.AdmitsAll ctx := by
  intro values filled
  obtain ⟨front, x, back, rfl, sized, typed, replaced⟩ := forall₂_split filled here
  obtain ⟨sub, change, parts, parted, admits⟩ := branches x typed
  exact (parted.admits_iff fit here sized back).mpr (admits _ (replaced sub parts parted.2.1))

/-- If everything is admitted, so it is in a branch all of whose parts belong to values. -/
theorem admitsAll_branch (fit : m.Fits ctx.decls false) (here : m.cols[i]? = some col)
    {sub : List Column} {change : Shape → Option (List Shape × List Extraction)}
    (built : ∀ parts, Filled ctx sub parts → ∃ x, Parted ctx m i col sub change x parts)
    (admits : m.AdmitsAll ctx) : (m.spliced i sub change).AdmitsAll ctx := by
  intro values filled
  obtain ⟨rest, back, rfl, before, after⟩ := forall₂_append_left filled
  obtain ⟨front, parts, rfl, first, middle⟩ := forall₂_append_left before
  obtain ⟨x, parted⟩ := built parts middle
  have inside : i < m.cols.length := (List.getElem?_eq_some_iff.mp here).1
  have sized : front.length = i := by
    rw [← first.length_eq]
    simp
    omega
  refine (parted.admits_iff fit here sized back).mp (admits _ ?_)
  have whole : m.cols = m.cols.take i ++ col :: m.cols.drop (i + 1) := by
    obtain ⟨_, rfl⟩ := List.getElem?_eq_some_iff.mp here
    rw [← List.drop_eq_getElem_cons inside, List.take_append_drop]
  rw [whole]
  exact List.rel_append first (.cons parted.1 after)

theorem Holds.filled {look : Path → Option Value} {cols : List Column} {values : List Value}
    (placed : List.Forall₂ (Holds ctx look) cols values) : Filled ctx cols values :=
  placed.imp fun _ _ holds => holds.typed

theorem parted_open (fit : m.Fits ctx.decls false) (heads : ∀ s ∈ m.column i, s.isHead = true)
    (here : m.cols[i]? = some col) (opens : Opens ctx.decls col.type) {x : Value} (typed : HasType ctx x col.type) :
    Parted ctx m i col (Matrix.parts ctx.decls col) (openShape ctx.decls col) x (x.pieces col.type) := by
  have holds := holds_lookBelow typed
  exact ⟨typed, Holds.filled (parts_holds holds opens), fun s inColumn =>
    follows_open holds.paths holds.built opens (fit.column here inColumn) (heads s inColumn)⟩

/-- Taking a product apart keeps whether everything is admitted. -/
theorem admitsAll_expand (fit : m.Fits ctx.decls false) (heads : ∀ s ∈ m.column i, s.isHead = true)
    (here : m.cols[i]? = some col) (opens : Opens ctx.decls col.type) :
    (m.spliced i (Matrix.parts ctx.decls col) (openShape ctx.decls col)).AdmitsAll ctx ↔
      m.AdmitsAll ctx := by
  constructor
  · intro admits
    exact admitsAll_of_branches fit here fun x typed => ⟨_, _, _, parted_open fit heads here opens typed, admits⟩
  · refine admitsAll_branch fit here fun parts filled => ?_
    obtain ⟨x, built, rfl⟩ := exists_product opens (filled_iff.mp filled)
    exact ⟨x, parted_open fit heads here opens (hasType_iff_built.mpr built)⟩

theorem parted_pass (regular : ctx.decls.Regular) (fit : m.Fits ctx.decls false)
    (heads : ∀ s ∈ m.column i, s.isHead = true) (here : m.cols[i]? = some col) {test : Test}
    (suits : test.Suits ctx.decls col.type) {sub : List Column}
    (opened : test.columns ctx.decls col = .ok sub) {x : Value} (typed : HasType ctx x col.type)
    (accepted : test.accepts x = true) (sharp : test.Sharp (m.column i)) :
    Parted ctx m i col sub (passShape col test sub.length) x (x.parts.take test.arity) := by
  have holds := holds_lookBelow typed
  exact ⟨typed, Holds.filled (columns_holds regular holds suits accepted opened), fun s inColumn =>
    follows_pass regular holds.paths holds.built suits accepted sharp inColumn (fit.column here inColumn)
      (heads s inColumn) opened⟩

theorem parted_miss {x : Value} (typed : HasType ctx x col.type)
    (misses : ∀ s ∈ m.column i, s.isAny = false → s.ways x = []) :
    Parted ctx m i col [] (missShape col) x [] :=
  ⟨typed, .nil, fun s inColumn => follows_miss (holds_lookBelow typed).paths (misses s inColumn)⟩

/-- A switch loses no value and adds none: everything is admitted exactly when it is in each case, and
in what is left if some value passes no test. -/
theorem admitsAll_switch (regular : ctx.decls.Regular) (fit : m.Fits ctx.decls false)
    (heads : ∀ s ∈ m.column i, s.isHead = true) (here : m.cols[i]? = some col)
    (peopled : Peopled ctx col.type) {family : List Test × List Pattern}
    (covers : Covers ctx col.type (m.column i) family)
    (suits : ∀ test ∈ family.1, test.Suits ctx.decls col.type) :
    m.AdmitsAll ctx ↔
      (∀ test ∈ family.1, ∀ sub, m.specialize ctx.decls i test = .ok sub → sub.AdmitsAll ctx) ∧
      (family.2 ≠ [] → ∀ sub, m.without i = .ok sub → sub.AdmitsAll ctx) := by
  constructor
  · intro admits
    constructor
    · intro test member sub known
      obtain ⟨cols, opened, -, types⟩ := Test.columns_eq (suits test member)
      obtain rfl := Except.ok.inj ((Matrix.specialize_eq fit here opened).symm.trans known)
      refine admitsAll_branch fit here (fun parts filled => ?_) admits
      have typed : List.Forall₂ (HasType ctx) parts (test.types ctx.decls col.type) :=
        types ▸ filled_iff.mp filled
      obtain ⟨x, isTyped, accepted, rfl⟩ := covers.passed peopled test member parts typed
      exact ⟨x, parted_pass regular fit heads here (suits test member) opened isTyped accepted
        (covers.sharp x isTyped test member)⟩
    · intro shown sub known
      obtain rfl := Except.ok.inj ((Matrix.without_eq fit here).symm.trans known)
      refine admitsAll_branch fit here (fun parts filled => ?_) admits
      cases filled
      obtain ⟨x, typed, refused⟩ := covers.shown peopled shown
      exact ⟨x, parted_miss typed (covers.missed x typed refused).2⟩
  · rintro ⟨passed, missed⟩
    refine admitsAll_of_branches fit here fun x typed => ?_
    by_cases some : ∃ test ∈ family.1, test.accepts x = true
    · obtain ⟨test, member, accepted⟩ := some
      obtain ⟨cols, opened, -, -⟩ := Test.columns_eq (suits test member)
      exact ⟨cols, _, _, parted_pass regular fit heads here (suits test member) opened typed accepted
        (covers.sharp x typed test member), passed test member _ (Matrix.specialize_eq fit here opened)⟩
    · have refused : ∀ test ∈ family.1, test.accepts x = false := by
        intro test member
        simpa using fun accepted => some ⟨test, member, accepted⟩
      obtain ⟨shown, misses⟩ := covers.missed x typed refused
      exact ⟨[], _, _, parted_miss typed misses, missed shown _ (Matrix.without_eq fit here)⟩

/-- A row that tests nothing admits everything unless it is guarded. -/
theorem waysAll_untested {pats : List Shape} {values : List Value} (sized : pats.length = values.length)
    (all : ∀ s ∈ pats, s.isAny = true) : ∃ w ∈ Shape.waysAll pats values, w.guarded = false := by
  induction pats generalizing values with
  | nil => exact ⟨{}, by simp [Shape.waysAll], rfl⟩
  | cons s pats ih =>
    cases values with
    | nil => simp at sized
    | cons x values =>
      obtain ⟨w, member, unguarded⟩ := ih (by simpa using sized)
        fun s' member => all s' (by simp [member])
      have first := all s (by simp)
      cases s <;> simp [Shape.isAny] at first
      rename_i bind
      let own : Way := { env := bind.toList.map fun name => (name, x) }
      refine ⟨own.append w, mem_cross.mpr ⟨own, by simp [Shape.ways, own], w, member, rfl⟩, ?_⟩
      simp [Way.append, own, unguarded]

theorem Tree.failuresAll_eq_nil (cases : List Case) :
    Tree.failuresAll cases = [] ↔ ∀ c ∈ cases, c.tree.failures = [] := by
  induction cases with
  | nil => simp [Tree.failuresAll]
  | cons c cases ih =>
    obtain ⟨test, tree⟩ := c
    simp [Tree.failuresAll, ih, Case.tree]

theorem parts_inside (opens : Opens ctx.decls col.type) :
    ∀ part ∈ Matrix.parts ctx.decls col, part.type ∈ ctx.decls.inside col.type := by
  intro part member
  rcases opens with ⟨types, product⟩ | ⟨mutable, target, same⟩
  · have inside : part.type ∈ types := map_type_parts product ▸ List.mem_map_of_mem member
    obtain ⟨path, t⟩ := col
    cases t <;> simp [Decls.productTypes?] at product <;> subst product
    case unit => simp at inside
    case tuple => exact inside
    case struct => exact inside
  · obtain rfl : part = _ := List.mem_singleton.mp (by simpa [Matrix.parts, same] using member)
    simp [Decls.inside, same]

theorem columns_inside {test : Test} (suits : test.Suits ctx.decls col.type) {sub : List Column}
    (opened : test.columns ctx.decls col = .ok sub) : ∀ part ∈ sub, part.type ∈ ctx.decls.inside col.type := by
  intro part member
  obtain ⟨cols, opened', -, types⟩ := Test.columns_eq suits
  obtain rfl := Except.ok.inj (opened.symm.trans opened')
  have inside : part.type ∈ test.types ctx.decls col.type := types ▸ List.mem_map_of_mem member
  cases test with
  | variant v =>
    obtain ⟨name, args, d, same, known, declared⟩ := suits
    simp only [Test.types, same, known, Option.map_some, Option.getD_some] at inside
    simp only [same, Decls.inside, Decls.components, known]
    exact List.mem_flatMap.mpr ⟨v, declared, inside⟩
  | length count =>
    obtain ⟨element, same⟩ := suits
    simp only [Test.types, same] at inside
    simp [same, Decls.inside, List.eq_of_mem_replicate inside]
  | atLeast count front =>
    obtain ⟨⟨element, same⟩, -⟩ := suits
    simp only [Test.types, same] at inside
    simp [same, Decls.inside, List.eq_of_mem_replicate inside]
  | bool value => simp [Test.types] at inside
  | range low high => simp [Test.types] at inside
  | string value => simp [Test.types] at inside
  | float value => simp [Test.types] at inside

/-- What all columns have that go on and all that come in, all columns have after a step. -/
theorem spliced_forall {P : Column → Prop} {sub : List Column}
    {change : Shape → Option (List Shape × List Extraction)} (all : ∀ c ∈ m.cols, P c) (new : ∀ c ∈ sub, P c) :
    ∀ c ∈ (m.spliced i sub change).cols, P c := by
  intro c member
  rcases List.mem_append.mp member with before | after
  · rcases List.mem_append.mp before with first | middle
    · exact all c (List.mem_of_mem_take first)
    · exact new c middle
  · exact all c (List.mem_of_mem_drop after)

end

/-- A tree has no failure exactly when the matrix that it has grown from admits everything. -/
theorem Grown.failures_eq_nil {ctx : Context} (regular : ctx.decls.Regular) {m : Matrix}
    {frames : List Frame} {tree : Tree} (grown : Grown ctx false m frames tree)
    (peopled : ∀ col ∈ m.cols, Peopled ctx col.type) : tree.failures = [] ↔ m.AdmitsAll ctx := by
  induction grown with
  | @spread m frames tree fit next ih =>
    rw [ih peopled]
    exact forall_congr' fun values => imp_congr_right fun _ => m.spread_admits values
  | @expand m sub frames tree i arity col fit heads here product expanded next ih =>
    obtain ⟨rfl, -⟩ := Prod.mk.inj (Except.ok.inj ((Matrix.expand_eq fit here).symm.trans expanded))
    obtain ⟨s, inColumn, isProduct⟩ := product
    have opens := opens_of_isProduct (fit.column here inColumn) isProduct
    have inner : ∀ part ∈ Matrix.parts ctx.decls col, Peopled ctx part.type := fun part member =>
      (peopled col (List.mem_of_getElem? here)).inside (parts_inside opens part member)
    rw [ih (spliced_forall peopled inner), admitsAll_expand fit heads here opens]
  | @fail m frames witnesses empty shown =>
    obtain ⟨values, filled⟩ : ∃ values, Filled ctx m.cols values := by
      obtain ⟨values, typed⟩ : ∃ values, List.Forall₂ (HasType ctx) values (m.cols.map Column.type) := by
        refine exists_values fun t member => ?_
        obtain ⟨col, inside, rfl⟩ := List.mem_map.mp member
        exact (peopled col inside).self
      exact ⟨values, filled_iff.mpr typed⟩
    constructor
    · simp [Tree.failures]
    · intro admits
      obtain ⟨r, member, -⟩ := admits values filled
      simp [empty] at member
  | @leaf m frames first rest fit rows untested sure =>
    refine iff_of_true (by simp [Tree.failures, Tree.failuresOption]) fun values filled => ?_
    have member : first ∈ m.rows := by simp [rows]
    refine ⟨first, member, sure, waysAll_untested ?_ fun s inside => ?_⟩
    · rw [fit.width member, filled.length_eq]
    · simpa using List.findIdx?_eq_none_iff.mp untested s inside
  | @guarded m frames first rest tree fit rows untested unsure next ih =>
    rw [Tree.failures, Tree.failuresOption, ih peopled]
    refine forall_congr' fun values => imp_congr_right fun _ => ?_
    simp [Matrix.Admits, rows, unsure]
  | @switch m frames first rest i col family cases otherwise fit flat rows tested here switched tests
      missing passed missed ihPassed ihMissed =>
      have heads := flat.heads i
      have known := flat.family fit here switched
      have fits : ∀ s ∈ m.column i, Shape.Fits ctx.decls false s col.type :=
        fun s inColumn => fit.column here inColumn
      have suits := known.suits fits
      have own := peopled col (List.mem_of_getElem? here)
      have case (c : Case) (member : c ∈ cases) : ∃ sub, m.specialize ctx.decls i c.test = .ok sub ∧
          (c.tree.failures = [] ↔ sub.AdmitsAll ctx) := by
        have suited := suits c.test (tests ▸ List.mem_map_of_mem member)
        obtain ⟨cols, opened, -, -⟩ := Test.columns_eq suited
        have specialized := Matrix.specialize_eq fit here opened
        have inner := fun part member => own.inside (columns_inside suited opened part member)
        exact ⟨_, specialized, ihPassed c member _ specialized (spliced_forall peopled inner)⟩
      rw [admitsAll_switch regular fit heads here own (known.covers regular heads fits) suits,
        Tree.failures, List.append_eq_nil_iff, Tree.failuresAll_eq_nil, ← tests]
      refine and_congr ?_ ?_
      · constructor
        · intro all test member sub equal
          obtain ⟨c, inside, rfl⟩ := List.mem_map.mp member
          obtain ⟨sub', equal', verdict⟩ := case c inside
          obtain rfl := Except.ok.inj (equal'.symm.trans equal)
          exact verdict.mp (all c inside)
        · intro all c inside
          obtain ⟨sub, equal, verdict⟩ := case c inside
          exact verdict.mpr (all c.test (List.mem_map_of_mem inside) sub equal)
      · have without := Matrix.without_eq fit here
        cases other : otherwise with
        | none => simp [Tree.failuresOption, missing.mp other]
        | some tree =>
          have shown : family.2 ≠ [] := fun complete => by simp [missing.mpr complete] at other
          have verdict := ihMissed tree other _ without (spliced_forall peopled (by simp))
          simp only [Tree.failuresOption, verdict, without, Except.ok.injEq, forall_eq']
          exact ⟨fun admits _ => admits, fun admits => admits shown⟩

theorem ofArms_admitsAll {ctx : Context} (regular : ctx.decls.Regular) {type : Ty} {arms : List Arm}
    (fit : ∀ a ∈ arms, fits ctx.decls a.pattern type = true) :
    (Matrix.ofArms ctx.decls type arms).AdmitsAll ctx ↔
      ∀ v, HasType ctx v type → Sure (armOutcomes arms v) := by
  constructor
  · intro admits v typed
    rw [(armOutcomes_paired regular fit typed).agree.sure_iff, Matrix.sure_iff]
    exact admits [v] (.cons typed .nil)
  · intro sure values filled
    cases filled with
    | @cons _ v _ _ typed none =>
      cases none
      rw [← Matrix.sure_iff _ v.at?, ← (armOutcomes_paired regular fit typed).agree.sure_iff]
      exact sure v typed

/-- The verdict on well-formed arms is exact: they are exhaustive if and only if every value is matched
where all guards refuse; and then no walk ends without an arm, whatever the guards say. -/
theorem isExhaustive_iff_select (ctx : Context) (regular : ctx.decls.Regular) (type : Ty)
    (peopled : Peopled ctx type) (arms : List Arm)
    (formed : ∀ a ∈ arms, WellFormed ctx.decls type a.pattern) :
    ∃ d, compile ctx type arms = .ok d ∧
      (d.isExhaustive = true ↔
        ∀ v, HasType ctx v type → (select (fun _ _ => false) arms v).isSome = true) ∧
      (d.isExhaustive = true → ∀ v, HasType ctx v type → ∀ guard, (d.tree.walk guard v).isSome = true) := by
  obtain ⟨d, compiled, grown, walks⟩ := compile_agrees regular formed
  have verdict : d.isExhaustive = true ↔ ∀ v, HasType ctx v type → Sure (armOutcomes arms v) := by
    have every : ∀ col ∈ (Matrix.ofArms ctx.decls type arms).cols, Peopled ctx col.type := by
      simpa [Matrix.ofArms] using peopled
    rw [Decision.isExhaustive, List.isEmpty_iff, grown.failures_eq_nil regular every]
    exact ofArms_admitsAll regular fun a member => (formed a member).fits
  refine ⟨d, compiled, ?_, ?_⟩
  · rw [verdict]
    refine forall_congr' fun v => imp_congr_right fun _ => ?_
    rw [select_eq]
    exact ⟨fun sure => choose_isSome sure _, sure_of_choose⟩
  · intro exhaustive v typed guard
    obtain ⟨outs, agree, walk⟩ := walks v typed
    rw [walk]
    exact choose_isSome (agree.sure_iff.mp (verdict.mp exhaustive v typed)) guard

theorem optionType_peopled : Peopled optionContext optionType := by
  intro part reached
  have only : part = optionType ∨ part = .int .i32 := by
    induction reached with
    | refl => exact .inl rfl
    | tail _ member ih =>
      rcases ih with rfl | rfl
      · exact .inr (List.mem_singleton.mp member)
      · exact absurd member List.not_mem_nil
  rcases only with rfl | rfl
  · exact ⟨_, some_hasType⟩
  · exact ⟨.int 0, .int (by decide) (by decide)⟩

/-- Without its last arm the match would be incomplete; with it, even guards that all refuse leave no
value unmatched. -/
theorem isExhaustive_iff_select_option :
    optionContext.decls.Regular ∧ Peopled optionContext optionType ∧
    (∀ a ∈ optionArms, WellFormed optionContext.decls optionType a.pattern) ∧
    (∃ d, compile optionContext optionType optionArms = .ok d ∧
      (d.isExhaustive = true ↔ ∀ v, HasType optionContext v optionType →
        (select (fun _ _ => false) optionArms v).isSome = true)) ∧
    ∃ d, compile optionContext optionType optionArms.dropLast = .ok d ∧ d.isExhaustive = false := by
  refine ⟨optionContext_regular, optionType_peopled, optionArms_formed, ?_, ?_⟩
  · obtain ⟨d, compiled, verdict, -⟩ := isExhaustive_iff_select optionContext optionContext_regular
      optionType optionType_peopled optionArms optionArms_formed
    exact ⟨d, compiled, verdict⟩
  · obtain ⟨d, compiled, verdict, -⟩ := isExhaustive_iff_select optionContext optionContext_regular
      optionType optionType_peopled optionArms.dropLast
      fun a member => optionArms_formed a (List.mem_of_mem_dropLast member)
    refine ⟨d, compiled, Bool.eq_false_iff.mpr fun exhaustive => ?_⟩
    have none_hasType : HasType optionContext (.variant "None" [] []) optionType :=
      HasType.variant (v := ⟨"None", 0, [], []⟩) rfl (by simp) .nil
    have matched := verdict.mp exhaustive _ none_hasType
    exact absurd matched (by decide)

end TreeCheck.Match
