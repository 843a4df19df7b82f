import TreeCheck.Proofs.Match.Layers

/-!
The arms that the leaves of a tree select. A leaf of an arm is reached by some values for which the arm may be
selected, and an arm that may be selected for some values has a leaf.
-/

namespace TreeCheck.Match

/-! ### Arms that some guard selects -/

section Guards

/-- The guard that consents to an arm alone selects it. -/
def Selectable (arm : Nat) (outs : List (Nat × Way)) : Prop :=
  (outs.find? fun o => !o.2.guarded || o.1 == arm).map Prod.fst = some arm

variable {arm : Nat}

theorem Agree.selectable_iff {xs ys : List (Nat × Way)} (agree : Agree xs ys) :
    Selectable arm xs ↔ Selectable arm ys := by
  have same := agree.chosen fun l => !l.2.2 || l.1 == arm
  simp only [label, Way.gist] at same
  rw [Selectable, Selectable, same]

theorem selectable_cons {o : Nat × Way} {outs : List (Nat × Way)} :
    Selectable arm (o :: outs) ↔ o.1 = arm ∨ o.2.guarded = true ∧ Selectable arm outs := by
  rw [Selectable, Selectable, List.find?_cons]
  by_cases own : o.1 = arm
  · simp [own]
  · have other : (o.1 == arm) = false := by simpa using own
    cases o.2.guarded <;> simp [own, other]

/-- If any guard selects an arm, then the one that consents to it alone. -/
theorem selectable_iff_choose {outs : List (Nat × Way)} :
    Selectable arm outs ↔ ∃ guard, (choose guard outs).map Prod.fst = some arm := by
  constructor
  · intro selectable
    refine ⟨fun other _ => other == arm, ?_⟩
    rw [choose_eq_find?, Option.map_map]
    exact selectable
  · rintro ⟨guard, chosen⟩
    induction outs with
    | nil => simp [choose] at chosen
    | cons o outs ih =>
      obtain ⟨other, w⟩ := o
      rw [choose_cons] at chosen
      rw [selectable_cons]
      split at chosen
      next refused =>
        obtain ⟨guarded, -⟩ : w.guarded = true ∧ _ := by simpa using refused
        exact .inr ⟨guarded, ih chosen⟩
      next => exact .inl (by simpa using chosen)

/-- The outcomes of one row come before those of the rows after it. -/
theorem selectable_row {other : Nat} {ws : List Way} {outs : List (Nat × Way)} :
    Selectable arm (ws.map (fun w => (other, w)) ++ outs) ↔
      (other = arm ∧ ws ≠ []) ∨ ¬ Sure (ws.map fun w => (other, w)) ∧ Selectable arm outs := by
  induction ws with
  | nil => simp [Sure]
  | cons w ws ih =>
    have sure : Sure ((w :: ws).map fun w => (other, w)) ↔
        w.guarded = false ∨ Sure (ws.map fun w => (other, w)) := by simp [Sure]
    rw [List.map_cons, List.cons_append, selectable_cons, ih, ← List.map_cons, sure]
    by_cases own : other = arm
    · simp [own]
    · cases w.guarded <;> simp [own]

namespace Matrix

/-- A row of an arm matches the values, and no row before it admits them for sure. -/
def Selects (m : Matrix) (arm : Nat) (values : List Value) : Prop :=
  ∃ before r after, m.rows = before ++ r :: after ∧ r.arm = arm ∧ Shape.waysAll r.pats values ≠ [] ∧
    ¬ Matrix.Admits ⟨m.cols, before⟩ values

theorem admits_append {cols : List Column} {before after : List Row} {values : List Value} :
    Matrix.Admits ⟨cols, before ++ after⟩ values ↔
      Matrix.Admits ⟨cols, before⟩ values ∨ Matrix.Admits ⟨cols, after⟩ values := by
  simp [Admits, or_and_right, exists_or]

theorem not_admits_nil {cols : List Column} {values : List Value} : ¬ Matrix.Admits ⟨cols, []⟩ values := by
  simp [Admits]

theorem selects_cons {cols : List Column} {first : Row} {rest : List Row} {values : List Value} :
    Matrix.Selects ⟨cols, first :: rest⟩ arm values ↔
      (first.arm = arm ∧ Shape.waysAll first.pats values ≠ []) ∨
        ¬ Matrix.Admits ⟨cols, [first]⟩ values ∧ Matrix.Selects ⟨cols, rest⟩ arm values := by
  constructor
  · rintro ⟨before, r, after, rows, own, hit, free⟩
    cases before with
    | nil =>
      obtain ⟨rfl, -⟩ := List.cons.inj rows
      exact .inl ⟨own, hit⟩
    | cons other before =>
      obtain ⟨rfl, rfl⟩ := List.cons.inj rows
      have apart : ¬ (Matrix.Admits ⟨cols, [first]⟩ values ∨ Matrix.Admits ⟨cols, before⟩ values) :=
        mt admits_append.mpr free
      exact .inr ⟨fun sure => apart (.inl sure), before, r, after, rfl, own, hit, fun sure => apart (.inr sure)⟩
  · rintro (⟨own, hit⟩ | ⟨first_free, before, r, after, rows, own, hit, free⟩)
    · exact ⟨[], first, rest, rfl, own, hit, not_admits_nil⟩
    · refine ⟨first :: before, r, after, congrArg (first :: ·) rows, own, hit, fun sure => ?_⟩
      have either : Matrix.Admits ⟨cols, [first]⟩ values ∨ Matrix.Admits ⟨cols, before⟩ values := admits_append.mp sure
      exact either.elim first_free free

theorem not_selects_nil {cols : List Column} {values : List Value} : ¬ Matrix.Selects ⟨cols, []⟩ arm values := by
  rintro ⟨before, r, after, rows, -⟩
  simp at rows

theorem selects_iff (m : Matrix) (look : Path → Option Value) (values : List Value) :
    Selectable arm (outcomes look values m.rows) ↔ m.Selects arm values := by
  obtain ⟨cols, rows⟩ := m
  induction rows with
  | nil => exact iff_of_false (by simp [Selectable, outcomes]) not_selects_nil
  | cons r rows ih =>
    have sure : Sure ((r.ways look values).map fun w => (r.arm, w)) ↔ Matrix.Admits ⟨cols, [r]⟩ values := by
      rw [← Matrix.sure_iff ⟨cols, [r]⟩ look values]
      simp [outcomes]
    have hit : r.ways look values ≠ [] ↔ Shape.waysAll r.pats values ≠ [] := by
      rw [Row.ways, Ne, cross_eq_nil]
      simp
    rw [outcomes_cons, selectable_row, selects_cons, sure, hit]
    exact or_congr Iff.rfl (and_congr Iff.rfl ih)

theorem spread_selects (m : Matrix) (values : List Value) : m.spread.Selects arm values ↔ m.Selects arm values := by
  rw [← m.selects_iff fun _ => none, ← m.spread.selects_iff fun _ => none]
  exact (m.spread_agree (fun _ => none) values).selectable_iff.symm

end Matrix

theorem Traced.selects {m : Matrix} {i : Nat} {col : Column} {ctx : Context} (fit : m.Fits ctx.decls false)
    (here : m.cols[i]? = some col) {sub : List Column} {change : Shape → Option (List Shape × List Extraction)}
    {values values' : List Value} (traced : Traced (m.column i) i change values values') :
    m.Selects arm values ↔ (m.spliced i sub change).Selects arm values' := by
  obtain ⟨front, x, parts, back, look, rfl, rfl, sized, follows⟩ := traced
  rw [← m.selects_iff look, ← Matrix.selects_iff _ look]
  exact (Matrix.splice_agree fit here back sized follows).selectable_iff

/-- Some guard selects an arm for a value exactly when its row matches and no row before admits the value. -/
theorem exists_guard_iff {ctx : Context} (regular : ctx.decls.Regular) {type : Ty} {arms : List Arm}
    (fit : ∀ a ∈ arms, fits ctx.decls a.pattern type = true) {v : Value} (typed : HasType ctx v type) :
    (∃ guard, (select guard arms v).map Prod.fst = some arm) ↔
      (Matrix.ofArms ctx.decls type arms).Selects arm [v] := by
  rw [← Matrix.selects_iff _ v.at?, ← (armOutcomes_paired regular fit typed).agree.selectable_iff,
    selectable_iff_choose]
  simp only [select_eq]

end Guards

/-! ### Leaves -/

theorem Tree.mem_armsAll {arm : Nat} {cases : List Case} :
    arm ∈ Tree.armsAll cases ↔ ∃ c ∈ cases, arm ∈ c.tree.arms := by
  induction cases with
  | nil => simp [Tree.armsAll]
  | cons c cases ih =>
    obtain ⟨test, tree⟩ := c
    simp [Tree.armsAll, ih, Case.tree]

variable {ctx : Context} {ok : Shape → Ty → Bool} {lively : Ty → Prop} {level : Nat → Value → Ty → Prop}
variable {m : Matrix} {frames : List Frame} {tree : Tree} {arm : Nat}

/-- A row that tests nothing matches, and admits the values unless it is guarded. -/
theorem Row.untested_ways {r : Row} {values : List Value} (sized : r.pats.length = values.length)
    (untested : r.tested? = none) : ∃ w ∈ Shape.waysAll r.pats values, w.guarded = false := by
  refine waysAll_untested sized fun s inside => ?_
  simpa using List.findIdx?_eq_none_iff.mp untested s inside

theorem Matrix.probes_of_tested {decls : Decls} (sound : m.Sound decls ok) (flat : m.Flat) {first : Row}
    (member : first ∈ m.rows) {i : Nat} (tested : first.tested? = some i) {col : Column}
    (here : m.cols[i]? = some col) : ∃ s ∈ m.column i, s.Probes decls ok col.type := by
  obtain ⟨s, shape, tests⟩ := Row.mem_tested tested
  have inColumn : s ∈ m.column i := Matrix.mem_column.mpr ⟨first, member, shape⟩
  exact ⟨s, inColumn, sound.column here inColumn, flat.heads i s inColumn, tests⟩

theorem Grown.selects_of_arm (layers : Layers ctx ok lively level) (regular : ctx.decls.Regular)
    (grown : Grown ctx false m frames tree) (sound : m.Sound ctx.decls ok)
    (lives : ∀ col ∈ m.cols, lively col.type) (member : arm ∈ tree.arms) (n : Nat) :
    ∃ values, FilledBy (level n) m.cols values ∧ m.Selects arm values := by
  have filled (cols : List Column) (lives : ∀ col ∈ cols, lively col.type) :
      ∃ values, FilledBy (level n) cols values := by
    obtain ⟨values, typed⟩ : ∃ values, List.Forall₂ (level n) values (cols.map Column.type) := by
      refine exists_values fun t inside => ?_
      obtain ⟨col, own, rfl⟩ := List.mem_map.mp inside
      exact layers.exist (lives col own) n
    exact ⟨values, filledBy_iff.mpr typed⟩
  induction grown with
  | @spread m frames tree fit next ih =>
    obtain ⟨values, placed, selects⟩ := ih (Matrix.spread_sound sound) lives member
    exact ⟨values, placed, (m.spread_selects values).mp selects⟩
  | @expand m sub frames tree i arity col fit heads here product expanded next ih =>
    obtain ⟨rfl, -⟩ := Prod.mk.inj (Except.ok.inj ((Matrix.expand_eq fit here).symm.trans expanded))
    obtain ⟨s, inColumn, isProduct⟩ := product
    have opens := opens_of_isProduct (fit.column here inColumn) isProduct
    have own := lives col (List.mem_of_getElem? here)
    have inner : ∀ part ∈ Matrix.parts ctx.decls col, lively part.type := fun part new =>
      layers.inside own _ (parts_inside opens part new)
    obtain ⟨values', placed', selects⟩ := ih (Matrix.expand_sound layers.wild sound heads here)
      (spliced_forall lives inner) member
    obtain ⟨values, placed, traced⟩ := layers.open_up here
      (fun s inColumn => ⟨fit.column here inColumn, heads s inColumn⟩) opens placed'
    exact ⟨values, placed, (traced.selects fit here).mpr selects⟩
  | fail => simp [Tree.arms] at member
  | @leaf m frames first rest fit rows untested sure =>
    obtain rfl : arm = first.arm := by simpa [Tree.arms, Tree.armsOption] using member
    obtain ⟨values, placed⟩ := filled m.cols lives
    have sized : first.pats.length = values.length := by rw [fit.width (by simp [rows]), placed.length_eq]
    obtain ⟨w, hit, -⟩ := Row.untested_ways sized untested
    exact ⟨values, placed, [], first, rest, rows, rfl, List.ne_nil_of_mem hit, Matrix.not_admits_nil⟩
  | @guarded m frames first rest tree fit rows untested unsure next ih =>
    obtain ⟨cols, all⟩ := m
    obtain rfl : all = first :: rest := rows
    rcases List.mem_cons.mp (by simpa [Tree.arms, Tree.armsOption] using member) with rfl | later
    · obtain ⟨values, placed⟩ := filled cols lives
      have sized : first.pats.length = values.length := by rw [fit.width (by simp), placed.length_eq]
      obtain ⟨w, hit, -⟩ := Row.untested_ways sized untested
      exact ⟨values, placed, Matrix.selects_cons.mpr (.inl ⟨rfl, List.ne_nil_of_mem hit⟩)⟩
    · obtain ⟨values, placed, selects⟩ := ih (fun r inside => sound r (by simp [inside])) lives later
      refine ⟨values, placed, Matrix.selects_cons.mpr (.inr ⟨?_, selects⟩)⟩
      simp [Matrix.Admits, unsure]
  | @switch m frames first rest i col family cases otherwise fit flat rows tested here switched tests
      missing passed missed ihPassed ihMissed =>
      have heads := flat.heads i
      have known := flat.family fit here switched
      have fits : ∀ s ∈ m.column i, Shape.Fits ctx.decls false s col.type := fun s inColumn => fit.column here inColumn
      have suit : ∀ s ∈ m.column i, Shape.Fits ctx.decls false s col.type ∧ s.isHead = true :=
        fun s inColumn => ⟨fits s inColumn, heads s inColumn⟩
      have spans : Spans ctx (level n) col.type (m.column i) family := known.spans regular heads fits
      have own := lives col (List.mem_of_getElem? here)
      obtain ⟨key, -, probes⟩ := Matrix.probes_of_tested sound flat (by simp [rows]) tested here
      have alive := layers.alive probes own n
      rcases List.mem_append.mp (by simpa [Tree.arms] using member) with inCases | inRest
      · obtain ⟨c, inside, below⟩ := Tree.mem_armsAll.mp inCases
        have inFamily : c.test ∈ family.1 := tests ▸ List.mem_map_of_mem inside
        have suits := known.suits fits c.test inFamily
        obtain ⟨sub, opened, -, -⟩ := Test.columns_eq suits
        have inner := fun part new => layers.inside own _ (columns_inside suits opened part new)
        obtain ⟨values', placed', selects⟩ := ihPassed c inside _ (Matrix.specialize_eq fit here opened)
          (Matrix.specialize_sound layers.wild regular sound here suits opened) (spliced_forall lives inner) below
        obtain ⟨values, placed, traced⟩ := layers.pass_up here suit regular spans alive inFamily suits opened placed'
        exact ⟨values, placed, (traced.selects fit here).mpr selects⟩
      · cases other : otherwise with
        | none => simp [other, Tree.armsOption] at inRest
        | some tree =>
          have shown : family.2 ≠ [] := fun complete => by simp [missing.mpr complete] at other
          obtain ⟨values', placed', selects⟩ := ihMissed tree other _ (Matrix.without_eq fit here)
            (Matrix.without_sound sound) (spliced_forall lives (List.forall_mem_nil _))
            (by simpa [other, Tree.armsOption] using inRest)
          obtain ⟨values, placed, traced⟩ := layers.miss_up here spans alive shown placed'
          exact ⟨values, placed, (traced.selects fit here).mpr selects⟩

/-- What may be selected for some values, of a level that is high enough, is selected by a leaf. -/
theorem Grown.arm_of_selects (layers : Layers ctx ok lively level) (regular : ctx.decls.Regular)
    (grown : Grown ctx false m frames tree) (sound : m.Sound ctx.decls ok) {n : Nat} (light : m.weight ≤ n)
    {values : List Value} (placed : FilledBy (level n) m.cols values) (selects : m.Selects arm values) :
    arm ∈ tree.arms := by
  induction grown generalizing n values with
  | @spread m frames tree fit next ih =>
    exact ih (Matrix.spread_sound sound) (Nat.le_trans m.spread_weight light) placed
      ((m.spread_selects values).mpr selects)
  | @expand m sub frames tree i arity col fit heads here product expanded next ih =>
    obtain ⟨rfl, -⟩ := Prod.mk.inj (Except.ok.inj ((Matrix.expand_eq fit here).symm.trans expanded))
    have lighter := (m.expand_weight ctx.decls i col).2 product
    obtain ⟨s, inColumn, isProduct⟩ := product
    have opens := opens_of_isProduct (fit.column here inColumn) isProduct
    obtain ⟨k, rfl⟩ : ∃ k, n = k + 1 := ⟨n - 1, by omega⟩
    obtain ⟨values', placed', traced⟩ := layers.open_down here
      (fun s inColumn => ⟨fit.column here inColumn, heads s inColumn⟩) opens
      ((sound.column here inColumn).probes isProduct) placed
    exact ih (Matrix.expand_sound layers.wild sound heads here) (by omega) placed'
      ((traced.selects fit here).mp selects)
  | @fail m frames witnesses empty shown =>
    obtain ⟨before, r, after, rows, -⟩ := selects
    simp [empty] at rows
  | @leaf m frames first rest fit rows untested sure =>
    obtain ⟨cols, all⟩ := m
    obtain rfl : all = first :: rest := rows
    have sized : first.pats.length = values.length := by rw [fit.width (by simp), placed.length_eq]
    rcases Matrix.selects_cons.mp selects with ⟨rfl, -⟩ | ⟨free, -⟩
    · simp [Tree.arms]
    · exact absurd ⟨first, by simp, sure, Row.untested_ways sized untested⟩ free
  | @guarded m frames first rest tree fit rows untested unsure next ih =>
    obtain ⟨cols, all⟩ := m
    obtain rfl : all = first :: rest := rows
    rw [Tree.arms, Tree.armsOption]
    rcases Matrix.selects_cons.mp selects with ⟨rfl, -⟩ | ⟨-, later⟩
    · exact List.mem_cons_self
    · refine List.mem_cons_of_mem _ (ih (fun r inside => sound r (by simp [inside])) ?_ placed later)
      have sum : Matrix.weight ⟨cols, first :: rest⟩ = first.weight + Row.weightAll rest := rfl
      show Row.weightAll rest ≤ n
      omega
  | @switch m frames first rest i col family cases otherwise fit flat rows tested here switched tests
      missing passed missed ihPassed ihMissed =>
      have heads := flat.heads i
      have known := flat.family fit here switched
      have fits : ∀ s ∈ m.column i, Shape.Fits ctx.decls false s col.type := fun s inColumn => fit.column here inColumn
      have suits := known.suits fits
      obtain ⟨key, inColumn, probes⟩ := Matrix.probes_of_tested sound flat (by simp [rows]) tested here
      have column : ∃ s ∈ m.column i, s.isAny = false := ⟨key, inColumn, probes.tests⟩
      have heavy := (m.without_weight i col).2 column
      obtain ⟨k, rfl⟩ : ∃ k, n = k + 1 := ⟨n - 1, by omega⟩
      have spans : Spans ctx (level k) col.type (m.column i) family := known.spans regular heads fits
      rw [Tree.arms, List.mem_append]
      rcases layers.switch_down here (fun s inColumn => ⟨fits s inColumn, heads s inColumn⟩) regular spans suits
        probes placed with ⟨test, member, sub, values', opened, placed', traced⟩ | ⟨shown, values', placed', traced⟩
      · obtain ⟨c, inside, rfl⟩ := List.mem_map.mp (tests ▸ member)
        have lighter := (m.specialize_weight i col c.test sub).2 column
        refine .inl (Tree.mem_armsAll.mpr ⟨c, inside, ?_⟩)
        exact ihPassed c inside _ (Matrix.specialize_eq fit here opened)
          (Matrix.specialize_sound layers.wild regular sound here (suits c.test member) opened) (by omega) placed'
          ((traced.selects fit here).mp selects)
      · cases other : otherwise with
        | none => exact absurd (missing.mp other) shown
        | some tree =>
          refine .inr ?_
          exact ihMissed tree other _ (Matrix.without_eq fit here) (Matrix.without_sound sound) (by omega) placed'
            ((traced.selects fit here).mp selects)

end TreeCheck.Match
