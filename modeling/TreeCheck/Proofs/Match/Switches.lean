import TreeCheck.Proofs.Match.Selection

/-!
The switches of a decision tree. The tests of a family exclude one another, so a switch takes a branch
whatever the order of its cases, and one without a branch for other values has a case for every value
of its type. The columns of a matrix lie apart in the value and only move further into it as a tree
grows, so no part is tested twice on the way to a leaf.
-/

namespace TreeCheck.Match

/-! ### Tests that exclude one another -/

/-- No value passes both tests. -/
def Test.Apart (a b : Test) : Prop := ∀ x, ¬ (a.accepts x = true ∧ b.accepts x = true)

theorem once_pairwise {α : Type} (text : α → String) (list : List α) :
    (once text list).Pairwise fun a b => text a ≠ text b := by
  induction list using List.reverseRecOn with
  | nil => exact .nil
  | append_singleton list a ih =>
    rw [once_concat]
    split
    next => exact ih
    next fresh =>
      refine List.pairwise_append.mpr ⟨ih, List.pairwise_singleton _ _, fun kept member last inside => ?_⟩
      obtain rfl := List.mem_singleton.mp inside
      exact fun same => fresh (List.any_eq_true.mpr ⟨kept, member, by simpa using same⟩)

/-- Segments that tile a run of integers stand in their order. -/
theorem Segment.Tiles.ascending {high low : Int} {segments : List Segment}
    (tiles : Segment.Tiles high low segments) : segments.Pairwise fun s s' => s.high < s'.low := by
  induction segments generalizing low with
  | nil => exact .nil
  | cons s rest ih =>
    obtain ⟨rfl, -, later⟩ := tiles
    refine List.pairwise_cons.mpr ⟨fun s' member => ?_, ih later⟩
    have above := (later.inside member).1
    omega

theorem Segment.all_ascending (column : List Shape) (low high : Int) :
    (Segment.all column low high).Pairwise fun s s' => s.high < s'.low := by
  have sorted := Segment.distinct_sorted (Segment.points_sorted column low (high + 1))
  have some : Segment.distinct (Segment.points column low (high + 1)) ≠ [] :=
    List.ne_nil_of_mem ((Segment.mem_distinct _).mpr (Segment.mem_points.mpr (.inl rfl)))
  have tiles := Segment.pieces_tile column sorted (List.head?_eq_some_head some)
    (List.getLast?_eq_some_getLast some)
  exact (Segment.merge_tiles tiles).ascending

namespace Family

theorem bools_apart (column : List Shape) : (bools column).1.Pairwise Test.Apart := by
  obtain ⟨occurs, -, equal⟩ := bools_eq column
  rw [equal, List.pairwise_map]
  refine List.Pairwise.filter _ ?_
  refine List.pairwise_pair.mpr fun x => ?_
  cases x <;> simp [Test.accepts]

theorem variants_apart {d : EnumDef} (named : (d.variants.map Variant.name).Nodup) (column : List Shape) :
    (variants d column).1.Pairwise Test.Apart := by
  obtain ⟨occurs, -, equal⟩ := variants_eq d column
  rw [equal, List.pairwise_map]
  refine List.Pairwise.filter _ ((List.pairwise_map.mp named).imp fun differ x => ?_)
  cases x <;> simp only [Test.accepts, Bool.false_eq_true, false_and, not_false_eq_true]
  simp only [beq_iff_eq]
  exact fun both => differ (both.1.symm.trans both.2)

theorem integers_apart (column : List Shape) (bounds : Int × Int) :
    (integers column bounds).1.Pairwise Test.Apart := by
  refine List.Pairwise.filterMap _ (fun s s' before test kept test' kept' x => ?_)
    (Segment.all_ascending column bounds.1 bounds.2)
  obtain rfl : Test.range s.low s.high = test := by simpa using (Option.ite_none_left_eq_some.mp kept).2
  obtain rfl : Test.range s'.low s'.high = test' := by simpa using (Option.ite_none_left_eq_some.mp kept').2
  cases x <;> simp [Test.accepts]
  omega

theorem constants_apart {column : List Shape} (strings : ∀ s ∈ column, ∀ value, s ≠ .float value) :
    (constants column).1.Pairwise Test.Apart := by
  have texts : (constants column).1.Pairwise fun a b => a.text ≠ b.text := once_pairwise Test.text _
  refine texts.imp_of_mem fun member member' differ x both => differ ?_
  obtain ⟨value, rfl, -⟩ := (mem_constants strings).mp member
  obtain ⟨value', rfl, -⟩ := (mem_constants strings).mp member'
  cases x <;> simp [Test.accepts] at both
  rw [both.1.symm.trans both.2]

theorem lengths_apart (column : List Shape) : (lengths column).1.Pairwise Test.Apart := by
  obtain ⟨longest, longestOpen, -, equal, -⟩ := lengths_eq column
  rw [equal]
  refine List.pairwise_append.mpr ⟨?_, List.pairwise_singleton _ _, fun test member last inside x => ?_⟩
  · refine List.pairwise_map.mpr (List.nodup_range.imp fun differ x => ?_)
    cases x <;> simp [Test.accepts]
    omega
  · obtain ⟨count, short, rfl⟩ := List.mem_map.mp member
    obtain rfl := List.mem_singleton.mp inside
    have fewer := List.mem_range.mp short
    cases x <;> simp [Test.accepts]
    omega

end Family

/-- The tests of a family for a column without float literals exclude one another. -/
theorem FamilyOf.apart {decls : Decls} {options : Options} (regular : decls.Regular) {t : Ty}
    {column : List Shape} {family : List Test × List Pattern}
    (known : FamilyOf decls options false t column family)
    (fits : ∀ s ∈ column, Shape.Fits decls false s t) : family.1.Pairwise Test.Apart := by
  cases known with
  | bools => exact Family.bools_apart column
  | variants same declared => exact Family.variants_apart (regular.variants _ (enum?_mem declared)) column
  | integers => exact Family.integers_apart column _
  | constants =>
    refine Family.constants_apart fun s member value float => ?_
    have suited := fits s member
    simp [float, Shape.Fits] at suited
  | lengths => exact Family.lengths_apart column
  | untested => exact .nil

section

variable {cases : List Case} {x : Value}

/-- Of cases that exclude one another the one found is the one that accepts. -/
theorem find?_eq_some_iff (apart : (cases.map Case.test).Pairwise Test.Apart) {c : Case} :
    (cases.find? fun c => c.test.accepts x) = some c ↔ c ∈ cases ∧ c.test.accepts x = true := by
  refine ⟨fun found => ⟨List.mem_of_find?_eq_some found, by simpa using List.find?_some found⟩, ?_⟩
  rintro ⟨member, accepted⟩
  induction cases with
  | nil => simp at member
  | cons head rest ih =>
    obtain ⟨first, later⟩ := List.pairwise_cons.mp apart
    rw [List.find?_cons]
    rcases List.mem_cons.mp member with rfl | inside
    · simp [accepted]
    · have refused : head.test.accepts x = false := by
        simpa using fun passed => first _ (List.mem_map_of_mem inside) x ⟨passed, accepted⟩
      simpa [refused] using ih later inside

theorem find?_perm {cases' : List Case} (apart : (cases.map Case.test).Pairwise Test.Apart)
    (same : cases'.Perm cases) :
    (cases'.find? fun c => c.test.accepts x) = cases.find? fun c => c.test.accepts x := by
  have apart' : (cases'.map Case.test).Pairwise Test.Apart :=
    (same.map Case.test).symm.pairwise apart fun first y both => first y both.symm
  refine Option.ext fun c => ?_
  rw [find?_eq_some_iff apart', find?_eq_some_iff apart, same.mem_iff]

/-- The branch that a switch takes does not depend on the order of its cases. -/
theorem Tree.walk_perm {cases' : List Case} (apart : (cases.map Case.test).Pairwise Test.Apart)
    (same : cases'.Perm cases) (path : Path) (type : Ty) (otherwise : Option Tree) (guard : Guard)
    (v : Value) :
    (Tree.switch path type cases' otherwise).walk guard v =
      (Tree.switch path type cases otherwise).walk guard v := by
  simp only [walk, walkCases_eq, find?_perm apart same]

theorem countP_eq_one (apart : (cases.map Case.test).Pairwise Test.Apart)
    (some : ∃ c ∈ cases, c.test.accepts x = true) : (cases.countP fun c => c.test.accepts x) = 1 := by
  induction cases with
  | nil => simp at some
  | cons head rest ih =>
    obtain ⟨first, later⟩ := List.pairwise_cons.mp apart
    rw [List.countP_cons]
    by_cases passed : head.test.accepts x = true
    · have none : (rest.countP fun c => c.test.accepts x) = 0 :=
        List.countP_eq_zero.mpr fun c inside accepted =>
          first _ (List.mem_map_of_mem inside) x ⟨passed, accepted⟩
      simp [none, passed]
    · obtain ⟨c, member, accepted⟩ := some
      rcases List.mem_cons.mp member with rfl | inside
      · exact absurd accepted passed
      · simp [ih later ⟨c, inside, accepted⟩, passed]

end

/-! ### The nodes of a tree -/

namespace Tree

/-- One tree goes on with another. -/
inductive Leads : Tree → Tree → Prop
  | case {path : Path} {type : Ty} {cases : List Case} {otherwise : Option Tree} {c : Case}
      (member : c ∈ cases) : Leads (.switch path type cases otherwise) c.tree
  | otherwise {path : Path} {type : Ty} {cases : List Case} {tree : Tree} :
      Leads (.switch path type cases (some tree)) tree
  | next {arm : Nat} {bindings : List Extraction} {tree : Tree} :
      Leads (.leaf arm bindings (some tree)) tree

/-- A walk with a value goes on from one tree to another. -/
inductive Moves (guard : Guard) (v : Value) : Tree → Tree → Prop
  | passed {path : Path} {type : Ty} {cases : List Case} {otherwise : Option Tree} {part : Value} {c : Case}
      (here : v.at? path = some part) (found : (cases.find? fun c => c.test.accepts part) = some c) :
      Moves guard v (.switch path type cases otherwise) c.tree
  | missed {path : Path} {type : Ty} {cases : List Case} {tree : Tree} {part : Value}
      (here : v.at? path = some part) (none : (cases.find? fun c => c.test.accepts part) = none) :
      Moves guard v (.switch path type cases (some tree)) tree
  | refused {arm : Nat} {bindings : List Extraction} {tree : Tree}
      (denied : guard arm (extract v bindings) = false) :
      Moves guard v (.leaf arm bindings (some tree)) tree

theorem Moves.leads {guard : Guard} {v : Value} {tree next : Tree} (moved : Moves guard v tree next) :
    Leads tree next := by
  cases moved with
  | passed here found => exact .case (List.mem_of_find?_eq_some found)
  | missed => exact .otherwise
  | refused => exact .next

theorem Moves.walk_eq {guard : Guard} {v : Value} {tree next : Tree} (moved : Moves guard v tree next) :
    tree.walk guard v = next.walk guard v := by
  cases moved with
  | passed here found => simp [walk, here, walkCases_eq, found]
  | missed here none => simp [walk, here, walkCases_eq, none, walkOption]
  | refused denied => simp [walk, denied]

end Tree

/-! ### Columns that lie apart -/

/-- No column lies inside another. -/
def Separate (cols : List Column) : Prop :=
  cols.Pairwise fun a b => ¬ a.path <+: b.path ∧ ¬ b.path <+: a.path

/-- The columns are one step further into a column, each by a step of its own. -/
def Extends (col : Column) (sub : List Column) : Prop :=
  ∃ steps : List Step, steps.Nodup ∧ sub.map Column.path = steps.map fun s => col.path ++ [s]

theorem extends_mapIdx {α : Type} (col : Column) (list : List α) (step : Nat → α → Step) (type : α → Ty)
    (differ : ∀ i a j b, step i a = step j b → i = j) :
    Extends col (list.mapIdx fun i a => ⟨col.path ++ [step i a], type a⟩) := by
  refine ⟨list.mapIdx step, ?_, ?_⟩
  · refine List.nodup_iff_getElem?_ne_getElem?.mpr fun i j before inside => ?_
    rw [List.length_mapIdx] at inside
    have earlier : i < list.length := Nat.lt_trans before inside
    simp only [List.getElem?_mapIdx, List.getElem?_eq_getElem inside, List.getElem?_eq_getElem earlier,
      Option.map_some, ne_eq, Option.some.injEq]
    exact fun same => Nat.ne_of_lt before (differ _ _ _ _ same)
  · apply List.ext_getElem?
    intro i
    simp [Function.comp_def]

theorem parts_extends (decls : Decls) (col : Column) : Extends col (Matrix.parts decls col) := by
  simp only [Matrix.parts]
  split
  · exact extends_mapIdx col _ (fun i _ => .element i) id fun _ _ _ _ same => Step.element.inj same
  · exact extends_mapIdx col _ (fun i f => .field i f.name) Field.type fun _ _ _ _ same =>
      (Step.field.inj same).1
  · exact ⟨[.target], List.nodup_singleton _, rfl⟩
  · exact ⟨[], .nil, rfl⟩

theorem columns_extends {decls : Decls} {col : Column} {test : Test} {sub : List Column}
    (opened : test.columns decls col = .ok sub) : Extends col sub := by
  have items (element : Ty) (count : Nat) : Extends col (Test.items col.path element count) := by
    refine ⟨(List.range count).map .item, ?_, by simp [Test.items, Function.comp_def]⟩
    exact List.nodup_range.map fun _ _ same => Step.item.inj same
  have none : Extends col [] := ⟨[], .nil, rfl⟩
  cases test <;> simp only [Test.columns] at opened
  case variant v =>
    split at opened
    · split at opened
      · obtain rfl := Except.ok.inj opened
        exact extends_mapIdx col _ (fun i _ => .payload v.name i) id fun _ _ _ _ same =>
          (Step.payload.inj same).2
      · simp at opened
    · simp at opened
  case length count =>
    split at opened
    · exact Except.ok.inj opened ▸ items _ count
    · simp at opened
  case atLeast count front =>
    split at opened
    · exact Except.ok.inj opened ▸ items _ front
    · simp at opened
  all_goals exact Except.ok.inj opened ▸ none

/-- Columns that come in place of others lie inside them, and apart if those did. -/
structure Finer (cols cols' : List Column) : Prop where
  inside : ∀ c' ∈ cols', ∃ c ∈ cols, c.path <+: c'.path
  apart : Separate cols → Separate cols'

theorem Finer.refl (cols : List Column) : Finer cols cols :=
  ⟨fun c member => ⟨c, member, List.prefix_refl _⟩, id⟩

theorem Finer.trans {cols cols' cols'' : List Column} (first : Finer cols cols')
    (second : Finer cols' cols'') : Finer cols cols'' where
  inside c'' member := by
    obtain ⟨c', member', below⟩ := second.inside c'' member
    obtain ⟨c, member'', above⟩ := first.inside c' member'
    exact ⟨c, member'', above.trans below⟩
  apart separate := second.apart (first.apart separate)

section

variable {cols sub : List Column} {i : Nat} {col : Column}

theorem Extends.inside (further : Extends col sub) {c : Column} (member : c ∈ sub) :
    ∃ s, c.path = col.path ++ [s] := by
  obtain ⟨steps, -, paths⟩ := further
  have known : c.path ∈ sub.map Column.path := List.mem_map_of_mem member
  rw [paths] at known
  obtain ⟨s, -, same⟩ := List.mem_map.mp known
  exact ⟨s, same.symm⟩

theorem Extends.separate (further : Extends col sub) : Separate sub := by
  obtain ⟨steps, nodup, paths⟩ := further
  have apart : (sub.map Column.path).Pairwise fun p q => ¬ p <+: q ∧ ¬ q <+: p := by
    rw [paths, List.pairwise_map]
    refine nodup.imp fun differ => ⟨fun below => differ ?_, fun below => differ ?_⟩
    · simpa using (List.prefix_append_right_inj _).mp below
    · simpa [eq_comm] using (List.prefix_append_right_inj _).mp below
  exact List.pairwise_map.mp apart

/-- What lies apart from a column lies apart from what is one step further. -/
theorem apart_step {p q : Path} (s : Step) (apart : ¬ p <+: q ∧ ¬ q <+: p) :
    ¬ p <+: q ++ [s] ∧ ¬ q ++ [s] <+: p := by
  constructor
  · intro below
    rcases List.prefix_concat_iff.mp below with rfl | before
    · exact apart.2 (List.prefix_append q [s])
    · exact apart.1 before
  · exact fun below => apart.2 ((List.prefix_append q [s]).trans below)

/-- A column is replaced by columns that are one step further into it. -/
theorem Extends.finer (further : Extends col sub) (here : cols[i]? = some col) :
    Finer cols (cols.take i ++ sub ++ cols.drop (i + 1)) := by
  have around (c : Column) (member : c ∈ cols.take i ∨ c ∈ cols.drop (i + 1)) : c ∈ cols :=
    member.elim List.mem_of_mem_take List.mem_of_mem_drop
  refine ⟨fun c member => ?_, fun separate => ?_⟩
  · rcases List.mem_append.mp member with before | behind
    · rcases List.mem_append.mp before with front | new
      · exact ⟨c, around c (.inl front), List.prefix_refl _⟩
      · obtain ⟨s, path⟩ := further.inside new
        exact ⟨col, List.mem_of_getElem? here, path ▸ List.prefix_append col.path [s]⟩
    · exact ⟨c, around c (.inr behind), List.prefix_refl _⟩
  · obtain ⟨front, back, rfl, rfl⟩ := split_at here
    obtain ⟨before, rest, apart⟩ := List.pairwise_append.mp separate
    obtain ⟨first, behind⟩ := List.pairwise_cons.mp rest
    have whole : Separate (front ++ (sub ++ back)) := by
      refine List.pairwise_append.mpr ⟨before, List.pairwise_append.mpr ⟨further.separate, behind, ?_⟩, ?_⟩
      · intro c new c' later
        obtain ⟨s, path⟩ := further.inside new
        exact path ▸ (apart_step s (first c' later).symm).symm
      · intro c earlier c' member
        rcases List.mem_append.mp member with new | later
        · obtain ⟨s, path⟩ := further.inside new
          exact path ▸ apart_step s (apart c earlier col List.mem_cons_self)
        · exact apart c earlier c' (List.mem_cons_of_mem _ later)
    simpa [List.drop_append, List.drop_eq_nil_of_le] using whole

/-- No column that is left reaches up to the one that was replaced. -/
theorem Extends.leaves (further : Extends col sub) (here : cols[i]? = some col) (separate : Separate cols) :
    ∀ c ∈ cols.take i ++ sub ++ cols.drop (i + 1), ¬ c.path <+: col.path := by
  obtain ⟨front, back, rfl, rfl⟩ := split_at here
  obtain ⟨-, rest, apart⟩ := List.pairwise_append.mp separate
  intro c member
  have places : c ∈ front ∨ c ∈ sub ∨ c ∈ back := by
    simpa [List.drop_append, List.drop_eq_nil_of_le] using member
  rcases places with earlier | new | later
  · exact (apart c earlier col List.mem_cons_self).1
  · obtain ⟨s, path⟩ := further.inside new
    intro above
    have longer := above.length_le
    simp [path] at longer
  · exact ((List.pairwise_cons.mp rest).1 c later).2

end

/-! ### What holds at a switch -/

/-- The columns that come in place of others when products are taken apart. -/
inductive Unfolds (decls : Decls) : List Column → List Column → Prop
  | refl (cols : List Column) : Unfolds decls cols cols
  | expand {cols cols' : List Column} {i : Nat} {col : Column} (here : cols[i]? = some col)
      (opens : Opens decls col.type)
      (next : Unfolds decls (cols.take i ++ Matrix.parts decls col ++ cols.drop (i + 1)) cols') :
      Unfolds decls cols cols'

theorem Unfolds.finer {decls : Decls} {cols cols' : List Column} (unfolds : Unfolds decls cols cols') :
    Finer cols cols' := by
  induction unfolds with
  | refl cols => exact .refl cols
  | expand here opens next ih => exact ((parts_extends decls _).finer here).trans ih

theorem Unfolds.placed {ctx : Context} {look : Path → Option Value} {cols cols' : List Column}
    (unfolds : Unfolds ctx.decls cols cols') {values : List Value}
    (placed : List.Forall₂ (Holds ctx look) cols values) :
    ∃ values', List.Forall₂ (Holds ctx look) cols' values' := by
  induction unfolds generalizing values with
  | refl => exact ⟨values, placed⟩
  | expand here opens next ih =>
    obtain ⟨front, x, back, -, -, holds, replaced⟩ := forall₂_split placed here
    exact ih (replaced _ _ (parts_holds holds opens))

section

variable {ctx : Context} {m : Matrix} {frames : List Frame}

/-- What a switch has grown from, once products were taken apart. -/
structure Switched (ctx : Context) (floats : Bool) (cols : List Column) (m : Matrix) (i : Nat)
    (frames : List Frame) (family : List Test × List Pattern) (path : Path) (type : Ty) (cases : List Case)
    (otherwise : Option Tree) : Prop where
  unfolds : Unfolds ctx.decls cols m.cols
  fit : m.Fits ctx.decls floats
  flat : m.Flat
  here : m.cols[i]? = some ⟨path, type⟩
  known : FamilyOf ctx.decls ctx.options floats type (m.column i) family
  tests : cases.map Case.test = family.1
  missing : otherwise = none ↔ family.2 = []
  passed : ∀ c ∈ cases, ∀ sub, m.specialize ctx.decls i c.test = .ok sub →
    Grown ctx floats sub (⟨i, c.test.arity, .test type c.test⟩ :: frames) c.tree
  missed : ∀ tree, otherwise = some tree → ∀ sub, m.without i = .ok sub →
    Grown ctx floats sub (⟨i, 0, .missing family.2⟩ :: frames) tree

theorem Grown.switch_inv {floats : Bool} {path : Path} {type : Ty} {cases : List Case}
    {otherwise : Option Tree} (grown : Grown ctx floats m frames (.switch path type cases otherwise)) :
    ∃ m' i frames' family, Switched ctx floats m.cols m' i frames' family path type cases otherwise := by
  generalize same : Tree.switch path type cases otherwise = tree at grown
  induction grown with
  | spread fit next ih => exact ih same
  | @expand m sub frames tree i arity col fit heads here product expanded next ih =>
    obtain ⟨m', j, frames', family, switched⟩ := ih same
    obtain ⟨rfl, -⟩ := Prod.mk.inj (Except.ok.inj ((Matrix.expand_eq fit here).symm.trans expanded))
    obtain ⟨s, inColumn, isProduct⟩ := product
    have opens := opens_of_isProduct (fit.column here inColumn) isProduct
    exact ⟨m', j, frames', family, { switched with unfolds := .expand here opens switched.unfolds }⟩
  | @switch m frames first rest i col family cases otherwise fit flat rows tested here switched tests
      missing passed missed =>
      obtain ⟨rfl, rfl, rfl, rfl⟩ := Tree.switch.inj same
      exact ⟨m, i, frames, family, .refl _, fit, flat, here, flat.family fit here switched, tests, missing,
        passed, missed⟩
  | fail | leaf | guarded => cases same

/-- What the rest of a guarded arm has grown from, once products were taken apart. -/
theorem Grown.leaf_inv {floats : Bool} {arm : Nat} {bindings : List Extraction} {tree : Tree}
    (grown : Grown ctx floats m frames (.leaf arm bindings (some tree))) :
    ∃ m' frames', Unfolds ctx.decls m.cols m'.cols ∧ Grown ctx floats m' frames' tree := by
  generalize same : Tree.leaf arm bindings (some tree) = leaf at grown
  induction grown with
  | spread fit next ih => exact ih same
  | @expand m sub frames tree i arity col fit heads here product expanded next ih =>
    obtain ⟨m', frames', unfolds, below⟩ := ih same
    obtain ⟨rfl, -⟩ := Prod.mk.inj (Except.ok.inj ((Matrix.expand_eq fit here).symm.trans expanded))
    obtain ⟨s, inColumn, isProduct⟩ := product
    have opens := opens_of_isProduct (fit.column here inColumn) isProduct
    exact ⟨m', frames', .expand here opens unfolds, below⟩
  | @guarded m frames first rest tree fit rows untested unsure next =>
    obtain ⟨-, -, below⟩ := Tree.leaf.inj same
    obtain rfl := Option.some.inj below
    exact ⟨{ m with rows := rest }, frames, .refl _, next⟩
  | fail | leaf | switch => cases same

section

variable {floats : Bool} {cols : List Column} {i : Nat} {family : List Test × List Pattern} {path : Path}
  {type : Ty} {cases : List Case} {otherwise : Option Tree}

theorem Switched.fits (switched : Switched ctx floats cols m i frames family path type cases otherwise) :
    ∀ s ∈ m.column i, Shape.Fits ctx.decls floats s type :=
  fun _ inColumn => switched.fit.column switched.here inColumn

theorem Switched.apart (regular : ctx.decls.Regular)
    (switched : Switched ctx false cols m i frames family path type cases otherwise) :
    (cases.map Case.test).Pairwise Test.Apart :=
  switched.tests ▸ switched.known.apart regular switched.fits

/-- A case of a switch has grown from the columns that its test opens up. -/
theorem Switched.case (switched : Switched ctx floats cols m i frames family path type cases otherwise)
    {c : Case} (member : c ∈ cases) : c.test.Suits ctx.decls type ∧
      ∃ sub m' frames', c.test.columns ctx.decls ⟨path, type⟩ = .ok sub ∧
        m'.cols = m.cols.take i ++ sub ++ m.cols.drop (i + 1) ∧ Grown ctx floats m' frames' c.tree := by
  have inFamily : c.test ∈ family.1 := switched.tests ▸ List.mem_map_of_mem member
  have suits : c.test.Suits ctx.decls (⟨path, type⟩ : Column).type :=
    switched.known.suits switched.fits c.test inFamily
  obtain ⟨sub, opened, -⟩ := Test.columns_eq suits
  have specialized := Matrix.specialize_eq switched.fit switched.here opened
  exact ⟨suits, sub, _, _, opened, rfl, switched.passed c member _ specialized⟩

/-- What a switch goes on with for other values has grown from the columns beside its own. -/
theorem Switched.rest {tree : Tree}
    (switched : Switched ctx floats cols m i frames family path type cases (some tree)) :
    ∃ m' frames', m'.cols = m.cols.take i ++ [] ++ m.cols.drop (i + 1) ∧ Grown ctx floats m' frames' tree :=
  ⟨_, _, rfl, switched.missed tree rfl _ (Matrix.without_eq switched.fit switched.here)⟩

end

def Tree.tested? : Tree → Option Path
  | .switch path .. => some path
  | _ => none

/-- What a tree goes on with has grown from columns further inside the value, and no longer from one
that leads to what the tree tests. -/
theorem Grown.goes {floats : Bool} {tree next : Tree} (grown : Grown ctx floats m frames tree)
    (leads : tree.Leads next) : ∃ m' frames', Grown ctx floats m' frames' next ∧ Finer m.cols m'.cols ∧
      ∀ path, tree.tested? = some path → Separate m.cols → ∀ c ∈ m'.cols, ¬ c.path <+: path := by
  have replaced {m₁ : Matrix} {i : Nat} {path : Path} {type : Ty} {sub : List Column}
      (unfolds : Unfolds ctx.decls m.cols m₁.cols) (here : m₁.cols[i]? = some ⟨path, type⟩)
      (further : Extends ⟨path, type⟩ sub) {m' : Matrix} {frames' : List Frame}
      (columns : m'.cols = m₁.cols.take i ++ sub ++ m₁.cols.drop (i + 1))
      (below : Grown ctx floats m' frames' next) :
      ∃ m' frames', Grown ctx floats m' frames' next ∧ Finer m.cols m'.cols ∧
        ∀ q, some path = some q → Separate m.cols → ∀ c ∈ m'.cols, ¬ c.path <+: q := by
    refine ⟨m', frames', below, columns ▸ unfolds.finer.trans (further.finer here), ?_⟩
    rintro q ⟨⟩ separate
    exact columns ▸ further.leaves here (unfolds.finer.apart separate)
  cases leads with
  | case member =>
    obtain ⟨m₁, i, frames₁, family, switched⟩ := grown.switch_inv
    obtain ⟨-, sub, m', frames', opened, columns, below⟩ := switched.case member
    exact replaced switched.unfolds switched.here (columns_extends opened) columns below
  | otherwise =>
    obtain ⟨m₁, i, frames₁, family, switched⟩ := grown.switch_inv
    obtain ⟨m', frames', columns, below⟩ := switched.rest
    exact replaced switched.unfolds switched.here ⟨[], .nil, rfl⟩ columns below
  | next =>
    obtain ⟨m', frames', unfolds, below⟩ := grown.leaf_inv
    exact ⟨m', frames', below, unfolds.finer, fun path tested => by cases tested⟩

/-- Every node of a tree has grown, and from columns that lie apart. -/
theorem Grown.node {floats : Bool} {tree node : Tree} (grown : Grown ctx floats m frames tree)
    (separate : Separate m.cols) (reached : Relation.ReflTransGen Tree.Leads tree node) :
    ∃ m' frames', Grown ctx floats m' frames' node ∧ Finer m.cols m'.cols ∧ Separate m'.cols := by
  induction reached with
  | refl => exact ⟨m, frames, grown, .refl _, separate⟩
  | tail _ leads ih =>
    obtain ⟨m₁, frames₁, grown₁, finer₁, separate₁⟩ := ih
    obtain ⟨m₂, frames₂, grown₂, finer₂, -⟩ := grown₁.goes leads
    exact ⟨m₂, frames₂, grown₂, finer₁.trans finer₂, finer₂.apart separate₁⟩

theorem Grown.tested_inside {floats : Bool} {tree : Tree} (grown : Grown ctx floats m frames tree)
    {path : Path} (tested : tree.tested? = some path) : ∃ c ∈ m.cols, c.path <+: path := by
  cases tree with
  | switch path' type cases otherwise =>
    obtain rfl := Option.some.inj tested
    obtain ⟨m', i, frames', family, switched⟩ := grown.switch_inv
    exact switched.unfolds.finer.inside _ (List.mem_of_getElem? switched.here)
  | leaf => cases tested
  | fail => cases tested

/-- No part of a value is tested twice along a way down a tree. -/
theorem Grown.tests_once {floats : Bool} {tree later : Tree} (grown : Grown ctx floats m frames tree)
    (separate : Separate m.cols) (below : Relation.TransGen Tree.Leads tree later) {path : Path}
    (tested : tree.tested? = some path) : later.tested? ≠ some path := by
  obtain ⟨next, leads, reached⟩ := Relation.TransGen.head'_iff.mp below
  obtain ⟨m₁, frames₁, grown₁, finer₁, leaves⟩ := grown.goes leads
  obtain ⟨m₂, frames₂, grown₂, finer₂, -⟩ := grown₁.node (finer₁.apart separate) reached
  intro again
  obtain ⟨c, member, above⟩ := grown₂.tested_inside again
  obtain ⟨c₁, member₁, above₁⟩ := finer₂.inside c member
  exact leaves path tested separate c₁ member₁ (above₁.trans above)

/-- The columns of what a walk goes on with hold parts of the value. -/
theorem Grown.moves (regular : ctx.decls.Regular) {floats : Bool} {guard : Guard} {v : Value}
    {tree next : Tree} (grown : Grown ctx floats m frames tree) {values : List Value}
    (placed : List.Forall₂ (Holds ctx v.at?) m.cols values) (moved : tree.Moves guard v next) :
    ∃ m' frames' values', Grown ctx floats m' frames' next ∧
      List.Forall₂ (Holds ctx v.at?) m'.cols values' := by
  cases moved with
  | passed reached found =>
    obtain ⟨m₁, i, frames₁, family, switched⟩ := grown.switch_inv
    obtain ⟨values₁, placed₁⟩ := switched.unfolds.placed placed
    obtain ⟨front, x, back, rfl, -, holds, replaced⟩ := forall₂_split placed₁ switched.here
    obtain rfl := Option.some.inj (holds.here.symm.trans reached)
    obtain ⟨suits, sub, m', frames', opened, columns, below⟩ :=
      switched.case (List.mem_of_find?_eq_some found)
    have accepted := by simpa using List.find?_some found
    exact ⟨m', frames', _, below, columns ▸ replaced _ _ (columns_holds regular holds suits accepted opened)⟩
  | missed =>
    obtain ⟨m₁, i, frames₁, family, switched⟩ := grown.switch_inv
    obtain ⟨values₁, placed₁⟩ := switched.unfolds.placed placed
    obtain ⟨front, x, back, rfl, -, -, replaced⟩ := forall₂_split placed₁ switched.here
    obtain ⟨m', frames', columns, below⟩ := switched.rest
    exact ⟨m', frames', _, below, columns ▸ replaced _ _ .nil⟩
  | refused =>
    obtain ⟨m', frames', unfolds, below⟩ := grown.leaf_inv
    obtain ⟨values', placed'⟩ := unfolds.placed placed
    exact ⟨m', frames', values', below, placed'⟩

theorem Grown.walked (regular : ctx.decls.Regular) {floats : Bool} {guard : Guard} {v : Value}
    {tree node : Tree} (grown : Grown ctx floats m frames tree) {values : List Value}
    (placed : List.Forall₂ (Holds ctx v.at?) m.cols values)
    (reached : Relation.ReflTransGen (Tree.Moves guard v) tree node) :
    ∃ m' frames' values', Grown ctx floats m' frames' node ∧
      List.Forall₂ (Holds ctx v.at?) m'.cols values' := by
  induction reached with
  | refl => exact ⟨m, frames, values, grown, placed⟩
  | tail _ moved ih =>
    obtain ⟨m₁, frames₁, values₁, grown₁, placed₁⟩ := ih
    exact grown₁.moves regular placed₁ moved

/-- A switch that a value reaches finds a part of its type where it looks. -/
theorem Grown.part {floats : Bool} {v : Value} {path : Path} {type : Ty} {cases : List Case}
    {otherwise : Option Tree} (grown : Grown ctx floats m frames (.switch path type cases otherwise))
    {values : List Value} (placed : List.Forall₂ (Holds ctx v.at?) m.cols values) :
    ∃ x, v.at? path = some x ∧ HasType ctx x type := by
  obtain ⟨m', i, frames', family, switched⟩ := grown.switch_inv
  obtain ⟨values', placed'⟩ := switched.unfolds.placed placed
  obtain ⟨front, x, back, -, -, holds, -⟩ := forall₂_split placed' switched.here
  exact ⟨x, holds.here, holds.typed⟩

/-- Without a branch for other values, every value of the type passes the test of a case. -/
theorem Switched.total (regular : ctx.decls.Regular) {cols : List Column} {i : Nat}
    {family : List Test × List Pattern} {path : Path} {type : Ty} {cases : List Case}
    (switched : Switched ctx false cols m i frames family path type cases none) {x : Value}
    (typed : HasType ctx x type) : ∃ c ∈ cases, c.test.accepts x = true := by
  have covers := switched.known.covers regular (switched.flat.heads i) switched.fits
  by_contra refused
  simp only [not_exists, not_and, Bool.not_eq_true] at refused
  refine (covers.missed x typed fun test member => ?_).1 (switched.missing.mp rfl)
  obtain ⟨c, inside, rfl⟩ := List.mem_map.mp (switched.tests ▸ member)
  exact refused c inside

end

/-- Well-formed arms are compiled to a tree of deterministic switches. No value passes two cases of a
switch, so their order does not matter; a switch without a branch for other values has exactly one case
for every value of its type; a value that reaches a switch has a part of that type where the switch
looks; and nothing below a switch looks there again. -/
theorem compile_switches (ctx : Context) (regular : ctx.decls.Regular) (type : Ty) (arms : List Arm)
    (formed : ∀ a ∈ arms, WellFormed ctx.decls type a.pattern) :
    ∃ d, compile ctx type arms = .ok d ∧ ∀ path part cases otherwise,
      Relation.ReflTransGen Tree.Leads d.tree (.switch path part cases otherwise) →
        (cases.map Case.test).Pairwise Test.Apart ∧
        (∀ cases' : List Case, cases'.Perm cases → ∀ guard v,
          (Tree.switch path part cases' otherwise).walk guard v =
            (Tree.switch path part cases otherwise).walk guard v) ∧
        (otherwise = none → ∀ x, HasType ctx x part → (cases.countP fun c => c.test.accepts x) = 1) ∧
        (∀ guard v, HasType ctx v type →
          Relation.ReflTransGen (Tree.Moves guard v) d.tree (.switch path part cases otherwise) →
            ∃ x, v.at? path = some x ∧ HasType ctx x part) ∧
        ∀ later, Relation.TransGen Tree.Leads (.switch path part cases otherwise) later →
          later.tested? ≠ some path := by
  obtain ⟨d, compiled, grown⟩ := compile_eq regular type arms
    (ofArms_fits fun a member => Or.inr (formed a member).fits)
  have separate : Separate (Matrix.ofArms ctx.decls type arms).cols := List.pairwise_singleton _ _
  refine ⟨d, compiled, fun path part cases otherwise reached => ?_⟩
  obtain ⟨m, frames, grown', -, separate'⟩ := grown.node separate reached
  obtain ⟨m', i, frames', family, switched⟩ := grown'.switch_inv
  have apart := switched.apart regular
  refine ⟨apart, fun cases' same guard v => Tree.walk_perm apart same path part otherwise guard v, ?_, ?_, ?_⟩
  · rintro rfl x typed
    exact countP_eq_one apart (switched.total regular typed)
  · intro guard v typed moved
    have placed : List.Forall₂ (Holds ctx v.at?) (Matrix.ofArms ctx.decls type arms).cols [v] :=
      .cons ⟨fun _ => rfl, typed⟩ .nil
    obtain ⟨m₁, frames₁, values, grown₁, placed₁⟩ := grown.walked regular placed moved
    exact grown₁.part placed₁
  · exact fun later below => grown'.tests_once separate' below rfl

/-- The tree of two arms for an optional number is a switch that accepts a number in exactly one case. -/
theorem compile_switches_option :
    optionContext.decls.Regular ∧
    (∀ a ∈ optionArms.tail, WellFormed optionContext.decls optionType a.pattern) ∧
    HasType optionContext (.variant "Some" [] [.int 7]) optionType ∧
    ∃ d cases, compile optionContext optionType optionArms.tail = .ok d ∧
      d.tree = .switch [] optionType cases none ∧ (cases.map Case.test).Pairwise Test.Apart ∧
      (cases.countP fun c => c.test.accepts (.variant "Some" [] [.int 7])) = 1 := by
  have formed : ∀ a ∈ optionArms.tail, WellFormed optionContext.decls optionType a.pattern :=
    fun a member => optionArms_formed a (List.mem_of_mem_tail member)
  obtain ⟨cases, tree⟩ : ∃ cases, (compile optionContext optionType optionArms.tail).map Decision.tree =
      .ok (.switch [] optionType cases none) := ⟨_, rfl⟩
  obtain ⟨d, compiled, each⟩ :=
    compile_switches optionContext optionContext_regular optionType optionArms.tail formed
  rw [compiled] at tree
  have root : d.tree = .switch [] optionType cases none := Except.ok.inj tree
  obtain ⟨apart, -, total, -, -⟩ := each [] optionType cases none (root ▸ .refl)
  exact ⟨optionContext_regular, formed, some_hasType, d, cases, compiled, root, apart,
    total rfl _ some_hasType⟩

end TreeCheck.Match
