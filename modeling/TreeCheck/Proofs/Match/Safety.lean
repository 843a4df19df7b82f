import TreeCheck.Proofs.Match.Calls
import TreeCheck.Proofs.Match.Reachable
import TreeCheck.Proofs.Match.Witnesses

/-!
Compilation of any arms is safe. Whatever the patterns are, every matrix that compilation or the search
for useful rows leads to has one shape for each column and type, and the frames lead back to the matched
value. So no operation fails, and every failure of the tree has a witness.
-/

namespace TreeCheck.Match

open Relation (ReflTransGen)

/-! ### Frames -/

namespace Frame

/-- The number of columns that frames lead back to. -/
def back : List Frame → Nat → Nat
  | [], width => width
  | f :: rest, width => back rest (width - f.arity + 1)

variable {decls : Decls}

/-- The patterns for values that pass no test are not none. -/
def Shows (f : Frame) : Prop := f.form ≠ .missing []

theorem build_ne_nil {f : Frame} (shows : f.Shows) {args built : List Pattern}
    (equal : build decls args f.form = .ok built) : built ≠ [] := by
  unfold Shows at shows
  cases form : f.form with
  | product type =>
    rw [form] at equal
    obtain ⟨p, -, last⟩ := bind_ok.mp equal
    obtain rfl := Except.ok.inj last
    simp
  | test type test =>
    rw [form] at equal
    obtain ⟨p, -, last⟩ := bind_ok.mp equal
    obtain rfl := Except.ok.inj last
    simp
  | missing patterns =>
    rw [form] at equal shows
    obtain rfl := Except.ok.inj equal
    simpa using shows

theorem undo_ne_nil {f : Frame} (shows : f.Shows) {vector : List Pattern} {out : List (List Pattern)}
    (equal : f.undo decls vector = .ok out) : out ≠ [] := by
  by_cases short : vector.length < f.col + f.arity
  · simp [undo, short, throw, throwThe, MonadExceptOf.throw, bind, Except.bind] at equal
  · simp only [undo, short, if_false] at equal
    obtain ⟨built, known, last⟩ := bind_ok.mp equal
    obtain rfl := Except.ok.inj last
    simpa using build_ne_nil shows known

theorem undoAll_ne_nil {f : Frame} (shows : f.Shows) {vectors out : List (List Pattern)}
    (some : vectors ≠ []) (equal : f.undoAll decls vectors = .ok out) : out ≠ [] := by
  cases vectors with
  | nil => exact absurd rfl some
  | cons vector rest =>
    obtain ⟨first, known, later⟩ := bind_ok.mp equal
    obtain ⟨others, -, last⟩ := bind_ok.mp later
    obtain rfl := Except.ok.inj last
    simp [undo_ne_nil shows known]

/-- Going back from some vectors yields vectors as wide as the columns at the start. -/
theorem unwind_ne_nil {frames : List Frame} {width : Nat} (framed : Framed decls frames width)
    (shows : ∀ f ∈ frames, f.Shows) {vectors out : List (List Pattern)}
    (sized : ∀ v ∈ vectors, v.length = width) (some : vectors ≠ [])
    (equal : unwind decls frames vectors = .ok out) :
    out ≠ [] ∧ ∀ v ∈ out, v.length = back frames width := by
  induction frames generalizing width vectors with
  | nil =>
    obtain rfl := Except.ok.inj equal
    exact ⟨some, sized⟩
  | cons f rest ih =>
    obtain ⟨sound, later⟩ := framed
    obtain ⟨undone, known, lengths⟩ := undoAll_eq sound sized
    obtain ⟨undone', known', last⟩ := bind_ok.mp equal
    obtain rfl := Except.ok.inj (known.symm.trans known')
    have kept : undone.take limit ≠ [] := by
      have := undoAll_ne_nil (shows f List.mem_cons_self) some known
      simpa [List.take_eq_nil_iff, limit] using this
    exact ih later (fun g member => shows g (List.mem_cons_of_mem f member))
      (fun v member => lengths v (List.mem_of_mem_take member)) kept last

theorem witnesses_ne_nil {frames : List Frame} {width : Nat} (framed : Framed decls frames width)
    (shows : ∀ f ∈ frames, f.Shows) (single : back frames width = 1) {ws : List Pattern}
    (equal : witnesses decls frames width = .ok ws) : ws ≠ [] := by
  obtain ⟨out, unwound, last⟩ := bind_ok.mp equal
  obtain rfl := Except.ok.inj last
  have sized : ∀ v ∈ [List.replicate width (Pattern.wildcard default)], v.length = width := by simp
  obtain ⟨some, lengths⟩ := unwind_ne_nil framed shows sized (by simp) unwound
  obtain ⟨v, rest, rfl⟩ := List.exists_cons_of_ne_nil some
  have wide := lengths v List.mem_cons_self
  rw [single] at wide
  obtain ⟨p, rfl⟩ := List.length_eq_one_iff.mp wide
  simp

end Frame

/-! ### Stages -/

variable {ctx : Context} {decls : Decls}

/-- The matrix has one shape for each column, of the kind that the type of the column prescribes, and
the frames lead back from its columns to the one matched value. -/
structure Stage.Safe (decls : Decls) (s : Stage) : Prop where
  fits : s.1.Fits decls true
  framed : Framed decls s.2 s.1.cols.length
  single : Frame.back s.2 s.1.cols.length = 1
  shows : ∀ f ∈ s.2, f.Shows

/-- The column has a family, each of whose tests opens up as many columns as it says. -/
def Context.Measured (ctx : Context) (m : Matrix) (i : Nat) : Prop :=
  ∃ col family, m.cols[i]? = some col ∧ m.family ctx.decls ctx.options i = .ok family ∧
    ∀ test ∈ family.1, ∃ sub, test.columns ctx.decls col = .ok sub ∧ sub.length = test.arity

theorem Matrix.Normal.flat {m : Matrix} {floats : Bool} (normal : m.Normal) (fit : m.Fits decls floats) :
    m.Flat := by
  obtain ⟨spread, none⟩ := normal
  have flat := Matrix.spread_flat fit (spread.symm ▸ none)
  rwa [spread] at flat

theorem Context.measured_of_flat {m : Matrix} {i : Nat} (fit : m.Fits ctx.decls true)
    (heads : ∀ s ∈ m.column i, s.isHead = true) (flat : ∀ s ∈ m.column i, s.isProduct = false)
    (inside : i < m.cols.length) : ctx.Measured m i := by
  have here := List.getElem?_eq_getElem inside
  obtain ⟨family, switched, known⟩ := Matrix.family_eq ctx.options fit here heads flat
  refine ⟨m.cols[i], family, here, switched, ?_⟩
  intro test member
  have suits := known.suits (fun s inColumn => fit.column here inColumn) test member
  obtain ⟨sub, opened, sized, -⟩ := Test.columns_eq suits
  exact ⟨sub, opened, sized⟩

namespace Stage.Safe

variable {m : Matrix} {frames : List Frame} {i : Nat} {col : Column}

theorem spread (safe : Safe decls (m, frames)) : Safe decls (m.spread, frames) :=
  ⟨Matrix.spread_fits safe.fits, safe.framed, safe.single, safe.shows⟩

theorem fall (safe : Safe decls (m, frames)) {first : Row} {rest : List Row}
    (rows : m.rows = first :: rest) : Safe decls ({ m with rows := rest }, frames) := by
  refine ⟨?_, safe.framed, safe.single, safe.shows⟩
  intro r member
  exact safe.fits r (by rw [rows]; exact List.mem_cons_of_mem first member)

/-- A column may be replaced if its frame leads back from the new ones. -/
theorem replace (safe : Safe decls (m, frames)) (here : m.cols[i]? = some col) {f : Frame}
    {sub : List Column} {change : Shape → Option (List Shape × List Extraction)}
    (fits : (m.spliced i sub change).Fits decls true) (arity : f.arity = sub.length)
    (sound : ∀ width, i + sub.length ≤ width → f.Sound decls width) (shows : f.Shows) :
    Safe decls (m.spliced i sub change, f :: frames) := by
  refine ⟨fits, Framed.splice safe.framed here arity sound, ?_, List.forall_mem_cons.mpr ⟨shows, safe.shows⟩⟩
  have inside : i < m.cols.length := (List.getElem?_eq_some_iff.mp here).1
  have width : (m.spliced i sub change).cols.length - f.arity + 1 = m.cols.length := by
    simp only [Matrix.spliced, List.length_append, List.length_take, List.length_drop]
    omega
  show Frame.back frames ((m.spliced i sub change).cols.length - f.arity + 1) = 1
  rw [width]
  exact safe.single

theorem expand (safe : Safe decls (m, frames)) (heads : ∀ s ∈ m.column i, s.isHead = true)
    (here : m.cols[i]? = some col) {sub : Matrix} {arity : Nat}
    (expanded : m.expand decls i = .ok (sub, arity)) :
    Safe decls (sub, ⟨i, arity, .product col.type⟩ :: frames) := by
  obtain ⟨rfl, rfl⟩ := Prod.mk.inj (Except.ok.inj ((Matrix.expand_eq safe.fits here).symm.trans expanded))
  apply safe.replace here (Matrix.expand_fits safe.fits heads here) rfl
  · exact fun width wide => sound_product decls col wide
  · simp [Frame.Shows]

theorem test (safe : Safe decls (m, frames)) (regular : decls.Regular) (here : m.cols[i]? = some col)
    {test : Test} (suits : test.Suits decls col.type) {sub : Matrix}
    (passed : m.specialize decls i test = .ok sub) :
    Safe decls (sub, ⟨i, test.arity, .test col.type test⟩ :: frames) := by
  obtain ⟨cols, opened, sized, -⟩ := Test.columns_eq suits
  obtain rfl := Except.ok.inj ((Matrix.specialize_eq safe.fits here opened).symm.trans passed)
  apply safe.replace here (Matrix.specialize_fits regular safe.fits here suits opened) sized.symm
  · exact fun width wide => sound_test suits (sized ▸ wide)
  · simp [Frame.Shows]

theorem miss (safe : Safe decls (m, frames)) {patterns : List Pattern} (missing : patterns ≠ [])
    {sub : Matrix} (missed : m.without i = .ok sub) :
    Safe decls (sub, ⟨i, 0, .missing patterns⟩ :: frames) := by
  obtain ⟨col, here, rfl⟩ := Matrix.without_ok missed
  apply safe.replace here (Matrix.without_fits safe.fits here) rfl
  · exact fun width wide => sound_missing patterns (by simpa using wide)
  · simpa [Frame.Shows] using missing

/-- Every step of a compilation leads from a safe stage to a safe one. -/
theorem advance (regular : ctx.decls.Regular) {s t : Stage} (safe : Safe ctx.decls s)
    (step : ctx.Advances s t) : Safe ctx.decls t := by
  cases step with
  | spread changes => exact safe.spread
  | @expand m sub frames i arity col spread product here expanded =>
    have heads := Matrix.spread_column safe.fits i
    rw [spread] at heads
    exact safe.expand heads here expanded
  | fall normal rows untested unsure => exact safe.fall rows
  | @test m sub frames first rest i col family test normal rows tested here switched member passed =>
    have known := (normal.flat safe.fits).family safe.fits here switched
    have suits := known.suits (fun s inColumn => safe.fits.column here inColumn) test member
    exact safe.test regular here suits passed
  | miss normal rows tested switched missing missed => exact safe.miss missing missed

theorem reaches (regular : ctx.decls.Regular) {s t : Stage} (safe : Safe ctx.decls s)
    (steps : ReflTransGen ctx.Advances s t) : Safe ctx.decls t := by
  induction steps with
  | refl => exact safe
  | tail _ step ih => exact ih.advance regular step

end Stage.Safe

/-- Every failure of a tree that has grown from a safe stage has a witness. -/
theorem Grown.failures_ne_nil {m : Matrix} {frames : List Frame} {tree : Tree}
    (grown : Grown ctx true m frames tree) (regular : ctx.decls.Regular)
    (safe : Stage.Safe ctx.decls (m, frames)) : ∀ ws ∈ tree.failures, ws ≠ [] := by
  induction grown with
  | spread fit next ih => exact ih safe.spread
  | expand fit heads here product expanded next ih => exact ih (safe.expand heads here expanded)
  | fail empty shown =>
    intro ws member
    obtain rfl := List.mem_singleton.mp member
    exact Frame.witnesses_ne_nil safe.framed safe.shows safe.single shown
  | leaf fit rows untested sure => simp [Tree.failures, Tree.failuresOption]
  | guarded fit rows untested unsure next ih => exact ih (safe.fall rows)
  | @switch m frames first rest i col family cases otherwise fit flat rows tested here switched tests
      missing passed missed ihPassed ihMissed =>
      have known := flat.family safe.fits here switched
      have suits := known.suits fun s inColumn => safe.fits.column here inColumn
      intro ws member
      rcases List.mem_append.mp member with inside | inside
      · obtain ⟨c, chosen, below⟩ := Tree.mem_failuresAll.mp inside
        have own := suits c.test (tests ▸ List.mem_map_of_mem chosen)
        obtain ⟨cols, opened, -, -⟩ := Test.columns_eq own
        have known := Matrix.specialize_eq safe.fits here opened
        exact ihPassed c chosen _ known (safe.test regular here own known) ws below
      · cases otherwise with
        | none => simp [Tree.failuresOption] at inside
        | some tree =>
          -- a tree for the values that pass no test is there only if some values are shown for them
          have shown : family.2 ≠ [] := fun complete => Option.some_ne_none tree (missing.mpr complete)
          have known := Matrix.without_eq safe.fits here
          exact ihMissed tree rfl _ known (safe.miss shown known) ws inside

/-! ### Queries -/

/-- The matrix has one shape for each column, of the kind that the type of the column prescribes, and so
has the row. -/
structure Query.Safe (decls : Decls) (q : Query) : Prop where
  fits : q.1.Fits decls true
  suits : List.Forall₂ (Shape.Fits decls true) q.2 (q.1.cols.map Column.type)

/-- The first shape of the row is a head, and nothing is left to spread or to take apart in the first
column. -/
def Query.Tests (q : Query) : Prop :=
  (∃ head ∈ q.2.head?, head.isHead = true) ∧ q.1.sure = q.1 ∧ ¬ q.Product

theorem Shape.isHead_of_isAny {s : Shape} (any : s.isAny = true) : s.isHead = true := by
  cases s <;> simp_all [Shape.isAny, Shape.isHead]

namespace Query.Safe

variable {m : Matrix} {head : Shape} {rest : List Shape}

/-- Where a query tests its first column, the column has a family, and its tests suit the type. -/
theorem family (safe : Safe ctx.decls (m, head :: rest)) (tests : Query.Tests (m, head :: rest)) :
    ∃ col cols family, m.cols = col :: cols ∧ Shape.Fits ctx.decls true head col.type ∧
      List.Forall₂ (Shape.Fits ctx.decls true) rest (cols.map Column.type) ∧
      (Query.both (m, head :: rest)).family ctx.decls ctx.options 0 = .ok family ∧
      ∀ test ∈ family.1, test.Suits ctx.decls col.type := by
  obtain ⟨⟨s, first, isHead⟩, spread, flat⟩ := tests
  obtain rfl : head = s := by simpa using first
  obtain ⟨col, cols, known, fits, later⟩ := first_column safe.suits
  have heads := Matrix.sure_column safe.fits
  rw [spread] at heads
  have here : m.cols[0]? = some col := congrArg (fun cols => cols[0]?) known
  have single : head.isProduct = false := by
    simpa using fun product => flat (.inl ⟨head, by simp, product⟩)
  have others : ∀ s ∈ m.column 0, s.isProduct = false := by
    intro s inColumn
    simpa using fun product => flat (.inr ⟨s, inColumn, product⟩)
  obtain ⟨tests, missing, switched, switch, -⟩ :=
    family_both safe.fits known heads others fits isHead single later
  refine ⟨col, cols, (tests, missing), known, fits, later, switched, ?_⟩
  apply switch.suits
  exact List.forall_mem_append.mpr ⟨fun s inColumn => safe.fits.column here inColumn, by simpa using fits⟩

/-- The rows behind a test, and the row with shapes that suit what the test opens up. -/
theorem pass (safe : Safe decls (m, head :: rest)) (regular : decls.Regular) {col : Column}
    {cols : List Column} (known : m.cols = col :: cols)
    (later : List.Forall₂ (Shape.Fits decls true) rest (cols.map Column.type)) {test : Test}
    (suits : test.Suits decls col.type) {sub : Matrix} (passed : m.specialize decls 0 test = .ok sub)
    {args : List Shape} (fits : Shape.FitsAll decls true args (test.types decls col.type)) :
    Safe decls (sub, args ++ rest) := by
  have here : m.cols[0]? = some col := by simp [known]
  obtain ⟨opened, columns, -, types⟩ := Test.columns_eq suits
  obtain rfl := Except.ok.inj ((Matrix.specialize_eq safe.fits here columns).symm.trans passed)
  refine ⟨Matrix.specialize_fits regular safe.fits here suits columns, ?_⟩
  rw [map_type_spliced known, types]
  exact List.rel_append (Shape.fitsAll_iff.mp fits) later

/-- Every step of the search leads from a safe query to a safe one. -/
theorem search (regular : ctx.decls.Regular) {q t : Query} (safe : Safe ctx.decls q)
    (step : ctx.Searches q t) : Safe ctx.decls t := by
  cases step with
  | @choice m alternatives rest s member =>
    obtain ⟨col, cols, known, fits, later⟩ := first_column safe.suits
    refine ⟨safe.fits, ?_⟩
    rw [known]
    exact .cons (Shape.fitsEach_iff.mp fits s member) later
  | @guarded m inner rest =>
    obtain ⟨col, cols, known, fits, later⟩ := first_column safe.suits
    have inside : Shape.Fits ctx.decls true inner col.type := fits
    refine ⟨safe.fits, ?_⟩
    rw [known]
    exact .cons inside later
  | spread isHead changes => exact ⟨Matrix.sure_fits safe.fits, safe.suits⟩
  | @expand m sub head rest arity isHead spread product expanded =>
    obtain ⟨col, cols, known, fits, later⟩ := first_column safe.suits
    have here : m.cols[0]? = some col := congrArg (fun cols => cols[0]?) known
    have heads := Matrix.sure_column safe.fits
    rw [spread] at heads
    obtain ⟨rfl, rfl⟩ :=
      Prod.mk.inj (Except.ok.inj ((Matrix.expand_eq safe.fits here).symm.trans expanded))
    refine ⟨Matrix.expand_fits safe.fits heads here, ?_⟩
    rw [map_type_spliced known]
    exact List.rel_append (open_fits fits isHead rfl) later
  | @pass m sub head rest args binds family test isHead spread flat switched tests member admitted passed =>
    obtain ⟨col, cols, family', known, fits, later, switched', suits⟩ :=
      safe.family ⟨⟨head, by simp, isHead⟩, spread, flat⟩
    obtain rfl := Except.ok.inj (switched.symm.trans switched')
    exact safe.pass regular known later (suits test member) passed
      ((Test.specialized admitted).fits regular (suits test member) fits)
  | @either m sub head rest family test spread flat switched any complete member passed =>
    obtain ⟨col, cols, family', known, fits, later, switched', suits⟩ :=
      safe.family ⟨⟨head, by simp, Shape.isHead_of_isAny any⟩, spread, flat⟩
    obtain rfl := Except.ok.inj (switched.symm.trans switched')
    have wilds : Shape.FitsAll ctx.decls true (Shape.wilds (test.types ctx.decls col.type).length)
      (test.types ctx.decls col.type) := Shape.fitsAll_wilds _
    rw [Test.length_types (suits test member)] at wilds
    exact safe.pass regular known later (suits test member) passed wilds
  | @skip m sub head rest family spread flat switched any incomplete missed =>
    obtain ⟨col, cols, known, fits, later⟩ := first_column safe.suits
    have here : m.cols[0]? = some col := congrArg (fun cols => cols[0]?) known
    obtain rfl := Except.ok.inj ((Matrix.without_eq safe.fits here).symm.trans missed)
    refine ⟨Matrix.without_fits safe.fits here, ?_⟩
    rw [map_type_spliced known]
    exact later

theorem reaches (regular : ctx.decls.Regular) {q t : Query} (safe : Safe ctx.decls q)
    (steps : ReflTransGen ctx.Searches q t) : Safe ctx.decls t := by
  induction steps with
  | refl => exact safe
  | tail _ step ih => exact ih.search regular step

end Query.Safe

/-- The queries of a matrix: whether an alternative of some row is useful after the alternatives of the
rows before it that no guard decides about. -/
def Matrix.Asks (m : Matrix) (q : Query) : Prop :=
  ∃ before r after a, m.rows = before ++ r :: after ∧ a ∈ r.spread ∧
    q = (⟨m.cols, before.flatMap Row.sureSpread⟩, a.pats)

theorem Matrix.Asks.safe {m : Matrix} {q : Query} (asks : m.Asks q) (fit : m.Fits decls true) :
    q.Safe decls := by
  obtain ⟨before, r, after, a, rows, chosen, rfl⟩ := asks
  have alternatives {r a : Row} (member : r ∈ m.rows) (chosen : a ∈ r.spread) :
      List.Forall₂ (Shape.Fits decls true) a.pats (m.cols.map Column.type) := by
    obtain ⟨⟨unsure, shapes⟩, inside, rfl⟩ := List.mem_map.mp chosen
    exact (Shape.spread_fits (fit r member) _ inside).2
  constructor
  case fits =>
    intro b member
    obtain ⟨other, inside, kept⟩ := List.mem_flatMap.mp member
    exact alternatives (by rw [rows]; exact List.mem_append_left _ inside) (List.mem_filter.mp kept).1
  case suits => exact alternatives (by simp [rows]) chosen

/-- Compilation of any arms for any type is safe: it leads to safe stages and queries only, whose tests
open up as many columns as they say; it yields a decision, and every failure of the tree has a witness. -/
theorem compile_safe (ctx : Context) (regular : ctx.decls.Regular) (type : Ty) (arms : List Arm) :
    (∀ s, ReflTransGen ctx.Advances (Matrix.ofArms ctx.decls type arms, []) s →
      s.Safe ctx.decls ∧ (s.1.Normal → ∀ i < s.1.cols.length, ctx.Measured s.1 i)) ∧
    (∀ start q, (Matrix.ofArms ctx.decls type arms).Asks start → ReflTransGen ctx.Searches start q →
      q.Safe ctx.decls ∧ (q.Tests → ctx.Measured q.both 0)) ∧
    ∃ d, compile ctx type arms = .ok d ∧ ∀ ws ∈ d.tree.failures, ws ≠ [] := by
  have fit : (Matrix.ofArms ctx.decls type arms).Fits ctx.decls true :=
    ofArms_fits fun _ _ => Or.inl rfl
  have safe : Stage.Safe ctx.decls (Matrix.ofArms ctx.decls type arms, []) :=
    ⟨fit, trivial, rfl, by simp⟩
  refine ⟨?_, ?_, ?_⟩
  · intro s steps
    have reached := safe.reaches regular steps
    refine ⟨reached, fun normal i inside => ?_⟩
    have flat := normal.flat reached.fits
    exact Context.measured_of_flat reached.fits (flat.heads i) (fun s inColumn => (flat i s inColumn).2) inside
  · intro start q asks steps
    have reached := (asks.safe fit).reaches regular steps
    refine ⟨reached, fun tests => ?_⟩
    obtain ⟨m, row⟩ := q
    cases row with
    | nil => simp [Query.Tests] at tests
    | cons head rest =>
      obtain ⟨col, cols, family, known, -, -, switched, suits⟩ := reached.family tests
      refine ⟨col, family, ?_, switched, ?_⟩
      · show m.cols[0]? = some col
        simp [known]
      · intro test member
        obtain ⟨sub, opened, sized, -⟩ := Test.columns_eq (suits test member)
        exact ⟨sub, opened, sized⟩
  · obtain ⟨d, compiled, grown⟩ := compile_eq regular type arms fit
    exact ⟨d, compiled, grown.failures_ne_nil regular safe⟩

/-- Arms that do not fit an optional number: they have a slot too many, a tuple for a number and a slot
for a variant without any. -/
def strayArms : List Arm :=
  [{ pattern := .variant default "Option" "Some"
      [.tuple default [.literal default (.bool true)], .wildcard default] [] false
     guarded := true },
   { pattern := .variant default "Option" "None" [.literal default (.int 7)] [] false }]

theorem compile_safe_option :
    optionContext.decls.Regular ∧
    ∃ d, compile optionContext optionType strayArms = .ok d ∧ ∀ ws ∈ d.tree.failures, ws ≠ [] :=
  ⟨optionContext_regular, (compile_safe optionContext optionContext_regular optionType strayArms).2.2⟩

end TreeCheck.Match
