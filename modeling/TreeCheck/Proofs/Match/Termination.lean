import TreeCheck.Proofs.Match.Calls

/-!
Termination of match compilation. Every step makes a measure smaller: spreading alternatives leaves
fewer branches, and all other steps make a matrix lighter, or a query smaller. So the functions are what
one call makes of the calls inside it, and the fuel they are given is never used up.
-/

namespace TreeCheck.Match

open Relation (ReflTransGen TransGen)

/-! ### Compilation -/

namespace Matrix

variable {m : Matrix} {i : Nat} {decls : Decls}

theorem tested_column {first : Row} {rest : List Row} (rows : m.rows = first :: rest)
    (tested : first.tested? = some i) : ∃ s ∈ m.column i, s.isAny = false := by
  obtain ⟨s, here, tests⟩ := Row.mem_tested tested
  exact ⟨s, mem_column.mpr ⟨first, by simp [rows], here⟩, tests⟩

theorem product_column (product : m.productColumn? = some i) : ∃ s ∈ m.column i, s.isProduct = true := by
  simpa using List.find?_some product

theorem expand_lt {sub : Matrix} {arity : Nat} (product : ∃ s ∈ m.column i, s.isProduct = true)
    (expanded : m.expand decls i = .ok (sub, arity)) : sub.weight < m.weight := by
  obtain ⟨col, -, rfl, -⟩ := expand_ok expanded
  exact (m.expand_weight decls i col).2 product

theorem specialize_lt {sub : Matrix} {test : Test} (tested : ∃ s ∈ m.column i, s.isAny = false)
    (passed : m.specialize decls i test = .ok sub) : sub.weight < m.weight := by
  obtain ⟨col, cols, -, -, rfl⟩ := specialize_ok passed
  exact (m.specialize_weight i col test cols).2 tested

theorem without_lt {sub : Matrix} (tested : ∃ s ∈ m.column i, s.isAny = false)
    (missed : m.without i = .ok sub) : sub.weight < m.weight := by
  obtain ⟨col, -, rfl⟩ := without_ok missed
  exact (m.without_weight i col).2 tested

theorem tail_lt {first : Row} {rest : List Row} (rows : m.rows = first :: rest) :
    Matrix.weight { m with rows := rest } < m.weight := by
  have heavy := first.weight_pos
  have whole : m.weight = first.weight + Row.weightAll rest := by rw [Matrix.weight, rows]; rfl
  show Row.weightAll rest < m.weight
  omega

/-- What each step of a compilation makes smaller: the weight, or else the branches. -/
def measure (m : Matrix) : Nat ×ₗ Nat := toLex (m.weight, m.branches)

theorem measure_lt_of_weight {m' : Matrix} (lighter : m'.weight < m.weight) : m'.measure < m.measure :=
  Prod.Lex.toLex_lt_toLex.mpr (.inl lighter)

theorem spread_measure (changes : m.spread ≠ m) : m.spread.measure < m.measure :=
  toLex_lt m.spread_weight (spread_branches changes)

end Matrix

namespace Context

variable {ctx : Context}

theorem Advances.measure_lt {s t : Stage} (step : ctx.Advances s t) : t.1.measure < s.1.measure := by
  cases step with
  | spread changes => exact Matrix.spread_measure changes
  | expand spread product here expanded =>
    exact Matrix.measure_lt_of_weight (Matrix.expand_lt (Matrix.product_column product) expanded)
  | fall normal rows untested unsure => exact Matrix.measure_lt_of_weight (Matrix.tail_lt rows)
  | test normal rows tested here switched member passed =>
    exact Matrix.measure_lt_of_weight (Matrix.specialize_lt (Matrix.tested_column rows tested) passed)
  | miss normal rows tested switched missing missed =>
    exact Matrix.measure_lt_of_weight (Matrix.without_lt (Matrix.tested_column rows tested) missed)

theorem normalizeOnce_congr (s : Stage) (f g : Stage → Except Failure Stage)
    (same : ∀ t, TransGen ctx.Advances s t → t.1.weight < s.1.weight → f t = g t) :
    ctx.normalizeOnce f s = ctx.normalizeOnce g s := by
  unfold normalizeOnce
  cases product : s.1.spread.productColumn? with
  | none => rfl
  | some i =>
    apply bind_congr_ok
    intro col found
    apply bind_congr_ok
    intro (sub, arity) expanded
    have here := Matrix.column?_ok found
    have step : ctx.Advances (s.1.spread, s.2) (sub, ⟨i, arity, .product col.type⟩ :: s.2) :=
      .expand s.1.spread_spread product here expanded
    have lighter := Matrix.expand_lt (Matrix.product_column product) expanded
    exact same _ (.tail' (spread_reaches ctx s.1 s.2) step) (lighter.trans_le s.1.spread_weight)

theorem normalize_unfolds (s : Stage) :
    ctx.normalize s.1 s.2 = ctx.normalizeOnce (fun t => ctx.normalize t.1 t.2) s :=
  run_unfolds (fun s : Stage => s.1.weight) (fun fuel s => ctx.normalizeWithin fuel s.1 s.2)
    ctx.normalizeWithin_succ normalizeOnce_congr s

theorem normalize_terminates (ctx : Context) : Terminates (fun s : Stage => s.1.measure)
    ctx.Advances ctx.normalizeOnce fun s => ctx.normalize s.1 s.2 := by
  apply terminates_of
  case decreases => exact fun _ _ step => step.measure_lt
  case confined => exact fun s f g same => normalizeOnce_congr s f g fun t steps _ => same t steps
  case unfolds => exact normalize_unfolds

/-- Normalization leads to a normal matrix by steps that do not make it heavier. -/
theorem normalize_reaches {m : Matrix} {frames : List Frame} {t : Stage}
    (normalized : ctx.normalize m frames = .ok t) :
    ReflTransGen ctx.Advances (m, frames) t ∧ t.1.Normal ∧ t.1.weight ≤ m.weight := by
  generalize bounded : m.weight = weight
  induction weight using Nat.strong_induction_on generalizing m frames with
  | _ weight ih =>
    subst bounded
    have start := spread_reaches ctx m frames
    rw [normalize_unfolds (m, frames), normalizeOnce] at normalized
    cases product : m.spread.productColumn? with
    | none =>
      simp only [product] at normalized
      obtain rfl := Except.ok.inj normalized
      exact ⟨start, ⟨m.spread_spread, product⟩, m.spread_weight⟩
    | some i =>
      simp only [product] at normalized
      obtain ⟨col, found, later⟩ := bind_ok.mp normalized
      obtain ⟨⟨sub, arity⟩, expanded, rest⟩ := bind_ok.mp later
      have here := Matrix.column?_ok found
      have step : ctx.Advances (m.spread, frames) (sub, ⟨i, arity, .product col.type⟩ :: frames) :=
        .expand m.spread_spread product here expanded
      have lighter : sub.weight < m.weight :=
        (Matrix.expand_lt (Matrix.product_column product) expanded).trans_le m.spread_weight
      obtain ⟨steps, normal, light⟩ := ih _ lighter rest rfl
      exact ⟨(start.tail step).trans steps, normal, light.trans lighter.le⟩

theorem treeOnce_congr (s : Stage) (f g : Stage → Except Failure Tree)
    (same : ∀ t, TransGen ctx.Advances s t → t.1.weight < s.1.weight → f t = g t) :
    ctx.treeOnce f s = ctx.treeOnce g s := by
  apply bind_congr_ok
  intro (m, frames) normalized
  -- the inner stages are one step behind the normal one, which is no heavier than the first
  obtain ⟨steps, normal, light⟩ := normalize_reaches normalized
  have inside (t : Stage) (step : ctx.Advances (m, frames) t) (lighter : t.1.weight < m.weight) :
      f t = g t := same t (.tail' steps step) (lighter.trans_le light)
  cases rows : m.rows with
  | nil => simp only [rows]
  | cons first rest =>
    cases tested : first.tested? with
    | none =>
      cases unsure : first.guarded with
      | false => simp [rows, tested, unsure]
      | true =>
        have next := inside _ (.fall normal rows tested unsure) (Matrix.tail_lt rows)
        simp only [rows, tested, unsure, if_true, next]
    | some i =>
      have column := Matrix.tested_column rows tested
      simp only [rows, tested]
      apply bind_congr_ok
      intro col found
      apply bind_congr_ok
      intro (tests, missing) switched
      have here := Matrix.column?_ok found
      have passes : ∀ test ∈ tests, (do
          let sub ← m.specialize ctx.decls i test
          return Case.mk test (← f (sub, ⟨i, test.arity, .test col.type test⟩ :: frames))) = (do
          let sub ← m.specialize ctx.decls i test
          return Case.mk test (← g (sub, ⟨i, test.arity, .test col.type test⟩ :: frames))) := by
        intro test member
        apply bind_congr_ok
        intro sub passed
        rw [inside _ (.test normal rows tested here switched member passed)
          (Matrix.specialize_lt column passed)]
      rw [mapM_congr passes]
      apply bind_congr_ok
      intro cases _
      by_cases complete : missing = []
      · simp [complete]
      · simp only [List.isEmpty_iff, complete, if_false]
        apply bind_congr_ok
        intro sub missed
        rw [inside _ (.miss normal rows tested switched complete missed)
          (Matrix.without_lt column missed)]

/-- The tree of a matrix that some frames lead back from. -/
def treeFrom (ctx : Context) (s : Stage) : Except Failure Tree :=
  ctx.treeWithin (s.1.weight + 1) s.1 s.2

theorem tree_terminates (ctx : Context) : Terminates (fun s : Stage => s.1.measure)
    ctx.Advances ctx.treeOnce ctx.treeFrom := by
  apply terminates_of
  case decreases => exact fun _ _ step => step.measure_lt
  case confined => exact fun s f g same => treeOnce_congr s f g fun t steps _ => same t steps
  case unfolds =>
    exact run_unfolds (fun s : Stage => s.1.weight) (fun fuel s => ctx.treeWithin fuel s.1 s.2)
      ctx.treeWithin_succ treeOnce_congr

end Context

/-! ### The search for useful rows -/

namespace Query

/-- The weight of the matrix and what is left of the row. -/
def size (q : Query) : Nat := q.1.weight + Shape.sizeAll q.2

/-- What each step of the search makes smaller: the size, or else the length of the row, or else the
branches of the matrix. -/
def measure (q : Query) : Nat ×ₗ Nat ×ₗ Nat := toLex (q.size, toLex (q.2.length, q.1.branches))

variable {ctx : Context} {m sub : Matrix} {head : Shape} {rest : List Shape}

theorem sure_size (m : Matrix) (row : List Shape) : Query.size (m.sure, row) ≤ Query.size (m, row) :=
  Nat.add_le_add_right m.sure_weight _

theorem expand_size {arity : Nat} (product : Query.Product (m, head :: rest))
    (expanded : m.expand ctx.decls 0 = .ok (sub, arity)) :
    Query.size (sub, Matrix.partShapes arity head ++ rest) < Query.size (m, head :: rest) := by
  obtain ⟨col, -, rfl, -⟩ := Matrix.expand_ok expanded
  obtain ⟨lighter, strictly⟩ := m.expand_weight ctx.decls 0 col
  have parts := partShapes_size head arity
  simp only [size, Shape.sizeAll, Shape.sizeAll_append]
  rcases product with ⟨s, first, own⟩ | others
  · obtain rfl : head = s := by simpa using first
    simp only [own, if_true] at parts
    omega
  · have := strictly others
    split at parts <;> omega

theorem pass_size {args : List Shape} {binds : List Extraction} {test : Test}
    (admitted : test.specialize? [] head = some (args, binds))
    (passed : m.specialize ctx.decls 0 test = .ok sub) :
    Query.size (sub, args ++ rest) < Query.size (m, head :: rest) := by
  obtain ⟨col, cols, -, -, rfl⟩ := Matrix.specialize_ok passed
  have lighter := (m.specialize_weight 0 col test cols).1
  have smaller := (Test.specialized admitted).size_lt
  simp only [size, Shape.sizeAll, Shape.sizeAll_append]
  omega

/-- If the head tests nothing, only a row of the matrix can ask for tests. -/
theorem either_size {family : List Test × List Pattern} {test : Test}
    (switched : (Query.both (m, head :: rest)).family ctx.decls ctx.options 0 = .ok family)
    (any : head.isAny = true) (member : test ∈ family.1)
    (passed : m.specialize ctx.decls 0 test = .ok sub) :
    Query.size (sub, Shape.wilds test.arity ++ rest) < Query.size (m, head :: rest) := by
  obtain ⟨col, cols, here, -, rfl⟩ := Matrix.specialize_ok passed
  have tested : ∃ s ∈ m.column 0, s.isAny = false := by
    -- where nothing is tested the family has no tests
    by_contra all
    push Not at all
    have column : (Query.both (m, head :: rest)).column 0 = m.column 0 ++ [head] := by
      simp [both, Matrix.column]
    have untested : (Query.both (m, head :: rest)).family ctx.decls ctx.options 0 =
        .ok ([], [.wildcard default]) := by
      have here' : (Query.both (m, head :: rest)).cols[0]? = some col := here
      apply Matrix.family_untested here'
      rw [column]
      exact List.forall_mem_append.mpr ⟨fun s inside => by simpa using all s inside, by simpa using any⟩
    have same := Except.ok.inj (switched.symm.trans untested)
    simp [same] at member
  have lighter := (m.specialize_weight 0 col test cols).2 tested
  simp only [size, Shape.sizeAll, Shape.sizeAll_append, Shape.sizeAll_wilds]
  omega

theorem skip_size (missed : m.without 0 = .ok sub) :
    Query.size (sub, rest) ≤ Query.size (m, head :: rest) := by
  obtain ⟨col, -, rfl⟩ := Matrix.without_ok missed
  have lighter := (m.without_weight 0 col).1
  simp only [size, Shape.sizeAll]
  omega

theorem choice_size {alternatives : List Shape} {s : Shape} (member : s ∈ alternatives) :
    Query.size (m, s :: rest) < Query.size (m, .choice alternatives :: rest) := by
  have := Shape.size_le_sizeAll member
  simp only [size, Shape.sizeAll, Shape.size]
  omega

theorem guarded_size {inner : Shape} :
    Query.size (m, inner :: rest) < Query.size (m, .guarded inner :: rest) := by
  simp only [size, Shape.sizeAll, Shape.size]
  omega

theorem measure_lt_of_size {q t : Query} (smaller : t.size < q.size) : t.measure < q.measure :=
  Prod.Lex.toLex_lt_toLex.mpr (.inl smaller)

end Query

namespace Context

variable {ctx : Context}

theorem Searches.measure_lt {q t : Query} (step : ctx.Searches q t) : t.measure < q.measure := by
  cases step with
  | choice member => exact Query.measure_lt_of_size (Query.choice_size member)
  | guarded => exact Query.measure_lt_of_size Query.guarded_size
  | spread isHead changes =>
    exact toLex_lt (Query.sure_size _ _) (toLex_lt (le_refl _) (Matrix.sure_branches changes))
  | expand isHead spread product expanded =>
    exact Query.measure_lt_of_size (Query.expand_size product expanded)
  | pass isHead spread flat switched tests member admitted passed =>
    exact Query.measure_lt_of_size (Query.pass_size admitted passed)
  | either spread flat switched any complete member passed =>
    exact Query.measure_lt_of_size (Query.either_size switched any member passed)
  | skip spread flat switched any incomplete missed =>
    exact toLex_lt (Query.skip_size missed) (Prod.Lex.toLex_lt_toLex.mpr (.inl (Nat.lt_succ_self _)))

section

variable {search search' skip skip' : Query → Except Failure Bool}

theorem usefulHead_congr {m : Matrix} {head : Shape} (isHead : head.isHead = true) (rest : List Shape)
    (spread : m.sure = m)
    (searched : ∀ t, ctx.Searches (m, head :: rest) t → t.size < Query.size (m, head :: rest) →
      search t = search' t)
    (skipped : ∀ t, ctx.Searches (m, head :: rest) t → t.size ≤ Query.size (m, head :: rest) →
      t.2.length ≤ rest.length → skip t = skip' t) :
    ctx.usefulHead search skip m head rest = ctx.usefulHead search' skip' m head rest := by
  unfold usefulHead
  by_cases empty : m.rows.isEmpty = true
  · simp only [empty, if_true]
  simp only [empty]
  by_cases product : Query.Product (m, head :: rest)
  · have test : (head.isProduct || (m.column 0).any Shape.isProduct) = true := by
      simpa [Query.Product] using product
    simp only [test, if_true]
    apply bind_congr_ok
    rintro ⟨sub, arity⟩ expanded
    exact searched _ (.expand isHead spread product expanded) (Query.expand_size product expanded)
  · have test : (head.isProduct || (m.column 0).any Shape.isProduct) = false := by
      simpa [Query.Product] using product
    simp only [test]
    apply bind_congr_ok
    rintro ⟨tests, missing⟩ switched
    cases any : head.isAny with
    | false =>
      apply anyM_congr
      intro test member
      cases admitted : test.specialize? [] head with
      | none => rfl
      | some parts =>
        apply bind_congr_ok
        intro sub passed
        exact searched _ (.pass isHead spread product switched any member admitted passed)
          (Query.pass_size admitted passed)
    | true =>
      by_cases complete : (missing.isEmpty && !tests.isEmpty) = true
      · simp only [complete, Bool.not_true, Bool.false_eq_true, if_false, if_true]
        apply anyM_congr
        intro test member
        apply bind_congr_ok
        intro sub passed
        have whole : missing = [] := by simp_all
        exact searched _ (.either spread product switched any whole member passed)
          (Query.either_size switched any member passed)
      · simp only [complete, Bool.not_true, Bool.false_eq_true, if_false]
        apply bind_congr_ok
        intro sub missed
        have silent : missing = [] → tests = [] := by simpa using complete
        exact skipped _ (.skip spread product switched any silent missed) (Query.skip_size missed)
          (le_refl _)

theorem usefulOnce_congr (q : Query)
    (searched : ∀ t, TransGen ctx.Searches q t → t.size < q.size → search t = search' t)
    (skipped : ∀ t, TransGen ctx.Searches q t → t.size ≤ q.size → t.2.length < q.2.length →
      skip t = skip' t) : ctx.usefulOnce search skip q = ctx.usefulOnce search' skip' q := by
  obtain ⟨m, row⟩ := q
  cases row with
  | nil => rfl
  | cons head rest =>
    unfold usefulOnce
    by_cases empty : m.rows.isEmpty = true
    · simp only [empty, if_true]
    simp only [empty]
    cases isHead : head.isHead with
    | true =>
      have start := sure_reaches ctx m isHead rest
      have smaller := Query.sure_size m (head :: rest)
      have heads := usefulHead_congr isHead rest m.sure_sure
        (fun t step less => searched t (.tail' start step) (less.trans_le smaller))
        fun t step less shorter => skipped t (.tail' start step) (less.trans smaller)
          (Nat.lt_succ_of_le shorter)
      cases head <;> simp [Shape.isHead] at isHead <;> exact heads
    | false =>
      cases head <;> simp [Shape.isHead] at isHead
      case choice alternatives =>
        exact anyM_congr fun s member =>
          searched _ (.single (.choice member)) (Query.choice_size member)
      case guarded inner => exact searched _ (.single .guarded) Query.guarded_size

end

/-- A step makes no other queries than smaller ones, those behind skipped columns included. -/
theorem usefulStep_congr (q : Query) (f g : Query → Except Failure Bool)
    (same : ∀ t, TransGen ctx.Searches q t → t.size < q.size → f t = g t) :
    ctx.usefulStep (fun m row => f (m, row)) q.1 q.2 =
      ctx.usefulStep (fun m row => g (m, row)) q.1 q.2 := by
  generalize bounded : q.2.length = length
  induction length using Nat.strong_induction_on generalizing q with
  | _ length ih =>
    subst bounded
    rw [usefulStep_eq_once, usefulStep_eq_once]
    apply usefulOnce_congr
    case searched => exact same
    case skipped =>
      intro t steps smaller shorter
      exact ih _ shorter t (fun u more less => same u (steps.trans more) (less.trans_le smaller)) rfl

theorem useful_eq_step (q : Query) :
    ctx.useful q.1 q.2 = ctx.usefulStep (fun m row => ctx.useful m row) q.1 q.2 :=
  run_unfolds Query.size (fun fuel q => ctx.usefulWithin fuel q.1 q.2) (by intro _ _; rfl)
    usefulStep_congr q

theorem useful_terminates (ctx : Context) : Terminates Query.measure ctx.Searches
    (fun self => ctx.usefulOnce self self) fun q => ctx.useful q.1 q.2 := by
  apply terminates_of
  case decreases => exact fun _ _ step => step.measure_lt
  case confined =>
    intro q f g same
    exact usefulOnce_congr q (fun t steps _ => same t steps) fun t steps _ _ => same t steps
  case unfolds =>
    intro q
    calc
      ctx.useful q.1 q.2 = ctx.usefulStep (fun m row => ctx.useful m row) q.1 q.2 := useful_eq_step q
      _ = ctx.usefulOnce (fun t => ctx.useful t.1 t.2)
          (fun t => ctx.usefulStep (fun m row => ctx.useful m row) t.1 t.2) q := usefulStep_eq_once ctx _ q
      _ = ctx.usefulOnce (fun t => ctx.useful t.1 t.2) (fun t => ctx.useful t.1 t.2) q := by
        congr 1
        funext t
        exact (useful_eq_step t).symm

end Context

/-- Match compilation terminates, whatever the declarations, the type and the arms: the recursions that
spread rows, normalization, the growth of the tree and the search for useful rows. -/
theorem compile_terminates (ctx : Context) :
    Terminates Row.branches Row.Opens Row.spreadOnce Row.spread ∧
    Terminates Row.branches Row.Picks Row.sureOnce Row.sureHead ∧
    Terminates (fun s : Stage => s.1.measure) ctx.Advances ctx.normalizeOnce
      (fun s => ctx.normalize s.1 s.2) ∧
    Terminates (fun s : Stage => s.1.measure) ctx.Advances ctx.treeOnce ctx.treeFrom ∧
    (∀ m, ctx.tree m = ctx.treeFrom (m, [])) ∧
    Terminates Query.measure ctx.Searches (fun self => ctx.usefulOnce self self)
      (fun q => ctx.useful q.1 q.2) :=
  ⟨Row.spread_terminates, Row.sureHead_terminates, ctx.normalize_terminates, ctx.tree_terminates,
    fun _ => rfl, ctx.useful_terminates⟩

end TreeCheck.Match
