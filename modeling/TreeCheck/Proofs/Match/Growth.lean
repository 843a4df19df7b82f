import TreeCheck.Proofs.Match.Families
import TreeCheck.Proofs.Match.Weight

/-!
How a decision tree grows from a matrix. Growth is described step by step, so that what holds of a
tree is proved by one case for each step; and the fuel of a compilation suffices, so that every matrix
whose shapes suit its columns grows into a tree.
-/

namespace TreeCheck.Match

def Case.test : Case → Test
  | .mk test _ => test

def Case.tree : Case → Tree
  | .mk _ tree => tree

/-- Every shape of a matrix is a head and tests something or nothing at all. -/
def Matrix.Flat (m : Matrix) : Prop :=
  ∀ i, ∀ s ∈ m.column i, s.isHead = true ∧ s.isProduct = false

theorem Matrix.Flat.heads {m : Matrix} (flat : m.Flat) (i : Nat) : ∀ s ∈ m.column i, s.isHead = true :=
  fun s inColumn => (flat i s inColumn).1

theorem Matrix.Flat.family {decls : Decls} {options : Options} {floats : Bool} {m : Matrix} {i : Nat}
    {col : Column} (flat : m.Flat) (fit : m.Fits decls floats) (here : m.cols[i]? = some col)
    {family : List Test × List Pattern} (switched : m.family decls options i = .ok family) :
    FamilyOf decls options floats col.type (m.column i) family := by
  obtain ⟨family', switched', known⟩ := Matrix.family_eq options fit here (flat.heads i)
    fun s inColumn => (flat i s inColumn).2
  obtain rfl := Except.ok.inj (switched.symm.trans switched')
  exact known

/-- The steps by which a tree grows from a matrix, with the frames that remember them. -/
inductive Grown (ctx : Context) (floats : Bool) : Matrix → List Frame → Tree → Prop
  | spread {m : Matrix} {frames : List Frame} {tree : Tree} (fit : m.Fits ctx.decls floats)
      (next : Grown ctx floats m.spread frames tree) : Grown ctx floats m frames tree
  | expand {m sub : Matrix} {frames : List Frame} {tree : Tree} {i arity : Nat} {col : Column}
      (fit : m.Fits ctx.decls floats) (heads : ∀ s ∈ m.column i, s.isHead = true)
      (here : m.cols[i]? = some col) (product : ∃ s ∈ m.column i, s.isProduct = true)
      (expanded : m.expand ctx.decls i = .ok (sub, arity))
      (next : Grown ctx floats sub (⟨i, arity, .product col.type⟩ :: frames) tree) :
      Grown ctx floats m frames tree
  | fail {m : Matrix} {frames : List Frame} {witnesses : List Pattern} (empty : m.rows = [])
      (shown : Frame.witnesses ctx.decls frames m.cols.length = .ok witnesses) :
      Grown ctx floats m frames (.fail witnesses)
  | leaf {m : Matrix} {frames : List Frame} {first : Row} {rest : List Row}
      (fit : m.Fits ctx.decls floats) (rows : m.rows = first :: rest)
      (untested : first.tested? = none) (sure : first.guarded = false) :
      Grown ctx floats m frames (.leaf first.arm (first.bindings m.cols) none)
  | guarded {m : Matrix} {frames : List Frame} {first : Row} {rest : List Row} {tree : Tree}
      (fit : m.Fits ctx.decls floats) (rows : m.rows = first :: rest)
      (untested : first.tested? = none) (unsure : first.guarded = true)
      (next : Grown ctx floats { m with rows := rest } frames tree) :
      Grown ctx floats m frames (.leaf first.arm (first.bindings m.cols) (some tree))
  | switch {m : Matrix} {frames : List Frame} {first : Row} {rest : List Row} {i : Nat} {col : Column}
      {family : List Test × List Pattern} {cases : List Case} {otherwise : Option Tree}
      (fit : m.Fits ctx.decls floats) (flat : m.Flat) (rows : m.rows = first :: rest)
      (tested : first.tested? = some i) (here : m.cols[i]? = some col)
      (switched : m.family ctx.decls ctx.options i = .ok family)
      (tests : cases.map Case.test = family.1) (missing : otherwise = none ↔ family.2 = [])
      (passed : ∀ c ∈ cases, ∀ sub, m.specialize ctx.decls i c.test = .ok sub →
        Grown ctx floats sub (⟨i, c.test.arity, .test col.type c.test⟩ :: frames) c.tree)
      (missed : ∀ tree, otherwise = some tree → ∀ sub, m.without i = .ok sub →
        Grown ctx floats sub (⟨i, 0, .missing family.2⟩ :: frames) tree) :
      Grown ctx floats m frames (.switch col.path col.type cases otherwise)

section

variable {decls : Decls}

/-- A frame whose columns are among so many, and whose pattern can be built from theirs. -/
structure Frame.Sound (decls : Decls) (f : Frame) (width : Nat) : Prop where
  inside : f.col + f.arity ≤ width
  builds : ∀ args : List Pattern, args.length = f.arity → ∃ built, Frame.build decls args f.form = .ok built

/-- Frames that lead back from so many columns. -/
def Framed (decls : Decls) : List Frame → Nat → Prop
  | [], _ => True
  | f :: rest, width => f.Sound decls width ∧ Framed decls rest (width - f.arity + 1)

theorem Frame.undoAll_eq {f : Frame} {width : Nat} (sound : f.Sound decls width)
    {vectors : List (List Pattern)} (sized : ∀ v ∈ vectors, v.length = width) :
    ∃ undone, f.undoAll decls vectors = .ok undone ∧ ∀ v ∈ undone, v.length = width - f.arity + 1 := by
  induction vectors with
  | nil => exact ⟨[], rfl, by simp⟩
  | cons vector vectors ih =>
    have inside := sound.inside
    have length := sized vector (by simp)
    obtain ⟨undone, later, lengths⟩ := ih fun v member => sized v (by simp [member])
    obtain ⟨built, first⟩ := sound.builds ((vector.drop f.col).take f.arity) (by simp; omega)
    have wide : ¬ vector.length < f.col + f.arity := by omega
    refine ⟨built.map (fun p => vector.take f.col ++ [p] ++ vector.drop (f.col + f.arity)) ++ undone,
      ?_, ?_⟩
    · simp [undoAll, undo, wide, first, later, bind, Except.bind, pure, Except.pure]
    · intro v member
      rcases List.mem_append.mp member with new | old
      · obtain ⟨p, -, rfl⟩ := List.mem_map.mp new
        simp
        omega
      · exact lengths v old

theorem Frame.unwind_eq {frames : List Frame} {width : Nat} (framed : Framed decls frames width)
    {vectors : List (List Pattern)} (sized : ∀ v ∈ vectors, v.length = width) :
    ∃ unwound, Frame.unwind decls frames vectors = .ok unwound := by
  induction frames generalizing width vectors with
  | nil => exact ⟨vectors, rfl⟩
  | cons f rest ih =>
    obtain ⟨sound, later⟩ := framed
    obtain ⟨undone, equal, lengths⟩ := undoAll_eq sound sized
    have shorter : ∀ v ∈ undone.take limit, v.length = width - f.arity + 1 :=
      fun v member => lengths v (List.mem_of_mem_take member)
    obtain ⟨unwound, result⟩ := ih later shorter
    exact ⟨unwound, by simp [unwind, equal, result, bind, Except.bind]⟩

theorem Frame.witnesses_eq {frames : List Frame} {width : Nat} (framed : Framed decls frames width) :
    ∃ witnesses, Frame.witnesses decls frames width = .ok witnesses := by
  have sized : ∀ v ∈ [List.replicate width (Pattern.wildcard default)], v.length = width := by simp
  obtain ⟨unwound, equal⟩ := unwind_eq framed sized
  exact ⟨_, by simp only [witnesses, equal, bind, Except.bind]; rfl⟩

theorem sound_product (decls : Decls) (col : Column) {i width : Nat}
    (inside : i + (Matrix.parts decls col).length ≤ width) :
    Frame.Sound decls ⟨i, (Matrix.parts decls col).length, .product col.type⟩ width := by
  refine ⟨inside, fun args sized => ?_⟩
  simp only [Matrix.parts] at sized
  cases same : col.type with
  | struct name typeArgs =>
    have enough : ¬ (decls.fields name typeArgs).length < args.length := by
      simp [sized, same]
    exact ⟨_, by simp only [Frame.build, Frame.productPattern, enough, if_false, bind, Except.bind]; rfl⟩
  | ref mutable target =>
    cases args with
    | nil => simp [same] at sized
    | cons inner rest => exact ⟨[inner], rfl⟩
  | _ => exact ⟨_, rfl⟩

theorem sound_test {col : Column} {test : Test} (suits : test.Suits decls col.type) {i width : Nat}
    (inside : i + test.arity ≤ width) : Frame.Sound decls ⟨i, test.arity, .test col.type test⟩ width := by
  refine ⟨inside, fun args sized => ?_⟩
  cases test with
  | variant v =>
    obtain ⟨name, typeArgs, d, same, known, -⟩ := suits
    exact ⟨_, by simp only [Frame.build, Frame.testPattern, same, known, bind, Except.bind]; rfl⟩
  | _ => exact ⟨_, rfl⟩

theorem sound_missing (patterns : List Pattern) {i width : Nat} (inside : i ≤ width) :
    Frame.Sound decls ⟨i, 0, .missing patterns⟩ width :=
  ⟨inside, fun _ _ => ⟨patterns, rfl⟩⟩

/-- A frame for a replaced column leads back to as many columns as there were. -/
theorem Framed.splice {m : Matrix} {i : Nat} {col : Column} {frames : List Frame} {f : Frame}
    {sub : List Column} {change : Shape → Option (List Shape × List Extraction)}
    (framed : Framed decls frames m.cols.length) (here : m.cols[i]? = some col)
    (arity : f.arity = sub.length)
    (sound : ∀ width, i + sub.length ≤ width → f.Sound decls width) :
    Framed decls (f :: frames) (m.spliced i sub change).cols.length := by
  have inside : i < m.cols.length := (List.getElem?_eq_some_iff.mp here).1
  have width : (m.spliced i sub change).cols.length = m.cols.length - 1 + sub.length := by
    simp [Matrix.spliced]
    omega
  rw [width]
  refine ⟨sound _ (by omega), ?_⟩
  have back : m.cols.length - 1 + sub.length - f.arity + 1 = m.cols.length := by omega
  rwa [back]

end

theorem Matrix.mem_column {m : Matrix} {i : Nat} {s : Shape} :
    s ∈ m.column i ↔ ∃ r ∈ m.rows, r.pats[i]? = some s := List.mem_filterMap

/-- A matrix is flat if it is spread and no row takes a column apart as a product. -/
theorem Matrix.spread_flat {decls : Decls} {floats : Bool} {m : Matrix} (fit : m.Fits decls floats)
    (none : m.spread.productColumn? = none) : m.spread.Flat := by
  intro i s inColumn
  obtain ⟨r, member, shape⟩ := Matrix.mem_column.mp inColumn
  have inside : i < m.spread.cols.length := by
    rw [← (Matrix.spread_fits fit).width member]
    exact (List.getElem?_eq_some_iff.mp shape).1
  have others := List.find?_eq_none.mp none i (List.mem_range.mpr inside)
  refine ⟨Matrix.spread_column fit i s inColumn, ?_⟩
  simpa using fun product => others (List.any_eq_true.mpr ⟨s, inColumn, product⟩)

section

variable {ctx : Context} {floats : Bool}

/-- What normalization yields: a flat matrix that is no heavier, and whose trees are trees of the
matrix at the start. -/
theorem normalizeWithin_eq (fuel : Nat) : ∀ {m : Matrix} {frames : List Frame},
    m.Fits ctx.decls floats → m.weight < fuel → Framed ctx.decls frames m.cols.length →
    ∃ m' frames', ctx.normalizeWithin fuel m frames = .ok (m', frames') ∧
      m'.Fits ctx.decls floats ∧ m'.Flat ∧ m'.weight ≤ m.weight ∧
      Framed ctx.decls frames' m'.cols.length ∧
      ∀ tree, Grown ctx floats m' frames' tree → Grown ctx floats m frames tree := by
  induction fuel with
  | zero =>
    intro m frames _ light
    omega
  | succ fuel ih =>
    intro m frames fit light framed
    have spreadFit := Matrix.spread_fits fit
    have heads := Matrix.spread_column fit
    have lighter := m.spread_weight
    simp only [Context.normalizeWithin]
    cases found : m.spread.productColumn? with
    | none =>
      exact ⟨m.spread, frames, rfl, spreadFit, Matrix.spread_flat fit found, lighter, framed,
        fun tree grown => .spread fit grown⟩
    | some i =>
      have inside := List.mem_range.mp (List.mem_of_find?_eq_some found)
      have here := List.getElem?_eq_getElem inside
      have product : ∃ s ∈ m.spread.column i, s.isProduct = true := by
        simpa using List.find?_some found
      have expanded := Matrix.expand_eq spreadFit here
      have smaller := (m.spread.expand_weight ctx.decls i m.spread.cols[i]).2 product
      obtain ⟨m', frames', equal, fit', flat, light', framed', grown⟩ :=
        ih (Matrix.expand_fits spreadFit (heads i) here) (by omega)
          (Framed.splice framed here rfl fun width wide => sound_product ctx.decls _ wide)
      refine ⟨m', frames', ?_, fit', flat, by omega, framed', fun tree below => ?_⟩
      · simp only [Matrix.column?_eq here, expanded, bind, Except.bind]
        exact equal
      · exact .spread fit (.expand spreadFit (heads i) here product expanded (grown tree below))

theorem mapM_eq {α β ε : Type} {f : α → Except ε β} {R : α → β → Prop} {list : List α}
    (each : ∀ a ∈ list, ∃ b, f a = .ok b ∧ R a b) :
    ∃ out, list.mapM f = .ok out ∧ List.Forall₂ R list out := by
  induction list with
  | nil => exact ⟨[], rfl, .nil⟩
  | cons a list ih =>
    obtain ⟨b, first, related⟩ := each a (by simp)
    obtain ⟨out, later, others⟩ := ih fun a' member => each a' (by simp [member])
    exact ⟨b :: out, by simp [first, later, bind, Except.bind, pure, Except.pure], .cons related others⟩

theorem forall₂_mem_right {α β : Type} {R : α → β → Prop} {l : List α} {l' : List β}
    (related : List.Forall₂ R l l') {b : β} (member : b ∈ l') : ∃ a ∈ l, R a b := by
  obtain ⟨i, here⟩ := List.mem_iff_getElem?.mp member
  have inside : i < l.length := by
    rw [related.length_eq]
    exact (List.getElem?_eq_some_iff.mp here).1
  exact ⟨l[i], List.getElem_mem inside, forall₂_get? related (List.getElem?_eq_getElem inside) here⟩

theorem Row.mem_tested {r : Row} {i : Nat} (tested : r.tested? = some i) :
    ∃ s, r.pats[i]? = some s ∧ s.isAny = false := by
  obtain ⟨inside, tests⟩ := List.findIdx?_eq_some_iff_getElem.mp tested
  exact ⟨r.pats[i], by simp [inside], by simpa using tests.1⟩

/-- The matrices below so much weight grow into trees. -/
def Grows (ctx : Context) (floats : Bool) (fuel : Nat) : Prop :=
  ∀ {m : Matrix} {frames : List Frame}, m.Fits ctx.decls floats → m.weight < fuel →
    Framed ctx.decls frames m.cols.length →
    ∃ tree, ctx.treeWithin fuel m frames = .ok tree ∧ Grown ctx floats m frames tree

section

variable {m : Matrix} {frames : List Frame} {i : Nat} {col : Column} {fuel : Nat}

theorem cases_eq (regular : ctx.decls.Regular) (grows : Grows ctx floats fuel)
    (fit : m.Fits ctx.decls floats) (light : m.weight ≤ fuel)
    (framed : Framed ctx.decls frames m.cols.length) (here : m.cols[i]? = some col)
    (column : ∃ s ∈ m.column i, s.isAny = false) {tests : List Test}
    (suits : ∀ test ∈ tests, test.Suits ctx.decls col.type) :
    ∃ cases, tests.mapM (fun test => do
        let sub ← m.specialize ctx.decls i test
        return Case.mk test (← ctx.treeWithin fuel sub
          (⟨i, test.arity, .test col.type test⟩ :: frames))) = .ok cases ∧
      List.Forall₂ (fun test c => c.test = test ∧ ∀ sub, m.specialize ctx.decls i test = .ok sub →
        Grown ctx floats sub (⟨i, test.arity, .test col.type test⟩ :: frames) c.tree) tests cases := by
  refine mapM_eq fun test member => ?_
  obtain ⟨sub, opened, sized, -⟩ := Test.columns_eq (suits test member)
  have specialized := Matrix.specialize_eq fit here opened
  have lighter := (m.specialize_weight i col test sub).2 column
  obtain ⟨tree, equal, grown⟩ :=
    grows (Matrix.specialize_fits regular fit here (suits test member) opened) (by omega)
      (Framed.splice framed here sized.symm fun width wide =>
        sound_test (suits test member) (sized ▸ wide))
  refine ⟨.mk test tree, ?_, rfl, fun sub' known => ?_⟩
  · simp only [specialized, equal, bind, Except.bind]
    rfl
  · obtain rfl := Except.ok.inj (specialized.symm.trans known)
    exact grown

theorem otherwise_eq (grows : Grows ctx floats fuel) (fit : m.Fits ctx.decls floats)
    (light : m.weight ≤ fuel) (framed : Framed ctx.decls frames m.cols.length)
    (here : m.cols[i]? = some col) (column : ∃ s ∈ m.column i, s.isAny = false)
    (patterns : List Pattern) :
    ∃ sub tree, m.without i = .ok sub ∧
      ctx.treeWithin fuel sub (⟨i, 0, .missing patterns⟩ :: frames) = .ok tree ∧
      Grown ctx floats sub (⟨i, 0, .missing patterns⟩ :: frames) tree := by
  have lighter := (m.without_weight i col).2 column
  obtain ⟨tree, equal, grown⟩ := grows (Matrix.without_fits fit here) (by omega)
    (Framed.splice framed here rfl fun width wide => sound_missing patterns (by simpa using wide))
  exact ⟨_, tree, Matrix.without_eq fit here, equal, grown⟩

end

/-- Every matrix whose shapes suit its columns grows into a tree before the fuel is used up. -/
theorem treeWithin_eq (regular : ctx.decls.Regular) (fuel : Nat) : Grows ctx floats fuel := by
  induction fuel with
  | zero =>
    intro m frames _ light
    omega
  | succ fuel ih =>
    intro m₀ frames₀ fit₀ light framed₀
    obtain ⟨m, frames, normalized, fit, flat, lighter, framed, grown⟩ :=
      normalizeWithin_eq (m₀.weight + 1) fit₀ (Nat.lt_succ_self _) framed₀
    simp only [Context.treeWithin, Context.normalize, normalized, bind, Except.bind]
    cases rows : m.rows with
    | nil =>
      obtain ⟨witnesses, shown⟩ := Frame.witnesses_eq framed
      exact ⟨.fail witnesses, by simp only [shown]; rfl, grown _ (.fail rows shown)⟩
    | cons first rest =>
      have heavy := first.weight_pos
      have sum : m.weight = first.weight + Row.weightAll rest := by rw [Matrix.weight, rows]; rfl
      cases tested : first.tested? with
      | none =>
        cases unsure : first.guarded with
        | false =>
          refine ⟨_, ?_, grown _ (.leaf fit rows tested unsure)⟩
          simp only [tested, unsure]
          rfl
        | true =>
          have fewer : Matrix.Fits ctx.decls floats { m with rows := rest } :=
            fun r member => fit r (by rw [rows]; exact List.mem_cons_of_mem _ member)
          have lightRest : Matrix.weight { m with rows := rest } < fuel := by
            show Row.weightAll rest < fuel
            omega
          obtain ⟨next, equal, below⟩ := ih fewer lightRest framed
          refine ⟨.leaf first.arm (first.bindings m.cols) (some next), ?_,
            grown _ (.guarded fit rows tested unsure below)⟩
          simp only [tested, unsure, equal]
          rfl
      | some i =>
        have member : first ∈ m.rows := by simp [rows]
        obtain ⟨s, shape, tests⟩ := Row.mem_tested tested
        have inside : i < m.cols.length := by
          rw [← fit.width member]
          exact (List.getElem?_eq_some_iff.mp shape).1
        have here := List.getElem?_eq_getElem inside
        have column : ∃ s ∈ m.column i, s.isAny = false :=
          ⟨s, Matrix.mem_column.mpr ⟨first, member, shape⟩, tests⟩
        obtain ⟨family, switched, known⟩ := Matrix.family_eq ctx.options fit here
          (flat.heads i) fun s inColumn => (flat i s inColumn).2
        have suits := known.suits fun s inColumn => fit.column here inColumn
        obtain ⟨cases, equal, each⟩ := cases_eq regular ih fit (by omega) framed here column suits
        have mapped : cases.map Case.test = family.1 := by
          have same := List.forall₂_map_right_iff.mpr (each.imp fun _ _ known => known.1.symm)
          exact (List.forall₂_eq_eq_eq ▸ same).symm
        have passed : ∀ c ∈ cases, ∀ sub, m.specialize ctx.decls i c.test = .ok sub →
            Grown ctx floats sub
              (⟨i, c.test.arity, .test m.cols[i].type c.test⟩ :: frames) c.tree := by
          intro c inside
          obtain ⟨_, -, rfl, below⟩ := forall₂_mem_right each inside
          exact below
        simp only [bind, Except.bind] at equal
        cases empty : family.2.isEmpty with
        | true =>
          have complete : family.2 = [] := List.isEmpty_iff.mp empty
          refine ⟨.switch m.cols[i].path m.cols[i].type cases none, ?_,
            grown _ (.switch fit flat rows tested here switched mapped
              (by simp [complete]) passed (by simp))⟩
          simp only [tested, Matrix.column?_eq here, switched, equal, empty]
          rfl
        | false =>
          obtain ⟨sub, tree, without, below, missed⟩ :=
            otherwise_eq ih fit (by omega) framed here column family.2
          have shown : family.2 ≠ [] := by
            intro complete
            simp [complete] at empty
          refine ⟨.switch m.cols[i].path m.cols[i].type cases (some tree), ?_,
            grown _ (.switch fit flat rows tested here switched mapped
              (by simp [shown]) passed ?_)⟩
          · simp only [tested, Matrix.column?_eq here, switched, equal, empty, without, below]
            rfl
          · rintro _ ⟨⟩ sub' known
            obtain rfl := Except.ok.inj (without.symm.trans known)
            exact missed

theorem tree_eq (regular : ctx.decls.Regular) {m : Matrix} (fit : m.Fits ctx.decls floats) :
    ∃ tree, ctx.tree m = .ok tree ∧ Grown ctx floats m [] tree :=
  treeWithin_eq regular (m.weight + 1) fit (Nat.lt_succ_self _) trivial

end

end TreeCheck.Match
