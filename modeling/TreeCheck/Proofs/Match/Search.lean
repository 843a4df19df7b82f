import TreeCheck.Proofs.Match.Growth

/-!
The search for useful rows ends. What a step comes down to is described once, for all that is shown about
it. Every step makes the matrix lighter or the row smaller, and none of them meets a shape that does not
suit its column; so compilation of any arms yields a decision.
-/

namespace TreeCheck.Match

section
-- The equations of these definitions are made here once, so that no proof below waits while another makes them.
attribute [local simp] Context.unreachableAfter Context.usefulStep Shape.size Shape.sizeAll Matrix.Fits anyM compile
end

namespace Shape

theorem sizeAll_append (a b : List Shape) : sizeAll (a ++ b) = sizeAll a + sizeAll b := by
  induction a with
  | nil => simp [sizeAll]
  | cons s a ih => simp [sizeAll, ih, Nat.add_assoc]

theorem size_le_sizeAll {s : Shape} {shapes : List Shape} (member : s ∈ shapes) :
    s.size ≤ sizeAll shapes := by
  induction shapes with
  | nil => simp at member
  | cons head rest ih =>
    simp only [sizeAll]
    rcases List.mem_cons.mp member with rfl | later
    · omega
    · have := ih later
      omega

theorem sizeAll_wilds (count : Nat) : sizeAll (wilds count) = 0 := by
  induction count with
  | zero => rfl
  | succ count ih =>
    rw [wilds] at ih
    rw [wilds, List.replicate_succ, sizeAll, ih]
    rfl

theorem sizeAll_fit (shapes : List Shape) (count : Nat) : sizeAll (fit shapes count) ≤ sizeAll shapes := by
  have whole := sizeAll_append (shapes.take count) (shapes.drop count)
  rw [List.take_append_drop] at whole
  rw [fit, sizeAll_append, sizeAll_wilds]
  omega

end Shape

theorem Specialized.size_lt {test : Test} {s : Shape} {shapes : List Shape}
    (specialized : Specialized test s shapes) : Shape.sizeAll shapes < s.size := by
  cases specialized with
  | constant _ plain =>
    cases s <;> simp [Shape.isConstant] at plain <;> simp [Shape.sizeAll, Shape.size]
  | @variant v w args same =>
    have := Shape.sizeAll_fit args v.arity
    simp only [Shape.size]
    omega
  | @list test front isOpen rest measured fewer =>
    have := Shape.sizeAll_fit front test.arity
    simp only [Shape.size]
    omega

/-- Taking a shape apart leaves less of it, unless it is no product: then nothing is left. -/
theorem partShapes_size (s : Shape) (count : Nat) :
    if s.isProduct then Shape.sizeAll (Matrix.partShapes count s) < s.size
    else Shape.sizeAll (Matrix.partShapes count s) = 0 := by
  cases s <;> simp only [Shape.isProduct, Matrix.partShapes, if_true, Bool.false_eq_true, if_false,
    Shape.sizeAll_wilds]
  case product args =>
    have := Shape.sizeAll_fit args count
    simp only [Shape.size]
    omega
  case target inner =>
    have := Shape.sizeAll_fit [inner] count
    simp only [Shape.sizeAll] at this
    simp only [Shape.size]
    omega

theorem anyM_eq {α : Type} {test : α → Except Failure Bool} {list : List α}
    (each : ∀ a ∈ list, ∃ b, test a = .ok b) : ∃ b, anyM test list = .ok b := by
  induction list with
  | nil => exact ⟨false, rfl⟩
  | cons a list ih =>
    obtain ⟨b, first⟩ := each a (by simp)
    obtain ⟨later, rest⟩ := ih fun a' member => each a' (by simp [member])
    cases b with
    | true => exact ⟨true, by simp only [anyM, first, bind, Except.bind]; rfl⟩
    | false => exact ⟨later, by simp only [anyM, first, bind, Except.bind]; exact rest⟩

theorem anyM_congr {α : Type} {test test' : α → Except Failure Bool} {list : List α}
    (same : ∀ a ∈ list, test a = test' a) : anyM test list = anyM test' list := by
  induction list with
  | nil => rfl
  | cons a list ih =>
    have first := same a (by simp)
    have rest := ih fun a' member => same a' (by simp [member])
    rw [anyM, anyM, first, rest]

namespace Matrix

/-- A matrix whose first shapes are spread, without the alternatives under a guard. -/
def sure (m : Matrix) : Matrix := { m with rows := m.rows.flatMap Row.sureHead }

variable {decls : Decls} {floats : Bool} {m : Matrix}

theorem mem_sureHeads {s head : Shape} (member : head ∈ s.sureHeads) : (false, head) ∈ s.heads := by
  obtain ⟨⟨unsure, other⟩, inside, kept⟩ := List.mem_filterMap.mp member
  cases unsure <;> simp at kept
  exact kept ▸ inside

theorem mem_sureHead {r r' : Row} (member : r' ∈ r.sureHead) :
    r' = r ∧ r.pats = [] ∨ ∃ head s rest, r.pats = head :: rest ∧ (false, s) ∈ head.heads ∧
      r'.pats = s :: rest := by
  unfold Row.sureHead at member
  cases pats : r.pats with
  | nil =>
    rw [pats] at member
    exact Or.inl ⟨List.mem_singleton.mp member, rfl⟩
  | cons head rest =>
    rw [pats] at member
    obtain ⟨s, inside, rfl⟩ := List.mem_map.mp member
    exact Or.inr ⟨head, s, rest, rfl, mem_sureHeads inside, rfl⟩

theorem sure_fits (fit : m.Fits decls floats) : m.sure.Fits decls floats := by
  intro r' member
  obtain ⟨r, inside, chosen⟩ := List.mem_flatMap.mp member
  have whole := fit r inside
  rcases mem_sureHead chosen with ⟨rfl, -⟩ | ⟨head, s, rest, pats, alternative, pats'⟩
  · exact whole
  · rw [pats] at whole
    rw [pats']
    obtain ⟨t, types, first, later, same⟩ := List.forall₂_cons_left_iff.mp whole
    rw [sure, same]
    exact .cons (Shape.heads_fits head t first _ alternative).2 later

theorem sure_column (fit : m.Fits decls floats) : ∀ s ∈ m.sure.column 0, s.isHead = true := by
  intro s inColumn
  obtain ⟨r', member, shape⟩ := mem_column.mp inColumn
  obtain ⟨r, inside, chosen⟩ := List.mem_flatMap.mp member
  rcases mem_sureHead chosen with ⟨rfl, empty⟩ | ⟨head, first, rest, pats, alternative, pats'⟩
  · simp [empty] at shape
  · obtain rfl : first = s := by simpa [pats'] using shape
    have whole := fit r inside
    rw [pats] at whole
    obtain ⟨t, types, fits, -, -⟩ := List.forall₂_cons_left_iff.mp whole
    exact (Shape.heads_fits head t fits _ alternative).1

theorem sureHeads_weight (r : Row) (heads : List (Bool × Shape)) (rest : List Shape) :
    Row.weightAll ((heads.filterMap fun (unsure, head) => if unsure then none else some head).map
      fun s => { r with pats := s :: rest }) ≤ Shape.headsWeight heads * Shape.countProduct rest +
        Shape.headsCount heads * (Shape.weightProduct rest + Shape.countProduct rest) := by
  induction heads with
  | nil => simp [Row.weightAll]
  | cons head heads ih =>
    obtain ⟨unsure, s⟩ := head
    have split : Shape.headsWeight ((unsure, s) :: heads) = s.weight + Shape.headsWeight heads ∧
        Shape.headsCount ((unsure, s) :: heads) = s.count + Shape.headsCount heads := by
      simp [Shape.headsWeight, Shape.headsCount]
    rw [split.1, split.2, Nat.add_mul, Nat.add_mul]
    cases unsure with
    | true =>
      simp only [List.filterMap_cons, if_true] at ih ⊢
      omega
    | false =>
      simp only [List.filterMap_cons, Bool.false_eq_true, if_false, List.map_cons, Row.weightAll,
        Row.weight, Shape.weightProduct, Shape.countProduct] at ih ⊢
      rw [Nat.mul_add s.count]
      omega

theorem sure_weight (m : Matrix) : m.sure.weight ≤ m.weight := by
  refine Row.weightAll_flatMap fun r _ => ?_
  unfold Row.sureHead
  cases pats : r.pats with
  | nil => simp [Row.weightAll]
  | cons head rest =>
    obtain ⟨weights, counts⟩ := Shape.heads_weight head
    have total := sureHeads_weight r head.heads rest
    rw [weights] at total
    refine Nat.le_trans total ?_
    rw [Row.weight, pats, Shape.weightProduct, Shape.countProduct]
    have fewer := Nat.mul_le_mul_right (Shape.weightProduct rest + Shape.countProduct rest) counts
    rw [Nat.mul_add, Nat.mul_add] at fewer
    rw [Nat.mul_add]
    omega

theorem family_untested {options : Options} {i : Nat} {col : Column} (here : m.cols[i]? = some col)
    (all : ∀ s ∈ m.column i, s.isAny = true) :
    m.family decls options i = .ok ([], [.wildcard default]) := by
  have none : ((m.column i).find? fun s => !s.isAny) = none := by
    rw [List.find?_eq_none]
    intro s member
    simp [all s member]
  simp only [family, column?_eq here, none, bind, Except.bind]
  rfl

end Matrix

section

variable {ctx : Context} {floats : Bool}

def Ends (ctx : Context) (floats : Bool) (search : Matrix → List Shape → Except Failure Bool)
    (bound : Nat) : Prop :=
  ∀ {m : Matrix} {row : List Shape}, m.Fits ctx.decls floats →
    List.Forall₂ (Shape.Fits ctx.decls floats) row (m.cols.map Column.type) →
    m.weight + Shape.sizeAll row < bound → ∃ b, search m row = .ok b

theorem first_column {m : Matrix} {head : Shape} {rest : List Shape}
    (suits : List.Forall₂ (Shape.Fits ctx.decls floats) (head :: rest) (m.cols.map Column.type)) :
    ∃ col cols, m.cols = col :: cols ∧ Shape.Fits ctx.decls floats head col.type ∧
      List.Forall₂ (Shape.Fits ctx.decls floats) rest (cols.map Column.type) := by
  obtain ⟨t, types, first, later, same⟩ := List.forall₂_cons_left_iff.mp suits
  obtain ⟨col, cols, known, rfl, rfl⟩ := List.map_eq_cons_iff.mp same
  exact ⟨col, cols, known, first, later⟩

theorem map_type_spliced {m : Matrix} {col : Column} {cols sub : List Column}
    (known : m.cols = col :: cols) (change : Shape → Option (List Shape × List Extraction)) :
    (m.spliced 0 sub change).cols.map Column.type = sub.map Column.type ++ cols.map Column.type := by
  simp [Matrix.spliced, known]

/-- The step for a head, after the rows are spread at the first column. -/
theorem usefulStep_head {search : Matrix → List Shape → Except Failure Bool} {m : Matrix} {head : Shape}
    (isHead : head.isHead = true) (rest : List Shape) (some : m.rows.isEmpty = false) :
    ctx.usefulStep search m (head :: rest) =
      if m.sure.rows.isEmpty then .ok true
      else if head.isProduct || (m.sure.column 0).any Shape.isProduct then
        (m.sure.expand ctx.decls 0).bind fun (sub, arity) =>
          search sub (Matrix.partShapes arity head ++ rest)
      else (Matrix.family ⟨m.sure.cols, m.sure.rows ++ [{ pats := head :: rest }]⟩ ctx.decls
          ctx.options 0).bind fun (tests, missing) =>
        if !head.isAny then
          anyM (fun test => match test.specialize? [] head with
            | .some (args, _) => (m.sure.specialize ctx.decls 0 test).bind fun sub =>
              search sub (args ++ rest)
            | none => .ok false) tests
        else if missing.isEmpty && !tests.isEmpty then
          anyM (fun test => (m.sure.specialize ctx.decls 0 test).bind fun sub =>
            search sub (Shape.wilds test.arity ++ rest)) tests
        else (m.sure.without 0).bind fun sub => ctx.usefulStep search sub rest := by
  cases head <;> simp [Shape.isHead] at isHead <;>
    simp only [Context.usefulStep, some, Bool.false_eq_true, if_false] <;> rfl

/-- The search behind a test goes on with what the test leaves of the rows and of the head. -/
def Context.behind (ctx : Context) (search : Matrix → List Shape → Except Failure Bool) (m : Matrix)
    (col : Column) (head : Shape) (rest : List Shape) (test : Test) : Except Failure Bool :=
  (test.columns ctx.decls col).bind fun sub => match passShape col test sub.length head with
    | some (args, _) => search (m.spliced 0 sub (passShape col test sub.length)) (args ++ rest)
    | none => .ok false

/-- What a step of the search comes down to, for a row with a shape in the first column. -/
inductive Stepped (ctx : Context) (floats : Bool) (search : Matrix → List Shape → Except Failure Bool)
    (m : Matrix) (col : Column) (head : Shape) (rest : List Shape) : Except Failure Bool → Prop
  /-- No row is left that can match for sure. -/
  | unmatched (empty : m.sure.rows = []) : Stepped ctx floats search m col head rest (.ok true)
  | choice {alternatives : List Shape} (shape : head = .choice alternatives) :
      Stepped ctx floats search m col head rest (anyM (fun s => search m (s :: rest)) alternatives)
  | guarded {inner : Shape} (shape : head = .guarded inner) :
      Stepped ctx floats search m col head rest (search m (inner :: rest))
  | expanded (isHead : head.isHead = true)
      (product : head.isProduct = true ∨ ∃ s ∈ m.sure.column 0, s.isProduct = true) :
      Stepped ctx floats search m col head rest
        (search (m.sure.spliced 0 (Matrix.parts ctx.decls col) (openShape ctx.decls col))
          (Matrix.partShapes (Matrix.parts ctx.decls col).length head ++ rest))
  /-- The column or the head tests something, and the head passes no value that is missing. -/
  | switched {family : List Test × List Pattern} (isHead : head.isHead = true)
      (switch : FamilyOf ctx.decls ctx.options floats col.type (m.sure.column 0 ++ [head]) family)
      (tested : ∃ key ∈ m.sure.column 0 ++ [head], key.isAny = false)
      (whole : head.isAny = true → family.2 = []) :
      Stepped ctx floats search m col head rest (anyM (ctx.behind search m.sure col head rest) family.1)
  | skipped {family : List Test × List Pattern} (any : head.isAny = true)
      (switch : FamilyOf ctx.decls ctx.options floats col.type (m.sure.column 0 ++ [head]) family)
      (silent : family.2 = [] → family.1 = []) :
      Stepped ctx floats search m col head rest
        (ctx.usefulStep search (m.sure.spliced 0 [] (missShape col)) rest)

theorem Test.specialize?_path (p q : Path) (test : Test) (s : Shape) :
    (test.specialize? p s).map Prod.fst = (test.specialize? q s).map Prod.fst := by
  have opened (count : Nat) (front : List Shape) (rest : Option String) :
      (specialize?.openList p count front rest).map Prod.fst =
        (specialize?.openList q count front rest).map Prod.fst := by
    simp only [specialize?.openList]
    split <;> rfl
  fun_cases Test.specialize? p test s <;> simp_all [Test.specialize?]

section

variable {search : Matrix → List Shape → Except Failure Bool} {bound : Nat} {m : Matrix} {head : Shape}
variable {rest : List Shape} {col : Column} {cols : List Column}

section

variable (fit : m.Fits ctx.decls floats) (known : m.cols = col :: cols) {test : Test}
variable (suits : test.Suits ctx.decls col.type)

include fit known suits

/-- A head that tests something leaves the same behind a test, wherever it stands. -/
theorem behind_tested (search : Matrix → List Shape → Except Failure Bool) (rest : List Shape)
    (tests : head.isAny = false) : (match test.specialize? [] head with
      | some (args, _) => (m.specialize ctx.decls 0 test).bind fun sub => search sub (args ++ rest)
      | none => .ok false) = ctx.behind search m col head rest test := by
  obtain ⟨sub, opened, -, -⟩ := Test.columns_eq suits
  have here : m.cols[0]? = some col := by simp [known]
  have same := Test.specialize?_path [] col.path test head
  have passed : passShape col test sub.length head = test.specialize? col.path head := by
    rw [passShape, if_neg (by simp [tests])]
  rw [Context.behind, opened, Except.bind, Matrix.specialize_eq fit here opened, passed]
  rcases first : test.specialize? [] head with _ | ⟨args, binds⟩
  · have refused : test.specialize? col.path head = none := by simpa [first] using same.symm
    simp only [refused]
  · obtain ⟨⟨args', binds'⟩, admitted, rfl⟩ : ∃ result, test.specialize? col.path head = some result ∧
        result.1 = args := by simpa [first] using same.symm
    simp only [admitted, Except.bind]

theorem behind_any (search : Matrix → List Shape → Except Failure Bool) (rest : List Shape)
    (any : head.isAny = true) :
    ((m.specialize ctx.decls 0 test).bind fun sub => search sub (Shape.wilds test.arity ++ rest)) =
      ctx.behind search m col head rest test := by
  obtain ⟨sub, opened, sized, -⟩ := Test.columns_eq suits
  have here : m.cols[0]? = some col := by simp [known]
  rw [Context.behind, opened, Except.bind, Matrix.specialize_eq fit here opened, Except.bind, ← sized]
  simp only [passShape, any, if_true]

end

theorem family_both (fit : m.Fits ctx.decls floats) (known : m.cols = col :: cols)
    (heads : ∀ s ∈ m.column 0, s.isHead = true) (flat : ∀ s ∈ m.column 0, s.isProduct = false)
    (first : Shape.Fits ctx.decls floats head col.type) (isHead : head.isHead = true)
    (single : head.isProduct = false)
    (later : List.Forall₂ (Shape.Fits ctx.decls floats) rest (cols.map Column.type)) :
    ∃ tests missing, Matrix.family ⟨m.cols, m.rows ++ [{ pats := head :: rest }]⟩ ctx.decls ctx.options 0 =
        .ok (tests, missing) ∧
      FamilyOf ctx.decls ctx.options floats col.type (m.column 0 ++ [head]) (tests, missing) ∧
      (tests ≠ [] → ∃ s ∈ m.column 0 ++ [head], s.isAny = false) := by
  let both : Matrix := ⟨m.cols, m.rows ++ [{ pats := head :: rest }]⟩
  have here : both.cols[0]? = some col := by simp [both, known]
  have column : both.column 0 = m.column 0 ++ [head] := by simp [both, Matrix.column]
  have fits : both.Fits ctx.decls floats := by
    intro r inside
    rcases List.mem_append.mp inside with old | new
    · exact fit r old
    · obtain rfl := List.mem_singleton.mp new
      have suits : List.Forall₂ (Shape.Fits ctx.decls floats) (head :: rest)
          ((col :: cols).map Column.type) := .cons first later
      rwa [← known] at suits
  have every {P : Shape → Prop} (old : ∀ s ∈ m.column 0, P s) (new : P head) : ∀ s ∈ both.column 0, P s := by
    rw [column]
    exact List.forall_mem_append.mpr ⟨old, by simpa using new⟩
  obtain ⟨⟨tests, missing⟩, equal, family⟩ :=
    Matrix.family_eq ctx.options fits here (every heads isHead) (every flat single)
  rw [column] at family
  refine ⟨tests, missing, equal, family, ?_⟩
  intro some
  by_contra all
  have untested : both.family ctx.decls ctx.options 0 = .ok ([], [.wildcard default]) := by
    refine Matrix.family_untested here fun s member => ?_
    by_contra tests
    exact all ⟨s, column ▸ member, by simpa using tests⟩
  have same := Except.ok.inj (equal.symm.trans untested)
  exact some (congrArg Prod.fst same)

theorem usefulStep_stepped (fit : m.Fits ctx.decls floats) (known : m.cols = col :: cols)
    (first : Shape.Fits ctx.decls floats head col.type)
    (later : List.Forall₂ (Shape.Fits ctx.decls floats) rest (cols.map Column.type)) :
    Stepped ctx floats search m col head rest (ctx.usefulStep search m (head :: rest)) := by
  cases none : m.rows.isEmpty with
  | true =>
    have empty : m.sure.rows = [] := by simp [Matrix.sure, List.isEmpty_iff.mp none]
    have stop : ctx.usefulStep search m (head :: rest) = .ok true := by
      simp only [Context.usefulStep, none]
      rfl
    exact stop ▸ .unmatched empty
  | false =>
  by_cases isHead : head.isHead = true
  · have fit' := Matrix.sure_fits fit
    have heads := Matrix.sure_column fit
    have known' : m.sure.cols = col :: cols := known
    have here : m.sure.cols[0]? = some col := by simp [known']
    rw [usefulStep_head isHead rest none]
    split
    next empty => exact .unmatched (List.isEmpty_iff.mp empty)
    split
    next product =>
      rw [Matrix.expand_eq fit' here]
      exact .expanded isHead (by simpa using product)
    next flat =>
      obtain ⟨single, others⟩ : head.isProduct = false ∧
          ∀ s ∈ m.sure.column 0, s.isProduct = false := by simpa using flat
      obtain ⟨tests, missing, equal, switch, occur⟩ :=
        family_both fit' known' heads others first isHead single later
      have suits : ∀ test ∈ tests, test.Suits ctx.decls col.type := switch.suits <| List.forall_mem_append.mpr
        ⟨fun s member => fit'.column here member, by simpa using first⟩
      rw [equal, Except.bind]
      cases any : head.isAny with
      | false =>
        have same := anyM_congr fun test member =>
          behind_tested fit' known' (suits test member) search rest any
        simp only [Bool.not_false, if_true, same]
        exact .switched isHead switch ⟨head, by simp, any⟩ (by simp [any])
      | true =>
        simp only [Bool.not_true, Bool.false_eq_true, if_false]
        split
        next complete =>
          obtain ⟨no_missing, some⟩ : missing = [] ∧ tests ≠ [] := by simpa using complete
          rw [anyM_congr fun test member =>
            behind_any fit' known' (suits test member) search rest any]
          exact .switched isHead switch (occur some) fun _ => no_missing
        next incomplete =>
          rw [Matrix.without_eq fit' here, Except.bind]
          exact .skipped any switch (by simpa using incomplete)
  · cases head <;> simp [Shape.isHead] at isHead
    case choice alternatives =>
      have step : ctx.usefulStep search m (.choice alternatives :: rest) =
          anyM (fun s => search m (s :: rest)) alternatives := by
        simp only [Context.usefulStep, none]
        rfl
      exact step ▸ .choice rfl
    case guarded inner =>
      have step : ctx.usefulStep search m (.guarded inner :: rest) = search m (inner :: rest) := by
        simp only [Context.usefulStep, none]
        rfl
      exact step ▸ .guarded rfl

end

section

variable {search : Matrix → List Shape → Except Failure Bool} {bound : Nat} {m : Matrix} {head : Shape}
variable {rest : List Shape} {col : Column} {cols : List Column} (ends : Ends ctx floats search bound)
variable (fit : m.Fits ctx.decls floats) (known : m.cols = col :: cols)
variable (first : Shape.Fits ctx.decls floats head col.type)
variable (later : List.Forall₂ (Shape.Fits ctx.decls floats) rest (cols.map Column.type))
variable (small : m.weight + (head.size + Shape.sizeAll rest) ≤ bound)

include ends fit known first later small

theorem search_expanded (heads : ∀ s ∈ m.column 0, s.isHead = true) (isHead : head.isHead = true)
    (product : head.isProduct = true ∨ ∃ s ∈ m.column 0, s.isProduct = true) :
    ∃ b, search (m.spliced 0 (Matrix.parts ctx.decls col) (openShape ctx.decls col))
      (Matrix.partShapes (Matrix.parts ctx.decls col).length head ++ rest) = .ok b := by
  have here : m.cols[0]? = some col := by simp [known]
  have size := partShapes_size head (Matrix.parts ctx.decls col).length
  obtain ⟨lighter, strictly⟩ := m.expand_weight ctx.decls 0 col
  refine ends (Matrix.expand_fits fit heads here) ?_ ?_
  · rw [map_type_spliced known]
    exact List.rel_append (open_fits first isHead rfl) later
  · rw [Shape.sizeAll_append]
    rcases product with own | others
    · simp only [own, if_true] at size
      omega
    · have := strictly others
      split at size <;> omega

/-- Behind a test either the rows are lighter or less of the head is left. -/
theorem search_behind (regular : ctx.decls.Regular) {test : Test} (suits : test.Suits ctx.decls col.type)
    (tested : ∃ key ∈ m.column 0 ++ [head], key.isAny = false) :
    ∃ b, ctx.behind search m col head rest test = .ok b := by
  have here : m.cols[0]? = some col := by simp [known]
  obtain ⟨sub, opened, sized, types⟩ := Test.columns_eq suits
  obtain ⟨lighter, strictly⟩ := m.specialize_weight 0 col test sub
  rw [Context.behind, opened, Except.bind]
  cases changed : passShape col test sub.length head with
  | none => exact ⟨false, rfl⟩
  | some result =>
    obtain ⟨args, binds⟩ := result
    refine ends (Matrix.specialize_fits regular fit here suits opened) ?_ ?_
    · rw [map_type_spliced known, types]
      exact List.rel_append (pass_fits regular suits first (sized ▸ changed)) later
    · rw [Shape.sizeAll_append]
      cases any : head.isAny with
      | false =>
        have admitted : test.specialize? col.path head = some (args, binds) := by
          simpa [passShape, any] using changed
        have := (Test.specialized admitted).size_lt
        omega
      | true =>
        obtain ⟨rfl, -⟩ : Shape.wilds sub.length = args ∧ _ = binds := by
          simpa [passShape, any] using changed
        obtain ⟨key, member, tests⟩ := tested
        have others : key ∈ m.column 0 := by
          rcases List.mem_append.mp member with old | new
          · exact old
          · simp [List.mem_singleton.mp new, any] at tests
        have := strictly ⟨key, others, tests⟩
        rw [Shape.sizeAll_wilds]
        omega

end

theorem usefulStep_eq (regular : ctx.decls.Regular)
    {search : Matrix → List Shape → Except Failure Bool} {bound : Nat}
    (ends : Ends ctx floats search bound) (row : List Shape) : ∀ {m : Matrix}, m.Fits ctx.decls floats →
      List.Forall₂ (Shape.Fits ctx.decls floats) row (m.cols.map Column.type) →
      m.weight + Shape.sizeAll row ≤ bound → ∃ b, ctx.usefulStep search m row = .ok b := by
  induction row with
  | nil =>
    intro m _ _ _
    exact ⟨_, rfl⟩
  | cons head rest ih =>
    intro m fit suits small
    obtain ⟨col, cols, known, first, later⟩ := first_column suits
    simp only [Shape.sizeAll] at small
    have fit' := Matrix.sure_fits fit
    have known' : m.sure.cols = col :: cols := known
    have here : m.sure.cols[0]? = some col := by simp [known']
    have small' : m.sure.weight + (head.size + Shape.sizeAll rest) ≤ bound :=
      Nat.le_trans (Nat.add_le_add_right m.sure_weight _) small
    have step : Stepped ctx floats search m col head rest (ctx.usefulStep search m (head :: rest)) :=
      usefulStep_stepped fit known first later
    generalize ctx.usefulStep search m (head :: rest) = result at step
    cases step with
    | unmatched => exact ⟨true, rfl⟩
    | @choice alternatives shape =>
      subst shape
      simp only [Shape.size] at small
      refine anyM_eq fun s member => ends fit ?_ ?_
      · rw [known]
        exact .cons (Shape.fitsEach_iff.mp first s member) later
      · have := Shape.size_le_sizeAll member
        simp only [Shape.sizeAll]
        omega
    | @guarded inner shape =>
      subst shape
      simp only [Shape.size] at small
      have fits : Shape.Fits ctx.decls floats inner col.type := first
      refine ends fit (by rw [known]; exact .cons fits later) ?_
      simp only [Shape.sizeAll]
      omega
    | expanded isHead product =>
      exact search_expanded ends fit' known' first later small' (Matrix.sure_column fit) isHead product
    | @switched family isHead switch tested whole =>
      have suits : ∀ test ∈ family.1, test.Suits ctx.decls col.type := switch.suits <|
        List.forall_mem_append.mpr ⟨fun s member => fit'.column here member, by simpa using first⟩
      exact anyM_eq fun test member =>
        search_behind ends fit' known' first later small' regular (suits test member) tested
    | skipped =>
      have fewer := (m.sure.without_weight 0 col).1
      refine ih (Matrix.without_fits fit' here) ?_ (by omega)
      rw [map_type_spliced known']
      exact later

theorem usefulWithin_eq (regular : ctx.decls.Regular) (fuel : Nat) :
    Ends ctx floats (ctx.usefulWithin fuel) fuel := by
  induction fuel with
  | zero =>
    intro m row _ _ small
    omega
  | succ fuel ih =>
    intro m row fit suits small
    exact usefulStep_eq regular ih row fit suits (by omega)

theorem useful_eq (regular : ctx.decls.Regular) {m : Matrix} {row : List Shape}
    (fit : m.Fits ctx.decls floats)
    (suits : List.Forall₂ (Shape.Fits ctx.decls floats) row (m.cols.map Column.type)) :
    ∃ b, ctx.useful m row = .ok b :=
  usefulWithin_eq regular _ fit suits (Nat.lt_succ_self _)

theorem unreachableAfter_eq (regular : ctx.decls.Regular) {cols : List Column} {rows : List Row} :
    ∀ {prior : List Row}, Matrix.Fits ctx.decls floats ⟨cols, prior⟩ →
      Matrix.Fits ctx.decls floats ⟨cols, rows⟩ →
      ∃ unreachable, ctx.unreachableAfter cols prior rows = .ok unreachable := by
  induction rows with
  | nil =>
    intro prior _ _
    exact ⟨[], rfl⟩
  | cons r rest ih =>
    intro prior earlier fit
    have alternatives : ∀ a ∈ r.spread,
        List.Forall₂ (Shape.Fits ctx.decls floats) a.pats (cols.map Column.type) := by
      intro a member
      obtain ⟨⟨unsure, shapes⟩, chosen, rfl⟩ := List.mem_map.mp member
      exact (Shape.spread_fits (fit r (by simp)) _ chosen).2
    obtain ⟨reachable, equal⟩ : ∃ b, anyM (fun a => ctx.useful ⟨cols, prior⟩ a.pats) r.spread = .ok b :=
      anyM_eq fun a member => useful_eq regular earlier (alternatives a member)
    obtain ⟨unreachable, later⟩ : ∃ unreachable, ctx.unreachableAfter cols
        (prior ++ r.spread.filter fun a => !a.guarded) rest = .ok unreachable := by
      refine ih (fun a member => ?_) fun a member => fit a (List.mem_cons_of_mem _ member)
      rcases List.mem_append.mp member with old | new
      · exact earlier a old
      · exact alternatives a (List.mem_filter.mp new).1
    exact ⟨_, by simp only [Context.unreachableAfter, equal, later, bind, Except.bind]; rfl⟩

/-- Whatever the arms are, compilation yields a decision, whose tree has grown from the arms. -/
theorem compile_eq (regular : ctx.decls.Regular) (type : Ty) (arms : List Arm)
    (fit : (Matrix.ofArms ctx.decls type arms).Fits ctx.decls floats) :
    ∃ d, compile ctx type arms = .ok d ∧
      Grown ctx floats (Matrix.ofArms ctx.decls type arms) [] d.tree := by
  obtain ⟨tree, equal, grown⟩ := tree_eq regular fit
  have start : Matrix.Fits ctx.decls floats ⟨(Matrix.ofArms ctx.decls type arms).cols, []⟩ := by
    simp [Matrix.Fits]
  obtain ⟨unreachable, searched⟩ : ∃ unreachable,
      ctx.unreachable (Matrix.ofArms ctx.decls type arms) = .ok unreachable :=
    unreachableAfter_eq regular start fit
  let text := if ctx.options.verbose then (Matrix.ofArms ctx.decls type arms).spread.text else ""
  refine ⟨⟨tree, unreachable, text⟩, ?_, grown⟩
  simp only [compile, equal, searched, bind, Except.bind]
  rfl

end

end TreeCheck.Match
