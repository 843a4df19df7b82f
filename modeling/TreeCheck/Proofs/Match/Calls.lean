import Mathlib.Logic.Relation
import TreeCheck.Proofs.Failing
import TreeCheck.Proofs.Match.Search
import TreeCheck.Proofs.Recursion

/-!
The calls of match compilation. Normalization, the growth of a tree and the search for useful rows are
described twice: by the steps from one matrix to the next, and by what one call makes of the calls
inside it. The inner calls are made at no other places than the steps lead to.
-/

namespace TreeCheck.Match

open Relation (ReflTransGen TransGen)

/-! ### Alternatives that are spread already -/

namespace Shape

mutual

theorem heads_isHead : ∀ s : Shape, ∀ h ∈ s.heads, h.2.isHead = true
  | .choice alternatives => by
    simp only [heads]
    exact headsAll_isHead alternatives
  | .guarded inner => by
    intro h member
    simp only [heads, List.mem_map] at member
    obtain ⟨inside, found, rfl⟩ := member
    exact heads_isHead inner inside found
  | .any _ | .bool _ | .variant .. | .range .. | .string _ | .float _ | .list .. | .product _
  | .target _ => by simp [heads, isHead]

theorem headsAll_isHead : ∀ shapes : List Shape, ∀ h ∈ headsAll shapes, h.2.isHead = true
  | [] => by simp [headsAll]
  | s :: rest => by
    simp only [headsAll]
    exact List.forall_mem_append.mpr ⟨heads_isHead s, headsAll_isHead rest⟩

end

theorem heads_of_isHead {s : Shape} (isHead : s.isHead = true) : s.heads = [(false, s)] := by
  cases s <;> simp_all [Shape.isHead, heads]

theorem spread_isHead (shapes : List Shape) : ∀ a ∈ spread shapes, ∀ s ∈ a.2, s.isHead = true := by
  induction shapes with
  | nil => simp [spread]
  | cons s rest ih =>
    intro a member
    obtain ⟨unsure, row⟩ := a
    obtain ⟨b, h, c, tail, first, later, -, rfl⟩ := mem_spread_cons.mp member
    exact List.forall_mem_cons.mpr ⟨heads_isHead s _ first, ih _ later⟩

theorem spread_of_isHead {shapes : List Shape} (all : ∀ s ∈ shapes, s.isHead = true) :
    spread shapes = [(false, shapes)] := by
  induction shapes with
  | nil => rfl
  | cons s rest ih =>
    have first := heads_of_isHead (all s List.mem_cons_self)
    have later := ih fun t member => all t (List.mem_cons_of_mem s member)
    simp [spread, first, later]

end Shape

namespace Row

theorem spread_of_isHead {r : Row} (all : ∀ s ∈ r.pats, s.isHead = true) : r.spread = [r] := by
  simp [spread, Shape.spread_of_isHead all]

theorem sureHead_of_isHead {r : Row} {head : Shape} {rest : List Shape} (pats : r.pats = head :: rest)
    (isHead : head.isHead = true) : r.sureHead = [r] := by
  have alone : head.sureHeads = [head] := by simp [Shape.sureHeads, Shape.heads_of_isHead isHead]
  cases r
  cases pats
  simp [sureHead, alone]

end Row

namespace Matrix

variable {m : Matrix}

theorem flatMap_eq_self {rows : List Row} {f : Row → List Row} (each : ∀ r ∈ rows, f r = [r]) :
    rows.flatMap f = rows := by
  induction rows with
  | nil => rfl
  | cons r rows ih =>
    have later := ih fun r' member => each r' (List.mem_cons_of_mem r member)
    simp [each r List.mem_cons_self, later]

theorem spread_of_isHead (all : ∀ r ∈ m.rows, ∀ s ∈ r.pats, s.isHead = true) : m.spread = m := by
  have rows : m.rows.flatMap Row.spread = m.rows :=
    flatMap_eq_self fun r member => Row.spread_of_isHead (all r member)
  calc
    m.spread = ⟨m.cols, m.rows.flatMap Row.spread⟩ := rfl
    _ = m := by rw [rows]

theorem spread_isHead : ∀ r ∈ m.spread.rows, ∀ s ∈ r.pats, s.isHead = true := by
  intro r member
  obtain ⟨first, inside, alternative⟩ := List.mem_flatMap.mp member
  obtain ⟨a, chosen, rfl⟩ := List.mem_map.mp alternative
  exact Shape.spread_isHead first.pats a chosen

theorem spread_spread (m : Matrix) : m.spread.spread = m.spread := spread_of_isHead spread_isHead

theorem sure_of_isHead
    (all : ∀ r ∈ m.rows, ∀ head rest, r.pats = head :: rest → head.isHead = true) : m.sure = m := by
  have rows : m.rows.flatMap Row.sureHead = m.rows := by
    apply flatMap_eq_self
    intro r member
    cases pats : r.pats with
    | nil => simp [Row.sureHead, pats]
    | cons head rest => exact Row.sureHead_of_isHead pats (all r member head rest pats)
  calc
    m.sure = ⟨m.cols, m.rows.flatMap Row.sureHead⟩ := rfl
    _ = m := by rw [rows]

theorem sure_isHead : ∀ r ∈ m.sure.rows, ∀ head rest, r.pats = head :: rest → head.isHead = true := by
  intro r member head rest pats
  obtain ⟨first, inside, chosen⟩ := List.mem_flatMap.mp member
  rcases mem_sureHead chosen with ⟨rfl, empty⟩ | ⟨whole, s, others, -, alternative, pats'⟩
  · simp [empty] at pats
  · obtain rfl : s = head := (List.cons.inj (pats'.symm.trans pats)).1
    exact Shape.heads_isHead whole _ alternative

theorem sure_sure (m : Matrix) : m.sure.sure = m.sure := sure_of_isHead sure_isHead

/-- Nothing is left to spread or to take apart. -/
def Normal (m : Matrix) : Prop := m.spread = m ∧ m.productColumn? = none

/-! ### What the operations yield, if they yield anything -/

variable {decls : Decls} {i : Nat}

theorem column?_ok {col : Column} (found : m.column? i = .ok col) : m.cols[i]? = some col := by
  unfold column? at found
  cases here : m.cols[i]? with
  | none => simp [here] at found
  | some other => simpa [here] using found

theorem spliceRows_ok {width : Nat} {change : Shape → Option (List Shape × List Extraction)}
    {rows out : List Row} (yields : spliceRows width i change rows = .ok out) :
    out = rows.filterMap (Row.splice? i change) := by
  induction rows generalizing out with
  | nil => exact (Except.ok.inj yields).symm
  | cons r rows ih =>
    simp only [spliceRows] at yields
    by_cases sized : r.pats.length = width
    · cases shape : r.pats[i]? with
      | none => simp [sized, shape] at yields
      | some s =>
        simp only [sized, shape, bne_self_eq_false, Bool.false_eq_true, if_false] at yields
        obtain ⟨kept, later, last⟩ := bind_ok.mp yields
        have rest := ih later
        cases changed : change s <;> rw [changed] at last <;>
          simp_all [Row.splice?, pure, Except.pure]
    · simp [sized, throw, throwThe, MonadExceptOf.throw, bind, Except.bind] at yields

theorem splice_ok {sub : List Column} {change : Shape → Option (List Shape × List Extraction)}
    {m' : Matrix} (yields : m.splice i sub change = .ok m') : m' = m.spliced i sub change := by
  obtain ⟨rows, kept, last⟩ := bind_ok.mp yields
  obtain rfl := Except.ok.inj last
  rw [spliced, spliceRows_ok kept]

theorem expand_ok {sub : Matrix} {arity : Nat} (yields : m.expand decls i = .ok (sub, arity)) :
    ∃ col, m.cols[i]? = some col ∧ sub = m.spliced i (parts decls col) (openShape decls col) ∧
      arity = (parts decls col).length := by
  obtain ⟨col, found, spliced⟩ := bind_ok.mp yields
  obtain ⟨m', replaced, last⟩ := bind_ok.mp spliced
  obtain ⟨rfl, rfl⟩ := Prod.mk.inj (Except.ok.inj last)
  exact ⟨col, column?_ok found, splice_ok replaced, rfl⟩

theorem specialize_ok {test : Test} {sub : Matrix} (yields : m.specialize decls i test = .ok sub) :
    ∃ col cols, m.cols[i]? = some col ∧ test.columns decls col = .ok cols ∧
      sub = m.spliced i cols (passShape col test cols.length) := by
  obtain ⟨col, found, opened⟩ := bind_ok.mp yields
  obtain ⟨cols, known, replaced⟩ := bind_ok.mp opened
  exact ⟨col, cols, column?_ok found, known, splice_ok replaced⟩

theorem without_ok {sub : Matrix} (yields : m.without i = .ok sub) :
    ∃ col, m.cols[i]? = some col ∧ sub = m.spliced i [] (missShape col) := by
  obtain ⟨col, found, replaced⟩ := bind_ok.mp yields
  exact ⟨col, column?_ok found, splice_ok replaced⟩

end Matrix

/-! ### Steps -/

/-- A point of a compilation: the matrix, and the frames that lead back from it. -/
abbrev Stage : Type := Matrix × List Frame

/-- A question to the search: whether the row admits a value that the matrix does not. -/
abbrev Query : Type := Matrix × List Shape

def Query.both (q : Query) : Matrix := ⟨q.1.cols, q.1.rows ++ [{ pats := q.2 }]⟩

/-- Whether the first column of a query is taken apart as a product. -/
def Query.Product (q : Query) : Prop :=
  (∃ s ∈ q.2.head?, s.isProduct = true) ∨ ∃ s ∈ q.1.column 0, s.isProduct = true

namespace Context

/-- The steps of a compilation. -/
inductive Advances (ctx : Context) : Stage → Stage → Prop
  | spread {m : Matrix} {frames : List Frame} (changes : m.spread ≠ m) :
      Advances ctx (m, frames) (m.spread, frames)
  | expand {m sub : Matrix} {frames : List Frame} {i arity : Nat} {col : Column}
      (spread : m.spread = m) (product : m.productColumn? = some i) (here : m.cols[i]? = some col)
      (expanded : m.expand ctx.decls i = .ok (sub, arity)) :
      Advances ctx (m, frames) (sub, ⟨i, arity, .product col.type⟩ :: frames)
  /-- The guard of a selected arm says no. -/
  | fall {m : Matrix} {frames : List Frame} {first : Row} {rest : List Row} (normal : m.Normal)
      (rows : m.rows = first :: rest) (untested : first.tested? = none)
      (unsure : first.guarded = true) : Advances ctx (m, frames) ({ m with rows := rest }, frames)
  | test {m sub : Matrix} {frames : List Frame} {first : Row} {rest : List Row} {i : Nat} {col : Column}
      {family : List Test × List Pattern} {test : Test} (normal : m.Normal)
      (rows : m.rows = first :: rest) (tested : first.tested? = some i) (here : m.cols[i]? = some col)
      (switched : m.family ctx.decls ctx.options i = .ok family) (member : test ∈ family.1)
      (passed : m.specialize ctx.decls i test = .ok sub) :
      Advances ctx (m, frames) (sub, ⟨i, test.arity, .test col.type test⟩ :: frames)
  /-- No test of the family is passed. -/
  | miss {m sub : Matrix} {frames : List Frame} {first : Row} {rest : List Row} {i : Nat}
      {family : List Test × List Pattern} (normal : m.Normal) (rows : m.rows = first :: rest)
      (tested : first.tested? = some i) (switched : m.family ctx.decls ctx.options i = .ok family)
      (missing : family.2 ≠ []) (missed : m.without i = .ok sub) :
      Advances ctx (m, frames) (sub, ⟨i, 0, .missing family.2⟩ :: frames)

/-- The steps of the search for useful rows. -/
inductive Searches (ctx : Context) : Query → Query → Prop
  | choice {m : Matrix} {alternatives rest : List Shape} {s : Shape} (member : s ∈ alternatives) :
      Searches ctx (m, .choice alternatives :: rest) (m, s :: rest)
  | guarded {m : Matrix} {inner : Shape} {rest : List Shape} :
      Searches ctx (m, .guarded inner :: rest) (m, inner :: rest)
  | spread {m : Matrix} {head : Shape} {rest : List Shape} (isHead : head.isHead = true)
      (changes : m.sure ≠ m) : Searches ctx (m, head :: rest) (m.sure, head :: rest)
  | expand {m sub : Matrix} {head : Shape} {rest : List Shape} {arity : Nat}
      (isHead : head.isHead = true) (spread : m.sure = m) (product : Query.Product (m, head :: rest))
      (expanded : m.expand ctx.decls 0 = .ok (sub, arity)) :
      Searches ctx (m, head :: rest) (sub, Matrix.partShapes arity head ++ rest)
  /-- The head tests something and admits a value that passes a test. -/
  | pass {m sub : Matrix} {head : Shape} {rest args : List Shape} {binds : List Extraction}
      {family : List Test × List Pattern} {test : Test} (isHead : head.isHead = true)
      (spread : m.sure = m) (flat : ¬ Query.Product (m, head :: rest))
      (switched : (Query.both (m, head :: rest)).family ctx.decls ctx.options 0 = .ok family)
      (tests : head.isAny = false) (member : test ∈ family.1)
      (admitted : test.specialize? [] head = some (args, binds))
      (passed : m.specialize ctx.decls 0 test = .ok sub) :
      Searches ctx (m, head :: rest) (sub, args ++ rest)
  /-- The head tests nothing, and every value passes a test. -/
  | either {m sub : Matrix} {head : Shape} {rest : List Shape} {family : List Test × List Pattern}
      {test : Test} (spread : m.sure = m) (flat : ¬ Query.Product (m, head :: rest))
      (switched : (Query.both (m, head :: rest)).family ctx.decls ctx.options 0 = .ok family)
      (any : head.isAny = true) (complete : family.2 = []) (member : test ∈ family.1)
      (passed : m.specialize ctx.decls 0 test = .ok sub) :
      Searches ctx (m, head :: rest) (sub, Shape.wilds test.arity ++ rest)
  /-- The head tests nothing, and some values pass no test. -/
  | skip {m sub : Matrix} {head : Shape} {rest : List Shape} {family : List Test × List Pattern}
      (spread : m.sure = m) (flat : ¬ Query.Product (m, head :: rest))
      (switched : (Query.both (m, head :: rest)).family ctx.decls ctx.options 0 = .ok family)
      (any : head.isAny = true) (incomplete : family.2 = [] → family.1 = [])
      (missed : m.without 0 = .ok sub) : Searches ctx (m, head :: rest) (sub, rest)

theorem spread_reaches (ctx : Context) (m : Matrix) (frames : List Frame) :
    ReflTransGen ctx.Advances (m, frames) (m.spread, frames) := by
  by_cases same : m.spread = m
  · rw [same]
  · exact .single (.spread same)

theorem sure_reaches (ctx : Context) (m : Matrix) {head : Shape} (isHead : head.isHead = true)
    (rest : List Shape) : ReflTransGen ctx.Searches (m, head :: rest) (m.sure, head :: rest) := by
  by_cases same : m.sure = m
  · rw [same]
  · exact .single (.spread isHead same)

/-! ### Calls -/

/-- One round of normalization; the rounds that follow are left to `self`. -/
def normalizeOnce (ctx : Context) (self : Stage → Except Failure Stage) (s : Stage) :
    Except Failure Stage :=
  match s.1.spread.productColumn? with
  | none => return (s.1.spread, s.2)
  | some i => do
    let col ← s.1.spread.column? i
    let (sub, arity) ← s.1.spread.expand ctx.decls i
    self (sub, ⟨i, arity, .product col.type⟩ :: s.2)

def treeOnce (ctx : Context) (self : Stage → Except Failure Tree) (s : Stage) :
    Except Failure Tree := do
  let (m, frames) ← ctx.normalize s.1 s.2
  match m.rows with
  | [] => return .fail (← Frame.witnesses ctx.decls frames m.cols.length)
  | first :: rest =>
    match first.tested? with
    | none =>
      let next ← if first.guarded then some <$> self ({ m with rows := rest }, frames) else pure none
      return .leaf first.arm (first.bindings m.cols) next
    | some i =>
      let col ← m.column? i
      let (tests, missing) ← m.family ctx.decls ctx.options i
      let cases ← tests.mapM fun test => do
        let sub ← m.specialize ctx.decls i test
        return Case.mk test (← self (sub, ⟨i, test.arity, .test col.type test⟩ :: frames))
      let otherwise ← if missing.isEmpty then pure none
        else do
          let sub ← m.without i
          some <$> self (sub, ⟨i, 0, .missing missing⟩ :: frames)
      return .switch col.path col.type cases otherwise

/-- The step of the search for a head, after the rows are spread. -/
def usefulHead (ctx : Context) (search skip : Query → Except Failure Bool) (m : Matrix) (head : Shape)
    (rest : List Shape) : Except Failure Bool := do
  if m.rows.isEmpty then return true
  if head.isProduct || (m.column 0).any Shape.isProduct then
    let (sub, arity) ← m.expand ctx.decls 0
    search (sub, Matrix.partShapes arity head ++ rest)
  else
    let (tests, missing) ← (Query.both (m, head :: rest)).family ctx.decls ctx.options 0
    if !head.isAny then
      anyM (fun test => match test.specialize? [] head with
        | some (args, _) => do search (← m.specialize ctx.decls 0 test, args ++ rest)
        | none => .ok false) tests
    else if missing.isEmpty && !tests.isEmpty then
      anyM (fun test => do
        search (← m.specialize ctx.decls 0 test, Shape.wilds test.arity ++ rest)) tests
    else skip (← m.without 0, rest)

/-- One step of the search; where a column is skipped the rest is left to `skip`, and everywhere else to
`search`. -/
def usefulOnce (ctx : Context) (search skip : Query → Except Failure Bool) (q : Query) :
    Except Failure Bool :=
  match q.2 with
  | [] => .ok q.1.rows.isEmpty
  | head :: rest => do
    if q.1.rows.isEmpty then return true
    match head with
    | .choice alternatives => anyM (fun s => search (q.1, s :: rest)) alternatives
    | .guarded inner => search (q.1, inner :: rest)
    | _ => ctx.usefulHead search skip q.1.sure head rest

theorem normalizeWithin_succ (ctx : Context) (fuel : Nat) (s : Stage) :
    ctx.normalizeWithin (fuel + 1) s.1 s.2 =
      ctx.normalizeOnce (fun t => ctx.normalizeWithin fuel t.1 t.2) s := rfl

theorem treeWithin_succ (ctx : Context) (fuel : Nat) (s : Stage) :
    ctx.treeWithin (fuel + 1) s.1 s.2 = ctx.treeOnce (fun t => ctx.treeWithin fuel t.1 t.2) s := rfl

theorem usefulStep_eq_once (ctx : Context) (search : Matrix → List Shape → Except Failure Bool)
    (q : Query) : ctx.usefulStep search q.1 q.2 =
      ctx.usefulOnce (fun t => search t.1 t.2) (fun t => ctx.usefulStep search t.1 t.2) q := by
  obtain ⟨m, row⟩ := q
  cases row with
  | nil => rfl
  | cons head rest => cases head <;> rfl

end Context

/-!
### Branches

Spreading alternatives may leave a matrix as heavy as it was, but it leaves fewer branches; and it is a
recursion in which every choice and every guard counts.
-/

namespace Shape

mutual

def branches : Shape → Nat
  | .choice alternatives => branchesSum alternatives + 1
  | .guarded inner => inner.branches + 1
  | .any _ | .bool _ | .variant .. | .range .. | .string _ | .float _ | .list .. | .product _
  | .target _ => 1

def branchesSum : List Shape → Nat
  | [] => 0
  | s :: rest => s.branches + branchesSum rest

end

def branchesProduct (shapes : List Shape) : Nat := (shapes.map branches).prod

theorem branches_pos (s : Shape) : 0 < s.branches := by
  cases s <;> simp [branches]

theorem branches_of_isHead {s : Shape} (isHead : s.isHead = true) : s.branches = 1 := by
  cases s <;> simp_all [Shape.isHead, branches]

theorem branches_le_sum {s : Shape} {shapes : List Shape} (member : s ∈ shapes) :
    s.branches ≤ branchesSum shapes := by
  induction shapes with
  | nil => simp at member
  | cons first rest ih =>
    simp only [branchesSum]
    rcases List.mem_cons.mp member with rfl | later
    · omega
    · have := ih later
      omega

mutual

theorem length_heads_le : ∀ s : Shape, s.heads.length ≤ s.branches
  | .choice alternatives => by
    have := length_headsAll_le alternatives
    simp only [heads, branches]
    omega
  | .guarded inner => by
    have := length_heads_le inner
    simp only [heads, branches, List.length_map]
    omega
  | .any _ | .bool _ | .variant .. | .range .. | .string _ | .float _ | .list .. | .product _
  | .target _ => by simp [heads, branches]

theorem length_headsAll_le : ∀ shapes : List Shape, (headsAll shapes).length ≤ branchesSum shapes
  | [] => by simp [headsAll, branchesSum]
  | s :: rest => by
    have first := length_heads_le s
    have later := length_headsAll_le rest
    simp only [headsAll, branchesSum, List.length_append]
    omega

end

/-- Choices and guards count themselves. -/
theorem length_heads_lt {s : Shape} (opens : s.isHead = false) : s.heads.length < s.branches := by
  cases s <;> simp [Shape.isHead] at opens
  case choice alternatives =>
    have := length_headsAll_le alternatives
    simp only [heads, branches]
    omega
  case guarded inner =>
    have := length_heads_le inner
    simp only [heads, branches, List.length_map]
    omega

theorem branchesProduct_pos (shapes : List Shape) : 0 < branchesProduct shapes := by
  induction shapes with
  | nil => simp [branchesProduct]
  | cons s rest ih =>
    simp only [branchesProduct, List.map_cons, List.prod_cons] at ih ⊢
    exact Nat.mul_pos s.branches_pos ih

theorem branchesProduct_of_isHead {shapes : List Shape} (all : ∀ s ∈ shapes, s.isHead = true) :
    branchesProduct shapes = 1 := by
  apply List.prod_eq_one
  intro n member
  obtain ⟨s, inside, rfl⟩ := List.mem_map.mp member
  exact branches_of_isHead (all s inside)

theorem length_spread_le (shapes : List Shape) : (spread shapes).length ≤ branchesProduct shapes ∧
    ((∃ s ∈ shapes, s.isHead = false) → (spread shapes).length < branchesProduct shapes) := by
  induction shapes with
  | nil => simp [spread, branchesProduct]
  | cons s rest ih =>
    have rows : (spread (s :: rest)).length = s.heads.length * (spread rest).length := by
      simp [spread, List.length_flatMap]
    have whole : branchesProduct (s :: rest) = s.branches * branchesProduct rest := by
      simp [branchesProduct]
    have heads := length_heads_le s
    rw [rows, whole]
    refine ⟨Nat.mul_le_mul heads ih.1, ?_⟩
    rintro ⟨t, member, opens⟩
    rcases List.mem_cons.mp member with rfl | later
    · exact Nat.mul_lt_mul_of_lt_of_le (length_heads_lt opens) ih.1 (branchesProduct_pos rest)
    · exact Nat.mul_lt_mul_of_le_of_lt heads (ih.2 ⟨t, later, opens⟩) s.branches_pos

end Shape

namespace Row

def branches (r : Row) : Nat := Shape.branchesProduct r.pats

def branchesSum (rows : List Row) : Nat := (rows.map branches).sum

theorem branchesSum_append (front back : List Row) :
    branchesSum (front ++ back) = branchesSum front + branchesSum back := by
  simp [branchesSum]

/-- Replacing each row by others leaves fewer branches, unless all rows stay as they are. -/
theorem branchesSum_flatMap {f : Row → List Row} (each : ∀ r, branchesSum (f r) ≤ r.branches ∧
      (f r ≠ [r] → branchesSum (f r) < r.branches)) (rows : List Row) :
    branchesSum (rows.flatMap f) ≤ branchesSum rows ∧
      (rows.flatMap f ≠ rows → branchesSum (rows.flatMap f) < branchesSum rows) := by
  induction rows with
  | nil => simp
  | cons r rows ih =>
    have first := each r
    have sum : branchesSum (r :: rows) = r.branches + branchesSum rows := by simp [branchesSum]
    rw [List.flatMap_cons, branchesSum_append, sum]
    refine ⟨by omega, fun changes => ?_⟩
    -- a row that stays leaves the change to the rows behind it
    by_cases same : f r = [r]
    · have := ih.2 fun stays => changes (by rw [same, stays]; rfl)
      omega
    · have := first.2 same
      omega

theorem spread_branches (r : Row) : branchesSum r.spread ≤ r.branches ∧
    (r.spread ≠ [r] → branchesSum r.spread < r.branches) := by
  have ones : branchesSum r.spread = (Shape.spread r.pats).length := by
    have single : ∀ a ∈ Shape.spread r.pats, Shape.branchesProduct a.2 = 1 :=
      fun a member => Shape.branchesProduct_of_isHead (Shape.spread_isHead r.pats a member)
    have counts : (Shape.spread r.pats).map (fun a => Shape.branchesProduct a.2) =
        (Shape.spread r.pats).map fun _ => 1 := List.map_congr_left single
    simp only [branchesSum, spread, List.map_map, Function.comp_def, branches, counts]
    simp
  have rows := Shape.length_spread_le r.pats
  rw [ones]
  refine ⟨rows.1, fun changes => rows.2 ?_⟩
  by_contra all
  push Not at all
  exact changes (spread_of_isHead fun s member => by simpa using all s member)

theorem sureHead_branches (r : Row) : branchesSum r.sureHead ≤ r.branches ∧
    (r.sureHead ≠ [r] → branchesSum r.sureHead < r.branches) := by
  cases pats : r.pats with
  | nil => simp [sureHead, pats, branchesSum]
  | cons head rest =>
    have sure : ∀ s ∈ head.sureHeads, s.branches = 1 :=
      fun s member => Shape.branches_of_isHead (Shape.heads_isHead head _ (Matrix.mem_sureHeads member))
    have counts : head.sureHeads.map (fun s => s.branches * Shape.branchesProduct rest) =
        head.sureHeads.map fun _ => Shape.branchesProduct rest := by
      apply List.map_congr_left
      intro s member
      rw [sure s member, Nat.one_mul]
    have sum : branchesSum r.sureHead = head.sureHeads.length * Shape.branchesProduct rest := by
      have parts : branchesSum r.sureHead =
          (head.sureHeads.map fun s => s.branches * Shape.branchesProduct rest).sum := by
        simp [branchesSum, sureHead, pats, Function.comp_def, branches, Shape.branchesProduct]
      rw [parts, counts]
      simp
    have whole : r.branches = head.branches * Shape.branchesProduct rest := by
      simp [branches, pats, Shape.branchesProduct]
    have fewer : head.sureHeads.length ≤ head.heads.length := List.length_filterMap_le _ _
    have heads := Shape.length_heads_le head
    rw [sum, whole]
    refine ⟨Nat.mul_le_mul_right _ (Nat.le_trans fewer heads), fun changes => ?_⟩
    have opens : head.isHead = false := by
      by_contra isHead
      exact changes (sureHead_of_isHead pats (by simpa using isHead))
    have strictly := Shape.length_heads_lt opens
    exact Nat.mul_lt_mul_of_pos_right (by omega) (Shape.branchesProduct_pos rest)

end Row

namespace Matrix

def branches (m : Matrix) : Nat := Row.branchesSum m.rows

theorem spread_branches {m : Matrix} (changes : m.spread ≠ m) : m.spread.branches < m.branches := by
  apply (Row.branchesSum_flatMap Row.spread_branches m.rows).2
  intro same
  apply changes
  rw [spread, same]

theorem sure_branches {m : Matrix} (changes : m.sure ≠ m) : m.sure.branches < m.branches := by
  apply (Row.branchesSum_flatMap Row.sureHead_branches m.rows).2
  intro same
  apply changes
  rw [sure, same]

end Matrix

/-! ### Spreading a row -/

namespace Shape

theorem spread_around {front : List Shape} (heads : ∀ s ∈ front, s.isHead = true) (back : List Shape) :
    spread (front ++ back) = (spread back).map fun (unsure, tail) => (unsure, front ++ tail) := by
  induction front with
  | nil => simp
  | cons s front ih =>
    have first := heads_of_isHead (heads s List.mem_cons_self)
    have later := ih fun t member => heads t (List.mem_cons_of_mem s member)
    simp [spread, first, later]

theorem headsAll_eq_flatMap (shapes : List Shape) : headsAll shapes = shapes.flatMap heads := by
  induction shapes with
  | nil => rfl
  | cons s rest ih => simp [headsAll, ih]

theorem spread_choice (alternatives back : List Shape) :
    spread (.choice alternatives :: back) = alternatives.flatMap fun s => spread (s :: back) := by
  rw [spread, heads, headsAll_eq_flatMap, List.flatMap_assoc]
  rfl

theorem spread_guarded (inner : Shape) (back : List Shape) :
    spread (.guarded inner :: back) = (spread (inner :: back)).map fun (_, row) => (true, row) := by
  rw [spread, heads, List.flatMap_map, spread, List.map_flatMap]
  congr 1
  funext head
  rw [List.map_map]
  rfl

end Shape

theorem split_set {α : Type} {l : List α} {i : Nat} {x : α} (here : l[i]? = some x) :
    ∃ front back, l = front ++ x :: back ∧ front.length = i ∧ ∀ y, l.set i y = front ++ y :: back := by
  obtain ⟨front, back, rfl, rfl⟩ := split_at here
  exact ⟨front, back, rfl, rfl, fun y => by simp⟩

namespace Row

/-- The first shape of a row that is still to be spread. -/
def open? (r : Row) : Option Nat := r.pats.findIdx? fun s => !s.isHead

def spreadOnce (self : Row → List Row) (r : Row) : List Row :=
  match r.open? with
  | none => [r]
  | some j =>
    match r.pats[j]? with
    | some (.choice alternatives) => alternatives.flatMap fun s => self { r with pats := r.pats.set j s }
    | some (.guarded inner) => self { r with pats := r.pats.set j inner, guarded := true }
    | _ => [r]

/-- A row with a choice or a guard out of the way. -/
inductive Opens : Row → Row → Prop
  | choice {r : Row} {j : Nat} {alternatives : List Shape} {s : Shape} (first : r.open? = some j)
      (here : r.pats[j]? = some (.choice alternatives)) (member : s ∈ alternatives) :
      Opens r { r with pats := r.pats.set j s }
  | guarded {r : Row} {j : Nat} {inner : Shape} (first : r.open? = some j)
      (here : r.pats[j]? = some (.guarded inner)) :
      Opens r { r with pats := r.pats.set j inner, guarded := true }

theorem branches_set {r r' : Row} {j : Nat} {old new : Shape} (here : r.pats[j]? = some old)
    (pats : r'.pats = r.pats.set j new) (fewer : new.branches < old.branches) :
    r'.branches < r.branches := by
  obtain ⟨front, back, around, -, replaced⟩ := split_set here
  rw [branches, branches, pats, replaced new, around]
  simp only [Shape.branchesProduct, List.map_append, List.map_cons, List.prod_append, List.prod_cons]
  exact Nat.mul_lt_mul_of_pos_left
    (Nat.mul_lt_mul_of_pos_right fewer (Shape.branchesProduct_pos back)) (Shape.branchesProduct_pos front)

theorem Opens.branches_lt {r r' : Row} (opens : Opens r r') : r'.branches < r.branches := by
  cases opens with
  | @choice j alternatives s first here member =>
    apply branches_set here rfl
    have := Shape.branches_le_sum member
    simp only [Shape.branches]
    omega
  | @guarded j inner first here =>
    apply branches_set here rfl
    simp only [Shape.branches]
    omega

/-- The shapes before the first one that is to be spread are heads. -/
theorem open_split {r : Row} {j : Nat} (first : r.open? = some j) :
    ∃ front s back, r.pats = front ++ s :: back ∧ r.pats[j]? = some s ∧ s.isHead = false ∧
      (∀ t ∈ front, t.isHead = true) ∧ ∀ t, r.pats.set j t = front ++ t :: back := by
  obtain ⟨inside, opens, earlier⟩ := List.findIdx?_eq_some_iff_getElem.mp first
  have here := List.getElem?_eq_getElem inside
  obtain ⟨front, back, around, sized, replaced⟩ := split_set here
  refine ⟨front, r.pats[j], back, around, here, by simpa using opens, ?_, replaced⟩
  intro t member
  obtain ⟨k, before, rfl⟩ := List.getElem_of_mem member
  have passed := earlier k (by omega)
  rw [List.getElem_of_eq around, List.getElem_append_left before] at passed
  simpa using passed

theorem spread_unfolds (r : Row) : r.spread = spreadOnce spread r := by
  unfold spreadOnce
  cases first : r.open? with
  | none =>
    apply spread_of_isHead
    intro s member
    simpa using List.findIdx?_eq_none_iff.mp first s member
  | some j =>
    obtain ⟨front, s, back, around, here, opens, heads, replaced⟩ := open_split first
    cases s <;> simp [Shape.isHead] at opens
    case choice alternatives =>
      simp only [here, replaced]
      simp only [spread, around, Shape.spread_around heads, Shape.spread_choice, List.map_flatMap]
    case guarded inner =>
      simp only [here, replaced]
      simp only [spread, around, Shape.spread_around heads, Shape.spread_guarded, List.map_map,
        Function.comp_def, Bool.or_true, Bool.true_or]

theorem spread_terminates : Terminates branches Opens spreadOnce spread := by
  apply terminates_of
  case decreases => exact fun _ _ opens => opens.branches_lt
  case unfolds => exact spread_unfolds
  case confined =>
    intro r f g same
    unfold spreadOnce
    cases first : r.open? with
    | none => rfl
    | some j =>
      obtain ⟨-, s, -, -, here, opens, -, -⟩ := open_split first
      cases s <;> simp [Shape.isHead] at opens
      case choice alternatives =>
        simp only [here]
        exact List.flatMap_congr fun s member => same _ (.single (.choice first here member))
      case guarded inner =>
        simp only [here]
        exact same _ (.single (.guarded first here))

/-- One call of the recursion that spreads the first shape of a row and drops what is under a guard. -/
def sureOnce (self : Row → List Row) (r : Row) : List Row :=
  match r.pats with
  | .choice alternatives :: rest => alternatives.flatMap fun s => self { r with pats := s :: rest }
  | .guarded _ :: _ => []
  | _ => [r]

/-- A row with a choice in its first shape out of the way. -/
inductive Picks : Row → Row → Prop
  | choice {r : Row} {alternatives rest : List Shape} {s : Shape}
      (pats : r.pats = .choice alternatives :: rest) (member : s ∈ alternatives) :
      Picks r { r with pats := s :: rest }

theorem sureHead_unfolds (r : Row) : r.sureHead = sureOnce sureHead r := by
  unfold sureOnce
  cases pats : r.pats with
  | nil => simp [sureHead, pats]
  | cons head rest =>
    cases isHead : head.isHead with
    | true =>
      rw [sureHead_of_isHead pats isHead]
      cases head <;> simp [Shape.isHead] at isHead <;> rfl
    | false =>
      cases head <;> simp [Shape.isHead] at isHead
      case choice alternatives =>
        simp [sureHead, pats, Shape.sureHeads, Shape.heads, Shape.headsAll_eq_flatMap,
          List.filterMap_flatMap, List.map_flatMap]
      case guarded inner =>
        simp [sureHead, pats, Shape.sureHeads, Shape.heads, List.filterMap_map]

theorem sureHead_terminates : Terminates branches Picks sureOnce sureHead := by
  apply terminates_of
  case decreases =>
    intro r r' picks
    cases picks with
    | @choice alternatives rest s pats member =>
      have here : r.pats[0]? = some (.choice alternatives) := by rw [pats]; rfl
      have replaced : s :: rest = r.pats.set 0 s := by simp [pats]
      apply branches_set here replaced
      have := Shape.branches_le_sum member
      simp only [Shape.branches]
      omega
  case unfolds => exact sureHead_unfolds
  case confined =>
    intro r f g same
    unfold sureOnce
    split
    next alternatives rest pats =>
      exact List.flatMap_congr fun s member => same _ (.single (.choice pats member))
    next => rfl
    next => rfl

end Row

end TreeCheck.Match
