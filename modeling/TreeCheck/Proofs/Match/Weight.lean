import Mathlib.Algebra.BigOperators.Ring.List
import Mathlib.Algebra.Order.Ring.Nat
import Mathlib.Tactic.GCongr
import Mathlib.Tactic.Ring
import TreeCheck.Proofs.Match.Alternatives
import TreeCheck.Proofs.Match.Steps

/-!
The weight of a matrix goes down. Spreading alternatives does not make a matrix heavier, and taking a
product apart, passing a test and passing none of them make it lighter.
-/

namespace TreeCheck.Match

section
-- The equations of these definitions are made here once, so that no proof below waits while another makes them.
attribute [local simp] Row.weight Row.weightAll Shape.count Shape.countProduct Shape.countSum Shape.isConstant Shape.weight
  Shape.weightProduct Shape.weightSum
end

namespace Shape

mutual

theorem count_pos : ∀ s : Shape, 0 < s.count
  | .choice alternatives => by simp only [count]; omega
  | .guarded inner => by simpa only [count] using count_pos inner
  | .variant _ args => by simpa only [count] using countProduct_pos args
  | .list front _ _ => by simpa only [count] using countProduct_pos front
  | .product args => by simpa only [count] using countProduct_pos args
  | .target inner => by simpa only [count] using count_pos inner
  | .any _ => by simp [count]
  | .bool _ => by simp [count]
  | .range .. => by simp [count]
  | .string _ => by simp [count]
  | .float _ => by simp [count]

theorem countProduct_pos : ∀ shapes : List Shape, 0 < countProduct shapes
  | [] => by simp [countProduct]
  | s :: rest => by
    simp only [countProduct]
    exact Nat.mul_pos (count_pos s) (countProduct_pos rest)

end

theorem countProduct_append (a b : List Shape) :
    countProduct (a ++ b) = countProduct a * countProduct b := by
  induction a with
  | nil => simp [countProduct]
  | cons s a ih => simp [countProduct, ih, Nat.mul_assoc]

theorem weightProduct_append (a b : List Shape) : weightProduct (a ++ b) =
    weightProduct a * countProduct b + countProduct a * weightProduct b := by
  induction a with
  | nil => simp [weightProduct, countProduct]
  | cons s a ih =>
    simp only [List.cons_append, weightProduct, countProduct, ih, countProduct_append]
    ring

theorem weightProduct_wilds (count : Nat) :
    weightProduct (wilds count) = 0 ∧ countProduct (wilds count) = 1 := by
  induction count with
  | zero => simp [wilds, weightProduct, countProduct]
  | succ count ih =>
    obtain ⟨light, single⟩ := ih
    rw [wilds] at light single
    rw [wilds, List.replicate_succ, weightProduct, countProduct, light, single]
    simp [wild, weight, Shape.count]

theorem weightProduct_take (shapes : List Shape) (n : Nat) :
    weightProduct (shapes.take n) ≤ weightProduct shapes ∧
      countProduct (shapes.take n) ≤ countProduct shapes := by
  conv => rhs; rhs; rw [← List.take_append_drop n shapes]
  conv => lhs; rhs; rw [← List.take_append_drop n shapes]
  rw [weightProduct_append, countProduct_append]
  have positive := countProduct_pos (shapes.drop n)
  constructor
  · exact Nat.le_trans (Nat.le_mul_of_pos_right _ positive) (Nat.le_add_right _ _)
  · exact Nat.le_mul_of_pos_right _ positive

/-- Cutting a list or filling it up does not make it heavier. -/
theorem weightProduct_fit (shapes : List Shape) (n : Nat) :
    weightProduct (fit shapes n) ≤ weightProduct shapes ∧
      countProduct (fit shapes n) ≤ countProduct shapes := by
  obtain ⟨light, single⟩ := weightProduct_wilds (n - shapes.length)
  rw [fit, weightProduct_append, countProduct_append, light, single]
  simpa using weightProduct_take shapes n

/-- The shapes of the parts together are no heavier than the shape that they come from. -/
def Lightens (s : Shape) (shapes : List Shape) : Prop :=
  weightProduct shapes ≤ s.weight ∧ countProduct shapes ≤ s.count

theorem lightens_wilds (s : Shape) (count : Nat) : s.Lightens (wilds count) := by
  obtain ⟨light, single⟩ := weightProduct_wilds count
  exact ⟨by omega, by have := count_pos s; omega⟩

end Shape

/-- A passed test makes a shape that tests something lighter. -/
theorem Specialized.lightens {test : Test} {s : Shape} {shapes : List Shape}
    (specialized : Specialized test s shapes) :
    Shape.weightProduct shapes < s.weight ∧ Shape.countProduct shapes ≤ s.count := by
  cases specialized with
  | constant _ plain =>
    cases s <;> simp [Shape.isConstant] at plain <;>
      simp [Shape.weightProduct, Shape.countProduct, Shape.weight, Shape.count]
  | @variant v w args same =>
    have lighter := Shape.weightProduct_fit args v.arity
    have positive := Shape.countProduct_pos args
    simp only [Shape.weight, Shape.count]
    omega
  | @list test front isOpen rest measured fewer =>
    have lighter := Shape.weightProduct_fit front test.arity
    have positive := Shape.countProduct_pos front
    simp only [Shape.weight, Shape.count]
    omega

/-- Taking a shape apart makes a product lighter. -/
theorem partShapes_lightens {s : Shape} (product : s.isProduct = true) (count : Nat) :
    Shape.weightProduct (Matrix.partShapes count s) < s.weight ∧
      Shape.countProduct (Matrix.partShapes count s) ≤ s.count := by
  cases s <;> simp [Shape.isProduct] at product
  case product args =>
    have lighter := Shape.weightProduct_fit args count
    have positive := Shape.countProduct_pos args
    simp only [Matrix.partShapes, Shape.weight, Shape.count]
    omega
  case target inner =>
    have lighter := Shape.weightProduct_fit [inner] count
    have positive := Shape.count_pos inner
    simp only [Shape.weightProduct, Shape.countProduct] at lighter
    simp only [Matrix.partShapes, Shape.weight, Shape.count]
    omega

namespace Row

theorem weight_pos (r : Row) : 0 < r.weight := by
  have positive := Shape.countProduct_pos r.pats
  simp only [weight]
  omega

theorem weightAll_append (a b : List Row) : weightAll (a ++ b) = weightAll a + weightAll b := by
  induction a with
  | nil => simp [weightAll]
  | cons r a ih => simp [weightAll, ih, Nat.add_assoc]

theorem weightAll_eq_sum (rows : List Row) : weightAll rows = (rows.map weight).sum := by
  induction rows with
  | nil => rfl
  | cons r rows ih => simp [weightAll, ih]

theorem weight_around {front shapes back : List Shape} {r : Row}
    (around : r.pats = front ++ (shapes ++ back)) : r.weight =
      Shape.weightProduct front * (Shape.countProduct shapes * Shape.countProduct back) +
        Shape.countProduct front * (Shape.weightProduct shapes * Shape.countProduct back +
          Shape.countProduct shapes * Shape.weightProduct back) +
        Shape.countProduct front * (Shape.countProduct shapes * Shape.countProduct back) := by
  rw [weight, around]
  simp only [Shape.weightProduct_append, Shape.countProduct_append]

theorem weight_le {front back : List Shape} {s : Shape} {shapes : List Shape} {r r' : Row}
    (around : r.pats = front ++ s :: back) (around' : r'.pats = front ++ (shapes ++ back))
    (lighter : Shape.Lightens s shapes) : r'.weight ≤ r.weight ∧
      (Shape.weightProduct shapes < s.weight → r'.weight < r.weight) := by
  have whole : r.pats = front ++ ([s] ++ back) := around
  have single : Shape.weightProduct [s] = s.weight ∧ Shape.countProduct [s] = s.count := by
    simp [Shape.weightProduct, Shape.countProduct]
  rw [weight_around whole, weight_around around', single.1, single.2]
  obtain ⟨lighter, fewer⟩ := lighter
  constructor
  · gcongr
  · intro strictly
    have products : Shape.countProduct shapes * Shape.countProduct back ≤
        s.count * Shape.countProduct back := Nat.mul_le_mul_right _ fewer
    have inner : Shape.weightProduct shapes * Shape.countProduct back +
        Shape.countProduct shapes * Shape.weightProduct back <
          s.weight * Shape.countProduct back + s.count * Shape.weightProduct back :=
      Nat.add_lt_add_of_lt_of_le
        (Nat.mul_lt_mul_of_pos_right strictly (Shape.countProduct_pos back))
        (Nat.mul_le_mul_right _ fewer)
    exact Nat.add_lt_add_of_lt_of_le
      (Nat.add_lt_add_of_le_of_lt (Nat.mul_le_mul_left _ products)
        (Nat.mul_lt_mul_of_pos_left inner (Shape.countProduct_pos front)))
      (Nat.mul_le_mul_left _ products)

theorem weightAll_filterMap {rows : List Row} {f : Row → Option Row}
    (each : ∀ r ∈ rows, ∀ r', f r = some r' → r'.weight ≤ r.weight) :
    weightAll (rows.filterMap f) ≤ weightAll rows ∧
      ((∃ r ∈ rows, ∀ r', f r = some r' → r'.weight < r.weight) →
        weightAll (rows.filterMap f) < weightAll rows) := by
  induction rows with
  | nil => simp
  | cons r rows ih =>
    obtain ⟨lighter, strictly⟩ := ih fun r' member => each r' (by simp [member])
    have positive := r.weight_pos
    have first := each r (by simp)
    rw [List.filterMap_cons]
    cases kept : f r with
    | none =>
      simp only [weightAll]
      exact ⟨by omega, fun _ => by omega⟩
    | some r' =>
      have lessOrEqual := first r' kept
      simp only [weightAll]
      refine ⟨by omega, ?_⟩
      rintro ⟨chosen, member, less⟩
      rcases List.mem_cons.mp member with rfl | later
      · have := less r' kept
        omega
      · have := strictly ⟨chosen, later, less⟩
        omega

end Row

namespace Matrix

variable {m : Matrix} {i : Nat} {change : Shape → Option (List Shape × List Extraction)}

/-- A change that makes no shape of a column heavier makes the matrix no heavier, and lighter if it
makes some shape of the column lighter. -/
theorem spliced_weight (sub : List Column)
    (each : ∀ s ∈ m.column i, ∀ shapes binds, change s = some (shapes, binds) → s.Lightens shapes) :
    (m.spliced i sub change).weight ≤ m.weight ∧
      ((∃ s ∈ m.column i, ∀ shapes binds, change s = some (shapes, binds) →
        Shape.weightProduct shapes < s.weight) → (m.spliced i sub change).weight < m.weight) := by
  have row {r r' : Row} (member : r ∈ m.rows) (kept : r.splice? i change = some r') :
      ∃ s shapes binds, r.pats[i]? = some s ∧ s ∈ m.column i ∧ change s = some (shapes, binds) ∧
        r'.weight ≤ r.weight ∧ (Shape.weightProduct shapes < s.weight → r'.weight < r.weight) := by
    simp only [Row.splice?, Option.map_eq_some_iff, Option.bind_eq_some_iff] at kept
    obtain ⟨⟨shapes, binds⟩, ⟨s, shape, changed⟩, rfl⟩ := kept
    have inColumn : s ∈ m.column i := List.mem_filterMap.mpr ⟨r, member, shape⟩
    obtain ⟨front, back, around, rfl⟩ := split_at shape
    exact ⟨s, shapes, binds, shape, inColumn, changed, Row.weight_le around (by simp [around])
      (each s inColumn shapes binds changed)⟩
  have lessOrEqual : ∀ r ∈ m.rows, ∀ r', r.splice? i change = some r' → r'.weight ≤ r.weight := by
    intro r member r' kept
    obtain ⟨-, -, -, -, -, -, result, -⟩ := row member kept
    exact result
  obtain ⟨lighter, strictly⟩ := Row.weightAll_filterMap lessOrEqual
  refine ⟨lighter, ?_⟩
  rintro ⟨s, inColumn, less⟩
  refine strictly ?_
  obtain ⟨r, member, shape⟩ := List.mem_filterMap.mp inColumn
  refine ⟨r, member, fun r' kept => ?_⟩
  obtain ⟨s', shapes, binds, shape', -, changed, -, result⟩ := row member kept
  obtain rfl := Option.some.inj (shape.symm.trans shape')
  exact result (less shapes binds changed)

theorem expand_weight (m : Matrix) (decls : Decls) (i : Nat) (col : Column) :
    (m.spliced i (parts decls col) (openShape decls col)).weight ≤ m.weight ∧
      ((∃ s ∈ m.column i, s.isProduct = true) →
        (m.spliced i (parts decls col) (openShape decls col)).weight < m.weight) := by
  obtain ⟨lighter, strictly⟩ := spliced_weight (parts decls col)
    fun s _ shapes binds (changed : openShape decls col s = some (shapes, binds)) => by
      obtain ⟨rfl, -⟩ := Prod.mk.inj (Option.some.inj changed)
      by_cases product : s.isProduct = true
      · have parts := partShapes_lightens product (parts decls col).length
        exact ⟨Nat.le_of_lt parts.1, parts.2⟩
      · have wild : partShapes (parts decls col).length s = Shape.wilds (parts decls col).length := by
          cases s <;> simp_all [partShapes, Shape.isProduct]
        exact wild ▸ s.lightens_wilds _
  refine ⟨lighter, ?_⟩
  rintro ⟨s, inColumn, product⟩
  refine strictly ⟨s, inColumn, fun shapes binds changed => ?_⟩
  obtain ⟨rfl, -⟩ := Prod.mk.inj (Option.some.inj changed)
  exact (partShapes_lightens product _).1

theorem specialize_weight (m : Matrix) (i : Nat) (col : Column) (test : Test) (sub : List Column) :
    (m.spliced i sub (passShape col test sub.length)).weight ≤ m.weight ∧
      ((∃ s ∈ m.column i, s.isAny = false) →
        (m.spliced i sub (passShape col test sub.length)).weight < m.weight) := by
  obtain ⟨lighter, strictly⟩ := spliced_weight sub
    fun s _ shapes binds (changed : passShape col test sub.length s = some (shapes, binds)) => by
      by_cases any : s.isAny = true
      · simp only [passShape, any, if_true] at changed
        obtain ⟨rfl, -⟩ := Prod.mk.inj (Option.some.inj changed)
        exact s.lightens_wilds _
      · simp only [passShape, any] at changed
        have parts := (Test.specialized changed).lightens
        exact ⟨Nat.le_of_lt parts.1, parts.2⟩
  refine ⟨lighter, ?_⟩
  rintro ⟨s, inColumn, tests⟩
  refine strictly ⟨s, inColumn, fun shapes binds changed => ?_⟩
  simp only [passShape, tests] at changed
  exact (Test.specialized changed).lightens.1

theorem without_weight (m : Matrix) (i : Nat) (col : Column) :
    (m.spliced i [] (missShape col)).weight ≤ m.weight ∧
      ((∃ s ∈ m.column i, s.isAny = false) →
        (m.spliced i [] (missShape col)).weight < m.weight) := by
  obtain ⟨lighter, strictly⟩ := spliced_weight []
    fun s _ shapes binds (changed : missShape col s = some (shapes, binds)) => by
      by_cases any : s.isAny = true
      · simp only [missShape, any, if_true] at changed
        obtain ⟨rfl, -⟩ := Prod.mk.inj (Option.some.inj changed)
        exact s.lightens_wilds 0
      · simp [missShape, any] at changed
  refine ⟨lighter, ?_⟩
  rintro ⟨s, inColumn, tests⟩
  refine strictly ⟨s, inColumn, fun shapes binds changed => ?_⟩
  simp [missShape, tests] at changed

end Matrix

namespace Shape

def headsWeight (alternatives : List (Bool × Shape)) : Nat := (alternatives.map fun a => a.2.weight).sum

def headsCount (alternatives : List (Bool × Shape)) : Nat := (alternatives.map fun a => a.2.count).sum

mutual

theorem heads_weight : ∀ s : Shape, headsWeight s.heads = s.weight ∧ headsCount s.heads ≤ s.count
  | .choice alternatives => by
    have all := headsAll_weight alternatives
    simp only [heads, weight, Shape.count]
    exact ⟨all.1, by omega⟩
  | .guarded inner => by
    have inside := heads_weight inner
    simpa [heads, weight, Shape.count, headsWeight, headsCount, Function.comp_def] using inside
  | .any _ => by simp [heads, headsWeight, headsCount]
  | .bool _ => by simp [heads, headsWeight, headsCount]
  | .variant .. => by simp [heads, headsWeight, headsCount]
  | .range .. => by simp [heads, headsWeight, headsCount]
  | .string _ => by simp [heads, headsWeight, headsCount]
  | .float _ => by simp [heads, headsWeight, headsCount]
  | .list .. => by simp [heads, headsWeight, headsCount]
  | .product _ => by simp [heads, headsWeight, headsCount]
  | .target _ => by simp [heads, headsWeight, headsCount]

theorem headsAll_weight : ∀ shapes : List Shape,
    headsWeight (headsAll shapes) = weightSum shapes ∧ headsCount (headsAll shapes) ≤ countSum shapes
  | [] => by simp [headsAll, weightSum, countSum, headsWeight, headsCount]
  | s :: rest => by
    have first := heads_weight s
    have later := headsAll_weight rest
    simp only [headsWeight, headsCount] at first later
    simp only [headsAll, weightSum, countSum, headsWeight, headsCount, List.map_append, List.sum_append]
    omega

end

theorem product_weight (heads : List (Bool × Shape)) (tails : List (Bool × List Shape)) :
    ((heads.flatMap fun (unsure, head) => tails.map fun (more, tail) => (unsure || more, head :: tail)).map
      fun a => weightProduct a.2).sum = headsWeight heads * (tails.map fun a => countProduct a.2).sum +
        headsCount heads * (tails.map fun a => weightProduct a.2).sum ∧
    ((heads.flatMap fun (unsure, head) => tails.map fun (more, tail) => (unsure || more, head :: tail)).map
      fun a => countProduct a.2).sum = headsCount heads * (tails.map fun a => countProduct a.2).sum := by
  induction heads with
  | nil => simp [headsWeight, headsCount]
  | cons head heads ih =>
    obtain ⟨weights, counts⟩ := ih
    simp only [List.flatMap_cons, List.map_append, List.sum_append, weights, counts, List.map_map,
      Function.comp_def, weightProduct, countProduct, List.sum_map_add, List.sum_map_mul_left,
      headsWeight, headsCount, List.map_cons, List.sum_cons]
    constructor <;> ring

theorem spread_weight (shapes : List Shape) :
    ((spread shapes).map fun a => weightProduct a.2).sum ≤ weightProduct shapes ∧
      ((spread shapes).map fun a => countProduct a.2).sum ≤ countProduct shapes := by
  induction shapes with
  | nil => simp [spread, weightProduct, countProduct]
  | cons s rest ih =>
    obtain ⟨weights, counts⟩ := product_weight s.heads (spread rest)
    obtain ⟨headWeight, headCount⟩ := heads_weight s
    obtain ⟨lighter, fewer⟩ := ih
    simp only [spread, weights, counts, weightProduct, countProduct, headWeight]
    constructor <;> gcongr

end Shape

theorem Row.spread_weight (r : Row) : Row.weightAll r.spread ≤ r.weight := by
  obtain ⟨lighter, fewer⟩ := Shape.spread_weight r.pats
  have sums : Row.weightAll r.spread = ((Shape.spread r.pats).map fun a => Shape.weightProduct a.2).sum +
      ((Shape.spread r.pats).map fun a => Shape.countProduct a.2).sum := by
    simp [Row.weightAll_eq_sum, Row.spread, Row.weight, Function.comp_def, List.sum_map_add]
  rw [sums, Row.weight]
  omega

theorem Row.weightAll_flatMap {f : Row → List Row} {rows : List Row}
    (each : ∀ r ∈ rows, Row.weightAll (f r) ≤ r.weight) :
    Row.weightAll (rows.flatMap f) ≤ Row.weightAll rows := by
  induction rows with
  | nil => simp
  | cons r rows ih =>
    have first := each r (by simp)
    have later := ih fun r' member => each r' (by simp [member])
    simp only [List.flatMap_cons, Row.weightAll_append, Row.weightAll]
    omega

theorem Matrix.spread_weight (m : Matrix) : m.spread.weight ≤ m.weight :=
  Row.weightAll_flatMap fun r _ => r.spread_weight

end TreeCheck.Match
