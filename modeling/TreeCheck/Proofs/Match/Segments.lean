import Mathlib.Data.List.Chain
import Mathlib.Data.List.Permutation
import Mathlib.Data.List.Sort
import Mathlib.Order.Lattice
import TreeCheck.Match.Family

/-!
Segments of the integers. The points at which a column may change its mind cut a run of integers into
pieces on which it does not; the segments are such pieces, joined where the same rows admit them. They
part the integers between the bounds.
-/

namespace TreeCheck.Match

namespace Segment

/-- The segment is not empty, and its cover is what admits any one of its integers. -/
structure Exact (column : List Shape) (s : Segment) : Prop where
  ordered : s.low ≤ s.high
  cover : ∀ n, s.low ≤ n → n ≤ s.high → ∀ i, i ∈ s.cover ↔
    ∃ least greatest, column[i]? = some (.range least greatest) ∧ least ≤ n ∧ n ≤ greatest

def Tiles (high : Int) : Int → List Segment → Prop
  | low, [] => low = high + 1
  | low, s :: rest => s.low = low ∧ s.low ≤ s.high ∧ Tiles high (s.high + 1) rest

theorem Tiles.le {high low : Int} {segments : List Segment} (tiles : Tiles high low segments) :
    low ≤ high + 1 := by
  induction segments generalizing low with
  | nil => exact le_of_eq tiles
  | cons s rest ih =>
    obtain ⟨rfl, ordered, later⟩ := tiles
    have := ih later
    omega

theorem Tiles.inside {high low : Int} {segments : List Segment} (tiles : Tiles high low segments)
    {s : Segment} (member : s ∈ segments) : low ≤ s.low ∧ s.high ≤ high := by
  induction segments generalizing low with
  | nil => simp at member
  | cons head rest ih =>
    obtain ⟨rfl, ordered, later⟩ := tiles
    rcases List.mem_cons.mp member with rfl | member
    · have := later.le
      omega
    · have := ih later member
      omega

theorem Tiles.exists {high low n : Int} {segments : List Segment} (tiles : Tiles high low segments)
    (above : low ≤ n) (below : n ≤ high) : ∃ s ∈ segments, s.low ≤ n ∧ n ≤ s.high := by
  induction segments generalizing low with
  | nil =>
    have : low = high + 1 := tiles
    omega
  | cons head rest ih =>
    obtain ⟨rfl, ordered, later⟩ := tiles
    by_cases within : n ≤ head.high
    · exact ⟨head, by simp, above, within⟩
    · obtain ⟨s, member, bounds⟩ := ih later (by omega)
      exact ⟨s, by simp [member], bounds⟩

theorem Exact.uniform {column : List Shape} {s : Segment} (precise : Exact column s) {least greatest : Int}
    (member : Shape.range least greatest ∈ column) {n : Int} (above : s.low ≤ n) (below : n ≤ s.high) :
    (least ≤ n ∧ n ≤ greatest) ↔ (least ≤ s.low ∧ s.high ≤ greatest) := by
  obtain ⟨i, here⟩ := List.mem_iff_getElem?.mp member
  have covered (k : Int) (above : s.low ≤ k) (below : k ≤ s.high) :
      i ∈ s.cover ↔ least ≤ k ∧ k ≤ greatest := by
    rw [precise.cover k above below i]
    constructor
    · rintro ⟨a, b, same, bounds⟩
      obtain ⟨rfl, rfl⟩ : least = a ∧ greatest = b := by simpa [here] using same
      exact bounds
    · exact fun bounds => ⟨least, greatest, here, bounds⟩
  have ordered := precise.ordered
  have low := covered s.low (le_refl _) ordered
  have high := covered s.high ordered (le_refl _)
  have middle := covered n above below
  constructor
  · intro inside
    exact ⟨(low.mp (middle.mpr inside)).1, (high.mp (middle.mpr inside)).2⟩
  · intro inside
    omega

theorem mem_covering {column : List Shape} {low high : Int} {i : Nat} :
    i ∈ covering column low high ↔
      ∃ least greatest, column[i]? = some (.range least greatest) ∧ least ≤ low ∧ high ≤ greatest := by
  simp only [covering, List.mem_filterMap, List.mem_zipIdx_iff_getElem?, Prod.exists]
  constructor
  · rintro ⟨s, j, here, kept⟩
    cases s <;> simp at kept
    obtain ⟨bounds, rfl⟩ := kept
    exact ⟨_, _, here, bounds⟩
  · rintro ⟨least, greatest, here, bounds⟩
    exact ⟨_, i, here, by simp [bounds]⟩

/-- Between two points that no range boundary separates, a column does not change its mind. -/
theorem exact_of_no_boundary {column : List Shape} {a b : Int} (ordered : a < b)
    (still : ∀ least greatest, Shape.range least greatest ∈ column → least ≤ greatest →
      ¬ (a < least ∧ least < b) ∧ ¬ (a < greatest + 1 ∧ greatest + 1 < b)) :
    Exact column ⟨a, b - 1, covering column a (b - 1)⟩ := by
  refine ⟨by simp only; omega, fun n above below i => ?_⟩
  simp only at above below
  rw [mem_covering]
  constructor
  · rintro ⟨least, greatest, here, bounds⟩
    exact ⟨least, greatest, here, by omega, by omega⟩
  · rintro ⟨least, greatest, here, low, high⟩
    have apart := still least greatest (List.mem_of_getElem? here) (by omega)
    exact ⟨least, greatest, here, by omega, by omega⟩

theorem pieces_tile (column : List Shape) {points : List Int} (sorted : points.Pairwise (· < ·))
    {first last : Int} (head : points.head? = some first) (final : points.getLast? = some last) :
    Tiles (last - 1) first (pieces column points) := by
  induction points generalizing first with
  | nil => simp at head
  | cons a rest ih =>
    obtain rfl : a = first := by simpa using head
    cases rest with
    | nil =>
      obtain rfl : a = last := by simpa using final
      simp [pieces, Tiles]
    | cons b rest =>
      have step : a < b := (List.pairwise_cons.mp sorted).1 b (by simp)
      have later := ih (List.pairwise_cons.mp sorted).2 rfl (by simpa using final)
      exact ⟨rfl, by simp only; omega, by simpa using later⟩

/-- If the boundaries of all ranges are among the points, unless they lie outside, every piece is
exact. -/
theorem pieces_exact {column : List Shape} {points : List Int} (sorted : points.Pairwise (· < ·))
    {first last : Int} (head : points.head? = some first) (final : points.getLast? = some last)
    (complete : ∀ least greatest, Shape.range least greatest ∈ column → least ≤ greatest →
      ∀ n, n = least ∨ n = greatest + 1 → first ≤ n → n ≤ last → n ∈ points) :
    ∀ s ∈ pieces column points, Exact column s := by
  induction points generalizing first with
  | nil => simp at head
  | cons a rest ih =>
    obtain rfl : a = first := by simpa using head
    cases rest with
    | nil => simp [pieces]
    | cons b rest =>
      have smaller := List.pairwise_cons.mp sorted
      have step : a < b := smaller.1 b (by simp)
      have tail : (b :: rest).getLast? = some last := by simpa using final
      have top : b ≤ last := by
        have tiles := (pieces_tile column smaller.2 rfl tail).le
        omega
      have later : ∀ n ∈ b :: rest, b ≤ n := by
        intro n member
        rcases List.mem_cons.mp member with rfl | member
        · exact le_refl _
        · exact le_of_lt ((List.pairwise_cons.mp smaller.2).1 n member)
      intro s member
      rcases List.mem_cons.mp member with rfl | member
      · refine exact_of_no_boundary step fun least greatest inColumn ordered => ?_
        have boundary (n : Int) (edge : n = least ∨ n = greatest + 1) : ¬ (a < n ∧ n < b) := by
          rintro ⟨above, below⟩
          have point := complete least greatest inColumn ordered n edge (by omega) (by omega)
          rcases List.mem_cons.mp point with rfl | point
          · omega
          · have := later n point
            omega
        exact ⟨boundary least (Or.inl rfl), boundary (greatest + 1) (Or.inr rfl)⟩
      · refine ih smaller.2 rfl tail (fun least greatest inColumn ordered n edge above below => ?_)
          s member
        have point := complete least greatest inColumn ordered n edge (by omega) below
        rcases List.mem_cons.mp point with rfl | point
        · omega
        · exact point

theorem merge_tiles {high low : Int} {segments : List Segment} (tiles : Tiles high low segments) :
    Tiles high low (merge segments) := by
  induction segments generalizing low with
  | nil => exact tiles
  | cons s rest ih =>
    obtain ⟨rfl, ordered, later⟩ := tiles
    have below := ih later
    simp only [merge]
    cases merged : merge rest with
    | nil =>
      rw [merged] at below
      exact ⟨rfl, ordered, below⟩
    | cons next more =>
      rw [merged] at below
      obtain ⟨start, long, after⟩ := below
      by_cases same : s.cover = next.cover
      · simp only [same, beq_self_eq_true, if_true]
        exact ⟨rfl, by simp only; omega, after⟩
      · simp only [beq_iff_eq, same, if_false]
        exact ⟨rfl, ordered, start, long, after⟩

theorem merge_exact {column : List Shape} {high low : Int} {segments : List Segment}
    (tiles : Tiles high low segments) (each : ∀ s ∈ segments, Exact column s) :
    ∀ s ∈ merge segments, Exact column s := by
  induction segments generalizing low with
  | nil => simp [merge]
  | cons s rest ih =>
    obtain ⟨rfl, ordered, later⟩ := tiles
    have below := ih later fun t member => each t (by simp [member])
    have start := merge_tiles later
    have first := each s (by simp)
    simp only [merge]
    cases merged : merge rest with
    | nil => simpa [merged] using first
    | cons next more =>
      rw [merged] at below start
      have second := below next (by simp)
      by_cases same : s.cover = next.cover
      · simp only [same, beq_self_eq_true, if_true]
        intro t member
        rcases List.mem_cons.mp member with rfl | member
        · refine ⟨by have := start.2.1; have := start.1; simp only; omega, ?_⟩
          intro n above coming i
          -- the joined segment is the first one followed by the second
          by_cases within : n ≤ s.high
          · exact same ▸ first.cover n above within i
          · exact second.cover n (by have := start.1; omega) coming i
        · exact below t (by simp [member])
      · simp only [beq_iff_eq, same, if_false]
        intro t member
        rcases List.mem_cons.mp member with rfl | member
        · exact first
        · exact below t member

theorem mem_distinct {n : Int} (ns : List Int) : n ∈ distinct ns ↔ n ∈ ns := by
  fun_induction distinct ns with
  | case1 a b rest same ih =>
    obtain rfl : a = b := by simpa using same
    simp [ih]
  | case2 a b rest differ ih => rw [List.mem_cons, ih, List.mem_cons (a := n) (b := a)]
  | case3 => rfl

theorem distinct_sorted {ns : List Int} (sorted : ns.Pairwise (· ≤ ·)) :
    (distinct ns).Pairwise (· < ·) := by
  fun_induction distinct ns with
  | case1 a b rest same ih => exact ih (List.pairwise_cons.mp sorted).2
  | case2 a b rest differ ih =>
    obtain ⟨least, later⟩ := List.pairwise_cons.mp sorted
    refine List.pairwise_cons.mpr ⟨?_, ih later⟩
    intro n member
    have step : a ≠ b := by simpa using differ
    rcases List.mem_cons.mp ((mem_distinct _).mp member) with rfl | member
    · exact lt_of_le_of_ne (least n (by simp)) step
    · have := least b (by simp)
      have := (List.pairwise_cons.mp later).1 n member
      omega
  | case3 ns short =>
    match ns, short with
    | [], _ => exact .nil
    | [a], _ => exact List.pairwise_singleton _ _
    | a :: b :: rest, short => exact absurd rfl (short a b rest)

theorem points_sorted (column : List Shape) (low stop : Int) :
    (points column low stop).Pairwise (· ≤ ·) := by
  have sorted (l : List Int) : (l.mergeSort fun a b => decide (a ≤ b)).Pairwise
      fun a b => decide (a ≤ b) = true :=
    List.pairwise_mergeSort
      (fun a b c ab bc => by simp only [decide_eq_true_eq] at *; omega)
      (fun a b => by simp only [Bool.or_eq_true, decide_eq_true_eq]; omega) l
  exact (sorted _).imp of_decide_eq_true

theorem mem_points {column : List Shape} {low stop n : Int} : n ∈ points column low stop ↔
    n = low ∨ n = stop ∨ ∃ least greatest, Shape.range least greatest ∈ column ∧ least ≤ greatest ∧
      (n = clamp low stop least ∨ n = clamp low stop (greatest + 1)) := by
  simp only [points, List.mem_mergeSort, List.mem_cons, List.mem_flatMap]
  refine or_congr Iff.rfl (or_congr Iff.rfl ⟨?_, ?_⟩)
  · rintro ⟨s, member, edge⟩
    cases s <;> simp at edge
    obtain ⟨ordered, edge⟩ := edge
    exact ⟨_, _, member, ordered, edge⟩
  · rintro ⟨least, greatest, member, ordered, edge⟩
    refine ⟨_, member, ?_⟩
    have : ¬ greatest < least := by omega
    simpa [this] using edge

theorem points_bounds {column : List Shape} {low stop n : Int} (ordered : low ≤ stop)
    (member : n ∈ points column low stop) : low ≤ n ∧ n ≤ stop := by
  rcases mem_points.mp member with rfl | rfl | ⟨least, greatest, -, -, edge | edge⟩
  · omega
  · omega
  · rw [edge, clamp]
    split <;> omega
  · rw [edge, clamp]
    split <;> omega

theorem head?_eq_of_least {ns : List Int} (sorted : ns.Pairwise (· < ·)) {n : Int} (member : n ∈ ns)
    (least : ∀ k ∈ ns, n ≤ k) : ns.head? = some n := by
  cases ns with
  | nil => simp at member
  | cons a rest =>
    rcases List.mem_cons.mp member with rfl | later
    · rfl
    · have first := (List.pairwise_cons.mp sorted).1 n later
      have other := least a (by simp)
      omega

theorem getLast?_eq_of_greatest {ns : List Int} (sorted : ns.Pairwise (· < ·)) {n : Int}
    (member : n ∈ ns) (greatest : ∀ k ∈ ns, k ≤ n) : ns.getLast? = some n := by
  induction ns with
  | nil => simp at member
  | cons a rest ih =>
    have split := List.pairwise_cons.mp sorted
    cases rest with
    | nil =>
      obtain rfl : n = a := by simpa using member
      rfl
    | cons b rest =>
      rcases List.mem_cons.mp member with rfl | later
      · have first := split.1 b (by simp)
        have other := greatest b (by simp)
        omega
      · simpa using ih split.2 later fun k inside => greatest k (by simp [inside])

private theorem cuts (column : List Shape) {low high : Int} (ordered : low ≤ high) :
    (distinct (points column low (high + 1))).Pairwise (· < ·) ∧
      (distinct (points column low (high + 1))).head? = some low ∧
      (distinct (points column low (high + 1))).getLast? = some (high + 1) := by
  have sorted := distinct_sorted (points_sorted column low (high + 1))
  have bounds : ∀ k ∈ distinct (points column low (high + 1)), low ≤ k ∧ k ≤ high + 1 :=
    fun k member => points_bounds (by omega) ((mem_distinct _).mp member)
  exact ⟨sorted,
    head?_eq_of_least sorted ((mem_distinct _).mpr (mem_points.mpr (Or.inl rfl)))
      fun k member => (bounds k member).1,
    getLast?_eq_of_greatest sorted ((mem_distinct _).mpr (mem_points.mpr (Or.inr (Or.inl rfl))))
      fun k member => (bounds k member).2⟩

theorem all_tile (column : List Shape) {low high : Int} (ordered : low ≤ high) :
    Tiles high low (all column low high) := by
  obtain ⟨sorted, head, final⟩ := cuts column ordered
  have tiles := merge_tiles (pieces_tile column sorted head final)
  simpa [all] using tiles

/-- A column does not change its mind inside a segment. -/
theorem all_exact {column : List Shape} {low high : Int} (ordered : low ≤ high) :
    ∀ s ∈ all column low high, Exact column s := by
  obtain ⟨sorted, head, final⟩ := cuts column ordered
  refine merge_exact (pieces_tile column sorted head final) (pieces_exact sorted head final ?_)
  intro least greatest member nonempty n edge above below
  rw [mem_distinct, mem_points]
  have kept : clamp low (high + 1) n = n := by
    rw [clamp]
    split
    · omega
    · split <;> omega
  refine Or.inr (Or.inr ⟨least, greatest, member, nonempty, ?_⟩)
  rcases edge with rfl | rfl
  · exact Or.inl kept.symm
  · exact Or.inr kept.symm

theorem Tiles.head? {high low : Int} {segments : List Segment} (tiles : Tiles high low segments)
    (ordered : low ≤ high) : ∃ s, segments.head? = some s ∧ s.low = low := by
  cases segments with
  | nil =>
    have : low = high + 1 := tiles
    omega
  | cons s rest => exact ⟨s, rfl, tiles.1⟩

theorem Tiles.getLast? {high low : Int} {segments : List Segment} (tiles : Tiles high low segments)
    (ordered : low ≤ high) : ∃ s, segments.getLast? = some s ∧ s.high = high := by
  induction segments generalizing low with
  | nil =>
    have : low = high + 1 := tiles
    omega
  | cons s rest ih =>
    have later : Tiles high (s.high + 1) rest := tiles.2.2
    cases rest with
    | nil =>
      have : s.high + 1 = high + 1 := later
      exact ⟨s, rfl, by omega⟩
    | cons t more =>
      have start : t.low = s.high + 1 := later.1
      have nonempty : t.low ≤ t.high := later.2.1
      have inside : t.high ≤ high := (later.inside List.mem_cons_self).2
      obtain ⟨final, found, ends⟩ := ih later (by omega)
      exact ⟨final, by simpa using found, ends⟩

theorem Tiles.isChain {high low : Int} {segments : List Segment} (tiles : Tiles high low segments) :
    segments.IsChain fun s t => t.low = s.high + 1 := by
  induction segments generalizing low with
  | nil => exact .nil
  | cons s rest ih =>
    have later : Tiles high (s.high + 1) rest := tiles.2.2
    cases rest with
    | nil => exact .singleton s
    | cons t more => exact .cons_cons later.1 (ih later)

/-- The positions in a cover go up. -/
theorem covering_sorted (column : List Shape) (low high : Int) :
    (covering column low high).Pairwise (· < ·) := by
  have positions : column.zipIdx.Pairwise fun a b => a.2 < b.2 := by
    apply List.pairwise_map.mp
    rw [List.zipIdx_map_snd]
    exact List.pairwise_lt_range'
  apply positions.filterMap
  intro a b before i first j second
  obtain ⟨s, k⟩ := a
  obtain ⟨t, l⟩ := b
  cases s <;> cases t <;> simp_all

theorem pieces_sorted (column : List Shape) (points : List Int) :
    ∀ s ∈ pieces column points, s.cover.Pairwise (· < ·) := by
  induction points with
  | nil => simp [pieces]
  | cons a rest ih =>
    cases rest with
    | nil => simp [pieces]
    | cons b rest => exact List.forall_mem_cons.mpr ⟨covering_sorted column a (b - 1), ih⟩

/-- Joining segments makes no new covers. -/
theorem merge_covers {segments : List Segment} {s : Segment} (member : s ∈ merge segments) :
    ∃ t ∈ segments, s.cover = t.cover := by
  induction segments generalizing s with
  | nil => simp [merge] at member
  | cons first rest ih =>
    have older (t : Segment) (inside : t ∈ merge rest) : ∃ u ∈ first :: rest, t.cover = u.cover := by
      obtain ⟨u, found, same⟩ := ih inside
      exact ⟨u, List.mem_cons_of_mem first found, same⟩
    simp only [merge] at member
    cases merged : merge rest with
    | nil =>
      rw [merged] at member
      exact ⟨s, by simpa using Or.inl (List.mem_singleton.mp member), rfl⟩
    | cons next more =>
      rw [merged] at member older
      by_cases joined : first.cover = next.cover
      · simp only [joined, beq_self_eq_true, if_true] at member
        rcases List.mem_cons.mp member with rfl | later
        · exact ⟨first, List.mem_cons_self, joined.symm⟩
        · exact older s (List.mem_cons_of_mem next later)
      · simp only [beq_iff_eq, joined, if_false] at member
        rcases List.mem_cons.mp member with rfl | later
        · exact ⟨s, List.mem_cons_self, rfl⟩
        · exact older s later

/-- After joining, no neighbours have one cover. -/
theorem merge_differ (segments : List Segment) :
    (merge segments).IsChain fun s t => s.cover ≠ t.cover := by
  induction segments with
  | nil => exact .nil
  | cons s rest ih =>
    simp only [merge]
    cases merged : merge rest with
    | nil => exact .singleton s
    | cons next more =>
      rw [merged] at ih
      by_cases same : s.cover = next.cover
      · simp only [same, beq_self_eq_true, if_true]
        -- the joined segment has the cover of the one it replaces
        cases more with
        | nil => exact .singleton _
        | cons t others =>
          rw [List.isChain_cons_cons] at ih ⊢
          exact ih
      · simp only [beq_iff_eq, same, if_false]
        exact .cons_cons same ih

/-- Of two neighbours one has a row that the other has not. -/
theorem all_apart (column : List Shape) (low high : Int) :
    (all column low high).IsChain fun s t => ∃ k, ¬ (k ∈ s.cover ↔ k ∈ t.cover) := by
  have sorted : ∀ s ∈ all column low high, s.cover.Pairwise (· < ·) := by
    intro s member
    obtain ⟨t, inside, same⟩ := merge_covers member
    rw [same]
    exact pieces_sorted column _ t inside
  apply (merge_differ _).imp_of_mem_imp
  intro s t first second differ
  by_contra alike
  push Not at alike
  exact differ ((sorted s first).eq_of_mem_iff (sorted t second) alike)

end Segment

namespace Matrix

/-- Segments that part the integers from `low` to `high` by the rows that admit them in a column. -/
structure Partition (m : Matrix) (i : Nat) (low high : Int) (segments : List Segment) : Prop where
  starts : ∃ s, segments.head? = some s ∧ s.low = low
  ends : ∃ s, segments.getLast? = some s ∧ s.high = high
  ordered : ∀ s ∈ segments, s.low ≤ s.high
  follows : segments.IsChain fun s t => t.low = s.high + 1
  apart : segments.IsChain fun s t => ∃ k, ¬ (k ∈ s.cover ↔ k ∈ t.cover)
  cover : ∀ s ∈ segments, ∀ n, s.low ≤ n → n ≤ s.high → ∀ k, k ∈ s.cover ↔
    ∃ r least greatest, m.rows[k]? = some r ∧ r.pats[i]? = some (.range least greatest) ∧
      least ≤ n ∧ n ≤ greatest

theorem getElem?_column {m : Matrix} {i : Nat} (wide : ∀ r ∈ m.rows, i < r.pats.length) (k : Nat) :
    (m.column i)[k]? = m.rows[k]?.bind fun r => r.pats[i]? := by
  unfold column
  generalize m.rows = rows at wide
  induction rows generalizing k with
  | nil => rfl
  | cons r rows ih =>
    have shape := List.getElem?_eq_getElem (wide r List.mem_cons_self)
    rw [List.filterMap_cons, shape]
    cases k with
    | zero => simp [shape]
    | succ k => simpa using ih k fun r' member => wide r' (List.mem_cons_of_mem r member)

/-- The segments of a column part the integers between any bounds, whatever ranges it holds. -/
theorem segments_partition (m : Matrix) (i : Nat) (wide : ∀ r ∈ m.rows, i < r.pats.length)
    {low high : Int} (ordered : low ≤ high) :
    m.Partition i low high (Segment.all (m.column i) low high) := by
  have tiles := Segment.all_tile (m.column i) ordered
  have precise : ∀ s ∈ Segment.all (m.column i) low high, Segment.Exact (m.column i) s :=
    Segment.all_exact ordered
  constructor
  case starts => exact tiles.head? ordered
  case ends => exact tiles.getLast? ordered
  case ordered => exact fun s member => (precise s member).ordered
  case follows => exact tiles.isChain
  case apart => exact Segment.all_apart (m.column i) low high
  case cover =>
    intro s member n above below k
    rw [(precise s member).cover n above below k]
    constructor
    · rintro ⟨least, greatest, here, bounds⟩
      rw [getElem?_column wide, Option.bind_eq_some_iff] at here
      obtain ⟨r, row, shape⟩ := here
      exact ⟨r, least, greatest, row, shape, bounds⟩
    · rintro ⟨r, least, greatest, row, shape, bounds⟩
      refine ⟨least, greatest, ?_, bounds⟩
      rw [getElem?_column wide, row, Option.bind_some, shape]

/-- A column over the bytes with a range inside, an empty one, two that reach out of the bounds, one
that lies outside, and a row that tests nothing. -/
def byteMatrix : Matrix :=
  { cols := [⟨[], .int .u8⟩]
    rows := [[.range 10 20], [.range 9 3], [.range (-5) 12], [.range 300 400], [.any none],
      [.range 20 999]].map fun pats => { pats } }

theorem byteMatrix_partition :
    (∀ r ∈ byteMatrix.rows, 0 < r.pats.length) ∧ (0 : Int) ≤ 255 ∧
      byteMatrix.Partition 0 0 255 [⟨0, 9, [2]⟩, ⟨10, 12, [0, 2]⟩, ⟨13, 19, [0]⟩, ⟨20, 20, [0, 5]⟩,
        ⟨21, 255, [5]⟩] := by
  have wide : ∀ r ∈ byteMatrix.rows, 0 < r.pats.length := by simp [byteMatrix]
  have computed : Segment.all (byteMatrix.column 0) 0 255 = [⟨0, 9, [2]⟩, ⟨10, 12, [0, 2]⟩,
      ⟨13, 19, [0]⟩, ⟨20, 20, [0, 5]⟩, ⟨21, 255, [5]⟩] := by cbv
  exact ⟨wide, by decide, computed ▸ byteMatrix.segments_partition 0 wide (by decide)⟩

end Matrix

end TreeCheck.Match
