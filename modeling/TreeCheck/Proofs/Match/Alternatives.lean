import TreeCheck.Proofs.Match.Columns

/-!
Spreading the alternatives of a row. A shape matches in the ways of its alternatives, and a row in
those of the rows that it is spread into; only their order may change.
-/

namespace TreeCheck.Match

theorem cross_unsure (a b : Bool) (ws : List Way) :
    cross [{ guarded := a }] (cross [{ guarded := b }] ws) = cross [{ guarded := a || b }] ws := by
  rw [← cross_assoc]
  simp [cross_singleton, Way.append]

namespace Shape

mutual

theorem ways_heads : ∀ (s : Shape) (v : Value),
    s.ways v = s.heads.flatMap fun (unsure, head) => cross [{ guarded := unsure }] (head.ways v)
  | .choice alternatives, v => by
    simp only [ways, heads]
    exact waysAny_heads alternatives v
  | .guarded inner, v => by
    simp only [ways, heads, List.flatMap_map]
    rw [ways_heads inner v, cross_singleton, List.map_flatMap]
    congr 1
    funext head
    rw [← cross_singleton, cross_unsure, Bool.true_or]
  | .any _, _ => by simp [heads]
  | .bool _, _ => by simp [heads]
  | .variant .., _ => by simp [heads]
  | .range .., _ => by simp [heads]
  | .string _, _ => by simp [heads]
  | .float _, _ => by simp [heads]
  | .list .., _ => by simp [heads]
  | .product _, _ => by simp [heads]
  | .target _, _ => by simp [heads]

theorem waysAny_heads : ∀ (shapes : List Shape) (v : Value), waysAny shapes v =
    (headsAll shapes).flatMap fun (unsure, head) => cross [{ guarded := unsure }] (head.ways v)
  | [], _ => by simp [waysAny, headsAll]
  | s :: rest, v => by
    simp only [waysAny, headsAll, List.flatMap_append]
    rw [← ways_heads s v, ← waysAny_heads rest v]

end

mutual

theorem heads_fits {decls : Decls} {floats : Bool} : ∀ (s : Shape) (t : Ty), Fits decls floats s t →
    ∀ h ∈ s.heads, h.2.isHead = true ∧ Fits decls floats h.2 t
  | .choice alternatives, t, fits => by
    simp only [heads]
    exact headsAll_fits alternatives t fits
  | .guarded inner, t, fits => by
    simp only [heads, List.mem_map]
    rintro _ ⟨h, member, rfl⟩
    exact heads_fits inner t fits h member
  | .any _, _, fits => by simp [heads, isHead, fits]
  | .bool _, _, fits => by simp [heads, isHead, fits]
  | .variant .., _, fits => by simp [heads, isHead, fits]
  | .range .., _, fits => by simp [heads, isHead, fits]
  | .string _, _, fits => by simp [heads, isHead, fits]
  | .float _, _, fits => by simp [heads, isHead, fits]
  | .list .., _, fits => by simp [heads, isHead, fits]
  | .product _, _, fits => by simp [heads, isHead, fits]
  | .target _, _, fits => by simp [heads, isHead, fits]

theorem headsAll_fits {decls : Decls} {floats : Bool} : ∀ (shapes : List Shape) (t : Ty),
    FitsEach decls floats shapes t →
    ∀ h ∈ headsAll shapes, h.2.isHead = true ∧ Fits decls floats h.2 t
  | [], _, _ => by simp [headsAll]
  | s :: rest, t, fits => by
    intro h member
    rcases List.mem_append.mp (by simpa [headsAll] using member) with first | later
    · exact heads_fits s t fits.1 h first
    · exact headsAll_fits rest t fits.2 h later

end

theorem mem_spread_cons {s : Shape} {rest shapes : List Shape} {unsure : Bool} :
    (unsure, shapes) ∈ spread (s :: rest) ↔ ∃ a h b tail, (a, h) ∈ s.heads ∧
      (b, tail) ∈ spread rest ∧ unsure = (a || b) ∧ shapes = h :: tail := by
  simp only [spread, List.mem_flatMap, List.mem_map, Prod.exists, Prod.mk.injEq]
  constructor
  · rintro ⟨a, h, first, b, tail, later, rfl, rfl⟩
    exact ⟨a, h, b, tail, first, later, rfl, rfl⟩
  · rintro ⟨a, h, b, tail, first, later, rfl, rfl⟩
    exact ⟨a, h, first, b, tail, later, rfl, rfl⟩

theorem spread_fits {decls : Decls} {floats : Bool} {shapes : List Shape} {types : List Ty}
    (fits : List.Forall₂ (Fits decls floats) shapes types) :
    ∀ a ∈ spread shapes, (∀ s ∈ a.2, s.isHead = true) ∧ List.Forall₂ (Fits decls floats) a.2 types := by
  induction fits with
  | nil => simp [spread]
  | @cons s t shapes types first later ih =>
    rintro ⟨unsure, row⟩ member
    obtain ⟨a, h, b, tail, inHeads, inRest, -, rfl⟩ := mem_spread_cons.mp member
    obtain ⟨isHead, suits⟩ := heads_fits s t first _ inHeads
    obtain ⟨heads, others⟩ := ih _ inRest
    exact ⟨List.forall_mem_cons.mpr ⟨isHead, heads⟩, .cons suits others⟩

theorem waysAll_spread {strict : Prop} (shapes : List Shape) (values : List Value)
    (ordered : strict → orderlyAll shapes = true) :
    Arranged strict (waysAll shapes values) ((spread shapes).flatMap fun (unsure, row) =>
      cross [{ guarded := unsure }] (waysAll row values)) := by
  induction shapes generalizing values with
  | nil => exact Arranged.of_eq (by simp [spread, waysAll])
  | cons s rest ih =>
    cases values with
    | nil =>
      refine Arranged.of_eq ?_
      simp [waysAll, spread, List.flatMap_assoc, List.flatMap_map]
    | cons v values =>
      simp only [orderlyAll, Bool.and_eq_true, Bool.or_eq_true] at ordered
      simp only [waysAll, spread, List.flatMap_assoc, List.flatMap_map]
      rw [ways_heads s v, cross_flatMap]
      refine Arranged.flatMap _ fun head inHeads => ?_
      obtain ⟨unsure, h⟩ := head
      -- Either the head leaves no choice, or what follows does not.
      have few (known : strict) : (cross [{ guarded := unsure }] (h.ways v)).length ≤ 1 ∨
          (spread rest).length ≤ 1 := by
        refine (ordered known).2.imp (fun top => ?_) fun free => (length_spread free).le
        simpa [cross_singleton] using length_ways h v (definite_heads s top _ inHeads)
      calc
        Arranged strict (cross (cross [{ guarded := unsure }] (h.ways v)) (waysAll rest values))
            (cross (cross [{ guarded := unsure }] (h.ways v)) ((spread rest).flatMap
              fun (more, tail) => cross [{ guarded := more }] (waysAll tail values))) :=
          (Arranged.refl _).cross (ih values fun known => (ordered known).1.2)
        Arranged strict _ ((spread rest).flatMap fun (more, tail) =>
            cross (cross [{ guarded := unsure }] (h.ways v))
              (cross [{ guarded := more }] (waysAll tail values))) :=
          .cross_flatMap_right few _
        Arranged strict _ _ := .flatMap _ fun later _ => by
          simp only [cross_assoc, ← cross_unsure]
          exact (Arranged.refl _).cross (.cross_left_comm (fun _ => .inr (by simp)) _)

end Shape

theorem Row.spread_arranged {strict : Prop} (look : Path → Option Value) (values : List Value) (r : Row)
    (ordered : strict → Shape.orderlyAll r.pats = true) :
    Arranged strict (r.ways look values) (r.spread.flatMap (Row.ways look values)) := by
  simp only [Row.ways, Row.spread, List.flatMap_map]
  refine ((Arranged.refl _).cross (Shape.waysAll_spread r.pats values ordered)).trans ?_
  refine (Arranged.cross_flatMap_right (fun _ => .inl (by simp)) _).trans (Arranged.of_eq ?_)
  congr 1
  funext alternative
  obtain ⟨unsure, shapes⟩ := alternative
  rw [← cross_assoc]
  simp [cross_singleton, Way.append]

namespace Matrix

/-- The rows of those arms that `strict` names are orderly. -/
def Orderly (strict : Nat → Prop) (m : Matrix) : Prop :=
  ∀ r ∈ m.rows, strict r.arm → Shape.orderlyAll r.pats = true

theorem spread_paired {strict : Nat → Prop} (look : Path → Option Value) (values : List Value) {m : Matrix}
    (orderly : m.Orderly strict) :
    Paired strict (outcomes look values m.rows) (outcomes look values m.spread.rows) := by
  refine outcomes_paired fun r member => ?_
  have paired := (Row.spread_arranged look values r (orderly r member)).paired
  have arms : outcomes look values r.spread =
      (r.spread.flatMap (Row.ways look values)).map fun w => (r.arm, w) := by
    simp [outcomes, Row.spread, List.map_flatMap, List.flatMap_map]
  rw [arms]
  simpa [outcomes] using paired

theorem spread_agree (look : Path → Option Value) (values : List Value) (m : Matrix) :
    Agree (outcomes look values m.rows) (outcomes look values m.spread.rows) :=
  have none : m.Orderly fun _ => False := fun _ _ => False.elim
  (spread_paired look values none).agree

theorem Orderly.spread {strict : Nat → Prop} {m : Matrix} (orderly : m.Orderly strict) :
    m.spread.Orderly strict := by
  intro r member known
  obtain ⟨first, inside, alternative⟩ := List.mem_flatMap.mp member
  obtain ⟨⟨unsure, shapes⟩, chosen, rfl⟩ := List.mem_map.mp alternative
  exact Shape.orderlyAll_spread (orderly first inside known) _ chosen

variable {decls : Decls} {floats : Bool} {m : Matrix}

theorem spread_heads_fits (fit : m.Fits decls floats) {r : Row} (member : r ∈ m.spread.rows) :
    (∀ s ∈ r.pats, s.isHead = true) ∧
      List.Forall₂ (Shape.Fits decls floats) r.pats (m.cols.map Column.type) := by
  obtain ⟨first, inside, alternative⟩ := List.mem_flatMap.mp member
  obtain ⟨⟨unsure, shapes⟩, chosen, rfl⟩ := List.mem_map.mp alternative
  exact Shape.spread_fits (fit first inside) _ chosen

theorem spread_fits (fit : m.Fits decls floats) : m.spread.Fits decls floats :=
  fun _ member => (spread_heads_fits fit member).2

theorem spread_column (fit : m.Fits decls floats) (i : Nat) :
    ∀ s ∈ m.spread.column i, s.isHead = true := by
  intro s member
  obtain ⟨r, inside, shape⟩ := List.mem_filterMap.mp member
  exact (spread_heads_fits fit inside).1 s (List.mem_of_getElem? shape)

end Matrix

end TreeCheck.Match
