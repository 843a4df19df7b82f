import TreeCheck.Proofs.Match.Lowering

/-!
Replacing a column of a matrix. Each step of match compilation changes the rows one by one and at one
column only; what such a change does to a row follows from what it does to one shape.
-/

namespace TreeCheck.Match

/-- The columns of a row, or of a matrix, around a position. -/
theorem split_at {α : Type} {l : List α} {i : Nat} {x : α} (here : l[i]? = some x) :
    ∃ front back, l = front ++ x :: back ∧ front.length = i := by
  obtain ⟨inside, rfl⟩ := List.getElem?_eq_some_iff.mp here
  refine ⟨l.take i, l.drop (i + 1), ?_, by simp; omega⟩
  rw [← List.drop_eq_getElem_cons inside, List.take_append_drop]

def gather (look : Path → Option Value) (bindings : List Extraction) : Env :=
  bindings.filterMap fun b => (look b.path).map fun part => (b.name, part)

theorem gather_append (look : Path → Option Value) (a b : List Extraction) :
    gather look (a ++ b) = gather look a ++ gather look b := List.filterMap_append

theorem Shape.waysAll_append {front back : List Shape} {values others : List Value}
    (sized : front.length = values.length) :
    waysAll (front ++ back) (values ++ others) = cross (waysAll front values) (waysAll back others) := by
  induction front generalizing values with
  | nil =>
    obtain rfl : values = [] := List.length_eq_zero_iff.mp (by simpa using sized.symm)
    simp [waysAll]
  | cons s front ih =>
    cases values with
    | nil => simp at sized
    | cons v values =>
      simp only [List.cons_append, waysAll]
      rw [ih (by simpa using sized), cross_assoc]

namespace Row

def ways (look : Path → Option Value) (values : List Value) (r : Row) : List Way :=
  cross [⟨gather look r.binds, r.guarded⟩] (Shape.waysAll r.pats values)

/-- A row with another list of shapes in place of one, unless it is dropped. -/
def splice? (i : Nat) (change : Shape → Option (List Shape × List Extraction)) (r : Row) :
    Option Row :=
  (r.pats[i]?.bind change).map fun (shapes, binds) =>
    { r with pats := r.pats.take i ++ shapes ++ r.pats.drop (i + 1), binds := r.binds ++ binds }

end Row

/-- A change of shapes fits a value `x` and the values `parts` that come in its place: a changed shape
matches in the same ways, and a shape that is dropped matches in none. -/
def Follows (look : Path → Option Value) (change : Shape → Option (List Shape × List Extraction))
    (x : Value) (parts : List Value) (s : Shape) : Prop :=
  match change s with
  | some (shapes, binds) => shapes.length = parts.length ∧
      s.ways x = cross [{ env := gather look binds }] (Shape.waysAll shapes parts)
  | none => s.ways x = []

theorem Row.ways_split (look : Path → Option Value) {front back : List Shape} {s : Shape}
    {values : List Value} (x : Value) (others : List Value) (sized : front.length = values.length)
    (r : Row) (around : r.pats = front ++ s :: back) :
    r.ways look (values ++ x :: others) =
      cross [⟨gather look r.binds, r.guarded⟩] (cross (Shape.waysAll front values)
        (cross (s.ways x) (Shape.waysAll back others))) := by
  simp only [Row.ways, around]
  rw [Shape.waysAll_append sized]
  rfl

/-- A row that a change keeps matches in the same ways as before, and in the same order. -/
theorem Row.splice_level {look : Path → Option Value}
    {change : Shape → Option (List Shape × List Extraction)} {x : Value} {parts : List Value}
    {s : Shape} (follows : Follows look change x parts s) {front back : List Shape}
    {values : List Value} (others : List Value) (sized : front.length = values.length) (r : Row)
    (around : r.pats = front ++ s :: back) :
    match r.splice? front.length change with
    | some r' => r'.arm = r.arm ∧
        Level (r.ways look (values ++ x :: others)) (r'.ways look (values ++ parts ++ others))
    | none => r.ways look (values ++ x :: others) = [] := by
  have split := Row.ways_split look x others sized r around
  have at_column : r.pats[front.length]? = some s := by simp [around]
  unfold Follows at follows
  simp only [Row.splice?, at_column, Option.bind_some]
  cases changed : change s with
  | none =>
    simp only [changed] at follows
    simp [split, follows]
  | some replaced =>
    obtain ⟨shapes, binds⟩ := replaced
    simp only [changed] at follows
    refine ⟨rfl, ?_⟩
    have pats : r.pats.take front.length ++ shapes ++ r.pats.drop (front.length + 1) =
        front ++ (shapes ++ back) := by simp [around]
    have joined : cross [⟨gather look (r.binds ++ binds), r.guarded⟩] =
        fun ws => cross [⟨gather look r.binds, r.guarded⟩] (cross [{ env := gather look binds }] ws) := by
      funext ws
      rw [← cross_assoc]
      simp [cross_singleton, Way.append, gather_append]
    simp only [Row.ways, pats, List.append_assoc]
    rw [Shape.waysAll_append sized, Shape.waysAll_append follows.1, joined, around,
      Shape.waysAll_append sized]
    refine (Level.refl _).cross ?_
    rw [Shape.waysAll, follows.2, cross_assoc [_]]
    exact .cross_left_comm (.inr (by simp)) _

/-- What the rows of a matrix match, in their order. -/
def outcomes (look : Path → Option Value) (values : List Value) (rows : List Row) :
    List (Nat × Way) :=
  rows.flatMap fun r => (r.ways look values).map fun w => (r.arm, w)

def label (outcome : Nat × Way) : Nat × Gist := (outcome.1, outcome.2.gist)

def ofArm (arm : Nat) (outs : List (Nat × Way)) : List (Nat × Way) := outs.filter fun o => o.1 == arm

/-- No choice that goes by what is bound, in no order, tells two lists of outcomes apart by the arm it
finds first, and their first outcomes are the same. -/
structure Agree (xs ys : List (Nat × Way)) : Prop where
  chosen : ∀ ok : Nat × Gist → Bool, (xs.find? fun o => ok (label o)).map Prod.fst =
    (ys.find? fun o => ok (label o)).map Prod.fst
  first : xs.head?.map label = ys.head?.map label

namespace Agree

theorem refl (xs : List (Nat × Way)) : Agree xs xs := ⟨fun _ => rfl, rfl⟩

theorem trans {xs ys zs : List (Nat × Way)} (first : Agree xs ys) (second : Agree ys zs) :
    Agree xs zs :=
  ⟨fun ok => (first.chosen ok).trans (second.chosen ok), first.first.trans second.first⟩

theorem append {xs ys xs' ys' : List (Nat × Way)} (left : Agree xs ys) (right : Agree xs' ys') :
    Agree (xs ++ xs') (ys ++ ys') := by
  constructor
  · intro ok
    simp only [List.find?_append, Option.map_or, left.chosen ok, right.chosen ok]
  · simp only [List.head?_append, Option.map_or, left.first, right.first]

/-- All outcomes of one list have a property when all of the other have it. -/
theorem all {xs ys : List (Nat × Way)} (h : Agree xs ys) {holds : Nat × Gist → Prop}
    (every : ∀ o ∈ xs, holds (label o)) : ∀ o ∈ ys, holds (label o) := by
  classical
  have same := congrArg Option.isSome (h.chosen fun l => !decide (holds l))
  have none : (xs.find? fun o => !decide (holds (label o))) = none := by
    rw [List.find?_eq_none]
    intro o member
    simpa using every o member
  intro o member
  simp only [none, Option.map_none, Option.isSome_none, Option.isSome_map] at same
  have missing := List.find?_eq_none.mp
    (Option.isSome_eq_false_iff.mp same.symm |> Option.isNone_iff_eq_none.mp)
  simpa using missing o member

end Agree

/-- Outcomes that agree: of each arm the first ones are the same, and as far as `strict` says all of them are the
same in the same order. -/
structure Paired (strict : Nat → Prop) (xs ys : List (Nat × Way)) : Prop where
  agree : Agree xs ys
  first : ∀ arm, (ofArm arm xs).head?.map label = (ofArm arm ys).head?.map label
  level : ∀ arm, strict arm → (ofArm arm xs).map label = (ofArm arm ys).map label

namespace Paired

variable {strict : Nat → Prop}

theorem refl (xs : List (Nat × Way)) : Paired strict xs xs := ⟨.refl xs, fun _ => rfl, fun _ _ => rfl⟩

theorem trans {xs ys zs : List (Nat × Way)} (first : Paired strict xs ys) (second : Paired strict ys zs) :
    Paired strict xs zs :=
  ⟨first.agree.trans second.agree, fun arm => (first.first arm).trans (second.first arm),
    fun arm known => (first.level arm known).trans (second.level arm known)⟩

theorem append {xs ys xs' ys' : List (Nat × Way)} (left : Paired strict xs ys) (right : Paired strict xs' ys') :
    Paired strict (xs ++ xs') (ys ++ ys') := by
  refine ⟨left.agree.append right.agree, fun arm => ?_, fun arm known => ?_⟩
  · have firsts := left.first arm
    have seconds := right.first arm
    simp only [ofArm, List.filter_append, List.head?_append, Option.map_or] at firsts seconds ⊢
    rw [firsts, seconds]
  · have firsts := left.level arm known
    have seconds := right.level arm known
    simp only [ofArm, List.filter_append, List.map_append] at firsts seconds ⊢
    rw [firsts, seconds]

end Paired

theorem Alike.agree {xs ys : List Way} (alike : Alike xs ys) (arm : Nat) :
    Agree (xs.map fun w => (arm, w)) (ys.map fun w => (arm, w)) := by
  classical
  have chosen (ws : List Way) (ok : Nat × Gist → Bool) :
      ((ws.map fun w => (arm, w)).find? fun o => ok (label o)).map Prod.fst =
        if ∃ g, (∃ w ∈ ws, w.gist = g) ∧ ok (arm, g) then some arm else none := by
    induction ws with
    | nil => simp
    | cons w ws ih =>
      by_cases accepted : ok (arm, w.gist)
      · have some : ∃ g, (∃ w' ∈ w :: ws, w'.gist = g) ∧ ok (arm, g) :=
          ⟨w.gist, ⟨w, by simp, rfl⟩, accepted⟩
        simp only [List.map_cons, label, accepted, List.find?_cons_of_pos, Option.map_some, some,
          if_true]
      · simp only [List.map_cons, label, accepted, Bool.false_eq_true, not_false_eq_true,
          List.find?_cons_of_neg]
        simp only [label] at ih
        rw [ih]
        congr 1
        simp [or_and_right, exists_or, accepted]
  constructor
  · intro ok
    rw [chosen, chosen]
    simp only [alike.members]
  · have heads := alike.first
    cases xs <;> cases ys <;> simp_all [label]

theorem Arranged.paired {strict : Nat → Prop} {arm : Nat} {xs ys : List Way}
    (arranged : Arranged (strict arm) xs ys) :
    Paired strict (xs.map fun w => (arm, w)) (ys.map fun w => (arm, w)) := by
  have here (ws : List Way) : ofArm arm (ws.map fun w => (arm, w)) = ws.map fun w => (arm, w) := by
    simp [ofArm]
  have other {arm' : Nat} (differ : arm ≠ arm') (ws : List Way) : ofArm arm' (ws.map fun w => (arm, w)) = [] := by
    simp [ofArm, differ]
  have labels (ws : List Way) : (ws.map fun w => (arm, w)).map label = (ws.map Way.gist).map fun g => (arm, g) := by
    simp [label, Function.comp_def]
  refine ⟨arranged.alike.agree arm, fun arm' => ?_, fun arm' known => ?_⟩
  · by_cases same : arm = arm'
    · subst same
      rw [here, here, ← List.head?_map, ← List.head?_map, labels, labels, List.head?_map, List.head?_map,
        List.head?_map, List.head?_map, arranged.alike.first]
    · simp [other same]
  · by_cases same : arm = arm'
    · subst same
      rw [here, here, labels, labels, arranged.level known]
    · simp [other same]

/-- A step that treats the rows one by one keeps the outcomes when it keeps those of each row. -/
theorem outcomes_paired {strict : Nat → Prop} {look : Path → Option Value} {values values' : List Value}
    {rows : List Row} {f : Row → List Row}
    (each : ∀ r ∈ rows, Paired strict (outcomes look values [r]) (outcomes look values' (f r))) :
    Paired strict (outcomes look values rows) (outcomes look values' (rows.flatMap f)) := by
  induction rows with
  | nil => exact Paired.refl []
  | cons r rows ih =>
    have first := each r (by simp)
    have later := ih fun r' member => each r' (by simp [member])
    simpa [outcomes, List.flatMap_assoc] using first.append later

namespace Matrix

/-- Every row has one shape for each column, and it suits the type of the column. -/
def Fits (decls : Decls) (floats : Bool) (m : Matrix) : Prop :=
  ∀ r ∈ m.rows, List.Forall₂ (Shape.Fits decls floats) r.pats (m.cols.map Column.type)

variable {decls : Decls} {floats : Bool} {m : Matrix} {i : Nat} {col : Column}

theorem Fits.width (fit : m.Fits decls floats) {r : Row} (member : r ∈ m.rows) :
    r.pats.length = m.cols.length := by simpa using (fit r member).length_eq

theorem Fits.split (fit : m.Fits decls floats) (here : m.cols[i]? = some col) {r : Row}
    (member : r ∈ m.rows) : ∃ front s back, r.pats = front ++ s :: back ∧ front.length = i ∧
      s ∈ m.column i ∧ Shape.Fits decls floats s col.type := by
  have inside : i < m.cols.length := (List.getElem?_eq_some_iff.mp here).1
  have wide : i < r.pats.length := by rw [fit.width member]; exact inside
  have shape := List.getElem?_eq_getElem wide
  obtain ⟨front, back, around, sized⟩ := split_at shape
  refine ⟨front, r.pats[i], back, around, sized, ?_, ?_⟩
  · exact List.mem_filterMap.mpr ⟨r, member, shape⟩
  · have pairs := (List.forall₂_iff_get.mp (fit r member)).2 i wide (by simpa using inside)
    have column : m.cols[i] = col := (List.getElem?_eq_some_iff.mp here).2
    simpa [column] using pairs

theorem Fits.column (fit : m.Fits decls floats) (here : m.cols[i]? = some col) {s : Shape}
    (member : s ∈ m.column i) : Shape.Fits decls floats s col.type := by
  obtain ⟨r, inside, shape⟩ := List.mem_filterMap.mp member
  obtain ⟨front, s', back, around, rfl, -, fits⟩ := fit.split here inside
  obtain rfl : s' = s := by simpa [around] using shape
  exact fits

theorem column?_eq (here : m.cols[i]? = some col) : m.column? i = .ok col := by
  simp [column?, here]

theorem spliceRows_eq {width : Nat} {rows : List Row}
    (change : Shape → Option (List Shape × List Extraction)) (inside : i < width)
    (wide : ∀ r ∈ rows, r.pats.length = width) :
    spliceRows width i change rows = .ok (rows.filterMap (Row.splice? i change)) := by
  induction rows with
  | nil => rfl
  | cons r rest ih =>
    have length := wide r (by simp)
    have shape := List.getElem?_eq_getElem (l := r.pats) (i := i) (by omega)
    have later := ih fun r' member => wide r' (by simp [member])
    cases changed : change r.pats[i] <;>
      simp [spliceRows, length, shape, later, changed, Row.splice?, bind, Except.bind, pure,
        Except.pure]

def spliced (m : Matrix) (i : Nat) (sub : List Column)
    (change : Shape → Option (List Shape × List Extraction)) : Matrix :=
  ⟨m.cols.take i ++ sub ++ m.cols.drop (i + 1), m.rows.filterMap (Row.splice? i change)⟩

theorem splice_eq (fit : m.Fits decls floats) (here : m.cols[i]? = some col) (sub : List Column)
    (change : Shape → Option (List Shape × List Extraction)) :
    m.splice i sub change = .ok (m.spliced i sub change) := by
  have inside : i < m.cols.length := (List.getElem?_eq_some_iff.mp here).1
  have rows := spliceRows_eq change inside fun r member => fit.width member
  simp [splice, spliced, rows, bind, Except.bind, pure, Except.pure]

/-- A change that turns the shapes of a column into shapes for other columns keeps a matrix fitting. -/
theorem splice_fits (fit : m.Fits decls floats) (here : m.cols[i]? = some col) {sub : List Column}
    {change : Shape → Option (List Shape × List Extraction)}
    (each : ∀ s ∈ m.column i, ∀ shapes binds, change s = some (shapes, binds) →
      List.Forall₂ (Shape.Fits decls floats) shapes (sub.map Column.type)) :
    (m.spliced i sub change).Fits decls floats := by
  intro r' kept
  obtain ⟨r, member, spliced⟩ := List.mem_filterMap.mp kept
  obtain ⟨front, s, back, around, rfl, inColumn, -⟩ := fit.split here member
  have shape : r.pats[front.length]? = some s := by simp [around]
  simp only [Row.splice?, shape, Option.bind_some, Option.map_eq_some_iff] at spliced
  obtain ⟨⟨shapes, binds⟩, changed, rfl⟩ := spliced
  have fitting := each s inColumn shapes binds changed
  have whole := fit r member
  simp only [spliced, List.map_append, List.map_take, List.map_drop]
  exact List.rel_append (List.rel_append (List.forall₂_take _ whole) fitting) (List.forall₂_drop _ whole)

/-- A change that follows the values at a column keeps what the rows match, and the order too. -/
theorem splice_paired (strict : Nat → Prop) (fit : m.Fits decls floats) (here : m.cols[i]? = some col)
    {look : Path → Option Value} {sub : List Column}
    {change : Shape → Option (List Shape × List Extraction)} {values parts : List Value}
    (others : List Value) {x : Value} (sized : values.length = i)
    (follows : ∀ s ∈ m.column i, Follows look change x parts s) :
    Paired strict (outcomes look (values ++ x :: others) m.rows)
      (outcomes look (values ++ parts ++ others) (m.spliced i sub change).rows) := by
  rw [spliced, List.filterMap_eq_flatMap_toList]
  refine outcomes_paired fun r member => ?_
  obtain ⟨front, s, back, around, rfl, inColumn, -⟩ := fit.split here member
  have row := Row.splice_level (follows s inColumn) others sized.symm r around
  cases spliced : r.splice? front.length change with
  | none =>
    simp only [spliced] at row
    simpa [outcomes, row] using Paired.refl []
  | some r' =>
    simp only [spliced] at row
    have arranged : Arranged (strict r.arm) _ _ := .of_level row.2
    simpa [outcomes, row.1] using arranged.paired

theorem splice_agree (fit : m.Fits decls floats) (here : m.cols[i]? = some col)
    {look : Path → Option Value} {sub : List Column}
    {change : Shape → Option (List Shape × List Extraction)} {values parts : List Value}
    (others : List Value) {x : Value} (sized : values.length = i)
    (follows : ∀ s ∈ m.column i, Follows look change x parts s) :
    Agree (outcomes look (values ++ x :: others) m.rows)
      (outcomes look (values ++ parts ++ others) (m.spliced i sub change).rows) :=
  (splice_paired (fun _ => False) fit here others sized follows).agree

end Matrix

end TreeCheck.Match
