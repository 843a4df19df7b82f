import Mathlib.Algebra.Order.BigOperators.Group.List
import TreeCheck.Proofs.Match.Leaves
import TreeCheck.Proofs.Match.Useful

/-!
Arms that are reached. The search for useful rows and the decision tree take matrices apart in different orders, but
both find an arm exactly when values may select it; so an arm is unreachable if and only if no leaf selects it, and if
and only if no value and no guard do.
-/

namespace TreeCheck.Match

/-- The alternatives of a row that no guard decides about. -/
def Row.sureSpread (r : Row) : List Row := r.spread.filter fun a => !a.guarded

variable {ctx : Context}

/-- Only alternatives without a guard matter for what is admitted for sure. -/
theorem Matrix.sureSpread_admits {cols : List Column} {rows : List Row} {values : List Value} :
    Matrix.Admits ⟨cols, rows.flatMap Row.sureSpread⟩ values ↔ Matrix.Admits ⟨cols, rows⟩ values := by
  rw [← Matrix.spread_admits ⟨cols, rows⟩ values]
  simp only [Admits, Matrix.spread, Row.sureSpread, List.mem_flatMap, List.mem_filter]
  constructor
  · rintro ⟨a, ⟨r, member, chosen, -⟩, free, hit⟩
    exact ⟨a, ⟨r, member, chosen⟩, free, hit⟩
  · rintro ⟨a, ⟨r, member, chosen⟩, free, hit⟩
    exact ⟨a, ⟨r, member, chosen, by simp [free]⟩, free, hit⟩

/-- The arms of which no alternative is useful after those of the rows before. -/
theorem mem_unreachableAfter {cols : List Column} {rows : List Row} {arm : Nat} : ∀ {prior : List Row}
    {unreachable : List Nat}, ctx.unreachableAfter cols prior rows = .ok unreachable →
      (arm ∈ unreachable ↔ ∃ before r after, rows = before ++ r :: after ∧ r.arm = arm ∧
        anyM (fun a => ctx.useful ⟨cols, prior ++ before.flatMap Row.sureSpread⟩ a.pats) r.spread = .ok false) := by
  induction rows with
  | nil =>
    intro prior unreachable done
    cases done
    simp
  | cons r rest ih =>
    intro prior unreachable done
    simp only [Context.unreachableAfter, bind, Except.bind] at done
    split at done
    · cases done
    next reachable own =>
      split at done
      · cases done
      next later searched =>
        have inner := ih searched
        have member : arm ∈ unreachable ↔ (r.arm = arm ∧ reachable = false) ∨ arm ∈ later := by
          cases done
          cases reachable <;> simp [eq_comm]
        rw [member, inner]
        constructor
        · rintro (⟨same, none⟩ | ⟨before, s, after, rfl, same, none⟩)
          · exact ⟨[], r, rest, rfl, same, by simpa [none] using own⟩
          · refine ⟨r :: before, s, after, rfl, same, ?_⟩
            simpa [Row.sureSpread, List.append_assoc] using none
        · rintro ⟨before, s, after, rows, same, none⟩
          cases before with
          | nil =>
            obtain ⟨rfl, -⟩ := List.cons.inj rows
            refine .inl ⟨same, ?_⟩
            have both := own.symm.trans (by simpa using none)
            exact Except.ok.inj both
          | cons first before =>
            obtain ⟨rfl, rfl⟩ := List.cons.inj rows
            refine .inr ⟨before, s, after, rfl, same, ?_⟩
            simpa [Row.sureSpread, List.append_assoc] using none

/-- A row matches where one of its alternatives does. -/
theorem Row.exists_spread_ways {r : Row} {values : List Value} : Shape.waysAll r.pats values ≠ [] ↔
    ∃ a ∈ r.spread, Shape.waysAll a.pats values ≠ [] := by
  have empty := (Shape.waysAll_spread r.pats values (False.elim ·)).alike.eq_nil_iff
  rw [List.flatMap_eq_nil_iff] at empty
  constructor
  · intro hit
    by_contra none
    refine hit (empty.mpr fun (unsure, shapes) chosen => ?_)
    have missed : Shape.waysAll shapes values = [] := by
      by_contra some
      exact none ⟨_, List.mem_map_of_mem chosen, some⟩
    simp [missed]
  · rintro ⟨a, member, hit⟩ none
    obtain ⟨⟨unsure, shapes⟩, chosen, rfl⟩ := List.mem_map.mp member
    rcases cross_eq_nil.mp (empty.mp none _ chosen) with impossible | missed
    · cases impossible
    · exact hit missed

section

variable {ok : Shape → Ty → Bool} {lively : Ty → Prop} {level : Nat → Value → Ty → Prop}
variable {cols : List Column} {before : List Row} {r : Row}

theorem sureSpread_sound (sound : Matrix.Sound ctx.decls ok ⟨cols, before⟩) :
    Matrix.Sound ctx.decls ok ⟨cols, before.flatMap Row.sureSpread⟩ := by
  intro a member
  obtain ⟨r, inside, kept⟩ := List.mem_flatMap.mp member
  exact Matrix.spread_sound sound a (List.mem_flatMap.mpr ⟨r, inside, (List.mem_filter.mp kept).1⟩)

theorem spread_searching (sound : Matrix.Sound ctx.decls ok ⟨cols, before⟩)
    (own : List.Forall₂ (Shape.Sound ctx.decls ok) r.pats (cols.map Column.type)) {a : Row} (member : a ∈ r.spread) :
    Searching ctx ok ⟨cols, before.flatMap Row.sureSpread⟩ a.pats := by
  refine ⟨sureSpread_sound sound, ?_⟩
  obtain ⟨⟨unsure, shapes⟩, chosen, rfl⟩ := List.mem_map.mp member
  exact Shape.spread_sound own _ chosen

/-- A row without a useful alternative matches no values, of a level that is high enough, that no row before admits. -/
theorem admits_of_useless (layers : Layers ctx ok lively level) (regular : ctx.decls.Regular)
    (sound : Matrix.Sound ctx.decls ok ⟨cols, before⟩)
    (own : List.Forall₂ (Shape.Sound ctx.decls ok) r.pats (cols.map Column.type))
    (none : anyM (fun a => ctx.useful ⟨cols, before.flatMap Row.sureSpread⟩ a.pats) r.spread = .ok false) :
    ∃ n, ∀ values, FilledBy (level n) cols values → Shape.waysAll r.pats values ≠ [] →
      Matrix.Admits ⟨cols, before⟩ values := by
  let prior : Matrix := ⟨cols, before.flatMap Row.sureSpread⟩
  let fuel (a : Row) : Nat := prior.weight + Shape.sizeAll a.pats + 1
  refine ⟨(r.spread.map fuel).sum, fun values placed hit => ?_⟩
  obtain ⟨a, member, hit⟩ := Row.exists_spread_ways.mp hit
  have enough : fuel a ≤ (r.spread.map fuel).sum := List.le_sum_of_mem (List.mem_map_of_mem member)
  have unguarded : ∀ r ∈ prior.rows, r.guarded = false := by
    intro a kept
    obtain ⟨r, -, kept⟩ := List.mem_flatMap.mp kept
    simpa using (List.mem_filter.mp kept).2
  rw [← Matrix.sureSpread_admits]
  exact usefulWithin_refutes layers regular (fuel a) (spread_searching sound own member) unguarded
    (anyM_false none a member) (placed.imp fun _ _ typed => layers.down_le enough typed) hit

/-- A row with a useful alternative matches values, at every level, that no row before admits. -/
theorem exists_of_useful (regular : ctx.decls.Regular) (sound : Matrix.Sound ctx.decls ctx.meets ⟨cols, before⟩)
    (own : List.Forall₂ (Shape.Sound ctx.decls ctx.meets) r.pats (cols.map Column.type))
    (some : anyM (fun a => ctx.useful ⟨cols, before.flatMap Row.sureSpread⟩ a.pats) r.spread = .ok true) (n : Nat) :
    ∃ values, FilledBy (Approx ctx n) cols values ∧ Shape.waysAll r.pats values ≠ [] ∧
      ¬ Matrix.Admits ⟨cols, before⟩ values := by
  obtain ⟨a, member, useful⟩ := anyM_true some
  obtain ⟨values, placed, hit, free⟩ :=
    usefulWithin_finds regular _ (spread_searching sound own member) useful n
  refine ⟨values, placed, Row.exists_spread_ways.mpr ⟨a, member, hit⟩, ?_⟩
  rwa [← Matrix.sureSpread_admits]

end

/-! ### Arms of a match -/

section

variable {type : Ty} {arms : List Arm} {i : Nat}

/-- As many rows come before the row of an arm as its number says. -/
theorem ofArms_position {decls : Decls} {before after : List Row} {r : Row}
    (rows : (Matrix.ofArms decls type arms).rows = before ++ r :: after) : before.length = r.arm := by
  have numbers : (Matrix.ofArms decls type arms).rows.map Row.arm = List.range' 0 arms.length := by
    rw [← List.zipIdx_map_snd, Matrix.ofArms, List.map_map]
    rfl
  have here : ((before ++ r :: after).map Row.arm)[before.length]? = some r.arm := by simp
  have inside : before.length < arms.length := by
    have sized := congrArg List.length numbers
    rw [rows] at sized
    simp at sized
    omega
  rw [← rows, numbers, List.getElem?_range' inside] at here
  simpa using here

theorem compile_unreachable {d : Decision} (done : compile ctx type arms = .ok d) :
    ctx.unreachable (Matrix.ofArms ctx.decls type arms) = .ok d.unreachable := by
  simp only [compile, bind, Except.bind] at done
  split at done
  · cases done
  split at done
  · cases done
  next unreachable searched =>
    cases done
    exact searched

variable {ok : Shape → Ty → Bool} {lively : Ty → Prop} {level : Nat → Value → Ty → Prop} {unreachable : List Nat}

/-- An arm that is called unreachable is selected for no values of a level that is high enough. -/
theorem not_selects_of_unreachable (layers : Layers ctx ok lively level) (regular : ctx.decls.Regular)
    (sound : (Matrix.ofArms ctx.decls type arms).Sound ctx.decls ok)
    (done : ctx.unreachable (Matrix.ofArms ctx.decls type arms) = .ok unreachable) (member : i ∈ unreachable) :
    ∃ n, ∀ values, FilledBy (level n) (Matrix.ofArms ctx.decls type arms).cols values →
      ¬ (Matrix.ofArms ctx.decls type arms).Selects i values := by
  obtain ⟨before, r, after, rows, rfl, none⟩ := (mem_unreachableAfter done).mp member
  have earlier : Matrix.Sound ctx.decls ok ⟨(Matrix.ofArms ctx.decls type arms).cols, before⟩ :=
    fun s inside => sound s (by simp [rows, inside])
  obtain ⟨n, admits⟩ := admits_of_useless layers regular earlier (sound r (by simp [rows])) none
  refine ⟨n, fun values placed ⟨before', r', after', rows', same, hit, free⟩ => free ?_⟩
  have lengths : before'.length = before.length := by
    rw [ofArms_position rows, ofArms_position rows', same]
  obtain ⟨rfl, others⟩ := List.append_inj (rows'.symm.trans rows) lengths
  obtain ⟨rfl, -⟩ := List.cons.inj others
  exact admits values placed hit

theorem exists_selects_of_reachable (regular : ctx.decls.Regular)
    (sound : (Matrix.ofArms ctx.decls type arms).Sound ctx.decls ctx.meets)
    (done : ctx.unreachable (Matrix.ofArms ctx.decls type arms) = .ok unreachable) (inside : i < arms.length)
    (reached : i ∉ unreachable) (n : Nat) :
    ∃ values, FilledBy (Approx ctx n) (Matrix.ofArms ctx.decls type arms).cols values ∧
      (Matrix.ofArms ctx.decls type arms).Selects i values := by
  have wide : i < (Matrix.ofArms ctx.decls type arms).rows.length := by simpa [Matrix.ofArms] using inside
  obtain ⟨before, after, rows, sized⟩ := split_at (List.getElem?_eq_getElem wide)
  generalize (Matrix.ofArms ctx.decls type arms).rows[i] = r at rows
  have same : r.arm = i := (ofArms_position rows).symm.trans sized
  have earlier : Matrix.Sound ctx.decls ctx.meets ⟨(Matrix.ofArms ctx.decls type arms).cols, before⟩ :=
    fun s inside => sound s (by simp [rows, inside])
  have own := sound r (by simp [rows])
  obtain ⟨found, searched⟩ : ∃ found, anyM (fun a => ctx.useful
      ⟨(Matrix.ofArms ctx.decls type arms).cols, before.flatMap Row.sureSpread⟩ a.pats) r.spread = .ok found := by
    refine anyM_eq fun a member => ?_
    have searching := spread_searching earlier own member
    exact useful_eq regular searching.rows.fits (searching.row.imp fun _ _ sound => sound.fits)
  cases found with
  | false => exact absurd ((mem_unreachableAfter done).mpr ⟨before, r, after, rows, same, searched⟩) reached
  | true =>
    obtain ⟨values, placed, hit, free⟩ := exists_of_useful regular earlier own searched n
    exact ⟨values, placed, before, r, after, rows, same, hit, free⟩

/-- Arms that can match everywhere are unreachable exactly where no leaf of the tree selects them. -/
theorem unreachable_iff_not_mem_arms (regular : ctx.decls.Regular)
    (sound : (Matrix.ofArms ctx.decls type arms).Sound ctx.decls ctx.meets) {tree : Tree}
    (grown : Grown ctx false (Matrix.ofArms ctx.decls type arms) [] tree)
    (done : ctx.unreachable (Matrix.ofArms ctx.decls type arms) = .ok unreachable) (inside : i < arms.length) :
    i ∈ unreachable ↔ i ∉ tree.arms := by
  have layers := approx_layers ctx
  constructor
  · intro member leaf
    obtain ⟨n, never⟩ := not_selects_of_unreachable layers regular sound done member
    obtain ⟨values, placed, selects⟩ := grown.selects_of_arm layers regular sound (fun _ _ => trivial) leaf n
    exact never values placed selects
  · intro none
    by_contra reached
    obtain ⟨values, placed, selects⟩ := exists_selects_of_reachable regular sound done inside reached _
    exact none (grown.arm_of_selects layers regular sound (le_refl _) placed selects)

end

theorem meets_of_pattern {p : Pattern} {t : Ty} (offers : p.every Pattern.offers = true)
    (overlap : (Shape.ofPattern ctx.decls p t).every ctx.decls ctx.overlaps t = true) :
    (Shape.ofPattern ctx.decls p t).every ctx.decls ctx.meets t = true :=
  Shape.every_and _ t overlap (Shape.ofPattern_every Shape.carries_offers p t offers)

/-- Whatever the arms are, as long as their integers and ranges meet the domain and they test no floats: an arm is
called unreachable if and only if no leaf of the tree selects it. Their or-patterns have alternatives, as all that are
read. -/
theorem mem_unreachable_iff_no_leaf (ctx : Context) (regular : ctx.decls.Regular) (type : Ty) (arms : List Arm)
    (offers : ∀ a ∈ arms, a.pattern.every Pattern.offers = true)
    (overlap : ∀ a ∈ arms, (Shape.ofPattern ctx.decls a.pattern type).every ctx.decls ctx.overlaps type = true) :
    ∃ d, compile ctx type arms = .ok d ∧ ∀ i < arms.length, i ∈ d.unreachable ↔ i ∉ d.tree.arms := by
  have sound : (Matrix.ofArms ctx.decls type arms).Sound ctx.decls ctx.meets := Matrix.ofArms_sound fun a member =>
    Shape.sound_of_every (fun _ _ => rfl) (Shape.ofPattern_fits a.pattern type (.inl rfl))
      (meets_of_pattern (offers a member) (overlap a member))
  obtain ⟨d, compiled, grown⟩ := compile_eq regular type arms sound.fits
  exact ⟨d, compiled, fun i inside =>
    unreachable_iff_not_mem_arms regular sound grown (compile_unreachable compiled) inside⟩

/-- Four arms for an optional number: the first is guarded, and the last repeats the second. -/
def repeatedArms : List Arm :=
  [{ pattern := .variant default "Option" "None" [] [] false, guarded := true },
   { pattern := .variant default "Option" "Some" [.binding ⟨default, "n", false⟩] [] false },
   { pattern := .variant default "Option" "None" [] [] false },
   { pattern := .variant default "Option" "Some" [.wildcard default] [] false }]

theorem repeatedArms_offer : ∀ a ∈ repeatedArms, a.pattern.every Pattern.offers = true := by
  decide

theorem repeatedArms_overlap : ∀ a ∈ repeatedArms, (Shape.ofPattern optionContext.decls a.pattern optionType).every
    optionContext.decls optionContext.overlaps optionType = true := by
  decide

theorem repeatedArms_unreachable {d : Decision} (done : compile optionContext optionType repeatedArms = .ok d) :
    d.unreachable = [3] := by
  have known : (compile optionContext optionType repeatedArms).toOption.map Decision.unreachable = some [3] := by
    decide
  rw [done] at known
  exact Option.some.inj known

/-- The last arm has no leaf; the guarded one has, and the unguarded one after it. -/
theorem mem_unreachable_iff_no_leaf_option :
    optionContext.decls.Regular ∧
    (∀ a ∈ repeatedArms, a.pattern.every Pattern.offers = true) ∧
    (∀ a ∈ repeatedArms, (Shape.ofPattern optionContext.decls a.pattern optionType).every optionContext.decls
      optionContext.overlaps optionType = true) ∧
    ∃ d, compile optionContext optionType repeatedArms = .ok d ∧ 3 ∉ d.tree.arms ∧ 0 ∈ d.tree.arms ∧
      2 ∈ d.tree.arms := by
  refine ⟨optionContext_regular, repeatedArms_offer, repeatedArms_overlap, ?_⟩
  obtain ⟨d, compiled, same⟩ := mem_unreachable_iff_no_leaf optionContext optionContext_regular optionType
    repeatedArms repeatedArms_offer repeatedArms_overlap
  have unreachable := repeatedArms_unreachable compiled
  refine ⟨d, compiled, (same 3 (by decide)).mp (by simp [unreachable]), ?_, ?_⟩
  · simpa [unreachable] using same 0 (by decide)
  · simpa [unreachable] using same 2 (by decide)

/-- A well-formed arm that is called unreachable is selected for no value by no guard; and an arm that is selected for
none is called unreachable, if all types inside have values and all integers and ranges meet the domain. Or-patterns
have alternatives, as all that are read. -/
theorem mem_unreachable_iff_never_selected (ctx : Context) (regular : ctx.decls.Regular) (type : Ty)
    (arms : List Arm) (formed : ∀ a ∈ arms, WellFormed ctx.decls type a.pattern) :
    ∃ d, compile ctx type arms = .ok d ∧ ∀ i < arms.length,
      (i ∈ d.unreachable →
        ∀ v, HasType ctx v type → ∀ guard, (select guard arms v).map Prod.fst ≠ some i) ∧
      (Peopled ctx type → (∀ a ∈ arms, a.pattern.every Pattern.offers = true) →
        (∀ a ∈ arms, (Shape.ofPattern ctx.decls a.pattern type).every ctx.decls ctx.overlaps type = true) →
        (∀ v, HasType ctx v type → ∀ guard, (select guard arms v).map Prod.fst ≠ some i) →
        i ∈ d.unreachable) := by
  have fit : ∀ a ∈ arms, Shape.Fits ctx.decls false (Shape.ofPattern ctx.decls a.pattern type) type :=
    fun a member => Shape.ofPattern_fits a.pattern type (.inr (formed a member).fits)
  have plain : (Matrix.ofArms ctx.decls type arms).Sound ctx.decls fun _ _ => true :=
    Matrix.ofArms_sound fun a member => ⟨fit a member, Shape.every_true _ _⟩
  obtain ⟨d, compiled, grown⟩ := compile_eq regular type arms plain.fits
  have searched := compile_unreachable compiled
  have layers := hasType_layers ctx
  have placed {v : Value} (typed : HasType ctx v type) :
      FilledBy (HasType ctx) (Matrix.ofArms ctx.decls type arms).cols [v] := .cons typed .nil
  have guards {i : Nat} {v : Value} (typed : HasType ctx v type) :
      (∃ guard, (select guard arms v).map Prod.fst = some i) ↔ (Matrix.ofArms ctx.decls type arms).Selects i [v] :=
    exists_guard_iff regular (fun a member => (formed a member).fits) typed
  refine ⟨d, compiled, fun i inside => ⟨?_, ?_⟩⟩
  · intro member v typed guard chosen
    obtain ⟨n, never⟩ := not_selects_of_unreachable layers regular plain searched member
    exact never [v] (placed typed) ((guards typed).mp ⟨guard, chosen⟩)
  · intro peopled offers overlap never
    have sound : (Matrix.ofArms ctx.decls type arms).Sound ctx.decls ctx.meets :=
      Matrix.ofArms_sound fun a member => ⟨fit a member, meets_of_pattern (offers a member) (overlap a member)⟩
    rw [unreachable_iff_not_mem_arms regular sound grown searched inside]
    intro leaf
    obtain ⟨values, filled, selects⟩ := grown.selects_of_arm layers regular plain
      (by simpa [Matrix.ofArms] using peopled) leaf 0
    cases filled with
    | @cons _ v _ _ typed none =>
      cases none
      obtain ⟨guard, chosen⟩ := (guards typed).mpr selects
      exact never v typed guard chosen

/-- Nothing selects the last arm, and that is why it is called unreachable. -/
theorem mem_unreachable_iff_never_selected_option :
    optionContext.decls.Regular ∧
    (∀ a ∈ repeatedArms, WellFormed optionContext.decls optionType a.pattern) ∧
    Peopled optionContext optionType ∧ (∀ a ∈ repeatedArms, a.pattern.every Pattern.offers = true) ∧
    (∀ a ∈ repeatedArms, (Shape.ofPattern optionContext.decls a.pattern optionType).every optionContext.decls
      optionContext.overlaps optionType = true) ∧
    ∃ d, compile optionContext optionType repeatedArms = .ok d ∧ 3 ∈ d.unreachable ∧
      ∀ v, HasType optionContext v optionType → ∀ guard,
        (select guard repeatedArms v).map Prod.fst ≠ some 3 := by
  have formed : ∀ a ∈ repeatedArms, WellFormed optionContext.decls optionType a.pattern := by
    intro a member
    simp only [repeatedArms, List.mem_cons, List.not_mem_nil, or_false] at member
    rcases member with rfl | rfl | rfl | rfl <;> exact ⟨by decide, by decide⟩
  refine ⟨optionContext_regular, formed, optionType_peopled, repeatedArms_offer, repeatedArms_overlap, ?_⟩
  obtain ⟨d, compiled, verdict⟩ := mem_unreachable_iff_never_selected optionContext optionContext_regular optionType
    repeatedArms formed
  obtain ⟨never_of_unreachable, unreachable_of_never⟩ := verdict 3 (by decide)
  have never := never_of_unreachable (by simp [repeatedArms_unreachable compiled])
  exact ⟨d, compiled, unreachable_of_never optionType_peopled repeatedArms_offer repeatedArms_overlap never, never⟩

end TreeCheck.Match
