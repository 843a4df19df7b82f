import Mathlib.Data.List.Find
import TreeCheck.Proofs.Match.Alternatives
import TreeCheck.Proofs.Match.Search
import TreeCheck.Proofs.Match.Steps

/-!
A decision tree selects what trying the arms one after the other selects. Walking a tree meets, leaf
by leaf, the outcomes of the matrix that the tree has grown from; those of the first matrix are the
outcomes of the arms.
-/

namespace TreeCheck.Match

/-! ### Orderly rows stay orderly -/

/-- Shapes that leave no choice that a shape does not leave, and none in another order. -/
structure Shape.Eases (s : Shape) (shapes : List Shape) : Prop where
  definite : s.definite = true → definiteAll shapes = true
  orderly : s.orderly = true → orderlyAll shapes = true

namespace Shape.Eases

theorem wilds (s : Shape) (count : Nat) : s.Eases (Shape.wilds count) :=
  ⟨fun _ => definiteAll_wilds count, fun _ => (lone_wilds count).orderlyAll⟩

theorem fit {s : Shape} {args : List Shape} (eases : s.Eases args) (count : Nat) :
    s.Eases (Shape.fit args count) :=
  ⟨fun known => definiteAll_fit (eases.definite known) count, fun known => orderlyAll_fit (eases.orderly known) count⟩

theorem of_open {decls : Decls} {col : Column} {s : Shape} {shapes : List Shape} {binds : List Extraction}
    (changed : openShape decls col s = some (shapes, binds)) : s.Eases shapes := by
  obtain ⟨rfl, -⟩ : Matrix.partShapes (Matrix.parts decls col).length s = shapes ∧ _ = binds := by
    simpa [openShape] using changed
  cases s with
  | product args =>
    have own : (Shape.product args).Eases args := ⟨fun known => known, fun known => known⟩
    exact own.fit _
  | target inner =>
    have own : (Shape.target inner).Eases [inner] :=
      ⟨fun known => by simpa [definiteAll, Shape.definite] using known,
        fun known => by simpa [orderlyAll, definiteAll, Shape.orderly] using known⟩
    exact own.fit _
  | _ => exact wilds _ _

theorem of_pass {col : Column} {test : Test} {count : Nat} {s : Shape} {shapes : List Shape}
    {binds : List Extraction} (changed : passShape col test count s = some (shapes, binds)) : s.Eases shapes := by
  by_cases any : s.isAny = true
  · obtain ⟨rfl, -⟩ : Shape.wilds count = shapes ∧ _ = binds := by simpa [passShape, any] using changed
    exact wilds s count
  · simp only [passShape, any] at changed
    cases Test.specialized changed with
    | constant => exact wilds s 0
    | @variant v w args same =>
      have own : (Shape.variant w args).Eases args := ⟨fun known => known, fun known => known⟩
      exact own.fit _
    | @list test front isOpen rest measured fewer =>
      have own : (Shape.list front isOpen rest).Eases front := ⟨fun known => known, fun known => known⟩
      exact own.fit _

theorem of_miss {col : Column} {s : Shape} {shapes : List Shape} {binds : List Extraction}
    (changed : missShape col s = some (shapes, binds)) : s.Eases shapes := by
  cases any : s.isAny <;> simp [missShape, any] at changed
  rw [changed.1]
  exact wilds s 0

end Shape.Eases

theorem Shape.definite_of_isHead {s : Shape} (head : s.isHead = true) (top : s.shallow = true) :
    s.definite = true := by
  cases s <;> simp [isHead] at head <;> simpa [shallow] using top

theorem Matrix.Orderly.spliced {decls : Decls} {floats : Bool} {strict : Nat → Prop} {m : Matrix} {i : Nat}
    {col : Column} (orderly : m.Orderly strict) (fit : m.Fits decls floats) (here : m.cols[i]? = some col)
    (heads : ∀ s ∈ m.column i, s.isHead = true) (sub : List Column)
    (change : Shape → Option (List Shape × List Extraction))
    (eases : ∀ s shapes binds, change s = some (shapes, binds) → s.Eases shapes) :
    (m.spliced i sub change).Orderly strict := by
  intro r' kept known
  obtain ⟨r, member, spliced⟩ := List.mem_filterMap.mp kept
  obtain ⟨front, s, back, around, rfl, inColumn, -⟩ := fit.split here member
  have shape : r.pats[front.length]? = some s := by simp [around]
  simp only [Row.splice?, shape, Option.bind_some, Option.map_eq_some_iff] at spliced
  obtain ⟨⟨shapes, binds⟩, changed, rfl⟩ := spliced
  have before := orderly r member known
  rw [around] at before
  have replaced : r.pats.take front.length ++ shapes ++ r.pats.drop (front.length + 1) =
      front ++ shapes ++ back := by simp [around]
  have easy := eases s shapes binds changed
  simp only [replaced]
  exact Shape.orderlyAll_splice before easy.definite easy.orderly (Shape.definite_of_isHead (heads s inColumn))

/-! ### Choosing -/

/-- The first outcome that needs no guard or has its consent. -/
def choose (guard : Guard) (outs : List (Nat × Way)) : Option (Nat × Env) :=
  outs.findSome? fun (arm, w) => if w.guarded && !guard arm w.env then none else some (arm, w.env)

theorem choose_cons (guard : Guard) (arm : Nat) (w : Way) (outs : List (Nat × Way)) :
    choose guard ((arm, w) :: outs) =
      if w.guarded && !guard arm w.env then choose guard outs else some (arm, w.env) := by
  simp only [choose, List.findSome?_cons]
  split <;> simp_all

/-- The lists around a position, and what becomes of a relation when they are replaced there. -/
theorem forall₂_split {α β : Type} {R : α → β → Prop} {l : List α} {l' : List β}
    (related : List.Forall₂ R l l') {i : Nat} {a : α} (here : l[i]? = some a) :
    ∃ front b back, l' = front ++ b :: back ∧ front.length = i ∧ R a b ∧
      ∀ sub sub', List.Forall₂ R sub sub' →
        List.Forall₂ R (l.take i ++ sub ++ l.drop (i + 1)) (front ++ sub' ++ back) := by
  have inside : i < l'.length := by
    rw [← related.length_eq]
    exact (List.getElem?_eq_some_iff.mp here).1
  have there := List.getElem?_eq_getElem inside
  obtain ⟨front, back, around, sized⟩ := split_at there
  refine ⟨front, l'[i], back, around, sized, forall₂_get? related here there, fun sub sub' inner => ?_⟩
  have before := List.forall₂_take i related
  have after := List.forall₂_drop (i + 1) related
  have whole : front = l'.take i ∧ back = l'.drop (i + 1) := by
    rw [around]
    simp [← sized]
  rw [whole.1, whole.2]
  exact List.rel_append (List.rel_append before inner) after

/-- Shapes that test nothing match in one way. -/
theorem Shape.waysAll_any {ctx : Context} {look : Path → Option Value} {cols : List Column}
    {values : List Value} (placed : List.Forall₂ (Holds ctx look) cols values) {pats : List Shape}
    (sized : pats.length = cols.length) (all : ∀ s ∈ pats, s.isAny = true) : waysAll pats values =
      [{ env := gather look ((pats.zip cols).flatMap fun (s, col) => s.bound col.path) }] := by
  induction pats generalizing cols values with
  | nil => simp [waysAll, gather]
  | cons s pats ih =>
    cases placed with
    | nil => simp at sized
    | @cons col x cols values holds others =>
      have first := all s (by simp)
      have later := ih others (by simpa using sized) fun s' member => all s' (by simp [member])
      cases s <;> simp [isAny] at first
      rename_i bind
      simp only [waysAll, later, List.zip_cons_cons, List.flatMap_cons, gather_append]
      cases bind <;> simp [ways, bound, gather, cross, Way.append, holds.here]

/-- A row that tests nothing matches in one way, and binds what is at its paths. -/
theorem Row.ways_untested {ctx : Context} {look : Path → Option Value} {cols : List Column}
    {values : List Value} (placed : List.Forall₂ (Holds ctx look) cols values) {r : Row}
    (sized : r.pats.length = cols.length) (untested : r.tested? = none) :
    r.ways look values = [⟨gather look (r.bindings cols), r.guarded⟩] := by
  have all : ∀ s ∈ r.pats, s.isAny = true := by
    intro s member
    simpa using List.findIdx?_eq_none_iff.mp untested s member
  rw [Row.ways, Shape.waysAll_any placed sized all, Row.bindings, gather_append]
  simp [cross, Way.append]

theorem Tree.walkCases_eq (guard : Guard) (v part : Value) (cases : List Case) :
    walkCases guard v part cases =
      (cases.find? fun c => c.test.accepts part).map fun c => c.tree.walk guard v := by
  induction cases with
  | nil => simp [walkCases]
  | cons c cases ih =>
    obtain ⟨test, tree⟩ := c
    rw [walkCases, List.find?_cons]
    by_cases accepted : test.accepts part = true
    · simp [accepted, Case.test, Case.tree]
    · simp [accepted, Case.test, ih]

theorem outcomes_cons (look : Path → Option Value) (values : List Value) (r : Row) (rows : List Row) :
    outcomes look values (r :: rows) =
      (r.ways look values).map (fun w => (r.arm, w)) ++ outcomes look values rows := by
  simp [outcomes]

/-- Walking a tree meets the outcomes of the matrix it has grown from; those of orderly rows come in their order. -/
theorem Grown.walk_eq {strict : Nat → Prop} {ctx : Context} (regular : ctx.decls.Regular) {m : Matrix}
    {frames : List Frame} {tree : Tree} (grown : Grown ctx false m frames tree) (orderly : m.Orderly strict) {v : Value}
    {values : List Value} (placed : List.Forall₂ (Holds ctx v.at?) m.cols values) :
    ∃ outs, Paired strict (outcomes v.at? values m.rows) outs ∧
      ∀ guard, tree.walk guard v = choose guard outs := by
  induction grown generalizing values with
  | spread fit next ih =>
    obtain ⟨outs, paired, walks⟩ := ih orderly.spread placed
    exact ⟨outs, (Matrix.spread_paired v.at? values orderly).trans paired, walks⟩
  | @expand m sub frames tree i arity col fit heads here product expanded next ih =>
    obtain ⟨front, x, back, rfl, sized, holds, replaced⟩ := forall₂_split placed here
    obtain ⟨rfl, -⟩ := Prod.mk.inj (Except.ok.inj ((Matrix.expand_eq fit here).symm.trans expanded))
    obtain ⟨s, inColumn, isProduct⟩ := product
    have opens := opens_of_isProduct (fit.column here inColumn) isProduct
    have stays := orderly.spliced fit here heads (Matrix.parts ctx.decls col) (openShape ctx.decls col)
      fun _ _ _ => Shape.Eases.of_open
    obtain ⟨outs, paired, walks⟩ := ih stays (replaced _ _ (parts_holds holds opens))
    refine ⟨outs, (Matrix.splice_paired strict fit here back sized fun s inColumn => ?_).trans paired, walks⟩
    exact follows_open holds.paths holds.built opens (fit.column here inColumn) (heads s inColumn)
  | fail empty shown =>
    refine ⟨[], ?_, fun guard => by simp [Tree.walk, choose]⟩
    simpa [empty, outcomes] using Paired.refl []
  | @leaf m frames first rest fit rows untested sure =>
    have ways := Row.ways_untested placed (fit.width (by simp [rows])) untested
    refine ⟨_, Paired.refl _, fun guard => ?_⟩
    rw [rows, outcomes_cons, ways, sure, Tree.walk]
    simp [choose_cons, extract, gather]
  | @guarded m frames first rest tree fit rows untested unsure next ih =>
    have ways := Row.ways_untested placed (fit.width (by simp [rows])) untested
    obtain ⟨outs, paired, walks⟩ := ih (fun r member => orderly r (by simp [rows, member])) placed
    refine ⟨(first.arm, ⟨gather v.at? (first.bindings m.cols), true⟩) :: outs, ?_, fun guard => ?_⟩
    · rw [rows, outcomes_cons, ways, unsure]
      exact (Paired.refl [_]).append paired
    · have bound : extract v (first.bindings m.cols) = gather v.at? (first.bindings m.cols) := rfl
      rw [choose_cons, Tree.walk, walks guard, bound]
      cases guard first.arm (gather v.at? (first.bindings m.cols)) <;> simp
  | @switch m frames first rest i col family cases otherwise fit flat rows tested here switched tests
      missing passed missed ihPassed ihMissed =>
      obtain ⟨front, x, back, rfl, sized, holds, replaced⟩ := forall₂_split placed here
      have heads := flat.heads i
      have known := flat.family fit here switched
      have fits : ∀ s ∈ m.column i, Shape.Fits ctx.decls false s col.type :=
        fun s inColumn => fit.column here inColumn
      have covers := known.covers regular heads fits
      have suits := known.suits fits
      cases found : cases.find? fun c => c.test.accepts x with
      | some c =>
        have member := List.mem_of_find?_eq_some found
        have accepted : c.test.accepts x = true := by simpa using List.find?_some found
        have inFamily : c.test ∈ family.1 := tests ▸ List.mem_map_of_mem member
        obtain ⟨sub, opened, -⟩ := Test.columns_eq (suits c.test inFamily)
        have specialized := Matrix.specialize_eq fit here opened
        have stays := orderly.spliced fit here heads sub (passShape col c.test sub.length)
          fun _ _ _ => Shape.Eases.of_pass
        obtain ⟨outs, paired, walks⟩ := ihPassed c member _ specialized stays
          (replaced _ _ (columns_holds regular holds (suits c.test inFamily) accepted opened))
        refine ⟨outs, (Matrix.splice_paired strict fit here back sized fun s inColumn => ?_).trans paired,
          fun guard => ?_⟩
        · exact follows_pass regular holds.paths holds.built (suits c.test inFamily) accepted
            (covers.sharp x holds.typed c.test inFamily) inColumn (fits s inColumn)
            (heads s inColumn) opened
        · simp [Tree.walk, holds.here, Tree.walkCases_eq, found, walks guard]
      | none =>
        have refused : ∀ test ∈ family.1, test.accepts x = false := by
          intro test member
          obtain ⟨c, inside, rfl⟩ := List.mem_map.mp (tests ▸ member)
          simpa using List.find?_eq_none.mp found c inside
        obtain ⟨shown, misses⟩ := covers.missed x holds.typed refused
        cases other : otherwise with
        | none => exact absurd (missing.mp other) shown
        | some tree =>
          have without := Matrix.without_eq fit here
          have stays := orderly.spliced fit here heads [] (missShape col) fun _ _ _ => Shape.Eases.of_miss
          obtain ⟨outs, paired, walks⟩ := ihMissed tree other _ without stays (replaced _ _ .nil)
          refine ⟨outs, (Matrix.splice_paired strict fit here back sized fun s inColumn => ?_).trans paired,
            fun guard => ?_⟩
          · exact follows_miss holds.paths (misses s inColumn)
          · simp [Tree.walk, holds.here, Tree.walkCases_eq, found, Tree.walkOption, walks guard]

/-- What the arms match, in their order. -/
def armOutcomes (arms : List Arm) (v : Value) : List (Nat × Way) :=
  arms.zipIdx.flatMap fun (a, i) =>
    (cross [{ guarded := a.guarded }] (ways a.pattern v)).map fun w => (i, w)

theorem select_eq (guard : Guard) (arms : List Arm) (v : Value) :
    select guard arms v = choose guard (armOutcomes arms v) := by
  simp only [select, armOutcomes]
  induction arms.zipIdx with
  | nil => rfl
  | cons arm rest ih =>
    obtain ⟨a, i⟩ := arm
    have first : (a.select guard i v).map (fun env => (i, env)) =
        choose guard ((cross [{ guarded := a.guarded }] (ways a.pattern v)).map fun w => (i, w)) := by
      simp only [Arm.select, choose, cross_singleton, List.map_map, List.findSome?_map]
      rw [List.map_findSome?]
      congr 1
      funext w
      simp only [Function.comp, Way.append, List.nil_append]
      split <;> simp_all
    rw [List.findSome?_cons, List.flatMap_cons]
    simp only [first]
    rw [ih]
    simp only [choose, List.findSome?_append]
    cases List.findSome? _ _ <;> rfl

def ArmOrderly (arms : List Arm) (i : Nat) : Prop := ∀ a, arms[i]? = some a → a.pattern.orderly = true

/-- The outcomes of well-formed arms are paired with those of the matrix that they are read as. -/
theorem armOutcomes_paired {ctx : Context} (regular : ctx.decls.Regular) {type : Ty} {arms : List Arm}
    (fit : ∀ a ∈ arms, fits ctx.decls a.pattern type = true) {v : Value} (typed : HasType ctx v type) :
    Paired (ArmOrderly arms) (armOutcomes arms v)
      (outcomes v.at? [v] (Matrix.ofArms ctx.decls type arms).rows) := by
  have members : ∀ entry ∈ arms.zipIdx, arms[entry.2]? = some entry.1 := fun entry member =>
    List.mem_zipIdx_iff_getElem?.mp member
  simp only [armOutcomes, Matrix.ofArms]
  generalize arms.zipIdx = entries at members ⊢
  induction entries with
  | nil => exact Paired.refl []
  | cons entry rest ih =>
    obtain ⟨a, i⟩ := entry
    have here : arms[i]? = some a := members (a, i) (by simp)
    have later := ih fun entry member => members entry (by simp [member])
    have arranged := ways_ofPattern regular a.pattern type v (fit a (List.mem_of_getElem? here)) typed
    rw [List.flatMap_cons, List.map_cons, outcomes_cons]
    refine Paired.append ?_ later
    have ordered := arranged.weaken fun (known : ArmOrderly arms i) => known a here
    have row := (Arranged.refl [{ guarded := a.guarded }]).cross ordered
    simpa [Row.ways, gather, Shape.waysAll] using row.paired

theorem ofArms_orderly {decls : Decls} (regular : decls.Regular) (type : Ty) (arms : List Arm) :
    (Matrix.ofArms decls type arms).Orderly (ArmOrderly arms) := by
  intro r member known
  obtain ⟨⟨a, i⟩, entry, rfl⟩ := List.mem_map.mp member
  have own := known a (List.mem_zipIdx_iff_getElem?.mp entry)
  simp [Shape.orderlyAll, Shape.definiteAll, Shape.orderly_ofPattern regular a.pattern type own]

/-- A name is bound once in what an outcome binds. -/
def Once (l : Nat × Gist) : Prop := (l.2.1.map Prod.fst).Nodup

theorem once_label {o : Nat × Way} : Once (label o) ↔ (o.2.env.map Prod.fst).Nodup := by
  simp [Once, label, Way.gist]

/-- Where names do not repeat, the order of binding does not matter. -/
theorem Env.get?_congr {env env' : Env} (once : (env.map Prod.fst).Nodup)
    (same : (env : Multiset (String × Value)) = env') : env.get? = env'.get? := by
  have perm : env.Perm env' := Multiset.coe_eq_coe.mp same
  have once' : (env'.map Prod.fst).Nodup := (perm.map Prod.fst).nodup_iff.mp once
  funext name
  apply Option.ext
  intro v
  rw [Env.get?_eq_some_iff once, Env.get?_eq_some_iff once', perm.mem_iff]

theorem choose_eq_find? (guard : Guard) (outs : List (Nat × Way)) : choose guard outs =
    (outs.find? fun o => !o.2.guarded || guard o.1 o.2.env).map fun o => (o.1, o.2.env) := by
  induction outs with
  | nil => rfl
  | cons o outs ih =>
    obtain ⟨arm, w⟩ := o
    rw [choose_cons, List.find?_cons, ih]
    cases w.guarded <;> cases guard arm w.env <;> simp

/-- Outcomes that agree are told apart by no guard that looks names up. -/
theorem Agree.choose_eq {xs ys : List (Nat × Way)} (agree : Agree xs ys)
    (once : ∀ o ∈ xs, Once (label o)) (g : Nat → (String → Option Value) → Bool) :
    (choose (fun arm env => g arm env.get?) xs).map Prod.fst =
      (choose (fun arm env => g arm env.get?) ys).map Prod.fst := by
  classical
  let ok : Nat × Gist → Bool := fun l => !l.2.2 ||
    decide (∃ env : Env, (env : Multiset (String × Value)) = l.2.1 ∧ g l.1 env.get? = true)
  have decided (outs : List (Nat × Way)) (once : ∀ o ∈ outs, Once (label o)) :
      (choose (fun arm env => g arm env.get?) outs).map Prod.fst =
        (outs.find? fun o => ok (label o)).map Prod.fst := by
    rw [choose_eq_find?, Option.map_map]
    have same : ∀ o ∈ outs, (!o.2.guarded || g o.1 o.2.env.get?) = ok (label o) := by
      intro o member
      have distinct := once_label.mp (once o member)
      simp only [ok, label, Way.gist]
      congr 1
      rw [Bool.eq_iff_iff, decide_eq_true_iff]
      constructor
      · exact fun consent => ⟨o.2.env, rfl, consent⟩
      · rintro ⟨env, equal, consent⟩
        rwa [Env.get?_congr distinct equal.symm]
    rw [List.find?_congr same]
    rfl
  rw [decided xs once, decided ys (agree.all once), agree.chosen ok]

theorem Agree.first_eq {xs ys : List (Nat × Way)} (agree : Agree xs ys)
    (once : ∀ o ∈ xs, Once (label o)) :
    (choose (fun _ _ => true) xs).map (fun (arm, env) => (arm, env.get?)) =
      (choose (fun _ _ => true) ys).map fun (arm, env) => (arm, env.get?) := by
  have firsts := agree.first
  simp only [choose_eq_find?]
  cases xs with
  | nil => cases ys <;> simp_all
  | cons x xs =>
    cases ys with
    | nil => simp_all
    | cons y ys =>
      have same : label x = label y := by simpa using firsts
      obtain ⟨arms, gists⟩ := Prod.mk.inj same
      have envs : x.2.env.get? = y.2.env.get? :=
        Env.get?_congr (once_label.mp (once x (by simp))) (congrArg Prod.fst gists)
      simp [arms, envs]

theorem armOutcomes_once {arms : List Arm} (once : ∀ a ∈ arms, bindsOnce a.pattern = true) (v : Value) :
    ∀ o ∈ armOutcomes arms v, Once (label o) := by
  intro o member
  obtain ⟨⟨a, i⟩, entry, inside⟩ := List.mem_flatMap.mp member
  obtain ⟨w, way, rfl⟩ := List.mem_map.mp inside
  rw [cross_singleton] at way
  obtain ⟨inner, matched, rfl⟩ := List.mem_map.mp way
  rw [once_label]
  simpa [Way.append] using names_nodup (once a (List.fst_mem_of_mem_zipIdx entry)) matched

theorem ofArms_fits {decls : Decls} {floats : Bool} {type : Ty} {arms : List Arm}
    (allowed : ∀ a ∈ arms, floats = true ∨ fits decls a.pattern type = true) :
    (Matrix.ofArms decls type arms).Fits decls floats := by
  intro r member
  obtain ⟨⟨a, i⟩, entry, rfl⟩ := List.mem_map.mp member
  exact .cons (Shape.ofPattern_fits a.pattern type (allowed a (List.fst_mem_of_mem_zipIdx entry))) .nil

/-- Well-formed arms are compiled, and the outcomes that a walk meets are paired with those of the arms. -/
theorem compile_pairs {ctx : Context} (regular : ctx.decls.Regular) {type : Ty} {arms : List Arm}
    (formed : ∀ a ∈ arms, WellFormed ctx.decls type a.pattern) :
    ∃ d, compile ctx type arms = .ok d ∧
      Grown ctx false (Matrix.ofArms ctx.decls type arms) [] d.tree ∧
      ∀ v, HasType ctx v type → ∃ outs, Paired (ArmOrderly arms) (armOutcomes arms v) outs ∧
        ∀ guard, d.tree.walk guard v = choose guard outs := by
  obtain ⟨d, compiled, grown⟩ := compile_eq regular type arms
    (ofArms_fits fun a member => Or.inr (formed a member).fits)
  refine ⟨d, compiled, grown, fun v typed => ?_⟩
  obtain ⟨outs, paired, walks⟩ :=
    grown.walk_eq regular (ofArms_orderly regular type arms) (.cons ⟨fun q => rfl, typed⟩ .nil)
  have before := armOutcomes_paired regular (fun a member => (formed a member).fits) typed
  exact ⟨outs, before.trans paired, walks⟩

theorem compile_agrees {ctx : Context} (regular : ctx.decls.Regular) {type : Ty} {arms : List Arm}
    (formed : ∀ a ∈ arms, WellFormed ctx.decls type a.pattern) :
    ∃ d, compile ctx type arms = .ok d ∧
      Grown ctx false (Matrix.ofArms ctx.decls type arms) [] d.tree ∧
      ∀ v, HasType ctx v type → ∃ outs, Agree (armOutcomes arms v) outs ∧
        ∀ guard, d.tree.walk guard v = choose guard outs := by
  obtain ⟨d, compiled, grown, walks⟩ := compile_pairs regular formed
  refine ⟨d, compiled, grown, fun v typed => ?_⟩
  obtain ⟨outs, paired, walk⟩ := walks v typed
  exact ⟨outs, paired.agree, walk⟩

/-- Well-formed arms are compiled to a decision whose tree selects, for every value and every guard,
the arm that trying the arms one after the other selects; where every guard consents, the names are
bound to the same values. -/
theorem walk_selects_first_match (ctx : Context) (regular : ctx.decls.Regular) (type : Ty)
    (arms : List Arm) (formed : ∀ a ∈ arms, WellFormed ctx.decls type a.pattern) :
    ∃ d, compile ctx type arms = .ok d ∧ ∀ v, HasType ctx v type →
      (∀ g : Nat → (String → Option Value) → Bool,
        (d.tree.walk (fun arm env => g arm env.get?) v).map Prod.fst =
          (select (fun arm env => g arm env.get?) arms v).map Prod.fst) ∧
      (d.tree.walk (fun _ _ => true) v).map (fun (arm, env) => (arm, env.get?)) =
        (select (fun _ _ => true) arms v).map fun (arm, env) => (arm, env.get?) := by
  obtain ⟨d, compiled, -, walks⟩ := compile_agrees regular formed
  refine ⟨d, compiled, fun v typed => ?_⟩
  obtain ⟨outs, agree, walk⟩ := walks v typed
  have once := armOutcomes_once (fun a member => (formed a member).once) v
  constructor
  · intro g
    rw [walk, select_eq, agree.choose_eq once g]
  · rw [walk, select_eq, agree.first_eq once]

/-- An optional number. -/
def optionContext : Context where
  decls := { enums := [⟨"Option", ["T"], [⟨"None", 0, [], []⟩, ⟨"Some", 1, [.generic "T"], []⟩]⟩] }

def optionType : Ty := .enum "Option" [.int .i32]

/-- Three arms for an optional number, of which the first is guarded. -/
def optionArms : List Arm :=
  [{ pattern := .variant default "Option" "Some"
      [.alternatives default [.range default 1 3 true, .literal default (.int 7)]] [] false
     guarded := true },
   { pattern := .variant default "Option" "Some" [.binding ⟨default, "n", false⟩] [] false },
   { pattern := .variant default "Option" "None" [] [] false }]

theorem optionContext_regular : optionContext.decls.Regular := by
  constructor <;> simp [optionContext]

theorem optionArms_formed : ∀ a ∈ optionArms, WellFormed optionContext.decls optionType a.pattern := by
  intro a member
  simp only [optionArms, List.mem_cons, List.not_mem_nil, or_false] at member
  rcases member with rfl | rfl | rfl <;> exact ⟨by decide, by decide⟩

theorem some_hasType : HasType optionContext (.variant "Some" [] [.int 7]) optionType := by
  refine HasType.variant (v := ⟨"Some", 1, [.generic "T"], []⟩) rfl (by simp) (.cons ?_ .nil)
  exact .int (by decide) (by decide)

/-- A guard that asks for a name lets the first arm pass, though its pattern matches. -/
theorem walk_selects_first_match_option :
    optionContext.decls.Regular ∧
    (∀ a ∈ optionArms, WellFormed optionContext.decls optionType a.pattern) ∧
    HasType optionContext (.variant "Some" [] [.int 7]) optionType ∧
    ∃ d, compile optionContext optionType optionArms = .ok d ∧
      (d.tree.walk (fun _ env => (env.get? "n").isSome) (.variant "Some" [] [.int 7])).map Prod.fst =
        some 1 := by
  refine ⟨optionContext_regular, optionArms_formed, some_hasType, ?_⟩
  obtain ⟨d, compiled, walks⟩ := walk_selects_first_match optionContext optionContext_regular optionType
    optionArms optionArms_formed
  have walk := (walks _ some_hasType).1 fun _ look => (look "n").isSome
  exact ⟨d, compiled, walk.trans (by decide)⟩

end TreeCheck.Match
