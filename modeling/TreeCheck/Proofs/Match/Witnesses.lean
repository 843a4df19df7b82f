import TreeCheck.Proofs.Match.Layers

/-!
Witnesses are genuine. Patterns for the columns at hand are genuine if they match values that no row admits for sure;
going back through a frame keeps this, so what a failure shows matches a value that no arm matches. Unless strings are
tested, it matches no other values.
-/

namespace TreeCheck.Match

variable {ctx : Context} {ok : Shape → Ty → Bool}

theorem forall₂_matches_iff {ps : List Pattern} {values : List Value} (sized : ps.length = values.length) :
    List.Forall₂ Matches ps values ↔ MatchesAll ps values := by
  constructor
  · intro all i p x left right
    exact forall₂_get? all left right
  · intro all
    exact forall₂_of_get? sized all

/-- A property of shapes that no string has. -/
def Wordless (ok : Shape → Ty → Bool) : Prop := ∀ value t, ok (.string value) t = false

/-- Patterns for the columns of a matrix match values that no row admits, and without strings no others. -/
structure Genuine (ctx : Context) (ok : Shape → Ty → Bool) (m : Matrix) (ps : List Pattern) : Prop where
  occurs : ∃ values, Filled ctx m.cols values ∧ List.Forall₂ Matches ps values ∧ ¬ m.Admits values
  only : Wordless ok → ∀ values, Filled ctx m.cols values → List.Forall₂ Matches ps values → ¬ m.Admits values

/-- Only the columns and the admitted values of a matrix matter. -/
theorem Genuine.of_admits {m m' : Matrix} {ps : List Pattern} (genuine : Genuine ctx ok m' ps) (cols : m'.cols = m.cols)
    (same : ∀ values, m.Admits values ↔ m'.Admits values) : Genuine ctx ok m ps := by
  constructor
  · obtain ⟨values, filled, hits, free⟩ := genuine.occurs
    exact ⟨values, cols ▸ filled, hits, mt (same values).mp free⟩
  · intro wordless values filled hits
    exact mt (same values).mp (genuine.only wordless values (cols ▸ filled) hits)

section

variable {m : Matrix} {i : Nat} {col : Column} {sub : List Column}
variable {change : Shape → Option (List Shape × List Extraction)}

/-- A pattern for a column stands for patterns for the columns that came from it. -/
structure Stands (ctx : Context) (ok : Shape → Ty → Bool) (m : Matrix) (i : Nat) (col : Column) (sub : List Column)
    (change : Shape → Option (List Shape × List Extraction)) (args : List Pattern) (p : Pattern) : Prop where
  /-- Parts that the patterns match belong to a value that the pattern matches. -/
  up : ∀ parts, Filled ctx sub parts → List.Forall₂ Matches args parts →
    ∃ x, Matches p x ∧ Parted ctx m i col sub change x parts
  /-- A value that the pattern matches has such parts. -/
  down : Wordless ok → ∀ x, HasType ctx x col.type → Matches p x →
    ∃ parts, List.Forall₂ Matches args parts ∧ Parted ctx m i col sub change x parts

section

variable (regular : ctx.decls.Regular) (fit : m.Fits ctx.decls false)
variable (heads : ∀ s ∈ m.column i, s.isHead = true) (here : m.cols[i]? = some col)
variable {args : List Pattern} {p : Pattern}

include regular fit heads here

theorem stands_product (opens : Opens ctx.decls col.type) (sized : args.length = (Matrix.parts ctx.decls col).length)
    (shown : Frame.productPattern ctx.decls col.type args = .ok p) :
    Stands ctx ok m i col (Matrix.parts ctx.decls col) (openShape ctx.decls col) args p := by
  have hits {x : Value} (built : Built ctx (HasType ctx) x col.type) :
      Matches p x ↔ List.Forall₂ Matches args (x.pieces col.type) := by
    have wide : args.length = (x.pieces col.type).length := by
      simpa [sized] using (built.pieces opens).length_eq.symm
    rw [forall₂_matches_iff wide]
    exact productPattern_matches regular opens sized shown built
  constructor
  · intro parts filled below
    obtain ⟨x, built, rfl⟩ := exists_product opens (filled_iff.mp filled)
    exact ⟨x, (hits built).mpr below, parted_open fit heads here opens (hasType_iff_built.mpr built)⟩
  · intro _ x typed hit
    exact ⟨_, (hits (hasType_iff_built.mp typed)).mp hit, parted_open fit heads here opens typed⟩

variable {family : List Test × List Pattern} (spans : Spans ctx (HasType ctx) col.type (m.column i) family)

include spans

theorem stands_test (peopled : Peopled ctx col.type) {test : Test} (member : test ∈ family.1)
    (suits : test.Suits ctx.decls col.type) (opened : test.columns ctx.decls col = .ok sub)
    (sized : args.length = test.arity) (shown : Frame.testPattern ctx.decls col.type args test = .ok p) :
    Stands ctx ok m i col sub (passShape col test sub.length) args p := by
  obtain ⟨sub', opened', wide, types⟩ := Test.columns_eq suits
  obtain rfl := Except.ok.inj (opened.symm.trans opened')
  have parted {x : Value} (built : Built ctx (HasType ctx) x col.type) (picks : test.picks x = true) :
      Parted ctx m i col sub (passShape col test sub.length) x (x.parts.take test.arity) :=
    parted_pass regular fit heads here suits opened (hasType_iff_built.mpr built)
      (spans.picked x built test member picks) (spans.sharp x built test member)
  have hits {x : Value} (built : Built ctx (HasType ctx) x col.type) (picks : test.picks x = true) :
      List.Forall₂ Matches args (x.parts.take test.arity) ↔ Matches p x := by
    have exact : args.length = (x.parts.take test.arity).length :=
      sized.trans (wide.symm.trans (parted built picks).2.1.length_eq)
    rw [forall₂_matches_iff exact, testPattern_matches regular suits sized shown built]
    exact (and_iff_right picks).symm
  constructor
  · intro parts filled below
    obtain ⟨x, built, picks, rfl⟩ := spans.passed peopled.alive test member parts (types ▸ filled_iff.mp filled)
    exact ⟨x, (hits built picks).mp below, parted built picks⟩
  · intro _ x typed hit
    have built := hasType_iff_built.mp typed
    have picks := ((testPattern_matches regular suits sized shown built).mp hit).1
    exact ⟨_, (hits built picks).mpr hit, parted built picks⟩

omit regular fit heads here in
theorem stands_missing (sound : m.Sound ctx.decls ok) (here : m.cols[i]? = some col) (peopled : Peopled ctx col.type)
    (member : p ∈ family.2) : Stands ctx ok m i col [] (missShape col) [] p := by
  constructor
  · intro parts filled _
    cases filled
    obtain ⟨x, built, hit, refused⟩ := spans.shown peopled.alive p member
    exact ⟨x, hit, parted_miss (hasType_iff_built.mpr built) (spans.missed x built refused).2⟩
  · intro wordless x typed hit
    have built := hasType_iff_built.mp typed
    have none : ∀ value, .string value ∉ m.column i := fun value inColumn => by
      simpa [wordless value] using (sound.column here inColumn).holds
    have refused := spans.apart none p member x built hit
    exact ⟨[], .nil, parted_miss typed (spans.missed x built refused).2⟩

end

theorem Frame.undo_inv {decls : Decls} {f : Frame} {vector : List Pattern} {undone : List (List Pattern)}
    (back : f.undo decls vector = .ok undone) :
    ∃ built, Frame.build decls ((vector.drop f.col).take f.arity) f.form = .ok built ∧
      undone = built.map fun p => vector.take f.col ++ [p] ++ vector.drop (f.col + f.arity) := by
  simp only [Frame.undo, bind, Except.bind, pure, Except.pure] at back
  split at back
  · cases back
  · split at back
    · cases back
    next built shown =>
      cases back
      exact ⟨built, shown, rfl⟩

/-- Going back through a frame keeps patterns genuine, if what it builds stands for what it is built from. -/
theorem Genuine.undo (fit : m.Fits ctx.decls false) (here : m.cols[i]? = some col) {arity : Nat} {form : Frame.Form}
    (wide : arity = sub.length)
    (each : ∀ args built, args.length = arity → Frame.build ctx.decls args form = .ok built →
      built ≠ [] ∧ ∀ p ∈ built, Stands ctx ok m i col sub change args p)
    {ps : List Pattern} (genuine : Genuine ctx ok (m.spliced i sub change) ps) {undone : List (List Pattern)}
    (back : Frame.undo ctx.decls ⟨i, arity, form⟩ ps = .ok undone) :
    undone ≠ [] ∧ ∀ qs ∈ undone, Genuine ctx ok m qs := by
  obtain ⟨built, shown, rfl⟩ := Frame.undo_inv back
  obtain ⟨values, filled, hits, free⟩ := genuine.occurs
  obtain ⟨front, parts, rest, rfl, sized, middle, whole⟩ := forall₂_splice here filled
  have exact : parts.length = arity := by rw [wide, middle.length_eq]
  have before : List.Forall₂ Matches (ps.take i) front := by
    simpa [← sized] using List.forall₂_take i hits
  have inner : List.Forall₂ Matches ((ps.drop i).take arity) parts := by
    simpa [← sized, ← exact] using List.forall₂_take arity (List.forall₂_drop i hits)
  have after : List.Forall₂ Matches (ps.drop (i + arity)) rest := by
    simpa [← sized, ← exact, ← List.append_assoc] using List.forall₂_drop (i + arity) hits
  have around : ps.take i ++ (ps.drop i).take arity ++ ps.drop (i + arity) = ps := by
    rw [List.append_assoc, ← List.drop_drop, List.take_append_drop, List.take_append_drop]
  have length : (ps.take i).length = i := by rw [before.length_eq, sized]
  obtain ⟨some, stands⟩ := each _ built (by rw [inner.length_eq, exact]) shown
  refine ⟨by simpa using some, fun qs member => ?_⟩
  obtain ⟨p, inside, rfl⟩ := List.mem_map.mp member
  constructor
  · obtain ⟨x, hit, parted⟩ := (stands p inside).up parts middle inner
    refine ⟨front ++ x :: rest, whole x parted.1, ?_, mt (parted.admits_iff fit here sized rest).mp free⟩
    simpa using List.rel_append before (List.Forall₂.cons hit after)
  · intro wordless others filled' hits'
    obtain ⟨front', x, rest', rfl, sized', typed, replaced⟩ := forall₂_split filled' here
    have cut := List.forall₂_drop i hits'
    rw [List.append_assoc, List.drop_left' length, List.drop_left' sized'] at cut
    obtain ⟨hit, after'⟩ := List.forall₂_cons.mp cut
    have before' : List.Forall₂ Matches (ps.take i) front' := by
      have cut := List.forall₂_take i hits'
      rwa [List.append_assoc, List.take_left' length, List.take_left' sized'] at cut
    obtain ⟨parts', inner', parted⟩ := (stands p inside).down wordless x typed hit
    refine mt (parted.admits_iff fit here sized' rest').mp (genuine.only wordless _ (replaced sub parts' parted.2.1) ?_)
    rw [← around]
    exact List.rel_append (List.rel_append before' inner') after'

end

/-- Genuine patterns for the columns of a matrix lead back through frames to genuine patterns for those of another. -/
def Leads (ctx : Context) (ok : Shape → Ty → Bool) (start : Matrix) (frames : List Frame) (m : Matrix) : Prop :=
  ∀ vectors unwound, (∀ ps ∈ vectors, Genuine ctx ok m ps) → Frame.unwind ctx.decls frames vectors = .ok unwound →
    (vectors ≠ [] → unwound ≠ []) ∧ ∀ ps ∈ unwound, Genuine ctx ok start ps

section

variable {start m m' : Matrix} {frames : List Frame}

theorem leads_refl : Leads ctx ok m [] m := by
  intro vectors unwound genuine done
  cases done
  exact ⟨id, genuine⟩

theorem Leads.of_genuine (leads : Leads ctx ok start frames m)
    (same : ∀ ps, Genuine ctx ok m' ps → Genuine ctx ok m ps) : Leads ctx ok start frames m' :=
  fun vectors unwound genuine => leads vectors unwound fun ps member => same ps (genuine ps member)

theorem undoAll_genuine {f : Frame}
    (back : ∀ ps undone, Genuine ctx ok m' ps → f.undo ctx.decls ps = .ok undone →
      undone ≠ [] ∧ ∀ qs ∈ undone, Genuine ctx ok m qs)
    {vectors undone : List (List Pattern)} (genuine : ∀ ps ∈ vectors, Genuine ctx ok m' ps)
    (done : f.undoAll ctx.decls vectors = .ok undone) :
    (vectors ≠ [] → undone ≠ []) ∧ ∀ qs ∈ undone, Genuine ctx ok m qs := by
  induction vectors generalizing undone with
  | nil =>
    cases done
    simp
  | cons ps rest ih =>
    simp only [Frame.undoAll, bind, Except.bind, pure, Except.pure] at done
    split at done
    · cases done
    next first undo =>
      split at done
      · cases done
      next later others =>
        cases done
        obtain ⟨some, own⟩ := back ps first (genuine ps (by simp)) undo
        obtain ⟨-, old⟩ := ih (fun qs member => genuine qs (by simp [member])) others
        refine ⟨fun _ => by simp [some], fun qs member => ?_⟩
        exact (List.mem_append.mp member).elim (own qs) (old qs)

theorem Leads.step (leads : Leads ctx ok start frames m) {f : Frame}
    (back : ∀ ps undone, Genuine ctx ok m' ps → f.undo ctx.decls ps = .ok undone →
      undone ≠ [] ∧ ∀ qs ∈ undone, Genuine ctx ok m qs) : Leads ctx ok start (f :: frames) m' := by
  intro vectors unwound genuine done
  simp only [Frame.unwind, bind, Except.bind] at done
  split at done
  · cases done
  next undone undo =>
    obtain ⟨some, own⟩ := undoAll_genuine back genuine undo
    obtain ⟨more, old⟩ := leads _ unwound (fun qs member => own qs (List.mem_of_mem_take member)) done
    refine ⟨fun present => more ?_, old⟩
    simpa [List.take_eq_nil_iff, Frame.limit] using some present

/-- A step that a frame remembers leads back if what the frame builds stands for what it is built from. -/
theorem Leads.splice (leads : Leads ctx ok start frames m) (fit : m.Fits ctx.decls false)
    (here : m.cols[i]? = some col) {arity : Nat} {form : Frame.Form} (wide : arity = sub.length)
    (each : ∀ args built, args.length = arity → Frame.build ctx.decls args form = .ok built →
      built ≠ [] ∧ ∀ p ∈ built, Stands ctx ok m i col sub change args p) :
    Leads ctx ok start (⟨i, arity, form⟩ :: frames) (m.spliced i sub change) :=
  leads.step fun _ _ genuine back => genuine.undo fit here wide each back

theorem Frame.build_one {pattern : Except Failure Pattern} {built : List Pattern}
    (done : (do return [← pattern]) = Except.ok built) : ∃ p, pattern = .ok p ∧ built = [p] := by
  cases shown : pattern with
  | error failure => simp [shown, bind, Except.bind] at done
  | ok p =>
    refine ⟨p, rfl, ?_⟩
    simpa [shown, bind, Except.bind, pure, Except.pure] using done.symm

section

variable (leads : Leads ctx ok start frames m) (regular : ctx.decls.Regular) (fit : m.Fits ctx.decls false)
variable (heads : ∀ s ∈ m.column i, s.isHead = true) (here : m.cols[i]? = some col)

include leads regular fit heads here

theorem Leads.expand (opens : Opens ctx.decls col.type) :
    Leads ctx ok start (⟨i, (Matrix.parts ctx.decls col).length, .product col.type⟩ :: frames)
      (m.spliced i (Matrix.parts ctx.decls col) (openShape ctx.decls col)) := by
  refine leads.splice fit here rfl fun args built sized done => ?_
  obtain ⟨p, shown, rfl⟩ := Frame.build_one done
  exact ⟨by simp, by simpa using stands_product regular fit heads here opens sized shown⟩

variable {family : List Test × List Pattern} (spans : Spans ctx (HasType ctx) col.type (m.column i) family)

include spans

theorem Leads.pass (peopled : Peopled ctx col.type) {test : Test} (member : test ∈ family.1)
    (suits : test.Suits ctx.decls col.type) (opened : test.columns ctx.decls col = .ok sub) :
    Leads ctx ok start (⟨i, test.arity, .test col.type test⟩ :: frames)
      (m.spliced i sub (passShape col test sub.length)) := by
  obtain ⟨sub', opened', wide, -⟩ := Test.columns_eq suits
  obtain rfl := Except.ok.inj (opened.symm.trans opened')
  refine leads.splice fit here wide.symm fun args built sized done => ?_
  obtain ⟨p, shown, rfl⟩ := Frame.build_one done
  exact ⟨by simp, by simpa using stands_test regular fit heads here spans peopled member suits opened sized shown⟩

omit regular fit heads here in
theorem Leads.miss (fit : m.Fits ctx.decls false) (sound : m.Sound ctx.decls ok) (here : m.cols[i]? = some col)
    (peopled : Peopled ctx col.type) (some : family.2 ≠ []) :
    Leads ctx ok start (⟨i, 0, .missing family.2⟩ :: frames) (m.spliced i [] (missShape col)) := by
  refine leads.splice fit here rfl fun args built sized done => ?_
  cases done
  obtain rfl := List.length_eq_zero_iff.mp sized
  exact ⟨some, fun p member => stands_missing spans sound here peopled member⟩

end

end

theorem Tree.mem_failuresAll {shown : List Pattern} {cases : List Case} :
    shown ∈ Tree.failuresAll cases ↔ ∃ c ∈ cases, shown ∈ c.tree.failures := by
  induction cases with
  | nil => simp [Tree.failuresAll]
  | cons c cases ih =>
    obtain ⟨test, tree⟩ := c
    simp [Tree.failuresAll, ih, Case.tree]

theorem genuine_wildcards {m : Matrix} (empty : m.rows = []) (peopled : ∀ col ∈ m.cols, Peopled ctx col.type) :
    Genuine ctx ok m (List.replicate m.cols.length (.wildcard default)) := by
  have free (values : List Value) : ¬ m.Admits values := by simp [Matrix.Admits, empty]
  constructor
  · obtain ⟨values, typed⟩ : ∃ values, List.Forall₂ (HasType ctx) values (m.cols.map Column.type) := by
      refine exists_values fun t member => ?_
      obtain ⟨col, inside, rfl⟩ := List.mem_map.mp member
      exact (peopled col inside).self
    refine ⟨values, filled_iff.mpr typed, ?_, free values⟩
    have sized : m.cols.length = values.length := by simpa using typed.length_eq.symm
    rw [forall₂_matches_iff (by simp [sized])]
    intro i p x left _
    rw [List.eq_of_mem_replicate (List.mem_of_getElem? left)]
    exact matches_wild rfl x
  · exact fun _ values _ _ => free values

/-- What the failures of a tree show leads back to genuine patterns for the columns at the start. -/
theorem Grown.failures_genuine (regular : ctx.decls.Regular) {start m : Matrix} {frames : List Frame} {tree : Tree}
    (grown : Grown ctx false m frames tree) (leads : Leads ctx ok start frames m)
    (wild : ∀ t, ok Shape.wild t = true) (sound : m.Sound ctx.decls ok)
    (peopled : ∀ col ∈ m.cols, Peopled ctx col.type) {shown : List Pattern} (failure : shown ∈ tree.failures) :
    ∃ vectors, vectors ≠ [] ∧ shown = vectors.filterMap List.head? ∧ ∀ ps ∈ vectors, Genuine ctx ok start ps := by
  induction grown with
  | @spread m frames tree fit next ih =>
    refine ih (leads.of_genuine fun ps genuine => ?_) (Matrix.spread_sound sound) peopled failure
    exact genuine.of_admits rfl fun values => (m.spread_admits values).symm
  | @expand m sub frames tree i arity col fit heads here product expanded next ih =>
    obtain ⟨rfl, rfl⟩ := Prod.mk.inj (Except.ok.inj ((Matrix.expand_eq fit here).symm.trans expanded))
    obtain ⟨s, inColumn, isProduct⟩ := product
    have opens := opens_of_isProduct (fit.column here inColumn) isProduct
    have inner : ∀ part ∈ Matrix.parts ctx.decls col, Peopled ctx part.type := fun part member =>
      (peopled col (List.mem_of_getElem? here)).inside (parts_inside opens part member)
    exact ih (leads.expand regular fit heads here opens) (Matrix.expand_sound wild sound heads here)
      (spliced_forall peopled inner) failure
  | @fail m frames witnesses empty done =>
    obtain rfl : shown = witnesses := by simpa [Tree.failures] using failure
    simp only [Frame.witnesses, bind, Except.bind, pure, Except.pure] at done
    split at done
    · cases done
    next vectors unwound =>
      obtain ⟨some, genuine⟩ := leads _ vectors (fun ps member => by
        rw [List.mem_singleton.mp member]
        exact genuine_wildcards empty peopled) unwound
      exact ⟨vectors, some (by simp), (Except.ok.inj done).symm, genuine⟩
  | leaf => simp [Tree.failures, Tree.failuresOption] at failure
  | @guarded m frames first rest tree fit rows untested unsure next ih =>
    refine ih (leads.of_genuine fun ps genuine => ?_) (fun r inside => sound r (by simp [rows, inside])) peopled
      (by simpa [Tree.failures, Tree.failuresOption] using failure)
    exact genuine.of_admits rfl fun values => by simp [Matrix.Admits, rows, unsure]
  | @switch m frames first rest i col family cases otherwise fit flat rows tested here switched tests
      missing passed missed ihPassed ihMissed =>
      have heads := flat.heads i
      have known := flat.family fit here switched
      have fits : ∀ s ∈ m.column i, Shape.Fits ctx.decls false s col.type := fun s inColumn => fit.column here inColumn
      have spans : Spans ctx (HasType ctx) col.type (m.column i) family := known.spans regular heads fits
      have own := peopled col (List.mem_of_getElem? here)
      rcases List.mem_append.mp (by simpa [Tree.failures] using failure) with inCases | inRest
      · obtain ⟨c, inside, below⟩ := Tree.mem_failuresAll.mp inCases
        have inFamily : c.test ∈ family.1 := tests ▸ List.mem_map_of_mem inside
        have suits := known.suits fits c.test inFamily
        obtain ⟨sub, opened, -, -⟩ := Test.columns_eq suits
        have inner := fun part member => own.inside (columns_inside suits opened part member)
        exact ihPassed c inside _ (Matrix.specialize_eq fit here opened)
          (leads.pass regular fit heads here spans own inFamily suits opened)
          (Matrix.specialize_sound wild regular sound here suits opened) (spliced_forall peopled inner) below
      · cases other : otherwise with
        | none => simp [other, Tree.failuresOption] at inRest
        | some tree =>
          have some : family.2 ≠ [] := fun complete => by simp [missing.mpr complete] at other
          exact ihMissed tree other _ (Matrix.without_eq fit here) (leads.miss spans fit sound here own some)
            (Matrix.without_sound sound) (spliced_forall peopled (List.forall_mem_nil _))
            (by simpa [other, Tree.failuresOption] using inRest)

/-! ### Witnesses of a match -/

section

variable (regular : ctx.decls.Regular) {type : Ty} {arms : List Arm}

include regular

theorem select_eq_none_iff (fit : ∀ a ∈ arms, fits ctx.decls a.pattern type = true) {v : Value}
    (typed : HasType ctx v type) :
    select (fun _ _ => false) arms v = none ↔ ¬ (Matrix.ofArms ctx.decls type arms).Admits [v] := by
  have sure := (armOutcomes_paired regular fit typed).agree.sure_iff.trans (Matrix.sure_iff _ v.at? [v])
  rw [select_eq, ← sure, ← Option.not_isSome_iff_eq_none]
  exact not_congr ⟨sure_of_choose, fun some => choose_isSome some _⟩

/-- Every failure of a tree shows something, and all that it shows is genuine. -/
theorem failure_genuine (wild : ∀ t, ok Shape.wild t = true) (peopled : Peopled ctx type) {tree : Tree}
    (grown : Grown ctx false (Matrix.ofArms ctx.decls type arms) [] tree)
    (sound : (Matrix.ofArms ctx.decls type arms).Sound ctx.decls ok) {shown : List Pattern}
    (failure : shown ∈ tree.failures) :
    shown ≠ [] ∧ ∀ w ∈ shown, Genuine ctx ok (Matrix.ofArms ctx.decls type arms) [w] := by
  obtain ⟨vectors, some, rfl, genuine⟩ := grown.failures_genuine regular leads_refl wild sound
    (by simpa [Matrix.ofArms] using peopled) failure
  have single {ps : List Pattern} (member : ps ∈ vectors) : ∃ w, ps = [w] := by
    obtain ⟨values, filled, hits, -⟩ := (genuine ps member).occurs
    exact List.length_eq_one_iff.mp (hits.length_eq.trans filled.length_eq.symm)
  constructor
  · obtain ⟨ps, member⟩ := List.exists_mem_of_ne_nil _ some
    obtain ⟨w, rfl⟩ := single member
    exact List.ne_nil_of_mem (List.mem_filterMap.mpr ⟨[w], member, rfl⟩)
  · intro w inside
    obtain ⟨ps, member, head⟩ := List.mem_filterMap.mp inside
    obtain ⟨w', rfl⟩ := single member
    obtain rfl : w' = w := by simpa using head
    exact genuine _ member

end

/-- Where well-formed arms leave a value unmatched, witnesses are shown. Each matches a value of the type that no arm is
selected for when all guards refuse; and if no arm has a string literal, each matches only such values. -/
theorem witnesses_genuine (ctx : Context) (regular : ctx.decls.Regular) (type : Ty) (peopled : Peopled ctx type)
    (arms : List Arm) (formed : ∀ a ∈ arms, WellFormed ctx.decls type a.pattern) :
    ∃ d, compile ctx type arms = .ok d ∧ (d.isExhaustive = false → d.witnesses ≠ []) ∧
      ∀ w ∈ d.witnesses,
        (∃ v, HasType ctx v type ∧ ways w v ≠ [] ∧ select (fun _ _ => false) arms v = none) ∧
        ((∀ a ∈ arms, a.pattern.every Pattern.wordless = true) →
          ∀ v, HasType ctx v type → ways w v ≠ [] → select (fun _ _ => false) arms v = none) := by
  have fit : ∀ a ∈ arms, Shape.Fits ctx.decls false (Shape.ofPattern ctx.decls a.pattern type) type :=
    fun a member => Shape.ofPattern_fits a.pattern type (.inr (formed a member).fits)
  have own : ∀ a ∈ arms, fits ctx.decls a.pattern type = true := fun a member => (formed a member).fits
  have plain : (Matrix.ofArms ctx.decls type arms).Sound ctx.decls fun _ _ => true :=
    Matrix.ofArms_sound fun a member => ⟨fit a member, Shape.every_true _ _⟩
  obtain ⟨d, compiled, grown⟩ := compile_eq regular type arms plain.fits
  obtain ⟨from_failures, kept⟩ : (∀ w ∈ d.witnesses, w ∈ d.tree.failures.flatten) ∧
      ∀ w ∈ d.tree.failures.flatten, ∃ other ∈ d.witnesses, other.text = w.text := once_spec Pattern.text _
  refine ⟨d, compiled, fun incomplete => ?_, fun w member => ?_⟩
  · obtain ⟨shown, failure⟩ := List.exists_mem_of_ne_nil d.tree.failures
      (by simpa [Decision.isExhaustive] using incomplete)
    obtain ⟨w, inside⟩ := List.exists_mem_of_ne_nil shown
      (failure_genuine regular (fun _ => rfl) peopled grown plain failure).1
    obtain ⟨other, present, -⟩ := kept w (List.mem_flatten.mpr ⟨shown, failure, inside⟩)
    exact List.ne_nil_of_mem present
  · obtain ⟨shown, failure, inside⟩ := List.mem_flatten.mp (from_failures w member)
    constructor
    · obtain ⟨values, filled, hits, free⟩ :=
        ((failure_genuine regular (fun _ => rfl) peopled grown plain failure).2 w inside).occurs
      obtain ⟨v, none, typed, last, rfl⟩ := List.forall₂_cons_left_iff.mp filled
      cases last
      exact ⟨v, typed, (List.forall₂_cons.mp hits).1, (select_eq_none_iff regular own typed).mpr free⟩
    · intro wordless v typed hit
      have sound : (Matrix.ofArms ctx.decls type arms).Sound ctx.decls Shape.wordless := Matrix.ofArms_sound
        fun a own => ⟨fit a own, Shape.ofPattern_every Shape.carries_wordless a.pattern type (wordless a own)⟩
      have genuine := (failure_genuine regular (fun _ => rfl) peopled grown sound failure).2 w inside
      refine (select_eq_none_iff regular own typed).mpr (genuine.only (fun _ _ => rfl) [v] ?_ (.cons hit .nil))
      exact .cons typed .nil

/-- An arm for numbers alone leaves something to be shown, and nothing that is shown matches a number. -/
theorem witnesses_genuine_option :
    optionContext.decls.Regular ∧ Peopled optionContext optionType ∧
    (∀ a ∈ optionArms.tail.dropLast, WellFormed optionContext.decls optionType a.pattern) ∧
    (∀ a ∈ optionArms.tail.dropLast, a.pattern.every Pattern.wordless = true) ∧
    ∃ d, compile optionContext optionType optionArms.tail.dropLast = .ok d ∧ d.isExhaustive = false ∧
      d.witnesses ≠ [] ∧ ∀ w ∈ d.witnesses, ways w (.variant "Some" [] [.int 7]) = [] := by
  have formed : ∀ a ∈ optionArms.tail.dropLast, WellFormed optionContext.decls optionType a.pattern :=
    fun a member => optionArms_formed a (List.mem_of_mem_tail (List.mem_of_mem_dropLast member))
  have free : ∀ a ∈ optionArms.tail.dropLast, a.pattern.every Pattern.wordless = true := by decide
  have shown : (compile optionContext optionType optionArms.tail.dropLast).toOption.map
      Decision.isExhaustive = some false := by decide
  obtain ⟨d, compiled, some, genuine⟩ := witnesses_genuine optionContext optionContext_regular optionType
    optionType_peopled optionArms.tail.dropLast formed
  rw [compiled] at shown
  have incomplete : d.isExhaustive = false := Option.some.inj shown
  refine ⟨optionContext_regular, optionType_peopled, formed, free, d, compiled, incomplete, some incomplete,
    fun w member => ?_⟩
  by_contra hit
  exact absurd ((genuine w member).2 free _ some_hasType hit) (by decide)

end TreeCheck.Match
