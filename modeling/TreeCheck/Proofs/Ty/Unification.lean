import TreeCheck.Proofs.Ty.Bindings

/-!
Unification as a list of pairs to be solved. The relation says what is done with the first pair and
knows no fuel; with fuel enough for the depth of what the types stand for, unifying follows it.
-/

namespace TreeCheck

/-- What a variable of a class may stand for, a variable or not. -/
def LiteralClass.allows (c : LiteralClass) : Ty → Bool
  | .var _ d => c == .general || d == c
  | t => c.admits t

theorem LiteralClass.allows_plain {c : LiteralClass} {t : Ty} (plain : t.isVar = false) :
    c.allows t = c.admits t := by
  cases t <;> simp [Ty.isVar] at plain <;> rfl

theorem LiteralClass.allows_general (t : Ty) : LiteralClass.general.allows t = true := by
  cases t <;> rfl

/-- Types of no common form with children are compared as they are. -/
theorem Ty.alike_leaf {x y : Ty} (structs : ∀ n as m bs, x = .struct n as → y = .struct m bs → False)
    (enums : ∀ n as m bs, x = .enum n as → y = .enum m bs → False)
    (tuples : ∀ as bs, x = .tuple as → y = .tuple bs → False)
    (arrays : ∀ a b, x = .array a → y = .array b → False)
    (refs : ∀ m a n b, x = .ref m a → y = .ref n b → False)
    (functions : ∀ as a bs b, x = .function as a → y = .function bs b → False) :
    x.alike y = x.same y ∧ (x.same y = true → x.children.zip y.children = []) := by
  cases x <;> cases y <;> first
    | exact ⟨rfl, fun _ => rfl⟩
    | exact ⟨rfl, by simp [same]⟩
    | exact (structs _ _ _ _ rfl rfl).elim
    | exact (enums _ _ _ _ rfl rfl).elim
    | exact (tuples _ _ rfl rfl).elim
    | exact (arrays _ _ rfl rfl).elim
    | exact (refs _ _ _ _ rfl rfl).elim
    | exact (functions _ _ _ _ rfl rfl).elim

theorem Ty.isVar_eq_false {t : Ty} (noVar : ∀ id c, t = .var id c → False) : t.isVar = false := by
  cases t
  case var id c => exact (noVar id c rfl).elim
  all_goals rfl

namespace Subst

/-- One of two types is a variable. -/
def Sides (a b : Ty) (id : Nat) (c : LiteralClass) (t : Ty) : Prop :=
  a = .var id c ∧ b = t ∨ a = t ∧ b = .var id c

/-- Two pruned types that nothing makes equal. -/
inductive Apart : Ty → Ty → Prop
  | forms {a b : Ty} (plainA : a.isVar = false) (plainB : b.isVar = false)
      (differ : a.alike b = false) : Apart a b
  | refused {a b : Ty} {id : Nat} {c : LiteralClass} {t : Ty} (sides : Sides a b id c t)
      (plain : t.isVar = false) (refused : c.admits t = false) : Apart a b
  | classes {id other : Nat} {c d : LiteralClass} (special : c ≠ .general) (other_special : d ≠ .general)
      (differ : c ≠ d) : Apart (.var id c) (.var other d)

/-- Solving pairs one after the other, up to the first clash. -/
inductive Solves : Subst → List (Ty × Ty) → Subst → Option Clash → Prop
  | done (s : Subst) : Solves s [] s none
  | skip {s s' : Subst} {a b : Ty} {rest : List (Ty × Ty)} {clash : Option Clash}
      (faulty : s.prune a = .invalid ∨ s.prune b = .invalid) (next : Solves s rest s' clash) :
      Solves s ((a, b) :: rest) s' clash
  | equal {s s' : Subst} {a b : Ty} {rest : List (Ty × Ty)} {clash : Option Clash} {id : Nat}
      {c d : LiteralClass} (left : s.prune a = .var id c) (right : s.prune b = .var id d)
      (next : Solves s rest s' clash) : Solves s ((a, b) :: rest) s' clash
  | bind {s s' : Subst} {a b : Ty} {rest : List (Ty × Ty)} {clash : Option Clash} {id : Nat}
      {c : LiteralClass} {t : Ty} (sides : Sides (s.prune a) (s.prune b) id c t)
      (allowed : c.allows t = true) (absent : (s.apply t).mentions id = false)
      (next : Solves ((id, t) :: s) rest s' clash) : Solves s ((a, b) :: rest) s' clash
  | opened {s s' : Subst} {a b : Ty} {rest : List (Ty × Ty)} {clash : Option Clash}
      (plainA : (s.prune a).isVar = false) (plainB : (s.prune b).isVar = false)
      (alike : (s.prune a).alike (s.prune b) = true)
      (next : Solves s ((s.prune a).children.zip (s.prune b).children ++ rest) s' clash) :
      Solves s ((a, b) :: rest) s' clash
  | mismatch {s : Subst} {a b : Ty} {rest : List (Ty × Ty)} (apart : Apart (s.prune a) (s.prune b)) :
      Solves s ((a, b) :: rest) s (some .mismatch)
  | infinite {s : Subst} {a b : Ty} {rest : List (Ty × Ty)} {id : Nat} {c : LiteralClass} {t : Ty}
      {defect : Defect} (sides : Sides (s.prune a) (s.prune b) id c t) (plain : t.isVar = false)
      (present : (s.apply t).mentions id = true) :
      Solves s ((a, b) :: rest) s (some (.infinite defect))

theorem Solves.apart {s : Subst} {a b x y : Ty} {rest : List (Ty × Ty)} (left : s.prune a = x)
    (right : s.prune b = y) (plainX : x.isVar = false) (plainY : y.isVar = false)
    (differ : x.alike y = false) : Solves s ((a, b) :: rest) s (some .mismatch) := by
  subst left right
  exact .mismatch (.forms plainX plainY differ)

theorem Solves.opens {s s' : Subst} {a b x y : Ty} {clash : Option Clash} (left : s.prune a = x)
    (right : s.prune b = y) (plainX : x.isVar = false) (plainY : y.isVar = false)
    (alike : x.alike y = true) (next : Solves s (x.children.zip y.children) s' clash) :
    Solves s [(a, b)] s' clash := by
  subst left right
  exact .opened plainX plainY alike (by rwa [List.append_nil])

theorem Solves.append {s s' s'' : Subst} {front back : List (Ty × Ty)} {before clash : Option Clash}
    (first : Solves s front s' before) (solved : before = none) (second : Solves s' back s'' clash) :
    Solves s (front ++ back) s'' clash := by
  induction first with
  | done => exact second
  | skip faulty _ ih => exact .skip faulty (ih solved second)
  | equal left right _ ih => exact .equal left right (ih solved second)
  | bind sides allowed absent _ ih => exact .bind sides allowed absent (ih solved second)
  | opened plainA plainB alike _ ih =>
    rw [List.cons_append]
    refine .opened plainA plainB alike ?_
    rw [← List.append_assoc]
    exact ih solved second
  | mismatch => cases solved
  | infinite => cases solved

theorem Solves.append_clash {s s' : Subst} {front : List (Ty × Ty)} {before : Option Clash}
    {clash : Clash} (first : Solves s front s' before) (clashed : before = some clash)
    (back : List (Ty × Ty)) : Solves s (front ++ back) s' (some clash) := by
  induction first with
  | done => cases clashed
  | skip faulty _ ih => exact .skip faulty (ih clashed)
  | equal left right _ ih => exact .equal left right (ih clashed)
  | bind sides allowed absent _ ih => exact .bind sides allowed absent (ih clashed)
  | opened plainA plainB alike _ ih =>
    rw [List.cons_append]
    refine .opened plainA plainB alike ?_
    rw [← List.append_assoc]
    exact ih clashed
  | mismatch apart => exact clashed ▸ .mismatch apart
  | infinite sides plain present => exact clashed ▸ .infinite sides plain present

/-- Bound types have a property, and so have their variables, which may stand for them. -/
def Carries (P : Ty → Prop) (s : Subst) : Prop :=
  ∀ id t, s.lookup? id = some t → P t ∧ ∃ c, P (.var id c) ∧ c.allows t = true

theorem carries_nil (P : Ty → Prop) : Carries P [] := by
  intro id t bound
  simp [lookup?] at bound

theorem Carries.cons {P : Ty → Prop} {s : Subst} (carries : s.Carries P) {id : Nat}
    {c : LiteralClass} {t : Ty} (own : P (.var id c)) (new : P t) (allowed : c.allows t = true) :
    Carries P ((id, t) :: s) := by
  intro other b bound
  rw [lookup?_cons] at bound
  split at bound
  · rename_i same
    obtain rfl := Option.some.inj bound
    exact ⟨new, c, same ▸ own, allowed⟩
  · exact carries other b bound

theorem Carries.prune {P : Ty → Prop} {s : Subst} (carries : s.Carries P) {t : Ty} (holds : P t) :
    P (s.prune t) :=
  prune_induct (fun id _ b bound _ => (carries id b bound).1) holds

theorem Sides.unbound {s : Subst} {a b : Ty} {id : Nat} {c : LiteralClass} {t : Ty}
    (sides : Sides (s.prune a) (s.prune b) id c t) (acyclic : s.Acyclic) : s.lookup? id = none := by
  rcases sides with ⟨left, -⟩ | ⟨-, right⟩
  · exact acyclic.unbound_of_prune left
  · exact acyclic.unbound_of_prune right

theorem Sides.holds {P : Ty → Prop} {a b : Ty} {id : Nat} {c : LiteralClass} {t : Ty}
    (sides : Sides a b id c t) (holdsA : P a) (holdsB : P b) : P (.var id c) ∧ P t := by
  rcases sides with ⟨rfl, rfl⟩ | ⟨rfl, rfl⟩
  · exact ⟨holdsA, holdsB⟩
  · exact ⟨holdsB, holdsA⟩

theorem unifyVars_solves {s : Subst} (acyclic : s.Acyclic) {a b : Ty} {id other : Nat}
    {c d : LiteralClass} (left : s.prune a = .var id c) (right : s.prune b = .var other d) :
    Solves s [(a, b)] (s.unifyVars id c other d).1 (s.unifyVars id c other d).2 := by
  have absent {x y : Nat} (e : LiteralClass) (free : s.lookup? y = none) (differ : x ≠ y) :
      (s.apply (.var y e)).mentions x = false := by
    have stays : s.apply (.var y e) = .var y e := value_unbound free e
    rw [stays, Bool.eq_false_iff, Ne, Ty.mentions_iff]
    rintro ⟨f, inside⟩
    cases Ty.mem_parts_var.mp inside
    exact differ rfl
  have freeA := acyclic.unbound_of_prune left
  have freeB := acyclic.unbound_of_prune right
  unfold unifyVars
  split
  · rename_i same
    obtain rfl := beq_iff_eq.mp same
    exact .equal left right (.done s)
  · rename_i differ
    have differ : id ≠ other := by simpa using differ
    split
    · rename_i general
      refine .bind (.inl ⟨left, right⟩) ?_ (absent d freeB differ) (.done _)
      simp [LiteralClass.allows, beq_iff_eq.mp general]
    · rename_i special
      split
      · rename_i general
        refine .bind (.inr ⟨left, right⟩) ?_ (absent c freeA differ.symm) (.done _)
        simpa [LiteralClass.allows] using general
      · rename_i special'
        have parted : ¬ d = .general ∧ ¬ c = d := by simpa using special'
        refine .mismatch ?_
        rw [left, right]
        exact .classes (by simpa using special) parted.1 parted.2

theorem bind_solves {s : Subst} {a b : Ty} {id : Nat} {c : LiteralClass} {t : Ty}
    (sides : Sides (s.prune a) (s.prune b) id c t) (plain : t.isVar = false) :
    Solves s [(a, b)] (s.bind id c t).1 (s.bind id c t).2 := by
  unfold Subst.bind
  split
  · rename_i refused
    exact .mismatch (.refused sides plain (by simpa using refused))
  · rename_i admitted
    simp only
    split
    · rename_i present
      exact .infinite sides plain present
    · rename_i absent
      refine .bind sides ?_ (by simpa using absent) (.done _)
      rw [LiteralClass.allows_plain plain]
      simpa using admitted

/-- Unifying pairs in turn solves them, if it solves each one in all states on the way. -/
theorem foldl_solves (step : Subst → Ty → Ty → Subst × Option Clash) {I : Subst → Prop}
    {pairs : List (Ty × Ty)} (each : ∀ s, I s → ∀ pair ∈ pairs,
      Solves s [pair] (step s pair.1 pair.2).1 (step s pair.1 pair.2).2 ∧ I (step s pair.1 pair.2).1)
    {s : Subst} (start : I s) {result : Subst × Option Clash}
    (folded : pairs.foldl (fun (s, clash) (a, b) =>
      match clash with
      | some _ => (s, clash)
      | none => step s a b) (s, none) = result) : Solves s pairs result.1 result.2 := by
  induction pairs generalizing s with
  | nil =>
    obtain rfl := folded
    exact .done s
  | cons pair pairs ih =>
    obtain ⟨solved, next⟩ := each s start pair List.mem_cons_self
    have later := fun s' holds pair' member => each s' holds pair' (List.mem_cons_of_mem _ member)
    rw [List.foldl_cons] at folded
    obtain ⟨a, b⟩ := pair
    cases outcome : step s a b with
    | mk s' clash =>
      simp only [outcome] at solved next folded
      cases clash with
      | none => exact solved.append rfl (ih later next folded)
      | some clash =>
        have stuck (pairs : List (Ty × Ty)) : pairs.foldl (fun (s, clash) (a, b) =>
            match clash with
            | some _ => (s, clash)
            | none => step s a b) (s', some clash) = (s', some clash) := by
          induction pairs with
          | nil => rfl
          | cons pair pairs stuck => exact stuck
        obtain rfl := (stuck pairs).symm.trans folded
        exact solved.append_clash rfl pairs

/-- The fuel is enough for a type: however the bindings grow, what it stands for is not too deep. -/
def Enough (P : Ty → Prop) (s : Subst) (fuel : Nat) (t : Ty) : Prop :=
  ∀ s', s.Grows s' → s'.Acyclic → s'.Carries P → 2 * ((s'.apply t).depth + 1) < fuel

theorem Enough.grows {P : Ty → Prop} {s s' : Subst} {fuel : Nat} {t : Ty}
    (enough : Enough P s fuel t) (grows : s.Grows s') : Enough P s' fuel t :=
  fun s'' further => enough s'' (grows.trans further)

theorem Enough.prune {P : Ty → Prop} {s : Subst} {fuel : Nat} {t : Ty}
    (enough : Enough P s fuel t) : Enough P s fuel (s.prune t) := by
  intro s' grows acyclic carries
  rw [grows.apply_prune acyclic]
  exact enough s' grows acyclic carries

theorem Enough.child {P : Ty → Prop} {s : Subst} {fuel : Nat} {t child : Ty}
    (enough : Enough P s (fuel + 2) t) (member : child ∈ t.children) : Enough P s fuel child := by
  intro s' grows acyclic carries
  have plain : t.isVar = false := by cases t <;> simp [Ty.children, Ty.isVar] at member ⊢
  have below : (s'.apply child).depth < (s'.apply t).depth := by
    refine Ty.depth_child ?_
    rw [apply_eq, apply_eq, Ty.children_fill _ plain]
    exact List.mem_map_of_mem member
  have := enough s' grows acyclic carries
  omega

theorem Enough.succ {P : Ty → Prop} {s : Subst} {fuel : Nat} {t : Ty}
    (enough : Enough P s fuel t) : Enough P s (fuel + 1) t :=
  fun s' grows acyclic carries => Nat.lt_succ_of_lt (enough s' grows acyclic carries)

section

variable {P : Ty → Prop} (closed : ∀ t, P t → ∀ child ∈ t.children, P child)

include closed

theorem zip_holds {a b : Ty} (holdsA : P a) (holdsB : P b) :
    ∀ pair ∈ a.children.zip b.children, P pair.1 ∧ P pair.2 := by
  intro pair member
  obtain ⟨left, right⟩ := List.of_mem_zip (a := pair.1) (b := pair.2) member
  exact ⟨closed a holdsA _ left, closed b holdsB _ right⟩

/-- Solving changes no binding, closes no cycle and binds only types that occur in those given. -/
theorem Solves.keeps {s s' : Subst} {pairs : List (Ty × Ty)} {clash : Option Clash}
    (solves : Solves s pairs s' clash) (acyclic : s.Acyclic) (carries : s.Carries P)
    (given : ∀ pair ∈ pairs, P pair.1 ∧ P pair.2) :
    s'.Acyclic ∧ s.Grows s' ∧ s'.Carries P := by
  induction solves with
  | done s => exact ⟨acyclic, .refl s, carries⟩
  | skip _ _ ih => exact ih acyclic carries (List.forall_mem_cons.mp given).2
  | equal _ _ _ ih => exact ih acyclic carries (List.forall_mem_cons.mp given).2
  | bind sides allowed absent _ ih =>
    have unbound := sides.unbound acyclic
    obtain ⟨⟨holdsA, holdsB⟩, given⟩ := List.forall_mem_cons.mp given
    obtain ⟨own, new⟩ := sides.holds (carries.prune holdsA) (carries.prune holdsB)
    obtain ⟨acyclic', grows, carries'⟩ := ih (acyclic.cons unbound absent)
      (carries.cons own new allowed) given
    exact ⟨acyclic', (grows_cons unbound _).trans grows, carries'⟩
  | opened _ _ _ _ ih =>
    obtain ⟨⟨holdsA, holdsB⟩, given⟩ := List.forall_mem_cons.mp given
    have children := zip_holds closed (carries.prune holdsA) (carries.prune holdsB)
    exact ih acyclic carries (List.forall_mem_append.mpr ⟨children, given⟩)
  | mismatch => exact ⟨acyclic, .refl _, carries⟩
  | infinite => exact ⟨acyclic, .refl _, carries⟩

theorem unifyAll_solves {fuel : Nat}
    (each : ∀ {s a b}, s.Acyclic → s.Carries P → P a → P b → Enough P s fuel a →
      Solves s [(a, b)] (unify fuel s a b).1 (unify fuel s a b).2)
    {s : Subst} (acyclic : s.Acyclic) (carries : s.Carries P) {as bs : List Ty}
    (sized : as.length = bs.length) (given : ∀ pair ∈ as.zip bs, P pair.1 ∧ P pair.2)
    (enough : ∀ a ∈ as, Enough P s fuel a) :
    Solves s (as.zip bs) (unifyAll (fuel + 1) s as bs).1 (unifyAll (fuel + 1) s as bs).2 := by
  refine foldl_solves (unify fuel) (I := fun s' => s.Grows s' ∧ s'.Acyclic ∧ s'.Carries P) ?_
    ⟨.refl s, acyclic, carries⟩ ?_
  · rintro s' ⟨grows, acyclic', carries'⟩ ⟨a, b⟩ member
    obtain ⟨holdsA, holdsB⟩ := given _ member
    have solved := each acyclic' carries' holdsA holdsB
      ((enough a (List.of_mem_zip member).1).grows grows)
    obtain ⟨acyclic'', further, carries''⟩ := solved.keeps closed acyclic' carries'
      fun pair inside => List.mem_singleton.mp inside ▸ given _ member
    exact ⟨solved, grows.trans further, acyclic'', carries''⟩
  · rw [unifyAll]
    exact (if_neg (by simp [sized])).symm

/-- Two types whose children are all compared in one list. -/
theorem children_solves {fuel : Nat}
    (each : ∀ {s a b}, s.Acyclic → s.Carries P → P a → P b → Enough P s fuel a →
      Solves s [(a, b)] (unify fuel s a b).1 (unify fuel s a b).2)
    {s : Subst} (acyclic : s.Acyclic) (carries : s.Carries P) {a b x y : Ty} (left : s.prune a = x)
    (right : s.prune b = y) (holdsX : P x) (holdsY : P y) (enough : Enough P s (fuel + 2) x)
    (plainX : x.isVar = false) (plainY : y.isVar = false)
    (alike : x.alike y = (x.children.length == y.children.length)) :
    Solves s [(a, b)] (unifyAll (fuel + 1) s x.children y.children).1
      (unifyAll (fuel + 1) s x.children y.children).2 := by
  by_cases sized : x.children.length = y.children.length
  · refine .opens left right plainX plainY (by simp [alike, sized]) ?_
    exact unifyAll_solves closed each acyclic carries sized (zip_holds closed holdsX holdsY)
      fun child member => enough.child member
  · have unequal : unifyAll (fuel + 1) s x.children y.children = (s, some .mismatch) := by
      simp [unifyAll, sized]
    rw [unequal]
    exact .apart left right plainX plainY (by simp [alike, sized])

/-- The parameters of functions are compared first, and the results where that has led to. -/
theorem function_solves {fuel : Nat}
    (each : ∀ {s a b}, s.Acyclic → s.Carries P → P a → P b → Enough P s fuel a →
      Solves s [(a, b)] (unify fuel s a b).1 (unify fuel s a b).2)
    {s : Subst} (acyclic : s.Acyclic) (carries : s.Carries P) {a b x y : Ty} {as bs : List Ty}
    (left : s.prune a = .function as x) (right : s.prune b = .function bs y)
    (holdsA : P (.function as x)) (holdsB : P (.function bs y))
    (enough : Enough P s (fuel + 2) (.function as x))
    (last : ∀ {s'}, s.Grows s' → s'.Acyclic → s'.Carries P →
      Solves s' [(x, y)] (unify (fuel + 1) s' x y).1 (unify (fuel + 1) s' x y).2)
    {result : Subst × Option Clash} (unified : (match unifyAll (fuel + 1) s as bs with
      | (s, none) => unify (fuel + 1) s x y
      | (s, some clash) => (s, some clash)) = result) : Solves s [(a, b)] result.1 result.2 := by
  by_cases sized : as.length = bs.length
  · have whole : (Ty.function as x).children.zip (Ty.function bs y).children =
        as.zip bs ++ [(x, y)] := by
      rw [Ty.children, Ty.children, List.zip_append sized]
      rfl
    have given : ∀ pair ∈ as.zip bs, P pair.1 ∧ P pair.2 := fun pair member =>
      zip_holds closed holdsA holdsB pair (whole ▸ List.mem_append_left _ member)
    have params := unifyAll_solves closed each acyclic carries sized given
      fun param member => enough.child (List.mem_append_left _ member)
    refine .opens left right rfl rfl (by simp [Ty.alike, sized]) ?_
    rw [whole]
    cases first : unifyAll (fuel + 1) s as bs with
    | mk s' clash =>
      rw [first] at params unified
      subst unified
      cases clash with
      | some clash => exact params.append_clash rfl _
      | none =>
        obtain ⟨acyclic', grows, carries'⟩ := params.keeps closed acyclic carries given
        exact params.append rfl (last grows acyclic' carries')
  · have unequal : unifyAll (fuel + 1) s as bs = (s, some .mismatch) := by
      simp [unifyAll, sized]
    rw [unequal] at unified
    subst unified
    exact .apart left right rfl rfl (by simp [Ty.alike, sized])

/-- With enough fuel, unifying two types solves the pair. -/
theorem unify_solves {fuel : Nat} {s : Subst} {a b : Ty} (acyclic : s.Acyclic) (carries : s.Carries P)
    (holdsA : P a) (holdsB : P b) (enough : Enough P s fuel a) :
    Solves s [(a, b)] (unify fuel s a b).1 (unify fuel s a b).2 := by
  -- A list of children costs two steps of fuel, a single child one; both leave enough for it.
  induction fuel using Nat.strong_induction_on generalizing s a b with
  | _ fuel ih =>
    obtain ⟨below, rfl⟩ : ∃ below, fuel = below + 3 := by
      have := enough s (.refl s) acyclic carries
      exact ⟨fuel - 3, by omega⟩
    have holdsA := carries.prune holdsA
    have holdsB := carries.prune holdsB
    have enough := enough.prune
    have each {s a b} := @ih (below + 1) (by omega) s a b
    have child {s' : Subst} (grows : s.Grows s') (acyclic' : s'.Acyclic) (carries' : s'.Carries P)
        {x y : Ty} (left : x ∈ (s.prune a).children) (right : y ∈ (s.prune b).children) :
        Solves s' [(x, y)] (unify (below + 2) s' x y).1 (unify (below + 2) s' x y).2 :=
      ih (below + 2) (by omega) acyclic' carries' (closed _ holdsA x left) (closed _ holdsB y right)
        ((enough.child left).succ.grows grows)
    rw [unify]
    split
    case h_1 faulty => exact .skip (.inl faulty) (.done s)
    case h_2 faulty _ => exact .skip (.inr faulty) (.done s)
    case h_3 left right => exact unifyVars_solves acyclic left right
    case h_4 left _ noVar => exact bind_solves (.inl ⟨left, rfl⟩) (Ty.isVar_eq_false noVar)
    case h_5 right _ noVar => exact bind_solves (.inr ⟨rfl, right⟩) (Ty.isVar_eq_false noVar)
    -- No form in common that has children: primitive types, parameters, or two different forms.
    case h_12 _ noVarA _ noVarB _ structs enums tuples arrays refs functions =>
      have plainA := Ty.isVar_eq_false noVarA
      have plainB := Ty.isVar_eq_false noVarB
      obtain ⟨alike, none⟩ := Ty.alike_leaf structs enums tuples arrays refs functions
      by_cases same : (s.prune a).same (s.prune b) = true
      · rw [if_pos same]
        refine .opens rfl rfl plainA plainB (alike.trans same) ?_
        rw [none same]
        exact .done s
      · rw [if_neg same]
        exact .apart rfl rfl plainA plainB (by simp [alike, same])
    all_goals
      rename_i left right
      rw [left, right] at child
      rw [left] at holdsA enough
      rw [right] at holdsB
    case h_6 | h_7 =>
      split
      · rename_i same
        exact children_solves closed each acyclic carries left right holdsA holdsB enough rfl rfl
          (by simp [Ty.alike, Ty.children, beq_iff_eq.mp same])
      · rename_i differ
        exact .apart left right rfl rfl (by simp [Ty.alike, differ])
    case h_8 =>
      exact children_solves closed each acyclic carries left right holdsA holdsB enough rfl rfl rfl
    case h_9 =>
      refine .opens left right rfl rfl rfl ?_
      exact child (.refl s) acyclic carries List.mem_cons_self List.mem_cons_self
    case h_10 =>
      split
      · rename_i same
        refine .opens left right rfl rfl same ?_
        exact child (.refl s) acyclic carries List.mem_cons_self List.mem_cons_self
      · rename_i differ
        exact .apart left right rfl rfl (by simpa [Ty.alike] using differ)
    case h_11 =>
      refine function_solves closed each acyclic carries left right holdsA holdsB enough ?_ rfl
      exact fun grows acyclic' carries' =>
        child grows acyclic' carries' (by simp [Ty.children]) (by simp [Ty.children])

end

end Subst

/-- A clash over an infinite type is described as one. -/
def Clash.Occurs (clash : Option Clash) : Prop :=
  ∀ defect, clash = some (.infinite defect) → ∃ var type, defect = .infiniteType var type

namespace Subst

theorem bind_infinite (s : Subst) (id : Nat) (c : LiteralClass) (t : Ty) : Clash.Occurs (s.bind id c t).2 := by
  intro defect clashed
  simp only [bind] at clashed
  split at clashed
  · cases clashed
  · split at clashed
    · cases clashed
      exact ⟨_, _, rfl⟩
    · cases clashed

theorem unifyVars_infinite (s : Subst) (a : Nat) (ca : LiteralClass) (b : Nat) (cb : LiteralClass) :
    Clash.Occurs (s.unifyVars a ca b cb).2 := by
  intro defect clashed
  unfold unifyVars at clashed
  repeat' split at clashed
  all_goals cases clashed

theorem unifyAll_infinite {fuel : Nat} (each : ∀ s a b, Clash.Occurs (unify fuel s a b).2) (s : Subst)
    (as bs : List Ty) : Clash.Occurs (unifyAll (fuel + 1) s as bs).2 := by
  rw [unifyAll]
  split
  · intro defect clashed
    cases clashed
  · suffices go : ∀ (pairs : List (Ty × Ty)) (start : Subst × Option Clash), Clash.Occurs start.2 →
        Clash.Occurs (pairs.foldl (fun (s, clash) (a, b) =>
          match clash with
          | some _ => (s, clash)
          | none => unify fuel s a b) start).2 from
      go _ (s, none) fun _ clashed => by cases clashed
    intro pairs
    induction pairs with
    | nil => exact fun _ known => known
    | cons pair pairs ih =>
      rintro ⟨s, _ | clash⟩ known
      · exact ih _ (each s pair.1 pair.2)
      · exact ih _ known

theorem unify_infinite (fuel : Nat) (s : Subst) (a b : Ty) : Clash.Occurs (unify fuel s a b).2 := by
  induction fuel using Nat.strong_induction_on generalizing s a b with
  | _ fuel ih =>
    cases fuel with
    | zero =>
      intro _ clashed
      cases clashed
    | succ fuel =>
      have all (s : Subst) (as bs : List Ty) : Clash.Occurs (unifyAll fuel s as bs).2 := by
        cases fuel with
        | zero =>
          intro _ clashed
          cases clashed
        | succ fuel => exact unifyAll_infinite (ih fuel (by omega)) s as bs
      have one := ih fuel (by omega)
      have done (s : Subst) : Clash.Occurs (s, (none : Option Clash)).2 := fun _ clashed => by cases clashed
      have mismatch (s : Subst) : Clash.Occurs (s, some Clash.mismatch).2 := fun _ clashed => by cases clashed
      rw [unify]
      split
      · exact done s
      · exact done s
      · exact unifyVars_infinite _ _ _ _ _
      · exact bind_infinite _ _ _ _
      · exact bind_infinite _ _ _ _
      · split <;> [exact all _ _ _; exact mismatch s]
      · split <;> [exact all _ _ _; exact mismatch s]
      · exact all _ _ _
      · exact one _ _ _
      · split <;> [exact one _ _ _; exact mismatch s]
      next as a bs b _ _ =>
        have params := all s as bs
        split
        · exact one _ _ _
        next clashed =>
          rw [clashed] at params
          exact params
      · intro _ clashed
        split at clashed <;> cases clashed

end Subst

end TreeCheck
