import TreeCheck.Proofs.Ty.Unification

/-!
What is solved is solved in the most general way. Solved pairs stand for equal types unless a faulty
type has stood in for another one, and no way of making the pairs equal is lost, so that none is left
after a clash.
-/

namespace TreeCheck

/-- A variable has been handed out, with a class. -/
def Owned (classes : List LiteralClass) (id : Nat) (c : LiteralClass) : Prop :=
  ∃ i, id = i + 1 ∧ classes[i]? = some c

theorem Owned.unique {classes : List LiteralClass} {id : Nat} {c d : LiteralClass}
    (first : Owned classes id c) (second : Owned classes id d) : c = d := by
  obtain ⟨i, rfl, known⟩ := first
  obtain ⟨j, same, known'⟩ := second
  obtain rfl : i = j := by omega
  exact Option.some.inj (known.symm.trans known')

/-- A type over variables that have been handed out. The empty product is spelled as the unit type. -/
structure Ty.InScope (classes : List LiteralClass) (t : Ty) : Prop where
  owned : ∀ id c, .var id c ∈ t.parts → Owned classes id c
  spelled : .tuple [] ∉ t.parts

namespace Ty.InScope

variable {classes : List LiteralClass} {t : Ty}

theorem child (t : Ty) (inScope : t.InScope classes) : ∀ child ∈ t.children, child.InScope classes :=
  fun _ member =>
    ⟨fun id c inside => inScope.owned id c (mem_parts_child member inside),
      fun inside => inScope.spelled (mem_parts_child member inside)⟩

theorem some (inScope : t.InScope classes) : t ≠ .tuple [] := by
  rintro rfl
  exact inScope.spelled (self_mem_parts _)

end Ty.InScope

/-- Whether a part may stand in a type over variables that have been handed out. -/
def Ty.placed (classes : List LiteralClass) : Ty → Bool
  | .var id c => decide (0 < id) && classes[id - 1]? == some c
  | .tuple [] => false
  | _ => true

theorem Ty.inScope_iff {classes : List LiteralClass} {t : Ty} :
    t.InScope classes ↔ ∀ part ∈ t.parts, part.placed classes = true := by
  have owned_iff (id : Nat) (c : LiteralClass) :
      Owned classes id c ↔ placed classes (.var id c) = true := by
    cases id <;> simp [Owned, placed]
  constructor
  · intro inScope part member
    unfold placed
    split
    · exact (owned_iff _ _).mp (inScope.owned _ _ member)
    · exact absurd member inScope.spelled
    · rfl
  · intro each
    exact ⟨fun id c member => (owned_iff id c).mpr (each _ member), fun member => by
      simpa [placed] using each _ member⟩

instance (classes : List LiteralClass) (t : Ty) : Decidable (t.InScope classes) :=
  decidable_of_iff _ Ty.inScope_iff.symm

/-- Puts types in the place of variables, by their numbers. -/
def Ty.under (σ : Nat → Ty) (t : Ty) : Ty := t.fill fun id _ => σ id

theorem Ty.isVar_fill {σ : Nat → LiteralClass → Ty} {t : Ty} (plain : t.isVar = false) :
    (t.fill σ).isVar = false := by
  cases t <;> simp [isVar] at plain ⊢
  case tuple elements => cases elements <;> simp [product]

/-- Whether a class admits a type is seen from its outermost form. -/
theorem LiteralClass.allows_fill {σ : Nat → LiteralClass → Ty} {c : LiteralClass} {t : Ty}
    (plain : t.isVar = false) : c.allows (t.fill σ) = c.admits t := by
  rw [allows_plain (Ty.isVar_fill plain)]
  cases c <;> cases t <;> simp [Ty.isVar] at plain <;> try rfl
  all_goals
    rename_i elements
    cases elements <;> rfl

/-- Nothing is a number of both kinds. -/
theorem LiteralClass.eq_of_allows {c d : LiteralClass} {t : Ty} (special : c ≠ .general)
    (special' : d ≠ .general) (first : c.allows t = true) (second : d.allows t = true) : c = d := by
  cases c <;> cases d <;> first | rfl | contradiction | skip
  all_goals cases t <;> simp [allows, admits, Ty.isInteger, Ty.isFloat] at first second
  all_goals exact first.symm.trans second

namespace Subst

/-- No faulty type is in what a type stands for. -/
def Clean (s : Subst) (t : Ty) : Prop := .invalid ∉ (s.apply t).parts

theorem clean_iff {s : Subst} {t : Ty} :
    s.Clean t ↔ ∀ part ∈ (s.apply t).parts, part.isInvalid = false := by
  constructor
  · intro clean part member
    cases part <;> first | rfl | exact absurd member clean
  · intro each fault
    exact Bool.noConfusion (each _ fault)

instance (s : Subst) (t : Ty) : Decidable (s.Clean t) := decidable_of_iff _ clean_iff.symm

theorem Clean.prune {s : Subst} (acyclic : s.Acyclic) {t : Ty} (clean : s.Clean t) :
    s.Clean (s.prune t) := by
  rw [Clean, (Grows.refl s).apply_prune acyclic]
  exact clean

theorem Clean.child {s : Subst} {t : Ty} (clean : s.Clean t) : ∀ child ∈ t.children, s.Clean child := by
  intro child member inside
  have plain : t.isVar = false := by cases t <;> simp [Ty.children, Ty.isVar] at member ⊢
  refine clean (Ty.mem_parts_child ?_ inside)
  rw [apply_eq, Ty.children_fill _ plain]
  exact List.mem_map_of_mem member

theorem Clean.ne_invalid {s : Subst} {t : Ty} (clean : s.Clean t) : t ≠ .invalid := by
  rintro rfl
  exact clean (Ty.self_mem_parts _)

/-- A new binding to a type without faults brings none in. -/
theorem Clean.cons {s : Subst} (acyclic : s.Acyclic) {id : Nat} {t u : Ty}
    (unbound : s.lookup? id = none) (absent : (s.apply u).mentions id = false) (new : s.Clean u)
    (clean : s.Clean t) : Clean ((id, u) :: s) t := by
  have acyclic' := acyclic.cons unbound absent
  have grows := grows_cons unbound u
  -- What a clean type stands for grows only by what the new variable stands for.
  have later {x : Ty} (clean : s.Clean x)
      (values : ∀ other c, .var other c ∈ (s.apply x).parts →
        .invalid ∉ (value ((id, u) :: s) other c).parts) : Clean ((id, u) :: s) x := by
    intro inside
    rw [← grows.apply_apply acyclic', apply_eq, Ty.mem_parts_fill (.inr rfl)] at inside
    rcases inside with ⟨-, old⟩ | ⟨other, c, member, fault⟩
    · exact clean old
    · exact values other c member fault
  have unchanged {other : Nat} (c : LiteralClass) (free : s.lookup? other = none) (differ : id ≠ other) :
      .invalid ∉ (value ((id, u) :: s) other c).parts := by
    rw [value_unbound (by simp [differ, free]), Ty.mem_parts_var]
    nofun
  refine later clean fun other c member => ?_
  by_cases same : id = other
  · subst same
    rw [acyclic'.value_bound (by simp : _ = some u)]
    refine later new fun other d inside => ?_
    refine unchanged d (acyclic.unbound_of_apply inside) ?_
    rintro rfl
    simp [Ty.mentions_iff.mpr ⟨d, inside⟩] at absent
  · exact unchanged c (acyclic.unbound_of_apply member) same

/-- Solved pairs stand for equal types, if no faulty type is in what they stand for. -/
theorem Solves.sound {classes : List LiteralClass} {s s' : Subst} {pairs : List (Ty × Ty)}
    {clash : Option Clash} (solves : Solves s pairs s' clash) (solved : clash = none)
    (acyclic : s.Acyclic) (carries : s.Carries (Ty.InScope classes))
    (given : ∀ pair ∈ pairs, pair.1.InScope classes ∧ pair.2.InScope classes)
    (clean : ∀ pair ∈ pairs, s.Clean pair.1 ∧ s.Clean pair.2) :
    ∀ pair ∈ pairs, s'.apply pair.1 = s'.apply pair.2 := by
  -- It is enough to look at the first pair as far as the bindings at its time show it.
  have split {s s' : Subst} {a b : Ty} {rest : List (Ty × Ty)} (grows : s.Grows s')
      (acyclic' : s'.Acyclic) (first : s'.apply (s.prune a) = s'.apply (s.prune b))
      (later : ∀ pair ∈ rest, s'.apply pair.1 = s'.apply pair.2) :
      ∀ pair ∈ (a, b) :: rest, s'.apply pair.1 = s'.apply pair.2 := by
    rw [grows.apply_prune acyclic', grows.apply_prune acyclic'] at first
    exact List.forall_mem_cons.mpr ⟨first, later⟩
  induction solves with
  | done s => exact fun pair member => absurd member List.not_mem_nil
  | @skip s s' a b rest clash faulty next ih =>
    obtain ⟨cleanA, cleanB⟩ := clean _ List.mem_cons_self
    rcases faulty with faulty | faulty
    · exact absurd faulty (cleanA.prune acyclic).ne_invalid
    · exact absurd faulty (cleanB.prune acyclic).ne_invalid
  | @equal s s' a b rest clash id c d left right next ih =>
    obtain ⟨⟨inScopeA, inScopeB⟩, given⟩ := List.forall_mem_cons.mp given
    obtain ⟨acyclic', grows, -⟩ := next.keeps Ty.InScope.child acyclic carries given
    refine split grows acyclic' ?_ (ih solved acyclic carries given (List.forall_mem_cons.mp clean).2)
    have first := (left ▸ carries.prune inScopeA).owned id c (Ty.self_mem_parts _)
    have second := (right ▸ carries.prune inScopeB).owned id d (Ty.self_mem_parts _)
    rw [left, right, first.unique second]
  | @bind s s' a b rest clash id c t sides allowed absent next ih =>
    obtain ⟨⟨inScopeA, inScopeB⟩, given⟩ := List.forall_mem_cons.mp given
    obtain ⟨⟨cleanA, cleanB⟩, clean⟩ := List.forall_mem_cons.mp clean
    have unbound := sides.unbound acyclic
    obtain ⟨own, new⟩ := sides.holds (carries.prune inScopeA) (carries.prune inScopeB)
    have cleanT := (sides.holds (cleanA.prune acyclic) (cleanB.prune acyclic)).2
    have carries := carries.cons own new allowed
    have later := acyclic.cons unbound absent
    obtain ⟨acyclic', grows, -⟩ := next.keeps Ty.InScope.child later carries given
    refine split ((grows_cons unbound t).trans grows) acyclic' ?_ (ih solved later carries given
      fun pair member => (clean pair member).imp (.cons acyclic unbound absent cleanT)
        (.cons acyclic unbound absent cleanT))
    have bound : s'.apply (.var id c) = s'.apply t :=
      acyclic'.value_bound (grows id t (by simp)) c
    rcases sides with ⟨left, right⟩ | ⟨left, right⟩
    · rw [left, right, bound]
    · rw [left, right, bound]
  | @opened s s' a b rest clash plainA plainB alike next ih =>
    obtain ⟨⟨inScopeA, inScopeB⟩, given⟩ := List.forall_mem_cons.mp given
    obtain ⟨⟨cleanA, cleanB⟩, clean⟩ := List.forall_mem_cons.mp clean
    have inScopeA := carries.prune inScopeA
    have inScopeB := carries.prune inScopeB
    have every := List.forall_mem_append.mpr ⟨zip_holds Ty.InScope.child inScopeA inScopeB, given⟩
    have tidy := List.forall_mem_append.mpr
      ⟨zip_holds (fun _ tidy => tidy.child) (cleanA.prune acyclic) (cleanB.prune acyclic), clean⟩
    obtain ⟨acyclic', grows, -⟩ := next.keeps Ty.InScope.child acyclic carries every
    obtain ⟨children, rest⟩ := List.forall_mem_append.mp (ih solved acyclic carries every tidy)
    exact split grows acyclic'
      ((Ty.fill_eq_iff plainA plainB inScopeA.some inScopeB.some).mpr ⟨alike, children⟩) rest
  | mismatch => cases solved
  | infinite => cases solved

/-- A choice of types for all variables that agrees with the bindings and with the classes. -/
structure Respects (classes : List LiteralClass) (s : Subst) (σ : Nat → Ty) : Prop where
  extended : ∀ id t, s.lookup? id = some t → σ id = t.under σ
  classed : ∀ id c, Owned classes id c → c.allows (σ id) = true

section

variable {classes : List LiteralClass} {σ : Nat → Ty}

theorem Respects.under_prune {s : Subst} (respects : s.Respects classes σ) (t : Ty) :
    (s.prune t).under σ = t.under σ :=
  Extended.fill_prune (fun id b bound _ => respects.extended id b bound) t

theorem Respects.under_apply {s : Subst} (respects : s.Respects classes σ) (t : Ty) :
    (s.apply t).under σ = t.under σ :=
  Extended.fill_apply (fun id b bound _ => respects.extended id b bound) t

theorem Sides.eq_under {a b : Ty} {id : Nat} {c : LiteralClass} {t : Ty} (sides : Sides a b id c t)
    (equal : a.under σ = b.under σ) : σ id = t.under σ := by
  rcases sides with ⟨rfl, rfl⟩ | ⟨rfl, rfl⟩
  · exact equal
  · exact equal.symm

theorem Apart.under_ne {a b : Ty} (apart : Apart a b) (inScopeA : a.InScope classes)
    (inScopeB : b.InScope classes) (classed : ∀ id c, Owned classes id c → c.allows (σ id) = true) :
    a.under σ ≠ b.under σ := by
  intro equal
  cases apart with
  | forms plainA plainB differ =>
    have alike := ((Ty.fill_eq_iff plainA plainB inScopeA.some inScopeB.some).mp equal).1
    simp [differ] at alike
  | @refused _ _ id c t sides plain refused =>
    have owned := (sides.holds inScopeA inScopeB).1.owned id c (Ty.self_mem_parts _)
    have allowed := classed id c owned
    rw [sides.eq_under equal, Ty.under, LiteralClass.allows_fill plain, refused] at allowed
    cases allowed
  | @classes id other c d special special' differ =>
    have first := classed id c (inScopeA.owned id c (Ty.self_mem_parts _))
    have second := classed other d (inScopeB.owned other d (Ty.self_mem_parts _))
    have same : σ id = σ other := equal
    exact differ (LiteralClass.eq_of_allows special special' (same ▸ first) second)

/-- A type that properly contains a variable is never equal to it. -/
theorem under_ne_of_mentions {s : Subst} (respects : s.Respects classes σ) {id : Nat} {t : Ty}
    (plain : t.isVar = false) (present : (s.apply t).mentions id = true) : σ id ≠ t.under σ := by
  intro equal
  obtain ⟨c, inside⟩ := Ty.mentions_iff.mp present
  have deeper : (σ id).depth < ((s.apply t).fill fun id _ => σ id).depth :=
    (@Ty.depth_fill_of_mem (fun id _ => σ id) _ _ _ inside).2 (Ty.isVar_fill plain)
  have same : (s.apply t).fill (fun id _ => σ id) = σ id :=
    (respects.under_apply t).trans equal.symm
  rw [same] at deeper
  exact Nat.lt_irrefl _ deeper

/-- Solving loses no choice of types that makes all pairs equal. -/
theorem Solves.complete {s s' : Subst} {pairs : List (Ty × Ty)} {clash : Option Clash}
    (solves : Solves s pairs s' clash) (carries : s.Carries (Ty.InScope classes))
    (given : ∀ pair ∈ pairs, pair.1.InScope classes ∧ pair.2.InScope classes)
    (respects : s.Respects classes σ) (equal : ∀ pair ∈ pairs, pair.1.under σ = pair.2.under σ) :
    clash = none ∧ s'.Respects classes σ := by
  induction solves with
  | done s => exact ⟨rfl, respects⟩
  | skip _ _ ih =>
    exact ih carries (List.forall_mem_cons.mp given).2 respects (List.forall_mem_cons.mp equal).2
  | equal _ _ _ ih =>
    exact ih carries (List.forall_mem_cons.mp given).2 respects (List.forall_mem_cons.mp equal).2
  | @bind s s' a b rest clash id c t sides allowed absent next ih =>
    obtain ⟨⟨inScopeA, inScopeB⟩, given⟩ := List.forall_mem_cons.mp given
    obtain ⟨first, equal⟩ := List.forall_mem_cons.mp equal
    obtain ⟨own, new⟩ := sides.holds (carries.prune inScopeA) (carries.prune inScopeB)
    rw [← respects.under_prune a, ← respects.under_prune b] at first
    refine ih (carries.cons own new allowed) given ⟨?_, respects.classed⟩ equal
    intro other u bound
    rw [lookup?_cons] at bound
    split at bound
    · rename_i same
      obtain rfl := Option.some.inj bound
      exact same ▸ sides.eq_under first
    · exact respects.extended other u bound
  | @opened s s' a b rest clash plainA plainB alike next ih =>
    obtain ⟨⟨inScopeA, inScopeB⟩, given⟩ := List.forall_mem_cons.mp given
    obtain ⟨first, equal⟩ := List.forall_mem_cons.mp equal
    have inScopeA := carries.prune inScopeA
    have inScopeB := carries.prune inScopeB
    rw [← respects.under_prune a, ← respects.under_prune b] at first
    have children := ((Ty.fill_eq_iff plainA plainB inScopeA.some inScopeB.some).mp first).2
    have every := zip_holds Ty.InScope.child inScopeA inScopeB
    exact ih carries (List.forall_mem_append.mpr ⟨every, given⟩) respects
      (List.forall_mem_append.mpr ⟨children, equal⟩)
  | @mismatch s a b rest apart =>
    obtain ⟨inScopeA, inScopeB⟩ := given _ List.mem_cons_self
    have first := equal _ List.mem_cons_self
    rw [← respects.under_prune a, ← respects.under_prune b] at first
    exact absurd first (apart.under_ne (carries.prune inScopeA) (carries.prune inScopeB) respects.classed)
  | @infinite s a b rest id c t defect sides plain present =>
    have first := equal _ List.mem_cons_self
    rw [← respects.under_prune a, ← respects.under_prune b] at first
    exact absurd (sides.eq_under first) (under_ne_of_mentions respects plain present)

end

end Subst

end TreeCheck
