import Mathlib.Order.Interval.Finset.Nat
import Mathlib.Logic.Relation
import TreeCheck.Proofs.Ty.Fill
import TreeCheck.Ty.Engine

/-!
Bindings without cycles. Following them ends, so that the bounds on how far they are followed are never
met: replacing bound variables and looking for the outermost form obey their recursive equations.
-/

namespace TreeCheck.Subst

section
-- The equations of these definitions are made here once, so that no proof below waits while another makes them.
attribute [local simp] apply applyWithin lookup? prune pruneWithin Ty.replace
end

open Relation

@[simp] theorem lookup?_cons (s : Subst) (id : Nat) (t : Ty) (other : Nat) :
    lookup? ((id, t) :: s) other = if id = other then some t else s.lookup? other := by
  by_cases same : id = other <;> simp [lookup?, same]

/-- A variable occurs in the type that another one is bound to. -/
def Leads (s : Subst) (id other : Nat) : Prop :=
  ∃ t c, s.lookup? id = some t ∧ .var other c ∈ t.parts

/-- No variable is led back to. -/
def Acyclic (s : Subst) : Prop := ∀ id, ¬ TransGen s.Leads id id

theorem acyclic_nil : Acyclic [] := by
  intro id cycle
  obtain ⟨other, ⟨t, c, bound, -⟩, -⟩ := TransGen.head'_iff.mp cycle
  simp [lookup?] at bound

open Classical in
/-- How many bound variables are led to; a bound variable counts itself. -/
noncomputable def rank (s : Subst) (id : Nat) : Nat :=
  ((s.map Prod.fst).toFinset.filter fun other => ReflTransGen s.Leads id other).card

theorem rank_le_length (s : Subst) (id : Nat) : s.rank id ≤ s.length := by
  classical
  calc s.rank id ≤ (s.map Prod.fst).toFinset.card := Finset.card_filter_le _ _
    _ ≤ (s.map Prod.fst).length := List.toFinset_card_le _
    _ = s.length := List.length_map _

theorem mem_domain_iff {s : Subst} {id : Nat} :
    id ∈ (s.map Prod.fst).toFinset ↔ ∃ t, s.lookup? id = some t := by
  induction s with
  | nil => simp [lookup?]
  | cons entry s ih =>
    rw [lookup?_cons, List.map_cons, List.toFinset_cons, Finset.mem_insert, ih]
    split <;> simp_all [eq_comm]

theorem rank_le {s : Subst} {count : Nat}
    (within : ∀ id t, s.lookup? id = some t → 0 < id ∧ id ≤ count) (id : Nat) :
    s.rank id ≤ count := by
  classical
  have inside : (s.map Prod.fst).toFinset ⊆ Finset.Icc 1 count := by
    intro other member
    obtain ⟨t, bound⟩ := mem_domain_iff.mp member
    exact Finset.mem_Icc.mpr (within other t bound)
  calc s.rank id ≤ (s.map Prod.fst).toFinset.card := Finset.card_filter_le _ _
    _ ≤ (Finset.Icc 1 count).card := Finset.card_le_card inside
    _ = count := by simp

theorem rank_pos {s : Subst} {id : Nat} {t : Ty} (bound : s.lookup? id = some t) : 0 < s.rank id := by
  classical
  exact Finset.card_pos.mpr ⟨id, Finset.mem_filter.mpr ⟨mem_domain_iff.mpr ⟨_, bound⟩, .refl⟩⟩

theorem Acyclic.rank_lt {s : Subst} (acyclic : s.Acyclic) {id other : Nat}
    (leads : s.Leads id other) : s.rank other < s.rank id := by
  classical
  have ⟨t, c, bound, _⟩ := leads
  refine Finset.card_lt_card (Finset.ssubset_iff_of_subset ?_ |>.mpr ⟨id, ?_, ?_⟩)
  · intro last member
    obtain ⟨present, path⟩ := Finset.mem_filter.mp member
    exact Finset.mem_filter.mpr ⟨present, .head leads path⟩
  · exact Finset.mem_filter.mpr ⟨mem_domain_iff.mpr ⟨_, bound⟩, .refl⟩
  · intro member
    exact acyclic id (TransGen.head' leads (Finset.mem_filter.mp member).2)

/-- What holds of a variable when it holds of those that it leads to holds of all variables. -/
theorem Acyclic.leads_induction {s : Subst} (acyclic : s.Acyclic) {P : Nat → Prop}
    (step : ∀ id, (∀ other, s.Leads id other → P other) → P id) (id : Nat) : P id := by
  induction rank : s.rank id using Nat.strong_induction_on generalizing id with
  | _ count ih =>
    refine step id fun other leads => ih (s.rank other) ?_ other rfl
    exact rank ▸ acyclic.rank_lt leads

/-- What a variable stands for. -/
def value (s : Subst) (id : Nat) (c : LiteralClass) : Ty := s.apply (.var id c)

theorem apply_eq (s : Subst) (t : Ty) : s.apply t = t.fill s.value := rfl

/-- A type that is declared without variables is resolved where its arguments are. -/
theorem apply_instantiate (s : Subst) {t : Ty} (shut : t.hasVars = false) (params : List String)
    (args : List Ty) : s.apply (t.instantiate params args) = t.instantiate params (args.map s.apply) :=
  Ty.fill_instantiate shut s.value params args

theorem value_unbound {s : Subst} {id : Nat} (unbound : s.lookup? id = none) (c : LiteralClass) :
    s.value id c = .var id c := by
  simp [value, apply, applyWithin, Ty.replace, unbound]

/-- No more bindings are followed in a row than variables are led to. -/
theorem Acyclic.applyWithin_succ {s : Subst} (acyclic : s.Acyclic) {count : Nat} {t : Ty}
    (within : ∀ id c, .var id c ∈ t.parts → s.rank id ≤ count) :
    s.applyWithin (count + 2) t = s.applyWithin (count + 1) t := by
  induction count generalizing t with
  | zero =>
    refine Ty.fill_congr fun id c inside => ?_
    cases bound : s.lookup? id with
    | none => rfl
    | some b =>
      have := within id c inside
      have := rank_pos bound
      omega
  | succ count ih =>
    refine Ty.fill_congr fun id c inside => ?_
    cases bound : s.lookup? id with
    | none => rfl
    | some b =>
      refine ih fun other d member => ?_
      have := within id c inside
      have := acyclic.rank_lt ⟨b, d, bound, member⟩
      omega

theorem Acyclic.applyWithin_eq {s : Subst} (acyclic : s.Acyclic) {count : Nat}
    (enough : s.length < count) (t : Ty) : s.applyWithin count t = s.apply t := by
  induction enough with
  | refl => rfl
  | @step count enough ih =>
    have enough : s.length < count := enough
    obtain ⟨below, rfl⟩ : ∃ below, count = below + 1 := ⟨count - 1, by omega⟩
    rw [acyclic.applyWithin_succ fun id _ _ => ?_, ih]
    have := s.rank_le_length id
    omega

/-- A bound variable stands for what its type does. -/
theorem Acyclic.value_bound {s : Subst} (acyclic : s.Acyclic) {id : Nat} {b : Ty}
    (bound : s.lookup? id = some b) (c : LiteralClass) : s.value id c = s.apply b := by
  rw [value, ← acyclic.applyWithin_eq (show s.length < s.length + 2 by omega)]
  simp [applyWithin, Ty.replace, bound, apply]

theorem Acyclic.pruneWithin_succ {s : Subst} (acyclic : s.Acyclic) {count : Nat} {t : Ty}
    (within : ∀ id c, t = .var id c → s.rank id ≤ count) :
    s.pruneWithin (count + 2) t = s.pruneWithin (count + 1) t := by
  induction count generalizing t with
  | zero =>
    cases t <;> simp only [pruneWithin]
    rename_i id c
    cases bound : s.lookup? id with
    | none => rfl
    | some b =>
      have := within id c rfl
      have := rank_pos bound
      omega
  | succ count ih =>
    cases t <;> simp only [pruneWithin]
    rename_i id c
    cases bound : s.lookup? id with
    | none => rfl
    | some b =>
      refine ih fun other d same => ?_
      subst same
      have := within id c rfl
      have := acyclic.rank_lt ⟨_, d, bound, Ty.self_mem_parts _⟩
      omega

theorem Acyclic.pruneWithin_eq {s : Subst} (acyclic : s.Acyclic) {count : Nat}
    (enough : s.length < count) (t : Ty) : s.pruneWithin count t = s.prune t := by
  induction enough with
  | refl => rfl
  | @step count enough ih =>
    have enough : s.length < count := enough
    obtain ⟨below, rfl⟩ : ∃ below, count = below + 1 := ⟨count - 1, by omega⟩
    rw [acyclic.pruneWithin_succ fun id _ _ => ?_, ih]
    have := s.rank_le_length id
    omega

/-- What follows from a type along bindings holds of what it is pruned to. -/
theorem prune_induct {s : Subst} {P : Ty → Prop}
    (step : ∀ id c b, s.lookup? id = some b → P (.var id c) → P b) {t : Ty} (start : P t) :
    P (s.prune t) := by
  have within (count : Nat) : ∀ t, P t → P (s.pruneWithin count t) := by
    induction count with
    | zero => exact fun t start => start
    | succ count ih =>
      intro t start
      cases t <;> simp only [pruneWithin] <;> try exact start
      rename_i id c
      cases bound : s.lookup? id with
      | none => exact start
      | some b => exact ih b (step id c b bound start)
  exact within _ t start

theorem Acyclic.prune_bound {s : Subst} (acyclic : s.Acyclic) {id : Nat} {b : Ty}
    (bound : s.lookup? id = some b) (c : LiteralClass) : s.prune (.var id c) = s.prune b := by
  rw [← acyclic.pruneWithin_eq (show s.length < s.length + 2 by omega)]
  simp [pruneWithin, bound, prune]

theorem prune_unbound {s : Subst} {id : Nat} (unbound : s.lookup? id = none) (c : LiteralClass) :
    s.prune (.var id c) = .var id c := by
  simp [prune, pruneWithin, unbound]

theorem Acyclic.unbound_of_prune {s : Subst} (acyclic : s.Acyclic) {t : Ty} {id : Nat}
    {c : LiteralClass} (pruned : s.prune t = .var id c) : s.lookup? id = none := by
  have each (other : Nat) : ∀ d, s.prune (.var other d) = .var id c → s.lookup? id = none := by
    induction other using acyclic.leads_induction with
    | step other ih =>
      intro d pruned
      cases bound : s.lookup? other with
      | none =>
        rw [prune_unbound bound] at pruned
        cases pruned
        exact bound
      | some b =>
        rw [acyclic.prune_bound bound] at pruned
        cases b
        case var next e => exact ih next ⟨_, e, bound, Ty.self_mem_parts _⟩ e pruned
        all_goals cases pruned
  cases t
  case var other d => exact each other d pruned
  all_goals cases pruned

/-- What is put in the place of a bound variable is what is put in its type. -/
def Extended (s : Subst) (σ : Nat → LiteralClass → Ty) : Prop :=
  ∀ id b, s.lookup? id = some b → ∀ c, σ id c = b.fill σ

theorem Extended.fill_apply {s : Subst} {σ : Nat → LiteralClass → Ty} (extended : s.Extended σ)
    (t : Ty) : (s.apply t).fill σ = t.fill σ := by
  have within (count : Nat) : ∀ t, (s.applyWithin count t).fill σ = t.fill σ := by
    induction count with
    | zero => exact fun t => rfl
    | succ count ih =>
      intro t
      refine (Ty.fill_fill t).trans (Ty.fill_congr fun id c _ => ?_)
      cases bound : s.lookup? id with
      | none => rfl
      | some b => rw [extended id b bound c, ← ih b]
  exact within _ t

theorem Extended.fill_prune {s : Subst} {σ : Nat → LiteralClass → Ty} (extended : s.Extended σ)
    (t : Ty) : (s.prune t).fill σ = t.fill σ := by
  refine prune_induct (P := fun x => x.fill σ = t.fill σ) ?_ rfl
  intro id c b bound same
  rw [← same, Ty.fill_var, extended id b bound c]

def Grows (s s' : Subst) : Prop := ∀ id t, s.lookup? id = some t → s'.lookup? id = some t

theorem Grows.refl (s : Subst) : s.Grows s := fun _ _ bound => bound

theorem Grows.trans {a b c : Subst} (first : a.Grows b) (second : b.Grows c) : a.Grows c :=
  fun id t bound => second id t (first id t bound)

theorem grows_cons {s : Subst} {id : Nat} (unbound : s.lookup? id = none) (t : Ty) :
    s.Grows ((id, t) :: s) := by
  intro other b bound
  rw [lookup?_cons, if_neg, bound]
  rintro rfl
  simp [unbound] at bound

theorem Grows.extended {s s' : Subst} (grows : s.Grows s') (acyclic : s'.Acyclic) :
    s.Extended s'.value :=
  fun id b bound c => acyclic.value_bound (grows id b bound) c

theorem Grows.apply_apply {s s' : Subst} (grows : s.Grows s') (acyclic : s'.Acyclic) (t : Ty) :
    s'.apply (s.apply t) = s'.apply t :=
  (grows.extended acyclic).fill_apply t

theorem Grows.apply_prune {s s' : Subst} (grows : s.Grows s') (acyclic : s'.Acyclic) (t : Ty) :
    s'.apply (s.prune t) = s'.apply t :=
  (grows.extended acyclic).fill_prune t

/-- Nothing is left to replace once bound variables have been replaced. -/
theorem Acyclic.unbound_of_apply {s : Subst} (acyclic : s.Acyclic) {t : Ty} {id : Nat}
    {c : LiteralClass} (inside : .var id c ∈ (s.apply t).parts) : s.lookup? id = none := by
  have each (other : Nat) : ∀ d, .var id c ∈ (s.value other d).parts → s.lookup? id = none := by
    induction other using acyclic.leads_induction with
    | step other ih =>
      intro d inside
      cases bound : s.lookup? other with
      | none =>
        rw [value_unbound bound, Ty.mem_parts_var] at inside
        cases inside
        exact bound
      | some b =>
        rw [acyclic.value_bound bound, apply_eq, Ty.mem_parts_fill (.inl rfl)] at inside
        obtain ⟨impossible, -⟩ | ⟨next, e, member, deeper⟩ := inside
        · cases impossible
        · exact ih next ⟨b, e, bound, member⟩ e deeper
  rw [apply_eq, Ty.mem_parts_fill (.inl rfl)] at inside
  obtain ⟨impossible, -⟩ | ⟨other, d, -, deeper⟩ := inside
  · cases impossible
  · exact each other d deeper

/-- An unbound variable that is led to stays in what the first one stands for. -/
theorem Acyclic.mem_value {s : Subst} (acyclic : s.Acyclic) {id other : Nat}
    (path : ReflTransGen s.Leads other id) (unbound : s.lookup? id = none) (d : LiteralClass) :
    (s.value other d).mentions id = true := by
  induction path using ReflTransGen.head_induction_on generalizing d with
  | refl =>
    rw [value_unbound unbound]
    exact Ty.mentions_iff.mpr ⟨d, Ty.self_mem_parts _⟩
  | @head other next leads _ ih =>
    obtain ⟨b, e, bound, member⟩ := leads
    obtain ⟨c, inside⟩ := Ty.mentions_iff.mp (ih e)
    rw [acyclic.value_bound bound, apply_eq, Ty.mentions_iff]
    exact ⟨c, (Ty.mem_parts_fill (.inl rfl)).mpr (.inr ⟨next, e, member, inside⟩)⟩

theorem leads_cons {s : Subst} {id : Nat} {t : Ty} {a b : Nat} (leads : Leads ((id, t) :: s) a b) :
    a = id ∧ (∃ d, .var b d ∈ t.parts) ∨ s.Leads a b := by
  obtain ⟨bound, d, known, member⟩ := leads
  rw [lookup?_cons] at known
  split at known
  · rename_i same
    obtain rfl := Option.some.inj known
    exact .inl ⟨same.symm, d, member⟩
  · exact .inr ⟨bound, d, known, member⟩

theorem path_cons_back {s : Subst} {id : Nat} {t : Ty} {a : Nat}
    (path : ReflTransGen (Leads ((id, t) :: s)) a id) : ReflTransGen s.Leads a id := by
  induction path using ReflTransGen.head_induction_on with
  | refl => exact .refl
  | head leads _ ih =>
    rcases leads_cons leads with ⟨rfl, -⟩ | old
    · exact .refl
    · exact .head old ih

/-- A path that is new passes through the new binding. -/
theorem path_cons_split {s : Subst} {id : Nat} {t : Ty} {a b : Nat}
    (path : TransGen (Leads ((id, t) :: s)) a b) : TransGen s.Leads a b ∨
      ReflTransGen (Leads ((id, t) :: s)) a id ∧
        ∃ w d, .var w d ∈ t.parts ∧ ReflTransGen (Leads ((id, t) :: s)) w b := by
  induction path with
  | single leads =>
    rcases leads_cons leads with ⟨rfl, d, member⟩ | old
    · exact .inr ⟨.refl, _, d, member, .refl⟩
    · exact .inl (.single old)
  | tail path leads ih =>
    rcases leads_cons leads with ⟨rfl, d, member⟩ | old
    · exact .inr ⟨path.to_reflTransGen, _, d, member, .refl⟩
    · rcases ih with before | ⟨first, w, d, member, rest⟩
      · exact .inl (before.tail old)
      · exact .inr ⟨first, w, d, member, rest.tail leads⟩

/-- A new binding closes no cycle if its variable does not occur in what its type stands for. -/
theorem Acyclic.cons {s : Subst} (acyclic : s.Acyclic) {id : Nat} {t : Ty}
    (unbound : s.lookup? id = none) (absent : (s.apply t).mentions id = false) :
    Acyclic ((id, t) :: s) := by
  intro v cycle
  rcases path_cons_split cycle with old | ⟨first, w, d, member, rest⟩
  · exact acyclic v old
  · have path := path_cons_back (rest.trans first)
    obtain ⟨c, inside⟩ := Ty.mentions_iff.mp (acyclic.mem_value path unbound d)
    have present : (s.apply t).mentions id = true :=
      Ty.mentions_iff.mpr ⟨c, (Ty.mem_parts_fill (.inl rfl)).mpr (.inr ⟨w, d, member, inside⟩)⟩
    simp [absent] at present

/-- Bound types are nested at most once for each variable on the way. -/
theorem Acyclic.depth_apply_le {s : Subst} (acyclic : s.Acyclic) {deepest count : Nat}
    (shallow : ∀ id b, s.lookup? id = some b → b.depth ≤ deepest) (few : ∀ id, s.rank id ≤ count)
    (t : Ty) : (s.apply t).depth ≤ t.depth + deepest * count := by
  have each (id : Nat) : ∀ c, (s.value id c).depth ≤ deepest * s.rank id := by
    induction id using acyclic.leads_induction with
    | step id ih =>
      intro c
      cases bound : s.lookup? id with
      | none => simp [value_unbound bound, Ty.depth]
      | some b =>
        have below : (b.fill s.value).depth ≤ b.depth + deepest * (s.rank id - 1) := by
          refine Ty.depth_fill_le fun other d member => ?_
          have leads : s.Leads id other := ⟨b, d, bound, member⟩
          have := acyclic.rank_lt leads
          exact (ih other leads d).trans (Nat.mul_le_mul_left _ (by omega))
        have positive := rank_pos bound
        calc (s.value id c).depth = (b.fill s.value).depth := by
              rw [acyclic.value_bound bound, apply_eq]
          _ ≤ deepest + deepest * (s.rank id - 1) := by
              have := shallow id b bound
              omega
          _ = deepest * s.rank id := by
              obtain ⟨below, same⟩ : ∃ below, s.rank id = below + 1 :=
                ⟨s.rank id - 1, by omega⟩
              rw [same, Nat.add_sub_cancel, Nat.mul_succ, Nat.add_comm]
  exact Ty.depth_fill_le fun id c _ => (each id c).trans (Nat.mul_le_mul_left _ (few id))

end TreeCheck.Subst
