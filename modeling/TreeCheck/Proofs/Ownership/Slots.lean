import TreeCheck.Proofs.Ownership.Runs

/-!
Variables by their order of declaration. A run with joins and a path number their variables differently,
since a path does not see the arms it does not take; but the variables in scope are the same, in the
same order. A slot is the place of a variable in that order, the outermost one first.
-/

namespace TreeCheck.Ownership

/-- The number of the variable in a slot. -/
def slotIn : List (String × Nat) → Nat → Option Nat
  | [], _ => none
  | (_, id) :: rest, j => if j = rest.length then some id else slotIn rest j

section
-- The equations of these definitions are made here once, so that no proof below waits while another makes them.
attribute [local simp] slotIn
end

theorem slotIn_append {added env : List (String × Nat)} {j : Nat} (inside : j < env.length) :
    slotIn (added ++ env) j = slotIn env j := by
  induction added with
  | nil => rfl
  | cons x added ih =>
    obtain ⟨name, id⟩ := x
    rw [List.cons_append, slotIn, if_neg (by rw [List.length_append]; omega), ih]

theorem lt_length_of_slotIn {env : List (String × Nat)} {j id : Nat} (found : slotIn env j = some id) :
    j < env.length := by
  induction env with
  | nil => simp [slotIn] at found
  | cons x rest ih =>
    obtain ⟨name, other⟩ := x
    rw [slotIn] at found
    split at found
    · simp [*]
    · have := ih found
      simp only [List.length_cons]
      omega

theorem mem_of_slotIn {env : List (String × Nat)} {j id : Nat} (found : slotIn env j = some id) :
    id ∈ env.map Prod.snd := by
  induction env with
  | nil => simp [slotIn] at found
  | cons x rest ih =>
    obtain ⟨name, other⟩ := x
    rw [slotIn] at found
    split at found
    · cases found
      simp
    · exact List.mem_cons_of_mem _ (ih found)

theorem mem_of_slotIn_append {added env : List (String × Nat)} {j id : Nat}
    (outside : env.length ≤ j) (found : slotIn (added ++ env) j = some id) :
    id ∈ added.map Prod.snd := by
  induction added with
  | nil =>
    have := lt_length_of_slotIn found
    simp only [List.nil_append] at this
    omega
  | cons x added ih =>
    obtain ⟨name, other⟩ := x
    rw [List.cons_append, slotIn] at found
    split at found
    · cases found
      simp
    · exact List.mem_cons_of_mem _ (ih found)

theorem exists_slotIn {env : List (String × Nat)} {j : Nat} (inside : j < env.length) :
    ∃ id, slotIn env j = some id := by
  induction env with
  | nil => simp at inside
  | cons x rest ih =>
    obtain ⟨name, id⟩ := x
    by_cases last : j = rest.length
    · exact ⟨id, by simp [slotIn, last]⟩
    · obtain ⟨other, found⟩ := ih (by simp only [List.length_cons] at inside; omega)
      exact ⟨other, by simp [slotIn, last, found]⟩

/-- Each variable in scope has one slot. -/
theorem slotIn_inj {env : List (String × Nat)} (distinct : (env.map Prod.snd).Nodup) {i j id : Nat}
    (first : slotIn env i = some id) (second : slotIn env j = some id) : i = j := by
  induction env with
  | nil => simp [slotIn] at first
  | cons x rest ih =>
    obtain ⟨name, other⟩ := x
    obtain ⟨fresh, restDistinct⟩ := List.nodup_cons.mp distinct
    rw [slotIn] at first second
    split at first <;> split at second
    · omega
    · cases first
      exact absurd (mem_of_slotIn second) fresh
    · cases second
      exact absurd (mem_of_slotIn first) fresh
    · exact ih restDistinct first second

def position : List String → String → Option Nat
  | [], _ => none
  | n :: rest, name => if name == n then some rest.length else position rest name

theorem lt_length_of_position {names : List String} {name : String} {j : Nat}
    (found : position names name = some j) : j < names.length := by
  induction names with
  | nil => simp [position] at found
  | cons n rest ih =>
    rw [position] at found
    split at found
    · cases found
      simp
    · have := ih found
      simp only [List.length_cons]
      omega

theorem lookup_eq_position (env : List (String × Nat)) (name : String) :
    env.lookup name = (position (env.map Prod.fst) name).bind (slotIn env) := by
  induction env with
  | nil => rfl
  | cons x rest ih =>
    obtain ⟨n, id⟩ := x
    rw [List.lookup_cons, List.map_cons, position]
    by_cases same : name == n
    · simp [same, slotIn]
    · simp only [same, Bool.false_eq_true, if_false, ih]
      cases found : position (rest.map Prod.fst) name with
      | none => rfl
      | some j =>
        have inside := lt_length_of_position found
        rw [List.length_map] at inside
        simp only [Option.bind_some, slotIn]
        rw [if_neg (by omega)]

namespace Ledger

/-- The names in scope with the types of their variables, the latest first. -/
def outline (l : Ledger) : List (String × Option Ty) :=
  l.env.map fun x => (x.1, (l.vars[x.2]?).map Var.type)

variable {l after : Ledger} {names : List (String × Option Ty)} {j : Nat}

theorem length_outline (l : Ledger) : l.outline.length = l.env.length := by
  simp [outline]

theorem lookup?_eq_position (l : Ledger) (name : String) :
    l.lookup? name = (position (l.outline.map Prod.fst) name).bind (slotIn l.env) := by
  rw [lookup?_eq, lookup_eq_position, outline, List.map_map]
  rfl

theorem lookup_outline {name : String} {id : Nat} {v : Var} (found : l.lookup? name = some id)
    (declared : l.vars[id]? = some v) : l.outline.lookup name = some (some v.type) := by
  rw [lookup?_eq] at found
  rw [outline]
  generalize l.env = env at found
  induction env with
  | nil => simp at found
  | cons x rest ih =>
    obtain ⟨n, other⟩ := x
    rw [List.lookup_cons] at found
    rw [List.map_cons, List.lookup_cons]
    split at found
    · rename_i same
      cases found
      simp [same, declared]
    · rename_i different
      simp only [different]
      exact ih found

theorem Grows.outline (grows : l.Grows names after) (regular : l.Regular) :
    after.outline = names ++ l.outline := by
  obtain ⟨added, env, typed, -⟩ := grows.env regular
  rw [Ledger.outline, env, List.map_append, typed, Ledger.outline]
  congr 1
  apply List.map_congr_left
  intro x member
  rw [getElem?_of_extends grows.vars (regular.declared x member)]

theorem Grows.inside (grows : l.Grows names after) (regular : l.Regular) (inside : j < l.env.length) :
    j < after.env.length := by
  rw [← length_outline, grows.outline regular, List.length_append, length_outline]
  omega

theorem Grows.slotIn_eq (grows : l.Grows names after) (regular : l.Regular)
    (inside : j < l.env.length) : slotIn after.env j = slotIn l.env j := by
  obtain ⟨added, env, -⟩ := grows.env regular
  rw [env]
  exact slotIn_append inside

/-- New slots hold new variables. -/
theorem Grows.fresh_slot (grows : l.Grows names after) (regular : l.Regular) {id : Nat}
    (outside : l.env.length ≤ j) (found : slotIn after.env j = some id) :
    l.vars.length ≤ id ∧ id < after.vars.length := by
  obtain ⟨added, env, -, fresh, -⟩ := grows.env regular
  rw [env] at found
  obtain ⟨x, member, rfl⟩ := List.mem_map.mp (mem_of_slotIn_append outside found)
  exact fresh x member

theorem push_env (l : Ledger) (isTemporary : Bool) (span : Span) :
    (l.push isTemporary span).env = l.env := by
  simp [push, env]

theorem push_outline (l : Ledger) (isTemporary : Bool) (span : Span) :
    (l.push isTemporary span).outline = l.outline := by
  rw [outline, push_env, push_vars, outline]

/-- Leaving a scope keeps the slots of what stays in scope. -/
theorem slotIn_pop (inside : j < l.pop.env.length) : slotIn l.pop.env j = slotIn l.env j := by
  rw [env, pop_scopes] at inside ⊢
  rw [env]
  cases scopes : l.scopes with
  | nil => rfl
  | cons s outer =>
    rw [scopes] at inside
    rw [List.flatMap_cons]
    exact (slotIn_append inside).symm

def Shows (property : VarFlow → Prop) (l : Ledger) (j : Nat) : Prop :=
  ∃ id, slotIn l.env j = some id ∧ l.flow.Has property id

variable {property : VarFlow → Prop}

theorem Shows.inside (shows : l.Shows property j) : j < l.env.length := by
  obtain ⟨id, found, -⟩ := shows
  exact lt_length_of_slotIn found

theorem Regular.lt_of_slotIn (regular : l.Regular) {id : Nat} (found : slotIn l.env j = some id) :
    id < l.vars.length := by
  obtain ⟨x, member, rfl⟩ := List.mem_map.mp (mem_of_slotIn found)
  exact regular.declared x member

theorem shows_iff {id : Nat} (found : slotIn l.env j = some id) :
    l.Shows property j ↔ l.flow.Has property id := by
  simp [Shows, found]

/-- What the slots show depends on the names in scope and on the variables in them. -/
theorem shows_congr (env : after.env = l.env)
    (same : ∀ id, slotIn l.env j = some id → (after.flow.Has property id ↔ l.flow.Has property id)) :
    after.Shows property j ↔ l.Shows property j := by
  unfold Shows
  rw [env]
  constructor
  · rintro ⟨id, found, has⟩
    exact ⟨id, found, (same id found).mp has⟩
  · rintro ⟨id, found, has⟩
    exact ⟨id, found, (same id found).mpr has⟩

theorem shows_push (isTemporary : Bool) (span : Span) :
    (l.push isTemporary span).Shows property j ↔ l.Shows property j :=
  shows_congr (l.push_env isTemporary span) fun _ _ => Iff.rfl

theorem shows_pop : l.pop.Shows property j ↔ j < l.pop.env.length ∧ l.Shows property j := by
  have has (id : Nat) : l.pop.flow.Has property id ↔ l.flow.Has property id := by
    rw [Flow.Has, pop_flow_vars, Flow.Has]
  constructor
  · intro shows
    have inside := shows.inside
    obtain ⟨id, found, holds⟩ := shows
    exact ⟨inside, id, by rwa [← slotIn_pop inside], (has id).mp holds⟩
  · rintro ⟨inside, id, found, holds⟩
    exact ⟨id, by rwa [slotIn_pop inside], (has id).mpr holds⟩

theorem Keeps.has {γ : Type} {view : VarFlow → γ} {kinds : Diagnostic.Kind → Prop}
    (keeps : l.Keeps view kinds after) (determined : ∀ v w, view v = view w → property v → property w)
    (id : Nat) : after.flow.Has property id ↔ l.flow.Has property id := by
  have views := keeps.views id
  unfold Flow.Has
  constructor
  · rintro ⟨v, found, holds⟩
    rw [found] at views
    obtain ⟨w, old, same⟩ := Option.map_eq_some_iff.mp views.symm
    exact ⟨w, old, determined v w same.symm holds⟩
  · rintro ⟨w, old, holds⟩
    rw [old] at views
    obtain ⟨v, found, same⟩ := Option.map_eq_some_iff.mp views
    exact ⟨v, found, determined w v same.symm holds⟩

end Ledger

end TreeCheck.Ownership
