import TreeCheck.Proofs.Ownership.Lasting

/-!
Scopes and the variables in them. Scopes are numbered from the outside in, each variable in scope knows the number
of its scope, and a scope is further out than another one if and only if its number is lower.
-/

namespace TreeCheck.Ownership

namespace Ledger

variable {l after : Ledger} {scope outer inner other : Nat}

/-- The numbers of the open scopes, the innermost first. -/
def scopeIds (l : Ledger) : List Nat := l.scopes.map Scope.id

/-- The scopes are numbered from the outside in, and each variable in scope belongs to the scope its name is
in. -/
structure Seated (l : Ledger) : Prop where
  sorted : l.scopeIds.Pairwise (· > ·)
  counted : ∀ i ∈ l.scopeIds, i ≤ l.scopeCount
  seats : ∀ s ∈ l.scopes, ∀ x ∈ s.names, ∃ v, l.vars[x.2]? = some v ∧ v.scope = s.id

/-- The scope with one number is open, and is the one with another number or lies around it. -/
def Encloses (l : Ledger) (outer inner : Nat) : Prop :=
  ∃ front back, l.scopeIds = front ++ inner :: back ∧ (outer = inner ∨ outer ∈ back)

theorem Seated.encloses_iff (seated : l.Seated) :
    l.Encloses outer inner ↔ outer ∈ l.scopeIds ∧ inner ∈ l.scopeIds ∧ outer ≤ inner := by
  have sorted := seated.sorted
  constructor
  · rintro ⟨front, back, parts, around⟩
    rw [parts] at sorted ⊢
    obtain ⟨-, sorted, -⟩ := List.pairwise_append.mp sorted
    refine ⟨?_, by simp, ?_⟩
    · rcases around with rfl | further <;> simp [*]
    · rcases around with rfl | further
      · exact Nat.le_refl _
      · exact Nat.le_of_lt ((List.pairwise_cons.mp sorted).1 outer further)
  · rintro ⟨isOpen, inside, below⟩
    obtain ⟨front, back, parts⟩ := List.append_of_mem inside
    refine ⟨front, back, parts, ?_⟩
    rw [parts] at isOpen sorted
    rcases List.mem_append.mp isOpen with inFront | inRest
    · have above := (List.pairwise_append.mp sorted).2.2 outer inFront inner List.mem_cons_self
      omega
    · exact List.mem_cons.mp inRest

/-- A variable in scope belongs to an open scope. -/
theorem Seated.seat (seated : l.Seated) {id : Nat} (inScope : id ∈ l.env.map Prod.snd) :
    ∃ v, l.vars[id]? = some v ∧ v.scope ∈ l.scopeIds := by
  obtain ⟨x, member, rfl⟩ := List.mem_map.mp inScope
  obtain ⟨s, isOpen, named⟩ := List.mem_flatMap.mp member
  obtain ⟨v, known, seat⟩ := seated.seats s isOpen x named
  exact ⟨v, known, seat ▸ List.mem_map_of_mem isOpen⟩

theorem Seated.inside (seated : l.Seated) {id : Nat} (inScope : id ∈ l.env.map Prod.snd) :
    id < l.vars.length := by
  obtain ⟨v, known, -⟩ := seated.seat inScope
  exact (List.getElem?_eq_some_iff.mp known).1

theorem mem_env_of_lookup {name : String} {id : Nat} (looked : l.lookup? name = some id) :
    id ∈ l.env.map Prod.snd := by
  obtain ⟨s, isOpen, named⟩ := List.exists_of_findSome?_eq_some looked
  obtain ⟨front, back, parts, -⟩ := List.lookup_eq_some_iff.mp named
  exact List.mem_map.mpr ⟨(name, id), List.mem_flatMap.mpr ⟨s, isOpen, by simp [parts]⟩, rfl⟩

/-! ### Depth -/

theorem depth_eq (l : Ledger) (scope : Nat) : l.depth scope = l.scopeIds.reverse.idxOf scope := by
  have same : l.scopeIds.reverse.idxOf scope = l.scopes.reverse.findIdx (fun s => s.id == scope) := by
    rw [scopeIds, ← List.map_reverse, List.idxOf, List.findIdx_map]
    rfl
  rw [same, List.findIdx_eq_getD_findIdx?, List.length_reverse, depth]
  cases l.scopes.reverse.findIdx? fun s => s.id == scope <;> rfl

namespace Seated

variable (seated : l.Seated)
include seated

/-- What is less deep is further out. -/
theorem lt_of_depth (lower : l.depth outer < l.depth inner) (isOpen : inner ∈ l.scopeIds) :
    outer ∈ l.scopeIds ∧ outer < inner := by
  rw [depth_eq, depth_eq] at lower
  have inside : l.scopeIds.reverse.idxOf inner < l.scopeIds.reverse.length :=
    List.idxOf_lt_length_iff.mpr (List.mem_reverse.mpr isOpen)
  have further := List.pairwise_iff_getElem.mp (List.pairwise_reverse.mpr seated.sorted) _ _
    (Nat.lt_trans lower inside) inside lower
  rw [List.getElem_idxOf, List.getElem_idxOf] at further
  exact ⟨List.mem_reverse.mp (List.idxOf_lt_length_iff.mp (Nat.lt_trans lower inside)), further⟩

/-- What is not deeper is not further in. -/
theorem le_of_depth (notLower : ¬l.depth outer < l.depth inner) (isOpen : outer ∈ l.scopeIds) :
    inner ∈ l.scopeIds ∧ inner ≤ outer := by
  rcases Nat.lt_or_eq_of_le (Nat.le_of_not_lt notLower) with lower | same
  · obtain ⟨innerOpen, further⟩ := seated.lt_of_depth lower isOpen
    exact ⟨innerOpen, Nat.le_of_lt further⟩
  · rw [depth_eq, depth_eq] at same
    have member := List.mem_reverse.mpr isOpen
    have equal : inner = outer := ((List.idxOf_inj member).mp same.symm).symm
    exact ⟨equal ▸ isOpen, Nat.le_of_eq equal⟩

/-- A lease that is made to last longer ends with no scope further in. -/
theorem extend_encloses {lease : Lease} (around : l.Encloses lease.scope inner) (scope : Nat) :
    l.Encloses (l.extend scope lease).scope inner := by
  unfold extend
  split
  · rename_i lower
    rw [seated.encloses_iff] at around ⊢
    obtain ⟨further, below⟩ := seated.lt_of_depth lower around.1
    exact ⟨further, around.2.1, Nat.le_trans (Nat.le_of_lt below) around.2.2⟩
  · exact around

theorem extend_lasts (isOpen : scope ∈ l.scopeIds) (lease : Lease) :
    l.Encloses (l.extend scope lease).scope scope := by
  unfold extend
  rw [seated.encloses_iff]
  split
  · exact ⟨isOpen, isOpen, Nat.le_refl _⟩
  · rename_i notLower
    obtain ⟨inside, below⟩ := seated.le_of_depth notLower isOpen
    exact ⟨inside, isOpen, below⟩

end Seated

/-! ### Declarations -/

/-- A variable is declared in one of the scopes, unless none is open. -/
theorem declare_shape (l : Ledger) (name : String) (type : Ty) (mutable : Bool) (span : Span) :
    ∃ scope scopes, l.declare name type mutable span = (l.vars.length, { l with
        vars := l.vars ++ [({ name, type, mutable, scope, span } : Var)]
        flow := { l.flow with vars := l.flow.vars ++ [({} : VarFlow)] }
        scopes }) ∧
      ((l.scopes = [] ∧ scopes = []) ∨ ∃ front s back, l.scopes = front ++ s :: back ∧ scope = s.id ∧
        scopes = front ++ { s with names := (name, l.vars.length) :: s.names } :: back) := by
  unfold declare
  cases named : l.scopes.dropWhile Scope.isTemporary with
  | cons s rest =>
    refine ⟨_, _, rfl, .inr ⟨l.scopes.takeWhile Scope.isTemporary, s, rest, ?_, rfl, rfl⟩⟩
    rw [← named, List.takeWhile_append_dropWhile]
  | nil =>
    refine ⟨_, _, rfl, ?_⟩
    rcases List.eq_nil_or_concat l.scopes with none | ⟨front, s, parts⟩
    · simp [none]
    · exact .inr ⟨front, s, [], by simp [parts], by simp [outermost, parts], by simp [parts]⟩

theorem declare_names (l : Ledger) (name : String) (type : Ty) (mutable : Bool) (span : Span) :
    (l.declare name type mutable span).2.scopeIds = l.scopeIds ∧
      (∀ x ∈ l.env, x ∈ (l.declare name type mutable span).2.env) ∧
      ∀ x ∈ (l.declare name type mutable span).2.env, x ∈ l.env ∨ x.2 = l.vars.length := by
  obtain ⟨scope, scopes, shape, ⟨none, rfl⟩ | ⟨front, s, back, parts, -, rfl⟩⟩ :=
    declare_shape l name type mutable span
  · simp [shape, scopeIds, env, none]
  · rw [shape]
    simp only [scopeIds, env, parts]
    refine ⟨by simp, fun x member => ?_, fun x member => ?_⟩
    · simp only [List.flatMap_append, List.flatMap_cons, List.mem_append] at member ⊢
      grind
    · simp only [List.flatMap_append, List.flatMap_cons, List.mem_append] at member ⊢
      grind

theorem seated_start : ({} : Ledger).Seated := ⟨.nil, List.forall_mem_nil _, List.forall_mem_nil _⟩

theorem seated_lasting : Lasting Seated where
  push := fun {l} isTemporary span seated => by
    refine ⟨List.pairwise_cons.mpr ⟨fun i member => ?_, seated.sorted⟩, fun i member => ?_, ?_⟩
    · exact Nat.lt_succ_of_le (seated.counted i member)
    · rcases List.mem_cons.mp member with rfl | outside
      · exact Nat.le_refl _
      · exact Nat.le_succ_of_le (seated.counted i outside)
    · exact List.forall_mem_cons.mpr ⟨List.forall_mem_nil _, seated.seats⟩
  pop := fun {l} seated => by
    have ids : l.pop.scopeIds = l.scopeIds.tail := by rw [scopeIds, pop_scopes, List.map_tail, scopeIds]
    refine ⟨ids ▸ seated.sorted.tail, fun i member => ?_, fun s member => ?_⟩
    · have count : l.pop.scopeCount = l.scopeCount := by
        unfold pop
        split <;> rfl
      rw [count]
      exact seated.counted i (List.mem_of_mem_tail (ids ▸ member))
    · rw [pop_scopes] at member
      rw [pop_vars]
      exact seated.seats s (List.mem_of_mem_tail member)
  flow := fun flow seated => ⟨seated.sorted, seated.counted, seated.seats⟩
  edit := fun {l after} edit seated => by
    cases edit with
    | declare name type mutable span describe same start =>
      have ids := (declare_names l name type mutable span).1
      obtain ⟨scope, scopes, shape, within⟩ := declare_shape l name type mutable span
      simp only [shape] at ids ⊢
      let declared : Var := { name, type, mutable, scope, span }
      have old {i : Nat} {v : Var} (known : l.vars[i]? = some v) :
          ((l.vars ++ [declared]).modify l.vars.length describe)[i]? = some v :=
        (getElem?_of_extends (prefix_modify_length l.vars declared describe)
          (List.getElem?_eq_some_iff.mp known).1).trans known
      have new : ((l.vars ++ [declared]).modify l.vars.length describe)[l.vars.length]? =
          some (describe declared) := by simp
      refine ⟨?_, ?_, fun s member x named => ?_⟩
      · exact ids.symm ▸ seated.sorted
      · exact ids.symm ▸ seated.counted
      · have before {t : Scope} (inside : t ∈ l.scopes) (named : x ∈ t.names) : ∃ v,
            ((l.vars ++ [declared]).modify l.vars.length describe)[x.2]? = some v ∧ v.scope = t.id := by
          obtain ⟨v, known, seat⟩ := seated.seats t inside x named
          exact ⟨v, old known, seat⟩
        rcases within with ⟨-, rfl⟩ | ⟨front, t, back, parts, rfl, rfl⟩
        · cases member
        · have within {u : Scope} (inside : u ∈ front ∨ u = t ∨ u ∈ back) : u ∈ l.scopes := by
            simp [parts, inside]
          rcases List.mem_append.mp member with inFront | inRest
          · exact before (within (.inl inFront)) named
          rcases List.mem_cons.mp inRest with rfl | inBack
          · rcases List.mem_cons.mp named with rfl | earlier
            · exact ⟨_, new, same _⟩
            · exact before (t := t) (within (.inr (.inl rfl))) earlier
          · exact before (within (.inr (.inr inBack))) named
    | _ => exact ⟨seated.sorted, seated.counted, seated.seats⟩

end Ledger

end TreeCheck.Ownership
