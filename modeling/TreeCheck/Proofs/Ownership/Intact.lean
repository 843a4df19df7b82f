import TreeCheck.Proofs.Ownership.Joins

/-!
Ledgers that hold together: every number of a variable or a loan that occurs in one stands for a variable or a
loan that is there. What a ledger does step by step keeps it so, and what is there stays.
-/

namespace TreeCheck.Ownership

namespace Ledger

/-- Every loan among some origins has been made. -/
def Has (l : Ledger) (origins : List Origin) : Prop := ∀ id, .loan id ∈ origins → id < l.loans.length

/-- A flow whose variables and loans are those of a ledger. Only the owner of a loan can be gone. -/
structure Follows (l : Ledger) (f : Flow) : Prop where
  short : f.vars.length ≤ l.vars.length
  holds : ∀ v ∈ f.vars, l.Has v.holds
  ended : ∀ loan, f.Shared (fun lease => lease.ended.isSome = true →
    ∃ owner, (l.loans[loan]?).bind Loan.owner = some owner) loan

/-- The invariant of a ledger in which everything that is referred to is there. -/
structure Intact (l : Ledger) : Prop where
  flow : l.Follows l.flow
  full : l.vars.length ≤ l.flow.vars.length
  names : ∀ s ∈ l.scopes, ∀ x ∈ s.names, x.2 < l.vars.length
  owners : ∀ loan ∈ l.loans, ∀ owner ∈ loan.owner, owner < l.vars.length

/-- One ledger after another: what is there stays. -/
structure Precedes (l after : Ledger) : Prop where
  vars : l.vars.length ≤ after.vars.length
  loans : l.loans <+: after.loans

variable {l middle after : Ledger} {f g : Flow} {origins more : List Origin}

theorem Precedes.refl (l : Ledger) : l.Precedes l := ⟨Nat.le_refl _, List.prefix_refl _⟩

theorem Precedes.trans (first : l.Precedes middle) (next : middle.Precedes after) : l.Precedes after :=
  ⟨Nat.le_trans first.vars next.vars, first.loans.trans next.loans⟩

theorem Precedes.of_eq (vars : after.vars.length = l.vars.length) (loans : after.loans = l.loans) :
    l.Precedes after := ⟨Nat.le_of_eq vars.symm, loans ▸ List.prefix_refl _⟩

theorem Precedes.since (precedes : middle.Precedes after) (vars : middle.vars.length = l.vars.length)
    (loans : middle.loans = l.loans) : l.Precedes after := .trans (.of_eq vars loans) precedes

theorem Precedes.inside (precedes : l.Precedes after) {id : Nat} (known : id < l.vars.length) :
    id < after.vars.length := Nat.lt_of_lt_of_le known precedes.vars

theorem Precedes.has (precedes : l.Precedes after) (has : l.Has origins) : after.Has origins :=
  fun id member => Nat.lt_of_lt_of_le (has id member) precedes.loans.length_le

theorem Precedes.owner (precedes : l.Precedes after) {loan owner : Nat}
    (known : (l.loans[loan]?).bind Loan.owner = some owner) :
    (after.loans[loan]?).bind Loan.owner = some owner := by
  obtain ⟨more, added⟩ := precedes.loans
  obtain ⟨found, here, owned⟩ := Option.bind_eq_some_iff.mp known
  obtain ⟨inside, -⟩ := List.getElem?_eq_some_iff.mp here
  rw [← added, List.getElem?_append_left inside, here]
  exact owned

theorem Precedes.follows (precedes : l.Precedes after) (follows : l.Follows f) : after.Follows f where
  short := Nat.le_trans follows.short precedes.vars
  holds := fun v member => precedes.has (follows.holds v member)
  ended := fun loan lease live gone => by
    obtain ⟨owner, known⟩ := follows.ended loan lease live gone
    exact ⟨owner, precedes.owner known⟩

/-! ### Origins -/

theorem has_nil : l.Has [] := fun _ member => by cases member

theorem has_loan {id : Nat} (inside : id < l.loans.length) : l.Has [.loan id] := by
  intro other member
  cases List.mem_singleton.mp member
  exact inside

theorem Has.union (first : l.Has origins) (next : l.Has more) : l.Has (Origin.union origins more) :=
  fun id member => (Origin.mem_union.mp member).elim (first id) (next id)

theorem Has.foldl {lists : List (List Origin)} (start : l.Has origins) (each : ∀ o ∈ lists, l.Has o) :
    l.Has (lists.foldl Origin.union origins) := by
  induction lists generalizing origins with
  | nil => exact start
  | cons o lists ih =>
    obtain ⟨first, rest⟩ := List.forall_mem_cons.mp each
    exact ih (start.union first) rest

/-! ### Flows -/

theorem mem_joinVars {as bs : List VarFlow} {v : VarFlow} (member : v ∈ Flow.joinVars as bs) :
    v ∈ as ∨ ∃ a ∈ as, ∃ b ∈ bs, v = Flow.joinVar a b := by
  induction as, bs using Flow.joinVars.induct with
  | case1 a as b bs ih =>
    rcases List.mem_cons.mp member with rfl | later
    · exact .inr ⟨a, List.mem_cons_self, b, List.mem_cons_self, rfl⟩
    · rcases ih later with old | ⟨x, left, y, right, rfl⟩
      · exact .inl (List.mem_cons_of_mem _ old)
      · exact .inr ⟨x, List.mem_cons_of_mem _ left, y, List.mem_cons_of_mem _ right, rfl⟩
  | case2 as bs stop =>
    rw [Flow.joinVars] at member
    · exact .inl member
    · exact stop

theorem Follows.join (first : l.Follows f) (next : l.Follows g) : l.Follows (f.join g) where
  short := by simpa [Flow.join, Flow.length_joinVars] using first.short
  holds := fun v member => by
    rcases mem_joinVars member with old | ⟨a, left, b, right, rfl⟩
    · exact first.holds v old
    · exact (first.holds a left).union (next.holds b right)
  ended := fun loan => Flow.shared_join (fun a b left right gone => by
    rw [Flow.joinLease, Option.isSome_or, Bool.or_eq_true] at gone
    exact gone.elim left right) (first.ended loan) (next.ended loan)

theorem Follows.restore (current : l.Follows f) (saved : l.Follows g) : l.Follows (f.restore g) where
  short := by
    have := current.short
    have := saved.short
    simp only [Flow.restore, List.length_append, List.length_drop]
    omega
  holds := fun v member => by
    rcases List.mem_append.mp member with old | new
    · exact saved.holds v old
    · exact current.holds v (List.mem_of_mem_drop new)
  ended := saved.ended

theorem Follows.withDiverged (follows : l.Follows f) (diverged : Bool) : l.Follows { f with diverged } :=
  ⟨follows.short, follows.holds, follows.ended⟩

theorem Follows.foldl {paths : List Flow} (start : l.Follows f) (each : ∀ p ∈ paths, l.Follows p) :
    l.Follows (paths.foldl Flow.join f) := by
  induction paths generalizing f with
  | nil => exact start
  | cons p paths ih =>
    obtain ⟨first, rest⟩ := List.forall_mem_cons.mp each
    exact ih (start.join first) rest

theorem Follows.merge {paths : List Flow} (current : l.Follows f) (each : ∀ p ∈ paths, l.Follows p) :
    l.Follows (f.merge paths) := by
  unfold Flow.merge
  split
  next first rest kept =>
    have all : ∀ p ∈ first :: rest, l.Follows p := fun p member =>
      each p (List.mem_filter.mp (kept ▸ member)).1
    obtain ⟨start, others⟩ := List.forall_mem_cons.mp all
    exact ((current.restore start).foldl others).withDiverged false
  · split
    next first rest _ => exact (current.restore (each first List.mem_cons_self)).withDiverged true
    · exact current

theorem Follows.updateLeases (follows : l.Follows f) {change : Nat → Lease → Lease}
    (ends : ∀ loan lease, (change loan lease).ended.isSome = true → lease.ended.isSome = true ∨
      ∃ owner, (l.loans[loan]?).bind Loan.owner = some owner) : l.Follows (f.updateLeases change) where
  short := follows.short
  holds := follows.holds
  ended := fun loan lease live gone => by
    obtain ⟨⟨other, before⟩, member, same⟩ := List.mem_map.mp live
    cases same
    exact (ends loan before gone).elim (follows.ended loan before member) id

theorem Follows.updateVar (follows : l.Follows f) (id : Nat) (change : VarFlow → VarFlow)
    (holds : ∀ v, l.Has v.holds → l.Has (change v).holds) : l.Follows (f.updateVar id change) where
  short := by simpa [Flow.updateVar] using follows.short
  holds := fun v member => by
    obtain ⟨i, here⟩ := List.mem_iff_getElem?.mp member
    simp only [Flow.updateVar, List.getElem?_modify] at here
    obtain ⟨before, old, rfl⟩ := Option.map_eq_some_iff.mp here
    have known := follows.holds before (List.mem_of_getElem? old)
    split
    · exact holds before known
    · exact known
  ended := follows.ended

/-! ### Steps of the ledger -/

theorem Intact.of_eq (intact : l.Intact) (vars : after.vars.length = l.vars.length)
    (loans : after.loans = l.loans) (scopes : after.scopes = l.scopes) (flow : after.flow = l.flow) :
    after.Intact := by
  obtain ⟨⟨short, holds, ended⟩, full, names, owners⟩ := intact
  refine ⟨⟨?_, ?_, ?_⟩, ?_, ?_, ?_⟩
  · rwa [flow, vars]
  · exact fun v member id inside => loans ▸ holds v (flow ▸ member) id inside
  · rwa [flow, loans]
  · rwa [flow, vars]
  · rwa [scopes, vars]
  · rwa [loans, vars]

theorem Intact.lookup (intact : l.Intact) {name : String} {id : Nat} (found : l.lookup? name = some id) :
    id < l.vars.length := by
  obtain ⟨s, opened, named⟩ := List.exists_of_findSome?_eq_some found
  obtain ⟨front, back, parts, -⟩ := List.lookup_eq_some_iff.mp named
  exact intact.names s opened (name, id) (by simp [parts])

/-- A new flow that has all variables. -/
theorem Intact.withFlow (intact : l.Intact) (follows : l.Follows f) (full : l.vars.length ≤ f.vars.length) :
    Intact { l with flow := f } :=
  ⟨⟨follows.short, follows.holds, follows.ended⟩, full, intact.names, intact.owners⟩

theorem Intact.updateLeases (intact : l.Intact) {change : Nat → Lease → Lease}
    (ends : ∀ loan lease, (change loan lease).ended.isSome = true → lease.ended.isSome = true ∨
      ∃ owner, (l.loans[loan]?).bind Loan.owner = some owner) :
    Intact { l with flow := l.flow.updateLeases change } :=
  intact.withFlow (intact.flow.updateLeases ends) intact.full

theorem Intact.updateVar (intact : l.Intact) (id : Nat) (change : VarFlow → VarFlow)
    (holds : ∀ v, l.Has v.holds → l.Has (change v).holds) :
    Intact { l with flow := l.flow.updateVar id change } :=
  intact.withFlow (intact.flow.updateVar id change holds) (by simpa [Flow.updateVar] using intact.full)

theorem Intact.restore (intact : l.Intact) (saved : l.Follows f) :
    Intact { l with flow := l.flow.restore f } :=
  intact.withFlow (intact.flow.restore saved) (by
    rw [Flow.length_restore (Nat.le_trans saved.short intact.full)]
    exact intact.full)

theorem Intact.merge (intact : l.Intact) {paths : List Flow} (each : ∀ p ∈ paths, l.Follows p) :
    Intact { l with flow := l.flow.merge paths } :=
  intact.withFlow (intact.flow.merge each) (by
    rw [Flow.length_merge fun p member => Nat.le_trans (each p member).short intact.full]
    exact intact.full)

theorem Intact.push (intact : l.Intact) (isTemporary : Bool) (span : Span) : (l.push isTemporary span).Intact :=
  ⟨⟨intact.flow.short, intact.flow.holds, intact.flow.ended⟩, intact.full,
    List.forall_mem_cons.mpr ⟨List.forall_mem_nil _, intact.names⟩, intact.owners⟩

theorem Intact.close (intact : l.Intact) (s : Scope) : (l.close s).Intact := by
  have kept : l.Follows { l.flow with live := l.flow.live.filter fun entry => entry.2.scope != s.id } :=
    ⟨intact.flow.short, intact.flow.holds, fun loan lease live =>
      intact.flow.ended loan lease (List.mem_filter.mp live).1⟩
  refine intact.withFlow (kept.updateLeases fun loan lease gone => ?_) intact.full
  cases owned : (l.loans[loan]?).bind Loan.owner with
  | none =>
    rw [owned] at gone
    exact .inl gone
  | some owner => exact .inr ⟨owner, rfl⟩

theorem Intact.pop (intact : l.Intact) : l.pop.Intact := by
  unfold Ledger.pop
  split
  · exact intact
  next s outer opened =>
    refine Intact.close (l := { l with scopes := outer }) ⟨⟨intact.flow.short, intact.flow.holds,
      intact.flow.ended⟩, intact.full, fun t member => ?_, intact.owners⟩ s
    exact intact.names t (opened ▸ List.mem_cons_of_mem _ member)

theorem precedes_pop (l : Ledger) : l.Precedes l.pop := by
  unfold Ledger.pop
  split
  · exact .refl l
  · exact .of_eq rfl rfl

/-- A new variable holds nothing. -/
theorem Intact.declare (intact : l.Intact) (name : String) (type : Ty) (mutable : Bool) (span : Span) :
    let declared := l.declare name type mutable span
    declared.2.Intact ∧ l.Precedes declared.2 ∧ declared.1 < declared.2.vars.length := by
  have named {s : Scope} (known : ∀ x ∈ s.names, x.2 < l.vars.length) :
      ∀ x ∈ (name, l.vars.length) :: s.names, x.2 < l.vars.length + 1 :=
    List.forall_mem_cons.mpr ⟨Nat.lt_succ_self _, fun x member => Nat.lt_succ_of_lt (known x member)⟩
  have old : ∀ s ∈ l.scopes, ∀ x ∈ s.names, x.2 < l.vars.length + 1 := fun s member x inside =>
    Nat.lt_succ_of_lt (intact.names s member x inside)
  have precedes : l.Precedes (l.declare name type mutable span).2 :=
    ⟨by simp [Ledger.declare], List.prefix_refl _⟩
  refine ⟨⟨⟨?_, ?_, ?_⟩, ?_, ?_, ?_⟩, precedes, by simp [Ledger.declare]⟩
  · simpa [Ledger.declare] using intact.flow.short
  · refine List.forall_mem_append.mpr ⟨fun v member => ?_, List.forall_mem_singleton.mpr has_nil⟩
    exact precedes.has (intact.flow.holds v member)
  · exact (precedes.follows intact.flow).ended
  · simpa [Ledger.declare] using intact.full
  · intro t member x inside
    rw [show (l.declare name type mutable span).2.vars.length = l.vars.length + 1 by simp [Ledger.declare]]
    cases outer : l.scopes.dropWhile Scope.isTemporary with
    | nil =>
      simp only [Ledger.declare, outer] at member
      rcases List.mem_append.mp member with kept | last
      · exact old t (List.dropLast_subset _ kept) x inside
      · obtain ⟨s, final, rfl⟩ := List.mem_map.mp last
        exact named (intact.names s (List.mem_of_getLast? (Option.mem_toList.mp final))) x inside
    | cons s rest =>
      have parts : l.scopes = l.scopes.takeWhile Scope.isTemporary ++ s :: rest := by
        rw [← outer, List.takeWhile_append_dropWhile]
      simp only [Ledger.declare, outer] at member
      rcases List.mem_append.mp member with kept | member
      · exact old t (parts ▸ List.mem_append_left _ kept) x inside
      rcases List.mem_cons.mp member with rfl | kept
      · exact named (intact.names s (parts ▸ List.mem_append_right _ List.mem_cons_self)) x inside
      · exact old t (parts ▸ List.mem_append_right _ (List.mem_cons_of_mem _ kept)) x inside
  · exact fun loan member owner owned =>
      Nat.lt_of_lt_of_le (intact.owners loan member owner owned) precedes.vars

theorem Intact.lend (intact : l.Intact) {owner : Option Nat} (known : ∀ id ∈ owner, id < l.vars.length)
    (mutable : Bool) (node : Nat) (span : Span) :
    let lent := l.lend owner mutable node span
    lent.2.Intact ∧ l.Precedes lent.2 ∧ lent.1 < lent.2.loans.length := by
  have precedes : l.Precedes (l.lend owner mutable node span).2 :=
    ⟨Nat.le_refl _, List.prefix_append _ _⟩
  have follows := precedes.follows intact.flow
  refine ⟨⟨⟨follows.short, follows.holds, fun loan lease live gone => ?_⟩, intact.full, intact.names, ?_⟩,
    precedes, by simp [Ledger.lend]⟩
  · rcases List.mem_append.mp live with old | new
    · exact follows.ended loan lease old gone
    · cases List.mem_singleton.mp new
      cases gone
  · exact List.forall_mem_append.mpr ⟨intact.owners, List.forall_mem_singleton.mpr known⟩

theorem extend_ended (l : Ledger) (scope : Nat) (lease : Lease) : (l.extend scope lease).ended = lease.ended := by
  unfold Ledger.extend
  split <;> rfl

theorem Intact.rescope (intact : l.Intact) (origins : List Origin) (scope : Nat) :
    (l.rescope origins scope).Intact :=
  intact.updateLeases fun loan lease gone => .inl (by
    split at gone
    · rwa [extend_ended] at gone
    · exact gone)

theorem Intact.adopt (intact : l.Intact) (id : Nat) (var : Var) (has : l.Has origins) :
    (l.adopt id var origins).Intact := by
  refine intact.withFlow ((intact.flow.updateLeases fun loan lease gone => .inl ?_).updateVar id _
    fun v _ => has_nil.union has) (by simpa [Flow.updateVar, Flow.updateLeases] using intact.full)
  split at gone
  · rwa [show ({ l.extend var.scope lease with holder := some id } : Lease).ended = lease.ended from
      extend_ended _ _ _] at gone
  · exact gone

theorem Intact.invalidate (intact : l.Intact) (id : Nat) (reason : String) (span : Span) :
    (l.invalidate id reason span).Intact :=
  intact.updateLeases fun loan lease gone => by
    split at gone
    next owned =>
      rw [Bool.and_eq_true, beq_iff_eq] at owned
      exact .inr ⟨id, owned.1⟩
    · exact .inl gone

end Ledger

end TreeCheck.Ownership
