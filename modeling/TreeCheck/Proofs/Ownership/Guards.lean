import TreeCheck.Proofs.Ownership.Blame
import TreeCheck.Proofs.Ownership.Points

/-!
Loans that are guarded. Once the loss of a loan is noted, it has been reported. A loan that is guarded for a
variable is live as long as the variable is in scope, and it is ended as soon as its owner is moved or goes out of
scope. Whatever is done on a way on, joins included, a guarded loan stays so.
-/

namespace TreeCheck.Ownership

variable {ctx : Context} {l after : Ledger} {m next : Machine} {loan id owner scope : Nat}

/-! ### Reports -/

namespace Ledger

def Tells (kind : Diagnostic.Kind) (l : Ledger) : Prop := ∃ d ∈ l.bag.contents, d.kind.number = kind.number

/-- Whether the loss of each loan that is noted is reported. -/
def Mourned (l : Ledger) : Prop := l.reported ≠ [] → l.Tells .borrowOutlivesOwner

theorem Tells.extend {kind : Diagnostic.Kind} (tells : l.Tells kind)
    (reports : l.bag.contents <+: after.bag.contents) : after.Tells kind := by
  obtain ⟨d, member, same⟩ := tells
  exact ⟨d, reports.subset member, same⟩

theorem prefix_add (bag : Bag) (d : Diagnostic) : bag.contents <+: (bag.add d).contents := by
  unfold Bag.add
  split
  · exact List.prefix_rfl
  · exact List.prefix_append _ _

/-- What is added is told, if not by itself then by a repetition of it. -/
theorem tells_add {d : Diagnostic} (bag : Bag) (holds : l.bag = bag.add d) : l.Tells d.kind := by
  unfold Tells
  rw [holds]
  unfold Bag.add
  split
  · rename_i held
    obtain ⟨e, member, same⟩ := List.any_eq_true.mp held
    exact ⟨e, member, Diagnostic.number_eq_of_key (beq_iff_eq.mp same)⟩
  · exact ⟨d, by simp, rfl⟩

theorem Edit.reports (edit : l.Edit after) : l.bag.contents <+: after.bag.contents := by
  cases edit with
  | report d | mourn loan d kind => exact prefix_add l.bag d
  | _ => exact List.prefix_rfl

theorem reports_lasting (reported : List Diagnostic) : Lasting fun l => reported <+: l.bag.contents where
  edit := fun edit holds => holds.trans edit.reports
  push := fun _ _ holds => holds
  pop := fun holds => by rwa [pop_bag]
  flow := fun _ holds => holds

theorem Edits.reports (edits : l.Edits after) : l.bag.contents <+: after.bag.contents :=
  (reports_lasting l.bag.contents).edits edits List.prefix_rfl

theorem mourned_lasting : Lasting Mourned where
  edit := fun {l after} edit mourned => by
    cases edit with
    | report d => exact fun noted => (mourned noted).extend (prefix_add l.bag d)
    | mourn loan d kind => exact fun _ => kind ▸ tells_add l.bag rfl
    | _ => exact mourned
  push := fun _ _ mourned => mourned
  pop := fun {l} mourned => by
    have reported : l.pop.reported = l.reported := by
      unfold pop
      split <;> rfl
    unfold Mourned Tells
    rwa [reported, pop_bag]
  flow := fun _ mourned => mourned

/-! ### Loans that are kept -/

/-- A variable is in scope and is not moved. -/
def Present (l : Ledger) (id : Nat) : Prop :=
  id ∈ l.env.map Prod.snd ∧ l.flow.Has (fun v => v.moved = false) id

/-- A lease that is kept by some variable, lasts at least as long as a scope, and has an owner that is present
unless it is ended. -/
structure Vouches (l : Ledger) (owner scope : Nat) (lease : Lease) : Prop where
  holder : lease.holder.isSome = true
  lasts : l.Encloses lease.scope scope
  present : lease.ended = none → l.Present owner

/-- A loan that is guarded for a variable: as long as the variable is in scope, the loan is live, and its lease
lasts at least as long as that scope. -/
structure Guards (l : Ledger) (loan id owner scope : Nat) : Prop where
  declared : ∃ v, l.vars[id]? = some v ∧ v.scope = scope
  lent : (l.loans[loan]?).bind Loan.owner = some owner
  live : id ∈ l.env.map Prod.snd → ∃ lease, (loan, lease) ∈ l.flow.live
  vouched : id ∈ l.env.map Prod.snd → l.flow.Shared (l.Vouches owner scope) loan

theorem extend_holder (l : Ledger) (scope : Nat) (lease : Lease) :
    (l.extend scope lease).holder = lease.holder := by
  unfold extend
  split <;> rfl

theorem Vouches.shift {lease : Lease} (vouches : l.Vouches owner scope lease) (after : Ledger)
    (ids : after.scopeIds = l.scopeIds) (present : l.Present owner → after.Present owner) :
    after.Vouches owner scope lease := by
  refine ⟨vouches.holder, ?_, present ∘ vouches.present⟩
  rw [Encloses, ids]
  exact vouches.lasts

/-- A lease that is made to last longer is vouched for as before. -/
theorem Vouches.extend {lease : Lease} (vouches : l.Vouches owner scope lease) (seated : l.Seated)
    (further : Nat) : l.Vouches owner scope (l.extend further lease) := by
  refine ⟨?_, seated.extend_encloses vouches.lasts further, fun present => vouches.present ?_⟩
  · rw [extend_holder]
    exact vouches.holder
  · rwa [extend_ended] at present

namespace Guards

variable (guards : l.Guards loan id owner scope)
include guards

/-- A guarded loan stays guarded if each lease that is vouched for becomes one that is. -/
theorem renew (change : Nat → Lease → Lease) (vars : after.vars = l.vars) (loans : after.loans = l.loans)
    (scopes : after.scopes = l.scopes) (live : after.flow.live = (l.flow.updateLeases change).live)
    (each : ∀ lease, l.Vouches owner scope lease → after.Vouches owner scope (change loan lease)) :
    after.Guards loan id owner scope := by
  have env : after.env = l.env := by rw [env, scopes, env]
  refine ⟨vars ▸ guards.declared, loans ▸ guards.lent, fun inScope => ?_, fun inScope lease member => ?_⟩
  · rw [live]
    exact Flow.exists_updateLeases (guards.live (env ▸ inScope))
  · rw [live] at member
    exact (guards.vouched (env ▸ inScope)).updateLeases each lease member

theorem edit (seated : l.Seated) (edit : l.Edit after) : after.Guards loan id owner scope := by
  have same : l.flow.live = (l.flow.updateLeases fun _ lease => lease).live := by simp [Flow.updateLeases]
  cases edit with
  | report | mourn =>
    exact guards.renew _ rfl rfl rfl same fun lease vouches => vouches.shift _ rfl fun present => present
  | lend lender mutable node span =>
    obtain ⟨given, here, owned⟩ := Option.bind_eq_some_iff.mp guards.lent
    have inside : loan < l.loans.length := (List.getElem?_eq_some_iff.mp here).1
    refine ⟨guards.declared, ?_, fun inScope => ?_, fun inScope lease member => ?_⟩
    · rw [Ledger.lend, List.getElem?_append_left inside, guards.lent]
    · obtain ⟨lease, member⟩ := guards.live inScope
      exact ⟨lease, List.mem_append_left _ member⟩
    · rcases List.mem_append.mp member with old | new
      · exact (guards.vouched inScope lease old).shift _ rfl fun present => present
      · cases List.mem_singleton.mp new
        exact absurd inside (Nat.lt_irrefl _)
  | invalidate other reason span =>
    refine guards.renew _ rfl rfl rfl rfl fun lease vouches => ?_
    have still := vouches.shift (l.invalidate other reason span) rfl fun present => present
    split
    · exact ⟨still.holder, still.lasts, fun ended => still.present (Option.or_eq_none_iff.mp ended).1⟩
    · exact still
  | move other span moves =>
    refine guards.renew (fun k lease =>
      if (l.loans[k]?).bind Loan.owner == some other && lease.holder.isSome then
        { lease with ended := lease.ended.or (some ("moved", span)) }
      else lease) rfl rfl rfl rfl fun lease vouches => ?_
    rw [guards.lent]
    by_cases gone : other = owner
    · subst gone
      rw [if_pos (by simp [vouches.holder])]
      refine ⟨vouches.holder, vouches.lasts, fun ended => ?_⟩
      simp at ended
    · rw [if_neg (by simp [Ne.symm gone])]
      refine vouches.shift _ rfl (And.imp_right fun there => ?_)
      rwa [Flow.has_updateVar, if_neg (Ne.symm gone)]
  | assign other =>
    refine guards.renew _ rfl rfl rfl same fun lease vouches => ?_
    refine vouches.shift _ rfl (And.imp_right fun there => ?_)
    rw [Flow.has_updateVar]
    split
    · obtain ⟨w, found, -⟩ := there
      exact ⟨w, found, rfl⟩
    · exact there
  | adopt other v origins =>
    refine guards.renew (fun k lease =>
      if origins.contains (.loan k) then { l.extend v.scope lease with holder := some other }
      else lease) rfl rfl rfl rfl fun lease vouches => ?_
    have present : l.Present owner → (l.adopt other v origins).Present owner := by
      rintro ⟨inEnv, there⟩
      refine ⟨inEnv, ?_⟩
      unfold Ledger.adopt
      rw [Flow.has_updateVar]
      split <;> exact there
    split
    · have longer := (vouches.extend seated v.scope).shift (l.adopt other v origins) rfl present
      exact ⟨rfl, longer.lasts, longer.present⟩
    · exact vouches.shift _ rfl present
  | rescope origins further =>
    refine guards.renew _ rfl rfl rfl rfl fun lease vouches => ?_
    split
    · exact (vouches.extend seated further).shift _ rfl fun present => present
    · exact vouches.shift _ rfl fun present => present
  | declare name type mutable span describe same start =>
    obtain ⟨ids, kept, added⟩ := declare_names l name type mutable span
    obtain ⟨scope, scopes, shape, -⟩ := declare_shape l name type mutable span
    simp only [shape] at ids kept added ⊢
    obtain ⟨v, known, seat⟩ := guards.declared
    have inside := (List.getElem?_eq_some_iff.mp known).1
    have before (inScope : id ∈ ({ l with scopes } : Ledger).env.map Prod.snd) : id ∈ l.env.map Prod.snd := by
      obtain ⟨x, member, rfl⟩ := List.mem_map.mp inScope
      rcases added x member with old | new
      · exact List.mem_map_of_mem old
      · omega
    refine ⟨⟨v, ?_, seat⟩, guards.lent, fun inScope => guards.live (before inScope),
      fun inScope lease member => (guards.vouched (before inScope) lease member).shift _ ids ?_⟩
    · exact (getElem?_of_extends (prefix_modify_length ..) inside).trans known
    · rintro ⟨inEnv, there⟩
      have ownerInside := seated.inside inEnv
      obtain ⟨x, member, rfl⟩ := List.mem_map.mp inEnv
      refine ⟨List.mem_map_of_mem (kept x member), ?_⟩
      rw [Flow.has_updateVar, if_neg (by omega)]
      obtain ⟨w, found, notMoved⟩ := there
      exact ⟨w, (List.getElem?_append_left (List.getElem?_eq_some_iff.mp found).1).trans found, notMoved⟩

theorem edits (seated : l.Seated) (edits : l.Edits after) : after.Guards loan id owner scope := by
  induction edits with
  | refl => exact guards
  | tail earlier edit kept => exact kept.edit (seated_lasting.edits earlier seated) edit

theorem push (isTemporary : Bool) (span : Span) : (l.push isTemporary span).Guards loan id owner scope := by
  have env := push_env l isTemporary span
  refine ⟨guards.declared, guards.lent, fun inScope => guards.live (env ▸ inScope),
    fun inScope lease member => ?_⟩
  obtain ⟨holder, ⟨front, back, parts, around⟩, present⟩ := guards.vouched (env ▸ inScope) lease member
  refine ⟨holder, ⟨(l.scopeCount + 1) :: front, back, congrArg _ parts, around⟩, fun ended => ?_⟩
  rw [Present, env]
  exact present ended

theorem pop (seated : l.Seated) : l.pop.Guards loan id owner scope := by
  have popped := seated_lasting.pop seated
  cases opened : l.scopes with
  | nil => simpa [Ledger.pop, opened] using guards
  | cons s outer =>
    have ids : l.scopeIds = s.id :: l.pop.scopeIds := by
      rw [scopeIds, scopeIds, pop_scopes, opened]
      rfl
    have env : l.env = s.names ++ l.pop.env := by
      rw [Ledger.env, Ledger.env, pop_scopes, opened]
      rfl
    have before (inScope : id ∈ l.pop.env.map Prod.snd) : id ∈ l.env.map Prod.snd := by
      rw [env, List.map_append]
      exact List.mem_append_right _ inScope
    -- The scope of the variable stays open, and so does each one around it.
    have further (inScope : id ∈ l.pop.env.map Prod.snd) {lease : Lease}
        (vouches : l.Vouches owner scope lease) : lease.scope ≠ s.id ∧ l.pop.Encloses lease.scope scope := by
      obtain ⟨v, known, seat⟩ := popped.seat inScope
      obtain ⟨w, same, rfl⟩ := guards.declared
      rw [pop_vars, same] at known
      cases known
      obtain ⟨isOpen, -, below⟩ := seated.encloses_iff.mp vouches.lasts
      have sorted := seated.sorted
      rw [ids] at sorted isOpen
      have above := (List.pairwise_cons.mp sorted).1 _ seat
      have inner : lease.scope ≠ s.id := by omega
      exact ⟨inner, popped.encloses_iff.mpr ⟨(List.mem_cons.mp isOpen).resolve_left inner, seat, below⟩⟩
    have closed : l.pop = ({ l with scopes := outer } : Ledger).close s := by simp [Ledger.pop, opened]
    refine ⟨by rw [pop_vars]; exact guards.declared, by rw [closed]; exact guards.lent, fun inScope => ?_,
      fun inScope lease member => ?_⟩
    · obtain ⟨lease, member⟩ := guards.live (before inScope)
      have stays := (further inScope (guards.vouched (before inScope) lease member)).1
      rw [closed]
      exact Flow.exists_updateLeases ⟨lease, List.mem_filter.mpr ⟨member, by simp [stays]⟩⟩
    · have kept : ({ l.flow with live := l.flow.live.filter fun entry => entry.2.scope != s.id } : Flow).Shared
          (l.Vouches owner scope) loan :=
        fun lease member => guards.vouched (before inScope) lease (List.mem_filter.mp member).1
      rw [closed] at member
      refine kept.updateLeases (fun lease vouches => ?_) lease member
      have lasts := (further inScope vouches).2
      simp only [guards.lent]
      split
      · refine ⟨vouches.holder, lasts, fun ended => ?_⟩
        simp at ended
      · rename_i elsewhere
        refine ⟨vouches.holder, lasts, fun ended => ?_⟩
        obtain ⟨inEnv, there⟩ := vouches.present ended
        rw [env, List.map_append] at inEnv
        refine ⟨(List.mem_append.mp inEnv).resolve_left fun here => elsewhere (by simpa using here), ?_⟩
        rwa [Flow.Has, pop_flow_vars]

end Guards

end Ledger

/-! ### Joins -/

section Joins

variable {f g : Flow}

/-- What is guarded before some code is guarded behind it where its flow is gone back to. -/
theorem Ledger.Guards.later (guards : l.Guards loan id owner scope) (now : after.Guards loan id owner scope)
    (scopes : after.scopes = l.scopes) : ({ after with flow := l.flow } : Ledger).Guards loan id owner scope := by
  have env : after.env = l.env := by rw [Ledger.env, scopes, Ledger.env]
  refine ⟨now.declared, now.lent, fun inScope => guards.live (env ▸ inScope), fun inScope lease member => ?_⟩
  have vouches := guards.vouched (env ▸ inScope) lease member
  exact vouches.shift _ (by simp only [Ledger.scopeIds, scopes]) (And.imp_left fun inEnv => env ▸ inEnv)

theorem Ledger.Guards.restore (guards : ({ l with flow := f } : Ledger).Guards loan id owner scope)
    (current : Flow) : ({ l with flow := current.restore f } : Ledger).Guards loan id owner scope := by
  refine guards.renew (fun _ lease => lease) rfl rfl rfl (by simp [Flow.restore, Flow.updateLeases])
    fun _ vouches => vouches.shift _ rfl ?_
  rintro ⟨inEnv, w, found, notMoved⟩
  exact ⟨inEnv, w, (List.getElem?_append_left (List.getElem?_eq_some_iff.mp found).1).trans found, notMoved⟩

theorem Ledger.Guards.withDiverged (guards : ({ l with flow := f } : Ledger).Guards loan id owner scope)
    (diverged : Bool) : ({ l with flow := { f with diverged } } : Ledger).Guards loan id owner scope :=
  guards.renew (fun _ lease => lease) rfl rfl rfl (by simp [Flow.updateLeases])
    fun _ vouches => vouches.shift _ rfl fun present => present

/-- A variable that is present on both of two paths is present behind their join. -/
theorem Ledger.Present.join (first : ({ l with flow := f } : Ledger).Present id)
    (next : ({ l with flow := g } : Ledger).Present id) : ({ l with flow := f.join g } : Ledger).Present id := by
  obtain ⟨inEnv, v, inFirst, kept⟩ := first
  obtain ⟨-, w, inNext, there⟩ := next
  exact ⟨inEnv, _, Flow.getElem?_joinVars inFirst inNext, by simp [Flow.joinVar, kept, there]⟩

theorem Ledger.Guards.join (first : ({ l with flow := f } : Ledger).Guards loan id owner scope)
    (next : ({ l with flow := g } : Ledger).Guards loan id owner scope) :
    ({ l with flow := f.join g } : Ledger).Guards loan id owner scope := by
  refine ⟨first.declared, first.lent, fun inScope => ?_, fun inScope lease member => ?_⟩
  · obtain ⟨lease, member⟩ := first.live inScope
    exact Flow.exists_joinLive (.inl member)
  -- The loan is live on both paths, so its lease behind them is one of the first path, ended if the other one is.
  rcases Flow.mem_joinLive.mp member with ⟨before, inFirst, joined⟩ | ⟨-, absent⟩
  · have vouches := first.vouched inScope before inFirst
    split at joined
    · rename_i other found
      subst joined
      obtain ⟨front, back, parts, -⟩ := List.lookup_eq_some_iff.mp found
      have inNext := next.vouched inScope other (by simp [parts])
      refine ⟨vouches.holder, vouches.lasts, fun ended => ?_⟩
      obtain ⟨here, there⟩ := Option.or_eq_none_iff.mp ended
      exact (vouches.present here).join (inNext.present there)
    · rename_i absent
      obtain ⟨other, inNext⟩ := next.live inScope
      exact absurd (List.lookup_eq_none_iff.mp absent _ inNext) (by simp)
  · obtain ⟨other, inFirst⟩ := first.live inScope
    exact absurd (List.lookup_eq_none_iff.mp absent _ inFirst) (by simp)

end Joins

/-! ### Runs -/

theorem guards_persists :
    Ledger.Persists ctx (fun _ => True) Ledger.Seated fun l => l.Guards loan id owner scope where
  run := fun {c _ _ _} _ ran seated => Ledger.seated_lasting.run c ran seated
  branch := Ledger.seated_lasting.flow
  enter := Ledger.seated_lasting.push
  step := fun _ ran seated guards => guards.edits seated (Step.run_edits ran)
  push := fun isTemporary span guards => guards.push isTemporary span
  pop := fun seated guards => guards.pop seated
  later := fun guards now scopes _ => guards.later now scopes
  restore := fun current guards => guards.restore current
  diverge := fun diverged guards => guards.withDiverged diverged
  join := Ledger.Guards.join

theorem Ledger.Guards.onward (guards : m.ledger.Guards loan id owner scope) (seated : m.ledger.Seated)
    (onward : m.Onward ctx next) : next.ledger.Guards loan id owner scope := by
  induction onward with
  | refl => exact guards
  | tail before move ih =>
    have seated := Ledger.seated_lasting.onward before seated
    cases move with
    | run tidy ran => exact guards_persists.upholds tidy (tidy.each fun _ => trivial) ran seated ih
    | enter isTemporary span => exact ih.push isTemporary span
    | exit => exact ih.pop seated
    | shelve => exact ih

end TreeCheck.Ownership
