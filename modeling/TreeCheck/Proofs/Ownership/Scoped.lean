import Mathlib
import TreeCheck.Proofs.Ownership.Functions
import TreeCheck.Proofs.Ownership.Points

/-!
Loans and scopes. At each point of a check every live loan is given back with a scope that is open. Its owner is in
scope or has been reported gone to the loan, so far as each borrowed place that is lent starts at a name or a
parameter stands in for it.
-/

namespace TreeCheck.Ownership

variable {ctx : Context} {l after : Ledger} {m p : Machine} {loan : Nat} {strict anchored : Prop}

namespace Ledger

/-- A lease that is given back with an open scope. If so much is known, the owner of the loan is in scope unless the
loan is ended. -/
structure Placed (strict : Prop) (l : Ledger) (loan : Nat) (lease : Lease) : Prop where
  release : lease.scope ∈ l.scopeIds
  lent : loan < l.loans.length
  owned : strict → lease.ended = none → ∀ owner, (l.loans[loan]?).bind Loan.owner = some owner →
    owner ∈ l.env.map Prod.snd

structure Scoped (strict : Prop) (l : Ledger) : Prop where
  seated : l.Seated
  placed : ∀ loan, l.flow.Shared (l.Placed strict loan) loan

theorem Placed.shift {lease : Lease} (placed : l.Placed strict loan lease) (ids : ∀ i ∈ l.scopeIds, i ∈ after.scopeIds)
    (loans : l.loans <+: after.loans) (env : ∀ x ∈ l.env, x ∈ after.env) : after.Placed strict loan lease := by
  refine ⟨ids _ placed.release, Nat.lt_of_lt_of_le placed.lent loans.length_le, fun known ended owner owned => ?_⟩
  rw [getElem?_of_extends loans placed.lent] at owned
  exact List.map_subset _ env (placed.owned known ended owner owned)

/-- A lease that is made to last longer is placed as before. -/
theorem Placed.extend {lease : Lease} (placed : l.Placed strict loan lease) (seated : l.Seated) (further : Nat) :
    l.Placed strict loan (l.extend further lease) := by
  refine ⟨?_, placed.lent, fun known ended => placed.owned known (extend_ended l further lease ▸ ended)⟩
  unfold Ledger.extend
  split
  · rename_i lower
    exact (seated.lt_of_depth lower placed.release).1
  · exact placed.release

theorem Placed.end {lease : Lease} (placed : l.Placed strict loan lease) (reason : String × Span) :
    l.Placed strict loan { lease with ended := lease.ended.or (some reason) } :=
  ⟨placed.release, placed.lent, fun known ended => placed.owned known (Option.or_eq_none_iff.mp ended).1⟩

theorem Scoped.renew (holds : l.Scoped strict) (change : Nat → Lease → Lease) (seated : after.Seated)
    (live : after.flow.live = (l.flow.updateLeases change).live) (scopes : after.scopes = l.scopes)
    (loans : after.loans = l.loans)
    (each : ∀ loan lease, l.Placed strict loan lease → l.Placed strict loan (change loan lease)) :
    after.Scoped strict := by
  refine ⟨seated, fun loan lease member => ?_⟩
  rw [live] at member
  have placed := (holds.placed loan).updateLeases (each loan) lease member
  exact placed.shift (by simp [scopeIds, scopes]) (loans ▸ List.prefix_rfl) (by simp [env, scopes])

theorem temporary_open (some : l.scopes ≠ []) : l.temporary ∈ l.scopeIds := by
  unfold temporary outermost scopeIds
  cases found : l.scopes.find? Scope.isTemporary with
  | some s => exact List.mem_map_of_mem (List.mem_of_find?_eq_some found)
  | none =>
    rw [List.getLast?_eq_some_getLast some]
    exact List.mem_map_of_mem (List.getLast_mem some)

theorem EditOf.names {lendable : Nat → Prop} (edit : l.EditOf lendable after) :
    after.scopeIds = l.scopeIds ∧ ∀ x ∈ l.env, x ∈ after.env := by
  cases edit with
  | declare name type mutable span =>
    obtain ⟨ids, kept, -⟩ := declare_names l name type mutable span
    exact ⟨ids, kept⟩
  | _ => exact ⟨rfl, fun _ member => member⟩

theorem Scoped.edit {lendable : Nat → Prop} (holds : l.Scoped strict) (opened : l.scopes ≠ [])
    (may : ∀ id, lendable id → strict → id ∈ l.env.map Prod.snd) (edit : l.EditOf lendable after) :
    after.Scoped strict := by
  have seated := seated_lasting.edit (edit.mono fun _ _ => trivial) holds.seated
  have same : l.flow.live = (l.flow.updateLeases fun _ lease => lease).live := by simp [Flow.updateLeases]
  have names := edit.names
  cases edit with
  | report | mourn | assign => exact holds.renew _ seated same rfl rfl fun _ _ placed => placed
  | lend owner mutable node span allowed =>
    have longer : l.loans <+: (l.lend owner mutable node span).2.loans := List.prefix_append _ _
    refine ⟨seated, fun loan lease member => ?_⟩
    rcases List.mem_append.mp member with old | new
    · exact (holds.placed loan lease old).shift (fun _ inside => inside) longer fun _ inside => inside
    · cases List.mem_singleton.mp new
      refine ⟨temporary_open opened, by simp [lend], fun known _ given owned => ?_⟩
      simp only [lend, List.getElem?_concat_length, Option.bind_some] at owned
      exact may given (allowed given owned).1 known
  | invalidate =>
    refine holds.renew _ seated rfl rfl rfl fun loan lease placed => ?_
    split
    · exact placed.end _
    · exact placed
  | move id span moves allowed =>
    refine holds.renew (fun k lease =>
      if (l.loans[k]?).bind Loan.owner == some id && lease.holder.isSome then
        { lease with ended := lease.ended.or (some ("moved", span)) }
      else lease) seated rfl rfl rfl fun loan lease placed => ?_
    split
    · exact placed.end _
    · exact placed
  | adopt id v origins =>
    refine holds.renew (fun k lease =>
      if origins.contains (.loan k) then { l.extend v.scope lease with holder := some id } else lease)
      seated rfl rfl rfl fun loan lease placed => ?_
    split
    · have longer := placed.extend holds.seated v.scope
      exact ⟨longer.release, longer.lent, longer.owned⟩
    · exact placed
  | rescope origins scope =>
    refine holds.renew _ seated rfl rfl rfl fun loan lease placed => ?_
    split
    · exact placed.extend holds.seated scope
    · exact placed
  | declare name type mutable span =>
    refine ⟨seated, fun loan lease member => (holds.placed loan lease member).shift ?_ List.prefix_rfl names.2⟩
    exact fun _ inside => names.1 ▸ inside

theorem Scoped.edits {lendable : Nat → Prop} (holds : l.Scoped strict) (opened : l.scopes ≠ [])
    (may : ∀ id, lendable id → strict → id ∈ l.env.map Prod.snd) (edits : l.EditsOf lendable after) :
    after.Scoped strict := by
  suffices after.Scoped strict ∧ after.scopeIds = l.scopeIds ∧ ∀ x ∈ l.env, x ∈ after.env from this.1
  induction edits with
  | refl => exact ⟨holds, rfl, fun _ member => member⟩
  | @tail middle _ _ edit ih =>
    obtain ⟨atMiddle, ids, env⟩ := ih
    have stillOpen : middle.scopes ≠ [] := by
      rintro empty
      rw [scopeIds, empty, eq_comm] at ids
      exact opened (List.map_eq_nil_iff.mp ids)
    refine ⟨atMiddle.edit stillOpen (fun id allowed known => ?_) edit, edit.names.1.trans ids,
      fun x member => edit.names.2 x (env x member)⟩
    exact List.map_subset _ env (may id allowed known)

theorem Scoped.withFlow (holds : l.Scoped strict) {flow : Flow}
    (each : ∀ loan, flow.Shared (l.Placed strict loan) loan) : ({ l with flow } : Ledger).Scoped strict := by
  refine ⟨seated_lasting.flow flow holds.seated, fun loan lease member => ?_⟩
  exact (each loan lease member).shift (fun _ inside => inside) List.prefix_rfl fun _ inside => inside

theorem Scoped.push (holds : l.Scoped strict) (isTemporary : Bool) (span : Span) :
    (l.push isTemporary span).Scoped strict := by
  refine ⟨seated_lasting.push isTemporary span holds.seated, fun loan lease member => ?_⟩
  exact (holds.placed loan lease member).shift (fun _ inside => List.mem_cons_of_mem _ inside) List.prefix_rfl
    fun x inside => push_env l isTemporary span ▸ inside

/-- What is given back with a scope is no longer live when it is left, and what has lost its owner is ended. -/
theorem Scoped.pop (holds : l.Scoped strict) : l.pop.Scoped strict := by
  refine ⟨seated_lasting.pop holds.seated, fun loan lease member => ?_⟩
  cases opened : l.scopes with
  | nil =>
    have same : l.pop = l := by simp [Ledger.pop, opened]
    rw [same] at member ⊢
    exact holds.placed loan lease member
  | cons s outer =>
    have closed : l.pop = ({ l with scopes := outer } : Ledger).close s := by simp [Ledger.pop, opened]
    have ids : l.scopeIds = s.id :: l.pop.scopeIds := by
      rw [scopeIds, scopeIds, pop_scopes, opened]
      rfl
    have env : l.env = s.names ++ l.pop.env := by
      rw [Ledger.env, Ledger.env, pop_scopes, opened]
      rfl
    have kept : ({ l.flow with live := l.flow.live.filter fun entry => entry.2.scope != s.id } : Flow).Shared
        (fun lease => l.Placed strict loan lease ∧ lease.scope ≠ s.id) loan := fun lease member => by
      obtain ⟨live, stays⟩ := List.mem_filter.mp member
      exact ⟨holds.placed loan lease live, by simpa using stays⟩
    have loans : l.pop.loans = l.loans := by rw [closed, close]
    rw [closed] at member
    refine kept.updateLeases (fun lease held => ?_) lease member
    obtain ⟨placed, stays⟩ := held
    have release : lease.scope ∈ l.pop.scopeIds := (List.mem_cons.mp (ids ▸ placed.release)).resolve_left stays
    have outside (owner : Nat) (inScope : owner ∈ l.env.map Prod.snd) (elsewhere : owner ∉ s.names.map Prod.snd) :
        owner ∈ l.pop.env.map Prod.snd := by
      rw [env, List.map_append] at inScope
      exact (List.mem_append.mp inScope).resolve_left elsewhere
    dsimp only
    split
    · rename_i owner owned
      split
      · refine ⟨release, loans ▸ placed.lent, fun _ ended => ?_⟩
        simp at ended
      · rename_i elsewhere
        refine ⟨release, loans ▸ placed.lent, fun known ended other same => ?_⟩
        rw [loans, owned] at same
        cases same
        exact outside owner (placed.owned known ended owner owned) (by simpa using elsewhere)
    · rename_i ownerless
      refine ⟨release, loans ▸ placed.lent, fun _ _ owner owned => ?_⟩
      rw [loans, ownerless] at owned
      cases owned

end Ledger

/-! ### Runs -/

/-- Whether a borrowed place starts at a name or is reached through a reference. -/
def Step.Sound (ctx : Context) : Step → Prop
  | .borrowPlace operand _ _ => operand.root?.isSome = true ∨ ctx.through operand = true
  | _ => True

/-- A step lends a variable in scope, if the borrowed place starts at a name or the first variable is in scope. -/
theorem Step.Lends.inScope {s : Step} {id : Nat} (lends : s.Lends ctx l id)
    (known : s.Sound ctx ∨ 0 ∈ l.env.map Prod.snd) : id ∈ l.env.map Prod.snd := by
  cases s with
  | borrowPlace operand mutable site =>
    obtain ⟨direct, p, reached, root⟩ := lends
    rcases place_start reached with ⟨rootless, temporary⟩ | ⟨_, -, -, unbound⟩ |
      ⟨info, name, j, other, -, -, -, looked, named⟩
    · obtain ⟨-, rfl⟩ := root.resolve_left (by simp [temporary])
      exact known.resolve_left (by simp [Step.Sound, rootless, direct])
    · simp [unbound] at root
    · obtain rfl : other = id := by simpa [named] using root
      exact Ledger.mem_env_of_lookup looked
  | _ => exact lends.elim

/-- Names can be declared, and the first variable is in scope if that matters. -/
structure Ledger.Grounded (anchored : Prop) (l : Ledger) : Prop where
  named : l.Named
  anchor : anchored → 0 ∈ l.env.map Prod.snd

theorem subset_addNames (added : List (String × Nat)) (scopes : List Scope) :
    scopes.flatMap Scope.names ⊆ (addNames added scopes).flatMap Scope.names := by
  induction scopes with
  | nil => exact List.Subset.refl _
  | cons s rest ih =>
    simp only [addNames]
    split
    · exact List.append_subset.mpr ⟨List.subset_append_left _ _, List.Subset.trans ih (List.subset_append_right _ _)⟩
    · simp

theorem Ledger.Grounded.grows {names : List (String × Option Ty)} (grounded : l.Grounded anchored)
    (grows : l.Grows names after) : after.Grounded anchored := by
  obtain ⟨added, scopes, -⟩ := grows.scopes
  refine ⟨grows.named grounded.named, fun needed => List.map_subset _ ?_ (grounded.anchor needed)⟩
  rw [env, env, scopes]
  exact subset_addNames added l.scopes

/-- Loans stay in place where each borrowed place that is lent starts at a name or the first variable is in
scope. -/
theorem scoped_persists (ctx : Context) (strict anchored : Prop) :
    Ledger.Persists ctx (fun s => strict → s.Sound ctx ∨ anchored)
    (Ledger.Grounded anchored) (Ledger.Scoped strict) where
  run := fun tidy ran grounded => grounded.grows (tidy.ran (fun _ => grounded.named) ran).grows
  branch := fun _ grounded => ⟨grounded.named, grounded.anchor⟩
  enter := fun {l} isTemporary span grounded =>
    ⟨grounded.named.push isTemporary span, fun needed => l.push_env isTemporary span ▸ grounded.anchor needed⟩
  step := fun {s m after} allowed ran grounded holds => by
    obtain ⟨scope, member, -⟩ := grounded.named
    have may (id : Nat) (lends : s.Lends ctx m.ledger id) (known : strict) : id ∈ m.ledger.env.map Prod.snd :=
      lends.inScope ((allowed known).imp_right grounded.anchor)
    exact holds.edits (List.ne_nil_of_mem member) (fun _ may => may) (s.run_editsOf may ran)
  push := fun isTemporary span holds => holds.push isTemporary span
  pop := fun _ holds => holds.pop
  later := fun holds atNow scopes precedes => atNow.withFlow fun loan lease member =>
    (holds.placed loan lease member).shift (by simp [Ledger.scopeIds, scopes]) precedes.loans
      (by simp [Ledger.env, scopes])
  restore := fun _ holds => holds.withFlow holds.placed
  diverge := fun _ holds => holds.withFlow holds.placed
  join := fun {l a b} first next => first.withFlow fun loan => by
    have other : b.Shared (Ledger.Placed strict { l with flow := a } loan) loan := fun lease member =>
      (next.placed loan lease member).shift (fun _ inside => inside) List.prefix_rfl fun _ inside => inside
    refine Flow.shared_join (fun x y left _ => ?_) (first.placed loan) other
    exact ⟨left.release, left.lent, fun known ended => left.owned known (Option.or_eq_none_iff.mp ended).1⟩

/-! ### Functions -/

/-- Whether what a borrow lends is known in a function: each borrowed place starts at a name or is reached through a
reference, or a parameter stands in for it. -/
def Context.RootsHeld (ctx : Context) (f : FuncDecl) : Prop :=
  ctx.HasParameter ∨ (ctx.functionCode f).Each (Step.Sound ctx)

theorem Ledger.scoped_start (strict : Prop) : ({} : Ledger).Scoped strict :=
  ⟨seated_start, fun _ _ member => by cases member⟩

/-- Loans are in place wherever the code of a function inside its scope is. -/
theorem scoped_inside {f : FuncDecl}
    (visited : (ctx.insideCode f).Visits ctx (({} : Machine).enter false f.span) p) :
    p.ledger.Scoped (ctx.RootsHeld f) := by
  have start := regular_start f.span
  have grounded : (({} : Machine).enter false f.span).ledger.Grounded False := ⟨start.named, False.elim⟩
  have holds : (({} : Machine).enter false f.span).ledger.Scoped (ctx.RootsHeld f) :=
    (Ledger.scoped_start _).push false f.span
  have tidyParams := tidy_paramsCode ctx f
  have tidyBody := tidy_bodyCode ctx f
  have params : (ctx.paramsCode f).Each fun s => ctx.RootsHeld f → s.Sound ctx ∨ False :=
    (ctx.rooted_paramsCode f).imp fun s rooted _ => by
      cases s with
      | borrowPlace => exact .inl (.inl rooted)
      | _ => exact .inl trivial
  have body : (ctx.bodyCode f).Each fun s => ctx.RootsHeld f → s.Sound ctx ∨ ctx.HasParameter := by
    by_cases parameter : ctx.HasParameter
    · exact tidyBody.each fun _ _ => .inr parameter
    · by_cases each : (ctx.functionCode f).Each (Step.Sound ctx)
      · exact each.body.imp fun s sound _ => .inl sound
      · exact tidyBody.each fun _ held => (held.elim parameter each).elim
  have early := scoped_persists ctx (ctx.RootsHeld f) False
  have late := scoped_persists ctx (ctx.RootsHeld f) ctx.HasParameter
  have ready {middle : Machine} (ran : (ctx.paramsCode f).run ctx (({} : Machine).enter false f.span) = .ok middle) :
      middle.ledger.Grounded ctx.HasParameter ∧ middle.ledger.Scoped (ctx.RootsHeld f) := by
    refine ⟨⟨(early.run tidyParams ran grounded).named, fun parameter => ?_⟩,
      early.upholds tidyParams params ran grounded holds⟩
    exact mem_of_slotIn (Context.anchors_paramsCode parameter f start rfl (.inl ran))
  cases visited with
  | start => exact holds
  | stop ran =>
    obtain ⟨middle, first, rest⟩ := Code.run_seq_ok ran
    obtain ⟨grounded, holds⟩ := ready first
    exact late.upholds tidyBody body rest grounded holds
  | first inner => exact early.visits tidyParams params inner grounded holds
  | next ran inner =>
    obtain ⟨grounded, holds⟩ := ready ran
    exact late.visits tidyBody body inner grounded holds

theorem scoped_function {f : FuncDecl} (visited : (ctx.functionCode f).Visits ctx {} p) :
    p.ledger.Scoped (ctx.RootsHeld f) := by
  rw [functionCode_eq] at visited
  cases visited with
  | start => exact Ledger.scoped_start _
  | stop ran =>
    obtain ⟨inner, innerRan, rfl⟩ := Code.run_scope_ok ran
    exact (scoped_inside (.stop innerRan)).pop
  | scope inner => exact scoped_inside inner

/-- At each point of a check every live loan is given back with an open scope, and its owner is a temporary value, or
a variable of an open scope, or has been reported gone to the loan; this much is said of the owners where it is known
what each borrow lends. No loan is live at the end of the check. -/
theorem check_scopes_loans (ctx : Context) (f : FuncDecl) :
    (∀ p, (ctx.functionCode f).Visits ctx {} p → ∀ loan lease, (loan, lease) ∈ p.ledger.flow.live →
      lease.scope ∈ p.ledger.scopeIds ∧
        (ctx.RootsHeld f → lease.ended = none → ∃ lent, p.ledger.loans[loan]? = some lent ∧
          ∀ owner ∈ lent.owner, ∃ v, p.ledger.vars[owner]? = some v ∧ v.scope ∈ p.ledger.scopeIds)) ∧
      ∀ l, (ctx.run f).run {} = .ok ((), l) → l.flow.live = [] := by
  refine ⟨fun p visited loan lease live => ?_, fun l ran => ?_⟩
  · have holds := scoped_function visited
    have placed := holds.placed loan lease live
    obtain ⟨lent, found⟩ : ∃ lent, p.ledger.loans[loan]? = some lent := ⟨_, List.getElem?_eq_getElem placed.lent⟩
    refine ⟨placed.release, fun known ended => ⟨lent, found, fun owner owned => ?_⟩⟩
    exact holds.seated.seat (placed.owned known ended owner (by rw [found]; exact owned))
  · have ran : (ctx.functionCode f).run ctx {} = .ok { ledger := l } := by
      rw [performs_functionCode ctx f, ran]
      rfl
    have tidy : (ctx.functionCode f).Tidy false := by
      rw [functionCode_eq]
      exact .named (tidy_insideCode ctx f)
    have closed : l.scopes = [] := Machine.scopes_run tidy ran
    refine List.eq_nil_iff_forall_not_mem.mpr fun entry live => ?_
    have release := ((scoped_function (.stop ran)).placed entry.1 entry.2 live).release
    simp [Ledger.scopeIds, closed] at release

instance : DecidablePred (Step.Sound ctx)
  | .borrowPlace operand _ _ => inferInstanceAs (Decidable (operand.root?.isSome = true ∨ ctx.through operand = true))
  | .value | .nip | .union | .collect | .typed _ | .carried _ | .useName .. | .locate _ | .usePlace .. | .lend ..
  | .write .. | .gather _ | .returned .. | .keep | .keepFound | .bind _ | .bindLate _ | .param .. | .escape _ =>
    isTrue trivial

/-- A function that borrows twice what comes behind the declaration of a variable, which may stand in a block of its
own. -/
def borrowing (inBlock mutable : Bool) (operand : Nat → Expr) : FuncDecl :=
  let declare (id : Nat) (name : String) (value : Expr) : Stmt :=
    .bind default (.binding { info := ⟨id, default⟩, name, mutable := true }) none (some value)
  let first := declare 3 "z" (.int ⟨4, default⟩ 1 "")
  let borrow (id : Nat) : Expr := .ref ⟨id, default⟩ mutable (operand (id + 1))
  { (default : FuncDecl) with
    name := "f"
    body := .mk ⟨1, default⟩ [
      if inBlock then .expr default (.block (.mk ⟨2, default⟩ [first] none)) else first,
      declare 5 "r" (borrow 6), declare 11 "q" (borrow 12)] none }

def borrowingSignature : Signature :=
  { name := "f", kind := .function, typeParams := [], params := [], result := .unit, origin := some 0 }

/-- The types of the nodes, given that of the borrowed place. -/
def borrowingNotes (mutable : Bool) (type : Ty) : Typing.Annotations :=
  { types := ([1, 2].map fun id => (id, .unit)) ++ ([3, 4, 10, 16].map fun id => (id, .int .i32)) ++
      ([5, 6, 11, 12].map fun id => (id, .ref mutable type)) ++ ([7, 8, 13, 14].map fun id => (id, type)) ++
      ([9, 15].map fun id => (id, .struct "S" [])) }

def borrowingTable : Table := { functions := [("f", borrowingSignature)] }

def borrowingContext (inBlock mutable : Bool) (operand : Nat → Expr) (type : Ty) : Context :=
  contextOf borrowingTable borrowingSignature (borrowing inBlock mutable operand) (borrowingNotes mutable type)

theorem check_scopes_loans_borrowing :
    let ctx := borrowingContext false false (fun id => .ident ⟨id, default⟩ "z") (.int .i32)
    let code := ctx.functionCode (borrowing false false fun id => .ident ⟨id, default⟩ "z")
    ∃ p lease v, code.Visits ctx {} p ∧ (1, lease) ∈ p.ledger.flow.live ∧ lease.scope ∈ p.ledger.scopeIds ∧
      (p.ledger.loans[1]?).bind Loan.owner = some 0 ∧ p.ledger.vars[0]? = some v ∧ v.scope ∈ p.ledger.scopeIds := by
  intro ctx code
  have facts : ∀ x ∈ (code.steps ctx {})[10]?, 1 ∈ x.2.2.ledger.flow.live.map Prod.fst ∧
      (∀ entry ∈ x.2.2.ledger.flow.live, entry.2.ended = none) ∧
      (x.2.2.ledger.loans[1]?).bind Loan.owner = some 0 := by
    decide +kernel
  have taken : ((code.steps ctx {})[10]?).isSome = true := by decide +kernel
  obtain ⟨x, found⟩ := Option.isSome_iff_exists.mp taken
  obtain ⟨isLive, present, owned⟩ := facts x found
  obtain ⟨⟨_, lease⟩, live, rfl⟩ := List.mem_map.mp isLive
  have visited := (Code.visits_steps code (List.mem_of_getElem? found)).2
  have held : ctx.RootsHeld (borrowing false false fun id => .ident ⟨id, default⟩ "z") := .inr (by decide +kernel)
  obtain ⟨release, owners⟩ := (check_scopes_loans ctx _).1 x.2.2 visited _ lease live
  obtain ⟨lent, given, inScope⟩ := owners held (present _ live)
  obtain ⟨v, known, seat⟩ := inScope 0 (by rw [given] at owned; exact owned)
  exact ⟨x.2.2, lease, v, visited, live, release, owned, known, seat⟩

/-- What a field of an unknown type refers to. -/
def faultyPlace (id : Nat) : Expr :=
  .deref ⟨id, default⟩ (.field ⟨id + 1, default⟩
    (.struct ⟨id + 2, default⟩ "S" [.mk "g" default (.int ⟨id + 3, default⟩ 1 "")]) "g")

/-- A place that starts at a temporary value and is not reached through a reference is lent from the first variable,
whose block may be closed; the next borrow is then refused because of that variable. -/
theorem check_lends_closed_variable :
    let ctx := borrowingContext true true faultyPlace .invalid
    (check borrowingTable 0 (borrowing true true faultyPlace) (borrowingNotes true .invalid)).map
        (fun result => result.diagnostics.map Diagnostic.kind) = .ok [.conflictingBorrow] ∧
      ∃ p lease v, (ctx.functionCode (borrowing true true faultyPlace)).Visits ctx {} p ∧
        (0, lease) ∈ p.ledger.flow.live ∧ lease.ended = none ∧ (p.ledger.loans[0]?).bind Loan.owner = some 0 ∧
        p.ledger.vars[0]? = some v ∧ v.scope ∉ p.ledger.scopeIds := by
  intro ctx
  refine ⟨by cbv, ?_⟩
  have facts : ∀ x ∈ ((ctx.functionCode (borrowing true true faultyPlace)).steps ctx {})[7]?,
      (∃ entry ∈ x.2.2.ledger.flow.live, entry.1 = 0 ∧ entry.2.ended = none) ∧
      (x.2.2.ledger.loans[0]?).bind Loan.owner = some 0 ∧
      ∃ v ∈ x.2.2.ledger.vars[0]?, v.scope ∉ x.2.2.ledger.scopeIds := by
    decide +kernel
  have taken : (((ctx.functionCode (borrowing true true faultyPlace)).steps ctx {})[7]?).isSome = true := by
    decide +kernel
  obtain ⟨x, found⟩ := Option.isSome_iff_exists.mp taken
  obtain ⟨⟨⟨_, lease⟩, live, rfl, present⟩, owned, v, known, outside⟩ := facts x found
  exact ⟨x.2.2, lease, v, (Code.visits_steps _ (List.mem_of_getElem? found)).2, live, present, owned, known, outside⟩

end TreeCheck.Ownership
