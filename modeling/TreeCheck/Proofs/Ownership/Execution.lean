import TreeCheck.Proofs.Ownership.Layout

/-!
The code of a function is its check: running the code with joins does what the check does, step for
step.
-/

namespace TreeCheck.Ownership

open Code

section
-- The equations of these definitions are made here once, so that no proof below waits while another makes them.
attribute [local simp] Step.run eval guards guardsPattern walkStmt Context.useOf indices guardsStmt Expr.root?
end

variable {ctx : Context} {α β : Type}

theorem ok_bind (a : α) (f : α → Except Failure β) : (Except.ok a >>= f) = f a := rfl

theorem pure_eq_ok (a : α) : (pure a : Except Failure α) = .ok a := rfl

/-! ### Parts of the check -/

namespace Context

/-- The type of a node, which must not be open. -/
def known (ctx : Context) (id : Nat) : Except Failure Ty :=
  match ctx.notes.typeOf id with
  | .var .. => .error (.defect (.untypedNode id ctx.function))
  | t => .ok t

/-- How a place is reached, given the open scopes. -/
def placeIn (ctx : Context) (scopes : List Scope) : Expr → Except Failure Place
  | .ident _ name =>
    match scopes.findSome? fun s => s.names.lookup name with
    | some id => .ok { root := .var id }
    | none => .ok { root := .unbound }
  | .field _ object _ => do
    let t ← ctx.known object.id
    return (← ctx.placeIn scopes object).step t
  | .index _ object _ => do
    let t ← ctx.known object.id
    return (← ctx.placeIn scopes object).step t
  | .deref _ operand => do
    let t ← ctx.known operand.id
    return (← ctx.placeIn scopes operand).step t
  | _ => .ok { root := .temporary }

end Context

theorem carried_bind (id : Nat) (x : Own (List Origin)) :
    ctx.carried id x = x >>= fun origins => ctx.carried id (pure origins) := by
  simp [Context.carried]

theorem typeOf_run (id : Nat) (l : Ledger) :
    (ctx.typeOf id).run l = (ctx.known id).map fun t => (t, l) := by
  unfold Context.typeOf Context.known
  cases ctx.notes.typeOf id <;> rfl

theorem carried_carried {id : Nat} {x : Own (List Origin)} {l after : Ledger} {origins : List Origin}
    (ran : (ctx.carried id x).run l = .ok (origins, after)) :
    (ctx.carried id (pure origins)).run after = .ok (origins, after) := by
  obtain ⟨found, middle, -, carried⟩ := Own.run_bind_ok.mp ran
  cases found with
  | nil =>
    obtain ⟨rfl, rfl⟩ := Own.run_pure_ok.mp carried
    rfl
  | cons first rest =>
    obtain ⟨t, _, typed, kept⟩ := Own.run_bind_ok.mp carried
    obtain ⟨rfl, rfl⟩ := Context.typeOf_ok typed
    obtain ⟨rfl, rfl⟩ := Own.run_pure_ok.mp kept
    split
    · rename_i carries
      refine Own.run_bind_ok.mpr ⟨_, _, rfl, Own.run_bind_ok.mpr ⟨_, _, typed, ?_⟩⟩
      simp [carries, pure_eq_ok]
    · rfl

theorem carried_anywhere {id : Nat} {origins : List Origin} {l : Ledger}
    (ran : (ctx.carried id (pure origins)).run l = .ok (origins, l)) (other : Ledger) :
    (ctx.carried id (pure origins)).run other = .ok (origins, other) := by
  cases origins with
  | nil => rfl
  | cons first rest =>
    obtain ⟨_, _, start, ran⟩ := Own.run_bind_ok.mp ran
    obtain ⟨rfl, rfl⟩ := Own.run_pure_ok.mp start
    obtain ⟨t, _, typed, kept⟩ := Own.run_bind_ok.mp ran
    obtain ⟨same, -⟩ := Own.run_pure_ok.mp kept
    have known : (ctx.typeOf id).run other = .ok (t, other) := by
      rw [typeOf_run] at typed ⊢
      cases found : ctx.known id with
      | error failure => simp [found, Except.map] at typed
      | ok u =>
        simp only [found, Except.map, Except.ok.injEq, Prod.mk.injEq] at typed ⊢
        exact ⟨typed.1, trivial⟩
    refine Own.run_bind_ok.mpr ⟨_, _, rfl, Own.run_bind_ok.mpr ⟨_, _, known, ?_⟩⟩
    exact Own.run_pure_ok.mpr ⟨same, rfl⟩

/-- A place is found by the names in scope alone. -/
theorem place_run (e : Expr) (l : Ledger) :
    (ctx.place e).run l = (ctx.placeIn l.scopes e).map fun p => (p, l) := by
  fun_induction ctx.place e with
  | case1 _ name =>
    simp only [Context.placeIn]
    show (match l.lookup? name with
      | some id => pure { root := .var id }
      | none => pure { root := .unbound } : Own Place).run l = _
    unfold Ledger.lookup?
    cases l.scopes.findSome? fun s => s.names.lookup name <;> rfl
  | case2 _ object _ ih | case3 _ object _ ih | case4 _ object ih =>
    simp only [Context.placeIn, StateT.run_bind, typeOf_run]
    cases ctx.known object.id with
    | error failure => rfl
    | ok t =>
      show ((ctx.place object).run l >>= fun p => (pure (p.1.step t) : Own Place).run p.2) = _
      rw [ih]
      cases ctx.placeIn l.scopes object <;> rfl
  | case5 e other others further rest =>
    unfold Context.placeIn
    split
    · rename_i e; exact absurd rfl (other _ _)
    · rename_i e; exact absurd rfl (others _ _ _)
    · rename_i e; exact absurd rfl (further _ _ _)
    · rename_i e; exact absurd rfl (rest _ _)
    · rfl

theorem step_root (p : Place) (t : Ty) : (p.step t).root = p.root := by
  unfold Place.step
  split <;> rfl

/-- A place starts at a temporary value if it names no variable. -/
theorem placeIn_root {e : Expr} {scopes : List Scope} {p : Place}
    (found : ctx.placeIn scopes e = .ok p) : p.root = .temporary ↔ e.root? = none := by
  fun_induction ctx.placeIn scopes e generalizing p with
  | case1 _ name id | case2 _ name =>
    cases found
    simp [Expr.root?]
  | case3 _ object _ ih | case4 _ object _ ih | case5 _ object ih =>
    obtain ⟨t, -, found⟩ := bind_ok.mp found
    obtain ⟨inner, reached, found⟩ := bind_ok.mp found
    cases found
    rw [step_root, Expr.root?]
    exact ih reached
  | case6 e other others further rest =>
    cases found
    cases e <;> simp_all [Expr.root?]

/-! ### Parts of the code -/

theorem locate_run (e : Expr) (m : Machine) :
    (Step.locate e).run ctx m = (ctx.placeIn m.ledger.scopes e).map fun _ => m := by
  simp only [Step.run, Machine.perform, StateT.run_bind, place_run]
  cases ctx.placeIn m.ledger.scopes e <;> rfl

theorem typed_run (id : Nat) (m : Machine) :
    (Step.typed id).run ctx m = (ctx.known id).map fun _ => m := by
  simp only [Step.run, Machine.perform, StateT.run_bind, typeOf_run]
  cases ctx.known id <;> rfl

theorem known_ok {id : Nat} {t : Ty} (typed : ctx.known id = .ok t) : ctx.notes.typeOf id = t := by
  unfold Context.known at typed
  split at typed
  · cases typed
  · exact Except.ok.inj typed

namespace Code

/-- Running the code applies a rule and puts its value first. -/
def Yields (ctx : Context) (c : Code) (rule : Own (List Origin)) : Prop :=
  ∀ m, c.run ctx m = rule.run m.ledger >>= fun r =>
    .ok { m with ledger := r.2, values := r.1 :: m.values }

def Performs (ctx : Context) (c : Code) (rule : Own Unit) : Prop :=
  ∀ m, c.run ctx m = rule.run m.ledger >>= fun r => .ok { m with ledger := r.2 }

variable {first next body : Code} {x y : Own Unit} {v w : Own (List Origin)}

theorem yields_value : (Code.step .value).Yields ctx (pure []) := fun _ => rfl

theorem performs_skip : Code.skip.Performs ctx (pure ()) := fun _ => rfl

theorem performs_leave : Code.leave.Performs ctx setDiverged := fun _ => rfl

theorem performs_of_perform {s : Step} (same : ∀ m, s.run ctx m = m.perform x) :
    (Code.step s).Performs ctx x := by
  intro m
  rw [run, same, Machine.perform]
  rfl

theorem yields_of_yield {s : Step} (same : ∀ m, s.run ctx m = m.yield 0 v) :
    (Code.step s).Yields ctx v := by
  intro m
  rw [run, same, Machine.yield]
  rfl

theorem Performs.seq (start : first.Performs ctx x) (rest : next.Performs ctx y) :
    (Code.seq first next).Performs ctx (do x; y) := by
  intro m
  rw [run, start, StateT.run_bind, bind_assoc, bind_assoc]
  exact bind_congr_ok fun r _ => rest _

theorem Performs.andYields (start : first.Performs ctx x) (rest : next.Yields ctx v) :
    (Code.seq first next).Yields ctx (do x; v) := by
  intro m
  rw [run, start, StateT.run_bind, bind_assoc, bind_assoc]
  exact bind_congr_ok fun r _ => rest _

theorem Yields.andPerforms (start : first.Yields ctx v) (rest : next.Performs ctx y) :
    (Code.seq first next).Yields ctx (do let origins ← v; y; return origins) := by
  intro m
  rw [run, start, StateT.run_bind, bind_assoc, bind_assoc]
  refine bind_congr_ok fun r _ => (rest _).trans ?_
  rw [StateT.run_bind, bind_assoc]
  rfl

theorem Yields.discard (inner : body.Yields ctx v) :
    (Code.discard body).Performs ctx (do let _ ← v) := by
  intro m
  rw [run, inner, StateT.run_bind, bind_assoc, bind_assoc]
  rfl

theorem Yields.carried (inner : body.Yields ctx v) (id : Nat) :
    (Code.seq body (.step (.carried id))).Yields ctx (ctx.carried id v) := by
  intro m
  rw [run, inner, carried_bind, StateT.run_bind, bind_assoc, bind_assoc]
  rfl

theorem Performs.scope (inner : body.Performs ctx x) (isTemporary : Bool) (span : Span) :
    (Code.scope isTemporary span body).Performs ctx (do push isTemporary span; x; pop) := by
  intro m
  rw [run, inner]
  simp only [StateT.run_bind, bind_assoc]
  rfl

theorem Yields.scope (inner : body.Yields ctx v) (isTemporary : Bool) (span : Span) :
    (Code.scope isTemporary span body).Yields ctx
      (do push isTemporary span; let origins ← v; pop; return origins) := by
  intro m
  rw [run, inner]
  simp only [StateT.run_bind, bind_assoc]
  rfl

theorem Performs.scopes_eq (performs : body.Performs ctx x) (tidy : body.Tidy false) {m : Machine}
    {r : Unit × Ledger} (ran : x.run m.ledger = .ok r) : r.2.scopes = m.ledger.scopes := by
  have done : body.run ctx m = .ok { m with ledger := r.2 } := by rw [performs, ran, ok_bind]
  exact (tidy.grows_nil (tidy.ran (by simp) done).grows).scopes_eq

theorem yields_placeCode (e : Expr) (use : Use) {indices temporary : Code}
    (tidy : indices.Tidy false) (others : indices.Performs ctx x) (value : temporary.Yields ctx v) :
    (Context.placeCode e use indices temporary).Yields ctx (do
      let p ← ctx.place e
      if p.root == .temporary then v
      else do
        x
        ctx.usePlace p e use) := by
  intro m
  rw [Context.placeCode, run, run, locate_run, StateT.run_bind, place_run]
  cases found : ctx.placeIn m.ledger.scopes e with
  | error failure => rfl
  | ok p =>
    have root := placeIn_root found
    show Code.run ctx _ m = _
    cases start : e.root? with
    | none =>
      have isTemporary : p.root = .temporary := root.mpr start
      simp only [Option.isSome_none, Bool.false_eq_true, if_false, value m]
      simp [Except.map, ok_bind, isTemporary]
    | some name =>
      have isVariable : p.root ≠ .temporary := by simp [root, start]
      simp only [Option.isSome_some, if_true, run, others m, bind_assoc]
      simp only [Except.map, ok_bind, isVariable, beq_iff_eq, if_false, StateT.run_bind, bind_assoc]
      refine bind_congr_ok fun r ran => ?_
      simp only [Step.run, Machine.yield, StateT.run_bind, place_run, others.scopes_eq tidy ran, found]
      rfl

theorem yields_borrowCode {operand : Expr} {mutable : Bool} {site : NodeInfo}
    {evaluate indices : Code} (tidy : indices.Tidy false) (others : indices.Performs ctx x)
    (value : evaluate.Yields ctx v) :
    (Context.borrowCode operand mutable site evaluate indices).Yields ctx
      (ctx.borrow operand mutable site v x) := by
  intro m
  unfold Context.borrowCode Context.borrow
  split
  · simp only [Code.all, run, locate_run, StateT.run_bind, place_run, bind_assoc]
    cases found : ctx.placeIn m.ledger.scopes operand with
    | error failure => rfl
    | ok p =>
      simp only [Except.map, ok_bind, others m, bind_assoc]
      refine bind_congr_ok fun r ran => ?_
      simp only [Step.run, Machine.yield, Context.borrowSite, StateT.run_bind, place_run,
        others.scopes_eq tidy ran, found]
      rfl
  · simp only [Code.all, run, value m, bind_assoc, StateT.run_bind]
    exact bind_congr_ok fun r ran => rfl

theorem yields_argumentCode {a : Expr} {read move indices : Code} {r : Own (List Origin)}
    (tidy : indices.Tidy false) (reads : read.Yields ctx r) (moves : move.Yields ctx v)
    (others : indices.Performs ctx x) :
    (ctx.argumentCode a read move indices).Yields ctx (ctx.argument a r v x) := by
  have passed : (Code.seq (.step (.typed a.id))
      (if (ctx.notes.typeOf a.id).isRef then read else move)).Yields ctx
      (do if (← ctx.typeOf a.id).isRef then r else v) := by
    intro m
    simp only [run, typed_run, StateT.run_bind, typeOf_run]
    cases typed : ctx.known a.id with
    | error failure => rfl
    | ok t =>
      obtain rfl : ctx.notes.typeOf a.id = t := known_ok typed
      simp only [Except.map, ok_bind]
      split
      · exact reads m
      · exact moves m
  unfold Context.argumentCode Context.argument
  cases ctx.notes.coercions.get? a.id with
  | none => exact passed
  | some coercion =>
    cases coercion with
    | autoRef | autoRefMut => exact yields_borrowCode tidy others moves
    | _ => exact passed

end Code

/-- How a pattern consumes its value is known from the types of its bindings. -/
theorem useCode_run (ctx : Context) (bindings : List Binding) : ∃ r : Except Failure Unit,
    (∀ l, (Context.patternUse.go ctx bindings).run l = r.map fun _ => (ctx.useOf bindings, l)) ∧
      ∀ m, (ctx.useCode bindings).run ctx m = r.map fun _ => m := by
  induction bindings with
  | nil => exact ⟨.ok (), fun _ => rfl, fun _ => rfl⟩
  | cons b rest ih =>
    obtain ⟨r, goes, runs⟩ := ih
    cases typed : ctx.known b.info.id with
    | error failure =>
      refine ⟨.error failure, fun l => ?_, fun m => ?_⟩
      · rw [Context.patternUse.go, StateT.run_bind, typeOf_run, typed]
        rfl
      · rw [Context.useCode, run, run, typed_run, typed]
        rfl
    | ok t =>
      obtain rfl : ctx.notes.typeOf b.info.id = t := known_ok typed
      refine ⟨if (ctx.notes.typeOf b.info.id).isCopy then r else .ok (), fun l => ?_, fun m => ?_⟩
      · rw [Context.patternUse.go, StateT.run_bind, typeOf_run, typed, Context.useOf]
        simp only [Except.map, ok_bind]
        split
        · exact goes l
        · rfl
      · rw [Context.useCode, run, run, typed_run, typed]
        simp only [Except.map, ok_bind]
        split
        · exact runs m
        · rfl

theorem armsUseCode_run (ctx : Context) (arms : List MatchArm) : ∃ r : Except Failure Unit,
    (∀ l, (armsUse ctx arms).run l = r.map fun _ => (ctx.armsUseOf arms, l)) ∧
      ∀ m, (ctx.armsUseCode arms).run ctx m = r.map fun _ => m := by
  induction arms with
  | nil => exact ⟨.ok (), fun _ => by rw [armsUse]; rfl, fun _ => rfl⟩
  | cons arm rest ih =>
    obtain ⟨span, pattern, guard, body⟩ := arm
    obtain ⟨r, goes, runs⟩ := ih
    obtain ⟨q, used, checked⟩ := useCode_run ctx pattern.bindings
    refine ⟨do q; r, fun l => ?_, fun m => ?_⟩
    · rw [armsUse, Context.patternUse, StateT.run_bind, used]
      cases q with
      | error failure => rfl
      | ok _ =>
        simp only [Except.map, ok_bind, StateT.run_bind, goes, Context.armsUseOf]
        cases r <;> rfl
    · rw [Context.armsUseCode, run, checked]
      cases q with
      | error failure => rfl
      | ok _ => exact runs m

theorem eraseDups_eq_self {origins : List Origin} (distinct : origins.Nodup) :
    origins.eraseDups = origins := by
  induction origins with
  | nil => rfl
  | cons origin rest ih =>
    obtain ⟨fresh, restDistinct⟩ := List.nodup_cons.mp distinct
    rw [List.eraseDups_cons, List.filter_eq_self.mpr, ih restDistinct]
    intro other member
    have different : other ≠ origin := fun same => fresh (same ▸ member)
    simp [different]

theorem nodup_eraseDups (origins : List Origin) : origins.eraseDups.Nodup := by
  induction length : origins.length using Nat.strongRecOn generalizing origins with
  | _ n ih =>
    cases origins with
    | nil => simp
    | cons origin rest =>
      rw [List.eraseDups_cons, List.nodup_cons]
      refine ⟨by simp, ih _ ?_ _ rfl⟩
      subst length
      exact Nat.lt_succ_of_le (List.length_filter_le _ rest)

theorem union_union_nil (a b : List Origin) :
    Origin.union (Origin.union [] a) b = Origin.union a b := by
  simp only [Origin.union, List.nil_append, List.eraseDups_append,
    eraseDups_eq_self (nodup_eraseDups a)]
  congr 2
  simp [List.removeAll]

theorem ite_bind (c : Prop) [Decidable c] (x y : Own α) (f : α → Own β) :
    (if c then x else y) >>= f = if c then x >>= f else y >>= f := by
  split <;> rfl

/-- A loop: its parts are run twice, and the flows before and after each round are joined. -/
def loopRule (condition body : Own Unit) : Own Unit := do
  let before ← save
  condition
  let start ← save
  body
  let once ← save
  if once.diverged then restore start
  condition
  body
  merge [start, once, ← save]
  if before.diverged then setDiverged

theorem walkStmt_loop (span : Span) (condition : Expr) (body : Block) :
    walkStmt ctx (.loop span condition body) = (do
      push true span
      loopRule (do let _ ← eval ctx condition .read) (do let _ ← evalBlock ctx body .read)
      pop) := by
  rw [walkStmt]
  simp only [loopRule, bind_assoc, pure_bind, ite_bind]

theorem walkStmt_counted (span : Span) (init : Option Stmt) (condition update : Option Expr)
    (body : Block) : walkStmt ctx (.counted span init condition update body) = (do
      push true span
      (do push false span
          (do walkInit ctx init
              loopRule (do let _ ← evalOption ctx condition .read)
                (do let _ ← evalBlock ctx body .read; let _ ← evalOption ctx update .read))
          pop)
      pop) := by
  rw [walkStmt]
  simp only [loopRule, bind_assoc, pure_bind, ite_bind]

theorem save_run (l : Ledger) : save.run l = .ok (l.flow, l) := rfl

theorem restore_run (saved : Flow) (l : Ledger) :
    (restore saved).run l = .ok ((), { l with flow := l.flow.restore saved }) := rfl

theorem merge_run (paths : List Flow) (l : Ledger) :
    (merge paths).run l = .ok ((), { l with flow := l.flow.merge paths }) := rfl

namespace Code

variable {first next body : Code} {x y : Own Unit} {v w : Own (List Origin)}

/-- What follows code whose value is not looked at depends on the ledger alone. -/
theorem Performs.bind_discard (inner : (Code.discard body).Performs ctx x) (m : Machine)
    (k : Machine → Except Failure Machine) (same : ∀ after, k after = k (m.resume after)) :
    body.run ctx m >>= k = x.run m.ledger >>= fun r => k { m with ledger := r.2 } := by
  have performed := inner m
  simp only [run] at performed
  cases done : body.run ctx m with
  | error failure =>
    cases ruled : x.run m.ledger with
    | error other =>
      rw [done, ruled] at performed
      cases performed
      rfl
    | ok r =>
      rw [done, ruled] at performed
      cases performed
  | ok after =>
    cases ruled : x.run m.ledger with
    | error other =>
      rw [done, ruled] at performed
      cases performed
    | ok r =>
      rw [done, ruled] at performed
      have ended : m.resume after = { m with ledger := r.2 } := Except.ok.inj performed
      rw [ok_bind, ok_bind, same, ended]

theorem Yields.discardSeq (start : first.Yields ctx v) (rest : next.Yields ctx w) :
    (Code.discard (.seq first next)).Performs ctx (do let _ ← v; let _ ← w) := by
  intro m
  simp only [run, start m, bind_assoc, StateT.run_bind]
  refine bind_congr_ok fun r _ => ?_
  simp only [ok_bind, rest _, bind_assoc]
  rfl

theorem write_run {m : Machine} {indices : Code} {id : Nat} {target : Expr} {p : Place} {r : List Origin × Ledger}
    {q : Unit × Ledger} (tidy : indices.Tidy false) (others : indices.Performs ctx x)
    (kept : (ctx.carried id (pure r.1)).run q.2 = .ok (r.1, q.2))
    (found : ctx.placeIn r.2.scopes target = .ok p) (moved : x.run r.2 = .ok q) :
    (Step.write target id).run ctx { m with ledger := q.2, values := r.1 :: m.values } =
      (match p.root with
        | .var id => ctx.write id p target r.1
        | _ => pure ()).run q.2 >>= fun s =>
          .ok { m with ledger := s.2, values := r.1 :: m.values } := by
  have same : q.2.scopes = r.2.scopes :=
    others.scopes_eq (m := { m with ledger := r.2 }) tidy moved
  simp only [Step.run, Machine.perform, Machine.top, List.headD_cons, Context.writeSite,
    StateT.run_bind, kept, place_run, same, found, Except.map, ok_bind]
  cases p.root <;> rfl

/-- An assignment: the indices in the target do not change where it starts. -/
theorem performs_assign {value indices : Code} {id : Nat} (target : Expr) (tidy : indices.Tidy false)
    (evaluates : value.Yields ctx v) (others : indices.Performs ctx x)
    (carried : ∀ {l origins after}, v.run l = .ok (origins, after) →
      (ctx.carried id (pure origins)).run after = .ok (origins, after)) :
    (Code.discard (.all [value, .step (.locate target),
      if target.root?.isSome then .seq indices (.step (.write target id)) else .skip])).Performs ctx (do
        let origins ← v
        let p ← ctx.place target
        match p.root with
        | .temporary => pure ()
        | .unbound => x
        | .var id => do
          x
          ctx.write id p target origins) := by
  intro m
  simp only [Code.all, run, evaluates m, bind_assoc, StateT.run_bind]
  refine bind_congr_ok fun r ran => ?_
  simp only [ok_bind, locate_run, place_run]
  cases found : ctx.placeIn r.2.scopes target with
  | error failure => rfl
  | ok p =>
    have root := placeIn_root found
    simp only [Except.map, ok_bind]
    cases start : target.root? with
    | none =>
      have isTemporary : p.root = .temporary := root.mpr start
      rw [isTemporary]
      rfl
    | some name =>
      have isVariable : p.root ≠ .temporary := by simp [root, start]
      simp only [Option.isSome_some, if_true, run, others _, bind_assoc]
      have kept := carried_anywhere (carried ran)
      cases shape : p.root with
      | temporary => exact absurd shape isVariable
      | unbound =>
        refine bind_congr_ok fun q moved => ?_
        rw [ok_bind, write_run tidy others (kept q.2) found moved, shape]
        rfl
      | var id =>
        simp only [StateT.run_bind, bind_assoc]
        refine bind_congr_ok fun q moved => ?_
        rw [ok_bind, write_run tidy others (kept q.2) found moved, shape, bind_assoc]
        rfl

/-- Two branches from the same flow, which are joined. -/
theorem yields_branch (consequent : first.Yields ctx v) (alternative : next.Yields ctx w) :
    (Code.choice [.seq first (.step .collect), .seq next (.step .collect)]).Yields ctx (do
      let before ← save
      let origins ← v
      let after ← save
      restore before
      let more ← w
      merge [after, ← save]
      return Origin.union origins more) := by
  intro m
  simp only [run, runArms, consequent _, alternative _, bind_assoc, StateT.run_bind, save_run, ok_bind,
    Flow.restore_self]
  refine bind_congr_ok fun a _ => ?_
  simp only [Step.run, ok_bind, restore_run, Machine.withFlow]
  refine bind_congr_ok fun b _ => ?_
  simp only [merge_run, ok_bind, ← union_union_nil a.1 b.1]
  rfl

theorem performs_loop {test round : Code} (tests : (Code.discard test).Performs ctx x)
    (rounds : (Code.discard round).Performs ctx y) :
    (Code.loop test round).Performs ctx (loopRule x y) := by
  intro m
  unfold loopRule
  rw [run, tests.bind_discard m _ fun _ => rfl]
  simp only [StateT.run_bind, save_run, ok_bind, bind_assoc]
  refine bind_congr_ok fun a _ => ?_
  rw [rounds.bind_discard (m.resume { m with ledger := a.2 }) _ fun _ => rfl]
  refine bind_congr_ok fun b _ => ?_
  -- The second round is the same wherever it starts.
  have second (l : Ledger) : (do
      let retested ← test.run ctx { m with ledger := l }
      let twice ← round.run ctx (m.resume retested)
      pure (m.resume (m.looped { m with ledger := a.2 } { m with ledger := b.2 } twice))) =
      (do x
          y
          merge [a.2.flow, b.2.flow, ← save]
          if m.ledger.flow.diverged then setDiverged else pure () : Own Unit).run l >>= fun r =>
        .ok { m with ledger := r.2 } := by
    rw [tests.bind_discard { m with ledger := l } _ fun _ => rfl]
    simp only [StateT.run_bind, save_run, ok_bind, merge_run, bind_assoc]
    refine bind_congr_ok fun c _ => ?_
    rw [rounds.bind_discard (m.resume { m with ledger := c.2 }) _ fun _ => rfl]
    refine bind_congr_ok fun d _ => ?_
    simp only [Machine.looped]
    split <;> rfl
  by_cases stopped : b.2.flow.diverged = true
  · simp only [stopped, if_true]
    refine Eq.trans ?_ (second { b.2 with flow := b.2.flow.restore a.2.flow })
    simp only [Machine.again, stopped, if_true]
    rfl
  · simp only [stopped]
    refine Eq.trans ?_ (second b.2)
    simp only [Machine.again, stopped]
    rfl

theorem arm_run {guards guard body : Code} {bindings : List Binding} {span : Span}
    (conditions : guards.Performs ctx x) (condition : guard.Yields ctx v) (value : body.Yields ctx w)
    (m : Machine) : (Code.scope false span (.all [.step (.bind bindings), guards, .discard guard, body,
      .step .collect, .step .keepFound])).run ctx m = (do
        push false span
        ctx.bindAll (some m.top) bindings
        x
        let _ ← v
        let more ← w
        let origins := Origin.union m.found more
        keep origins
        pop
        return origins : Own (List Origin)).run m.ledger >>= fun r =>
          .ok { m with ledger := r.2, found := r.1 } := by
  simp only [Code.all, run, Step.run, Machine.perform, StateT.run_bind, bind_assoc]
  refine bind_congr_ok fun a _ => ?_
  simp only [pure_eq_ok, ok_bind, conditions _, bind_assoc]
  refine bind_congr_ok fun b _ => ?_
  simp only [ok_bind, condition _, bind_assoc]
  refine bind_congr_ok fun c _ => ?_
  simp only [ok_bind, value _, bind_assoc]
  refine bind_congr_ok fun d _ => ?_
  rfl

end Code

/-- The arguments of a call, and a step that is applied to their values and to the value before. -/
theorem args_run {args : Code} {step : Step} {rule : Own (List (List Origin))} {count : Nat}
    {result : List Origin → List (List Origin) → List Origin}
    (evaluates : ∀ m, args.run ctx m = rule.run m.ledger >>= fun r =>
      .ok { m with ledger := r.2, values := r.1.reverse ++ m.values })
    (length : ∀ {l origins after}, rule.run l = .ok (origins, after) → origins.length = count)
    (applied : ∀ m, step.run ctx m = .ok { m with
      values := result (m.values.getD count []) (m.args count) :: m.values.drop (count + 1) })
    (m : Machine) (origins : List Origin) (values : List (List Origin)) :
    (Code.seq args (.step step)).run ctx { m with values := origins :: values } =
      (do return result origins (← rule) : Own (List Origin)).run m.ledger >>= fun r =>
        .ok { m with ledger := r.2, values := r.1 :: values } := by
  simp only [run, evaluates, StateT.run_bind, bind_assoc]
  refine bind_congr_ok fun r ran => ?_
  obtain rfl := length ran
  rw [ok_bind, applied]
  simp [Machine.args, List.drop_append, pure_eq_ok, ok_bind]

theorem yields_call {receiver args : Code} {v : Own (List Origin)}
    {rule : Own (List (List Origin))} {count : Nat} (step : Step)
    (result : List Origin → List (List Origin) → List Origin) (received : receiver.Yields ctx v)
    (evaluates : ∀ m, args.run ctx m = rule.run m.ledger >>= fun r =>
      .ok { m with ledger := r.2, values := r.1.reverse ++ m.values })
    (length : ∀ {l origins after}, rule.run l = .ok (origins, after) → origins.length = count)
    (applied : ∀ m, step.run ctx m = .ok { m with
      values := result (m.values.getD count []) (m.args count) :: m.values.drop (count + 1) }) :
    (Code.all [receiver, args, .step step]).Yields ctx (do
      let origins ← v
      return result origins (← rule)) := by
  intro m
  simp only [Code.all]
  rw [run, received, StateT.run_bind, bind_assoc, bind_assoc]
  refine bind_congr_ok fun r _ => ?_
  exact args_run evaluates length applied { m with ledger := r.2 } r.1 m.values

/-- The values of expressions are carried already. -/
theorem eval_carried (e : Expr) (use : Use) {l after : Ledger} {origins : List Origin}
    (ran : (eval ctx e use).run l = .ok (origins, after)) :
    (ctx.carried e.id (pure origins)).run after = .ok (origins, after) := by
  have nothing (none : origins = []) :
      (ctx.carried e.id (pure origins)).run after = .ok (origins, after) := by
    subst none
    rfl
  cases e with
  | int | float | string | bool =>
    rw [eval] at ran
    obtain ⟨rfl, rfl⟩ := Own.run_pure_ok.mp ran
    exact nothing rfl
  | template | unary | cast =>
    rw [eval] at ran
    obtain ⟨_, _, -, ended⟩ := Own.run_bind_ok.mp ran
    exact nothing (Own.run_pure_ok.mp ended).1.symm
  | binary =>
    rw [eval] at ran
    obtain ⟨_, _, -, more⟩ := Own.run_bind_ok.mp ran
    obtain ⟨_, _, -, ended⟩ := Own.run_bind_ok.mp more
    exact nothing (Own.run_pure_ok.mp ended).1.symm
  | assign info target value =>
    rw [eval] at ran
    obtain ⟨_, _, -, more⟩ := Own.run_bind_ok.mp ran
    obtain ⟨p, _, -, rest⟩ := Own.run_bind_ok.mp more
    cases root : p.root with
    | temporary =>
      simp only [root] at rest
      exact nothing (Own.run_pure_ok.mp rest).1.symm
    | unbound =>
      simp only [root] at rest
      obtain ⟨_, _, -, ended⟩ := Own.run_bind_ok.mp rest
      exact nothing (Own.run_pure_ok.mp ended).1.symm
    | var id =>
      simp only [root] at rest
      obtain ⟨_, _, -, written⟩ := Own.run_bind_ok.mp rest
      obtain ⟨_, _, -, ended⟩ := Own.run_bind_ok.mp written
      exact nothing (Own.run_pure_ok.mp ended).1.symm
  | ident | field | index | deref | ref | call | methodCall | struct | variant | tuple | array
  | branch | select | block =>
    rw [eval] at ran
    exact carried_carried ran

theorem length_evalArgs {args : List Expr} {l after : Ledger} {origins : List (List Origin)}
    (ran : (evalArgs ctx args).run l = .ok (origins, after)) : origins.length = args.length := by
  induction args generalizing l after origins with
  | nil =>
    rw [evalArgs] at ran
    obtain ⟨rfl, -⟩ := Own.run_pure_ok.mp ran
    rfl
  | cons a rest ih =>
    rw [evalArgs] at ran
    obtain ⟨first, middle, -, others⟩ := Own.run_bind_ok.mp ran
    obtain ⟨more, stop, restRan, ended⟩ := Own.run_bind_ok.mp others
    obtain ⟨rfl, rfl⟩ := Own.run_pure_ok.mp ended
    simp [ih restRan]

mutual

/-- Running the code of an expression is checking it. -/
theorem yields_code : ∀ (e : Expr) (use : Use), (code ctx e use).Yields ctx (eval ctx e use)
  | .int .., _ | .float .., _ | .string .., _ | .bool .., _ => by
    rw [code, eval]
    exact yields_value
  | .template _ parts, _ => by
    rw [code, eval]
    exact (performs_codeParts parts).andYields yields_value
  | .ident info name, use => by
    rw [code, eval]
    exact (yields_of_yield fun _ => rfl).carried info.id
  | .binary _ _ left right, _ => by
    rw [code, eval]
    have both := (yields_code left .read).discard.andYields
      ((yields_code right .read).discard.andYields yields_value)
    simpa [Code.all] using both
  | .unary _ _ operand, _ | .cast _ operand _, _ => by
    rw [code, eval]
    simpa using (yields_code operand .read).discard.andYields yields_value
  | .field info object name, use => by
    rw [code, eval]
    exact (yields_placeCode _ use (tidy_codeIndices object) (performs_codeIndices object)
      (yields_code object .move)).carried info.id
  | .index info object index, use => by
    rw [code, eval]
    have others := (yields_code index .read).discard.seq (performs_codeIndices object)
    have value := (yields_code object .move).andPerforms (yields_code index .read).discard
    have tidy : Tidy false (.seq (.discard (code ctx index .read)) (codeIndices ctx object)) :=
      .seq (.discard (tidy_code index .read)) (tidy_codeIndices object)
    have placed := (yields_placeCode (.index info object index) use tidy others value).carried info.id
    simpa only [bind_assoc, pure_bind] using placed
  | .deref info operand, use => by
    rw [code, eval]
    refine Yields.carried ?_ info.id
    split
    · exact yields_placeCode _ use (tidy_codeIndices operand) (performs_codeIndices operand)
        (yields_code operand .read)
    · exact yields_code operand .read
  | .ref info mutable operand, _ => by
    rw [code, eval]
    exact (yields_borrowCode (tidy_codeIndices operand) (performs_codeIndices operand)
      (yields_code operand .move)).carried info.id
  | .call info callee args, _ => by
    rw [code, eval]
    refine Yields.carried ?_ info.id
    cases ctx.notes.calls.get? info.id with
    | none =>
      have call := yields_call (.gather args.length) (fun origins => List.foldl Origin.union origins)
        yields_value (codeArgs_run args) length_evalArgs fun _ => rfl
      simpa only [Code.all, bind_assoc, pure_bind] using
        (yields_code callee .read).discard.andYields call
    | some signature =>
      have call := yields_call (.returned signature args.length) (ctx.returned signature)
        yields_value (codeArgs_run args) length_evalArgs fun _ => rfl
      cases whole : Context.isWhole callee with
      | true => simpa [Code.all] using performs_skip.andYields call
      | false =>
        simpa [Code.all] using (yields_code callee .read).discard.andYields call
  | .methodCall info receiver _ args, _ => by
    rw [code, eval]
    refine Yields.carried ?_ info.id
    cases ctx.notes.methods.get? info.id with
    | none =>
      exact yields_call (.gather args.length) (fun origins => List.foldl Origin.union origins)
        (yields_code receiver .read) (codeArgs_run args) length_evalArgs fun _ => rfl
    | some signature =>
      have call {c : Code} {v : Own (List Origin)} (received : c.Yields ctx v) :=
        yields_call (.returned signature args.length) (ctx.returned signature) received
          (codeArgs_run args) length_evalArgs fun _ => rfl
      by_cases taken : (signature.self.map Signature.Self.mode == some .value) = true
      · simp only [taken, if_true]
        exact call (yields_code receiver .move)
      · simp only [taken]
        exact call (yields_argumentCode (tidy_codeIndices receiver) (yields_code receiver .read)
          (yields_code receiver .move) (performs_codeIndices receiver))
  | .struct info _ fields, _ => by
    rw [code, eval]
    refine Yields.carried (fun m => ?_) info.id
    exact codeFields_run fields [] m.values m
  | .variant info _ _ args fields, _ => by
    rw [code, eval]
    refine Yields.carried (fun m => ?_) info.id
    simp only [Code.all, run, Step.run, ok_bind, codeAll_run args, StateT.run_bind, bind_assoc]
    exact bind_congr_ok fun r _ => codeFields_run fields r.1 m.values { m with ledger := r.2 }
  | .tuple info elements, _ | .array info elements, _ => by
    rw [code, eval]
    refine Yields.carried (fun m => ?_) info.id
    exact codeAll_run elements [] m.values m
  | .assign _ target value, _ => by
    rw [code, eval]
    have assigned := performs_assign target (tidy_codeIndices target) (yields_code value .move)
      (performs_codeIndices target) (eval_carried value .move)
    refine (congrArg (Yields ctx _) ?_).mp (assigned.andYields yields_value)
    simp only [bind_assoc]
    refine bind_congr fun origins => bind_congr fun p => ?_
    cases p.root <;> simp only [bind_assoc, pure_bind]
  | .branch info condition consequent alternative, use => by
    rw [code, eval]
    refine Yields.carried ?_ info.id
    simpa only [bind_assoc, pure_bind] using (yields_code condition .read).discard.andYields
      (yields_branch (yields_code consequent use) (yields_codeOption alternative use))
  | .select info scrutinee arms, use => by
    rw [code, eval]
    refine Yields.carried (fun m => ?_) info.id
    obtain ⟨r, used, checked⟩ := armsUseCode_run ctx arms
    simp only [Code.all]
    rw [run, checked, StateT.run_bind, used]
    cases r with
    | error failure => rfl
    | ok _ =>
      simp only [Except.map, ok_bind, StateT.run_bind, bind_assoc]
      rw [run, yields_code scrutinee (ctx.armsUseOf arms), bind_assoc]
      refine bind_congr_ok fun s _ => ?_
      simp only [ok_bind, run, codeArms_run arms, save_run, bind_assoc]
      refine bind_congr_ok fun t _ => ?_
      obtain ⟨⟨origins, ends⟩, l⟩ := t
      cases ends <;> rfl
  | .block body, use => by
    rw [code, eval]
    exact (yields_codeBlock body use).carried body.id

theorem performs_codeIndices : ∀ e : Expr, (codeIndices ctx e).Performs ctx (indices ctx e)
  | .field _ object _ => by
    rw [codeIndices, indices]
    exact performs_codeIndices object
  | .index _ object index => by
    rw [codeIndices, indices]
    simpa using (yields_code index .read).discard.seq (performs_codeIndices object)
  | .deref _ operand => by
    rw [codeIndices, indices]
    exact performs_codeIndices operand
  | .int .. | .float .. | .string .. | .bool .. | .ident .. | .template .. | .binary .. | .unary ..
  | .call .. | .methodCall .. | .ref .. | .struct .. | .variant .. | .tuple .. | .array .. | .cast ..
  | .assign .. | .select .. | .branch .. | .block .. => by
    rw [codeIndices, indices] <;> first | exact performs_skip | simp

theorem performs_codeParts : ∀ parts : List TemplatePart,
    (codeParts ctx parts).Performs ctx (evalParts ctx parts)
  | [] => by
    rw [codeParts, evalParts]
    exact performs_skip
  | .text _ :: rest => by
    rw [codeParts, evalParts]
    exact performs_codeParts rest
  | .value e :: rest => by
    rw [codeParts, evalParts]
    simpa using (yields_code e .read).discard.seq (performs_codeParts rest)

theorem codeArgs_run : ∀ (args : List Expr) (m : Machine), (codeArgs ctx args).run ctx m =
    (evalArgs ctx args).run m.ledger >>= fun r =>
      .ok { m with ledger := r.2, values := r.1.reverse ++ m.values }
  | [], m => by
    rw [codeArgs, evalArgs]
    rfl
  | a :: rest, m => by
    rw [codeArgs, evalArgs, run, yields_argumentCode (tidy_codeIndices a) (yields_code a .read)
      (yields_code a .move) (performs_codeIndices a)]
    simp only [StateT.run_bind, bind_assoc]
    refine bind_congr_ok fun r _ => ?_
    rw [ok_bind, codeArgs_run rest]
    refine bind_congr_ok fun s _ => ?_
    simp [pure_eq_ok, ok_bind]

theorem codeAll_run : ∀ (es : List Expr) (origins : List Origin) (values : List (List Origin))
    (m : Machine), (codeAll ctx es).run ctx { m with values := origins :: values } =
      (evalAll ctx es origins).run m.ledger >>= fun r =>
        .ok { m with ledger := r.2, values := r.1 :: values }
  | [], origins, values, m => by
    rw [codeAll, evalAll]
    rfl
  | e :: rest, origins, values, m => by
    rw [codeAll, evalAll]
    simp only [Code.all, run, yields_code e .move _, StateT.run_bind, bind_assoc]
    refine bind_congr_ok fun r _ => ?_
    exact codeAll_run rest (Origin.union origins r.1) values { m with ledger := r.2 }

theorem codeFields_run : ∀ (fields : List FieldInit) (origins : List Origin)
    (values : List (List Origin)) (m : Machine),
    (codeFields ctx fields).run ctx { m with values := origins :: values } =
      (evalFields ctx fields origins).run m.ledger >>= fun r =>
        .ok { m with ledger := r.2, values := r.1 :: values }
  | [], origins, values, m => by
    rw [codeFields, evalFields]
    rfl
  | .mk _ _ value :: rest, origins, values, m => by
    rw [codeFields, evalFields]
    simp only [Code.all, run, yields_code value .move _, StateT.run_bind, bind_assoc]
    refine bind_congr_ok fun r _ => ?_
    exact codeFields_run rest (Origin.union origins r.1) values { m with ledger := r.2 }

theorem yields_codeOption : ∀ (e : Option Expr) (use : Use),
    (codeOption ctx e use).Yields ctx (evalOption ctx e use)
  | none, _ => by
    rw [codeOption, evalOption]
    exact yields_value
  | some e, use => by
    rw [codeOption, evalOption]
    exact yields_code e use

theorem codeArms_run : ∀ (arms : List MatchArm) (use : Use) (before : Flow) (m : Machine),
    runArms ctx (codeArms ctx arms use) before m =
      (evalArms ctx arms use m.top before m.found).run m.ledger >>= fun r =>
        .ok ({ m with ledger := r.2, found := r.1.1 }, r.1.2)
  | [], use, before, m => by
    rw [codeArms, evalArms, runArms]
    rfl
  | .mk span pattern guard body :: rest, use, before, m => by
    rw [codeArms, evalArms, runArms, arm_run (performs_codeGuards pattern)
      (yields_codeOption guard .read) (yields_code body use)]
    simp only [StateT.run_bind, bind_assoc, restore_run, ok_bind]
    refine bind_congr_ok fun pushed _ => bind_congr_ok fun bound _ => bind_congr_ok fun checked _ =>
      bind_congr_ok fun guarded _ => bind_congr_ok fun value _ => bind_congr_ok fun kept _ =>
        bind_congr_ok fun popped _ => ?_
    simp only [StateT.run_pure, pure_eq_ok, ok_bind, save_run, codeArms_run rest, bind_assoc]
    rfl

theorem yields_codeBlock : ∀ (b : Block) (use : Use),
    (codeBlock ctx b use).Yields ctx (evalBlock ctx b use)
  | .mk info stmts none, use => by
    rw [codeBlock, evalBlock]
    have inner := (performs_codeStmts stmts).andYields yields_value
    simpa using inner.scope false info.span
  | .mk info stmts (some value), use => by
    rw [codeBlock, evalBlock]
    have kept : (Code.seq (code ctx value use) (.step .keep)).Yields ctx
        (do let origins ← eval ctx value use; keep origins; return origins) := by
      intro m
      rw [run, yields_code value use, StateT.run_bind, bind_assoc, bind_assoc]
      rfl
    have inner := (performs_codeStmts stmts).andYields (kept.scope true value.span)
    simpa only [bind_assoc, pure_bind] using inner.scope false info.span

theorem performs_codeStmts : ∀ stmts : List Stmt,
    (codeStmts ctx stmts).Performs ctx (walkStmts ctx stmts)
  | [] => by
    rw [codeStmts, walkStmts]
    exact performs_skip
  | s :: rest => by
    rw [codeStmts, walkStmts]
    exact (performs_codeStmt s).seq (performs_codeStmts rest)

theorem performs_codeStmt : ∀ s : Stmt, (codeStmt ctx s).Performs ctx (walkStmt ctx s)
  | .bind span pattern _ none => by
    rw [codeStmt, walkStmt]
    exact (performs_of_perform fun _ => rfl).scope true span
  | .bind span pattern _ (some value) => by
    rw [codeStmt, walkStmt]
    obtain ⟨r, used, checked⟩ := useCode_run ctx pattern.bindings
    have bound : (Code.discard (.all [ctx.useCode pattern.bindings,
        code ctx value (ctx.useOf pattern.bindings), .step (.bind pattern.bindings)])).Performs ctx
        (do let origins ← eval ctx value (← ctx.patternUse pattern)
            ctx.bindAll (some origins) pattern.bindings) := by
      intro m
      simp only [Code.all, run, checked, Context.patternUse, StateT.run_bind, used]
      cases r with
      | error failure => rfl
      | ok _ =>
        simp only [Except.map, ok_bind, yields_code value _ _, bind_assoc]
        refine bind_congr_ok fun s _ => ?_
        simp only [Step.run, Machine.perform, bind_assoc]
        rfl
    simpa only [bind_assoc, pure_bind] using bound.scope true span
  | .expr span value => by
    rw [codeStmt, walkStmt]
    simpa using (yields_code value .read).discard.scope true span
  | .ret span none => by
    rw [codeStmt, walkStmt]
    exact performs_leave.scope true span
  | .ret span (some value) => by
    rw [codeStmt, walkStmt]
    have checked : (Code.discard (.seq (code ctx value .move) (.step (.escape value.span)))).Performs
        ctx (do ctx.checkEscape value.span (← eval ctx value .move)) := by
      intro m
      simp only [run, yields_code value _ _, StateT.run_bind, bind_assoc]
      refine bind_congr_ok fun s _ => ?_
      simp only [ok_bind, Step.run, Machine.perform, bind_assoc]
      rfl
    simpa only [bind_assoc, pure_bind] using (checked.seq performs_leave).scope true span
  | .loop span condition body => by
    rw [codeStmt, walkStmt_loop]
    exact (performs_loop (yields_code condition .read).discard
      (yields_codeBlock body .read).discard).scope true span
  | .counted span init condition update body => by
    rw [codeStmt, walkStmt_counted]
    have looped := performs_loop (yields_codeOption condition .read).discard
      ((yields_codeBlock body .read).discardSeq (yields_codeOption update .read))
    exact (((performs_codeInit init).seq looped).scope false span).scope true span

theorem performs_codeInit : ∀ init : Option Stmt,
    (codeInit ctx init).Performs ctx (walkInit ctx init)
  | none => by
    rw [codeInit, walkInit]
    exact performs_skip
  | some s => by
    rw [codeInit, walkInit]
    exact performs_codeStmt s

theorem performs_codeGuards : ∀ p : Pattern, (codeGuards ctx p).Performs ctx (guardsPattern ctx p)
  | .tuple _ elements => by
    rw [codeGuards, guardsPattern]
    exact performs_codeGuardsAll elements
  | .list _ front _ _ => by
    rw [codeGuards, guardsPattern]
    exact performs_codeGuardsAll front
  | .record _ _ fields _ => by
    rw [codeGuards, guardsPattern]
    exact performs_codeGuardsFields fields
  | .variant _ _ _ args fields _ => by
    rw [codeGuards, guardsPattern]
    exact (performs_codeGuardsAll args).seq (performs_codeGuardsFields fields)
  | .alternatives _ choices => by
    rw [codeGuards, guardsPattern]
    exact performs_codeGuardsAll choices
  | .guarded _ inner condition => by
    rw [codeGuards, guardsPattern]
    have parts := (yields_code condition .read).discard.seq
      ((performs_codeGuards inner).seq (performs_codeInner condition))
    simpa [Code.all] using parts
  | .wildcard _ | .binding _ | .literal .. | .range .. => by
    rw [codeGuards, guardsPattern]
    exact performs_skip

theorem performs_codeGuardsAll : ∀ ps : List Pattern,
    (codeGuardsAll ctx ps).Performs ctx (guardsPatterns ctx ps)
  | [] => by
    rw [codeGuardsAll, guardsPatterns]
    exact performs_skip
  | p :: rest => by
    rw [codeGuardsAll, guardsPatterns]
    exact (performs_codeGuards p).seq (performs_codeGuardsAll rest)

theorem performs_codeGuardsFields : ∀ ps : List FieldPattern,
    (codeGuardsFields ctx ps).Performs ctx (guardsFieldPatterns ctx ps)
  | [] => by
    rw [codeGuardsFields, guardsFieldPatterns]
    exact performs_skip
  | .mk _ p :: rest => by
    rw [codeGuardsFields, guardsFieldPatterns]
    exact (performs_codeGuards p).seq (performs_codeGuardsFields rest)

theorem performs_codeInner : ∀ e : Expr, (codeInner ctx e).Performs ctx (guards ctx e)
  | .int .. | .float .. | .string .. | .bool .. | .ident .. => by
    rw [codeInner, guards]
    exact performs_skip
  | .template _ parts => by
    rw [codeInner, guards]
    exact performs_codeInnerParts parts
  | .binary _ _ left right => by
    rw [codeInner, guards]
    exact (performs_codeInner left).seq (performs_codeInner right)
  | .unary _ _ operand | .cast _ operand _ | .ref _ _ operand | .deref _ operand
  | .field _ operand _ => by
    rw [codeInner, guards]
    exact performs_codeInner operand
  | .call _ callee args => by
    rw [codeInner, guards]
    exact (performs_codeInner callee).seq (performs_codeInnerAll args)
  | .methodCall _ receiver _ args => by
    rw [codeInner, guards]
    exact (performs_codeInner receiver).seq (performs_codeInnerAll args)
  | .index _ object index => by
    rw [codeInner, guards]
    exact (performs_codeInner object).seq (performs_codeInner index)
  | .struct _ _ fields => by
    rw [codeInner, guards]
    exact performs_codeInnerFields fields
  | .variant _ _ _ args fields => by
    rw [codeInner, guards]
    exact (performs_codeInnerAll args).seq (performs_codeInnerFields fields)
  | .tuple _ elements | .array _ elements => by
    rw [codeInner, guards]
    exact performs_codeInnerAll elements
  | .assign _ target value => by
    rw [codeInner, guards]
    exact (performs_codeInner target).seq (performs_codeInner value)
  | .select _ scrutinee arms => by
    rw [codeInner, guards]
    exact (performs_codeInner scrutinee).seq (performs_codeInnerArms arms)
  | .branch _ condition consequent alternative => by
    rw [codeInner, guards]
    exact (performs_codeInner condition).seq
      ((performs_codeInner consequent).seq (performs_codeInnerOption alternative))
  | .block body => by
    rw [codeInner, guards]
    exact performs_codeInnerBlock body

theorem performs_codeInnerAll : ∀ es : List Expr,
    (codeInnerAll ctx es).Performs ctx (guardsAll ctx es)
  | [] => by
    rw [codeInnerAll, guardsAll]
    exact performs_skip
  | e :: rest => by
    rw [codeInnerAll, guardsAll]
    exact (performs_codeInner e).seq (performs_codeInnerAll rest)

theorem performs_codeInnerOption : ∀ e : Option Expr,
    (codeInnerOption ctx e).Performs ctx (guardsOption ctx e)
  | none => by
    rw [codeInnerOption, guardsOption]
    exact performs_skip
  | some e => by
    rw [codeInnerOption, guardsOption]
    exact performs_codeInner e

theorem performs_codeInnerParts : ∀ parts : List TemplatePart,
    (codeInnerParts ctx parts).Performs ctx (guardsParts ctx parts)
  | [] => by
    rw [codeInnerParts, guardsParts]
    exact performs_skip
  | .text _ :: rest => by
    rw [codeInnerParts, guardsParts]
    exact performs_codeInnerParts rest
  | .value e :: rest => by
    rw [codeInnerParts, guardsParts]
    exact (performs_codeInner e).seq (performs_codeInnerParts rest)

theorem performs_codeInnerFields : ∀ fields : List FieldInit,
    (codeInnerFields ctx fields).Performs ctx (guardsFields ctx fields)
  | [] => by
    rw [codeInnerFields, guardsFields]
    exact performs_skip
  | .mk _ _ value :: rest => by
    rw [codeInnerFields, guardsFields]
    exact (performs_codeInner value).seq (performs_codeInnerFields rest)

theorem performs_codeInnerArms : ∀ arms : List MatchArm,
    (codeInnerArms ctx arms).Performs ctx (guardsArms ctx arms)
  | [] => by
    rw [codeInnerArms, guardsArms]
    exact performs_skip
  | .mk _ pattern guard body :: rest => by
    rw [codeInnerArms, guardsArms]
    exact (performs_codeGuards pattern).seq ((performs_codeInnerOption guard).seq
      ((performs_codeInner body).seq (performs_codeInnerArms rest)))

theorem performs_codeInnerBlock : ∀ b : Block,
    (codeInnerBlock ctx b).Performs ctx (guardsBlock ctx b)
  | .mk _ stmts tail => by
    rw [codeInnerBlock, guardsBlock]
    exact (performs_codeInnerStmts stmts).seq (performs_codeInnerOption tail)

theorem performs_codeInnerStmts : ∀ stmts : List Stmt,
    (codeInnerStmts ctx stmts).Performs ctx (guardsStmts ctx stmts)
  | [] => by
    rw [codeInnerStmts, guardsStmts]
    exact performs_skip
  | s :: rest => by
    rw [codeInnerStmts, guardsStmts]
    exact (performs_codeInnerStmt s).seq (performs_codeInnerStmts rest)

theorem performs_codeInnerStmt : ∀ s : Stmt,
    (codeInnerStmt ctx s).Performs ctx (guardsStmt ctx s)
  | .bind _ pattern _ init => by
    rw [codeInnerStmt, guardsStmt]
    exact (performs_codeGuards pattern).seq (performs_codeInnerOption init)
  | .expr _ value => by
    rw [codeInnerStmt, guardsStmt]
    exact performs_codeInner value
  | .ret _ value => by
    rw [codeInnerStmt, guardsStmt]
    exact performs_codeInnerOption value
  | .loop _ condition body => by
    rw [codeInnerStmt, guardsStmt]
    exact (performs_codeInner condition).seq (performs_codeInnerBlock body)
  | .counted _ init condition update body => by
    rw [codeInnerStmt, guardsStmt]
    exact (performs_codeInnerInit init).seq ((performs_codeInnerOption condition).seq
      ((performs_codeInnerBlock body).seq (performs_codeInnerOption update)))

theorem performs_codeInnerInit : ∀ init : Option Stmt,
    (codeInnerInit ctx init).Performs ctx (guardsInit ctx init)
  | none => by
    rw [codeInnerInit, guardsInit]
    exact performs_skip
  | some s => by
    rw [codeInnerInit, guardsInit]
    exact performs_codeInnerStmt s

end

theorem performs_all {xs : List α} {codeOf : α → Code} {rule : α → Own Unit}
    (each : ∀ a, (codeOf a).Performs ctx (rule a)) :
    (Code.all (xs.map codeOf)).Performs ctx (xs.forM rule) := by
  induction xs with
  | nil => exact performs_skip
  | cons a rest ih =>
    cases rest with
    | nil => simpa [Code.all] using each a
    | cons b rest => exact (each a).seq ih

theorem performs_receiver (ctx : Context) (f : FuncDecl) :
    (match ctx.signature.receiverType? with
      | some t => Code.step (.param "self" t false f.span)
      | none => .skip).Performs ctx (match ctx.signature.receiverType? with
        | some t => declareParam "self" t false f.span
        | none => pure ()) := by
  cases ctx.signature.receiverType? with
  | none => exact performs_skip
  | some t => exact performs_of_perform fun _ => rfl

theorem performs_params (ctx : Context) (f : FuncDecl) :
    (Code.all (ctx.signature.params.zipIdx.map fun (p, i) => Code.step
      (.param p.name p.type p.mutable ((f.params[i]?.map Param.span).getD f.span)))).Performs ctx
      (ctx.signature.params.zipIdx.forM fun (p, i) =>
        declareParam p.name p.type p.mutable ((f.params[i]?.map Param.span).getD f.span)) :=
  performs_all fun _ => performs_of_perform fun _ => rfl

theorem performs_returned (ctx : Context) (f : FuncDecl) :
    (Code.discard (.seq (codeBlock ctx f.body .move)
      (match f.body.tail with
      | some value => .step (.escape value.span)
      | none => .skip))).Performs ctx (do
        let origins ← evalBlock ctx f.body .move
        match f.body.tail with
          | some value => ctx.checkEscape value.span origins
          | none => pure ()) := by
  intro m
  simp only [run, yields_codeBlock f.body .move m, StateT.run_bind, bind_assoc]
  refine bind_congr_ok fun r _ => ?_
  cases f.body.tail with
  | none => rfl
  | some value =>
    simp only [ok_bind, run, Step.run, Machine.perform, bind_assoc]
    rfl

theorem performs_functionCode (ctx : Context) (f : FuncDecl) :
    (ctx.functionCode f).Performs ctx (ctx.run f) := by
  have parts := ((performs_receiver ctx f).seq (performs_params ctx f)).seq (performs_returned ctx f)
  refine (congrArg (Performs ctx _) ?_).mp (parts.scope false f.span)
  unfold Context.run
  cases ctx.signature.receiverType? <;> cases f.body.tail <;> simp only [bind_assoc, pure_bind]

end TreeCheck.Ownership
