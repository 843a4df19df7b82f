import Mathlib
import TreeCheck.Proofs.Ownership.Functions
import TreeCheck.Proofs.Ownership.Guards
import TreeCheck.Proofs.Ownership.Sources

/-!
References that are stored in variables. What is assigned to a variable or to a part of it is held by the variable,
and the loans in it are given back no earlier than its scope is left; so a use of what was stored is reported once
its owner was moved or dropped. What is assigned through a reference is held by nobody.
-/

namespace TreeCheck.Ownership

variable {ctx : Context} {l after : Ledger} {m next : Machine} {loan id : Nat}

/-! ### Uses -/

/-- A place starts at a variable. -/
def Ledger.StartsAt (l : Ledger) (id : Nat) (e : Expr) : Prop :=
  (e.root?.bind fun (_, name) => l.lookup? name) = some id

instance (l : Ledger) (id : Nat) (e : Expr) : Decidable (l.StartsAt id e) := inferInstanceAs (Decidable (_ = _))

theorem Ledger.StartsAt.inScope {e : Expr} (start : l.StartsAt id e) : id ∈ l.env.map Prod.snd := by
  obtain ⟨root, -, looked⟩ := Option.bind_eq_some_iff.mp start
  exact mem_env_of_lookup looked

theorem Ledger.StartsAt.root {e : Expr} {p : Place} (start : l.StartsAt id e)
    (reached : ctx.placeIn l.scopes e = .ok p) : p.root = .var id := by
  obtain ⟨⟨info, name⟩, named, looked⟩ := Option.bind_eq_some_iff.mp start
  have root := placeIn_root_name reached named
  have looked : l.lookup? name = some id := looked
  rwa [← Ledger.lookup?, looked] at root

/-- A step that uses what a variable holds: its name as a value, or a place that starts at it. -/
def Step.Uses (l : Ledger) (id : Nat) : Step → Prop
  | .useName _ name _ => l.lookup? name = some id
  | .usePlace e _ | .borrowPlace e _ _ => l.StartsAt id e
  | _ => False

namespace Context

theorem touchOrigins_tell {v : Var} {span : Span} {origins : List Origin} {u : Unit} (mourned : l.Mourned)
    (lost : (l.flow.lease? loan).bind Lease.ended ≠ none) (member : .loan loan ∈ origins)
    (ran : (origins.forM fun origin => ctx.touchOrigin v span origin).run l = .ok (u, after)) :
    after.Tells .borrowOutlivesOwner := by
  induction origins generalizing l with
  | nil => cases member
  | cons origin rest ih =>
    obtain ⟨_, middle, first, others⟩ := Own.run_bind_ok.mp ran
    have edits : middle.Edits after := Own.Edits.forM rest (ctx.touchOrigin_edits v span) others
    have later := edits.reports
    rcases ctx.touchOrigin_ok first with ⟨rfl, noted⟩ | ⟨other, d, kind, rfl⟩
    · rcases List.mem_cons.mp member with rfl | inRest
      · have isNoted := (noted loan rfl).resolve_left lost
        exact (mourned (List.ne_nil_of_mem isNoted)).extend later
      · exact ih mourned lost inRest others
    · exact (kind ▸ Ledger.tells_add l.bag rfl).extend later

theorem touch_tells {span : Span} {u : Unit} (mourned : l.Mourned)
    (lost : (l.flow.lease? loan).bind Lease.ended ≠ none)
    (stored : l.flow.Has (fun v => .loan loan ∈ v.holds) id) (ran : (ctx.touch id span).run l = .ok (u, after)) :
    after.Tells .borrowOutlivesOwner := by
  obtain ⟨v, _, known, ran⟩ := Own.run_bind_ok.mp ran
  obtain ⟨-, rfl⟩ := var_ok known
  obtain ⟨origins, _, held, ran⟩ := Own.run_bind_ok.mp ran
  obtain ⟨flow, present, rfl, rfl⟩ := held_ok held
  obtain ⟨w, found, member⟩ := stored
  cases found.symm.trans present
  exact touchOrigins_tell mourned lost member ran

end Context

/-- The use of a variable that holds a loan that has lost its owner is reported. -/
theorem Step.Uses.tells {s : Step} (uses : s.Uses m.ledger id) (mourned : m.ledger.Mourned)
    (lost : (m.ledger.flow.lease? loan).bind Lease.ended ≠ none)
    (stored : m.ledger.flow.Has (fun v => .loan loan ∈ v.holds) id) (ran : s.run ctx m = .ok next) :
    next.ledger.Tells .borrowOutlivesOwner := by
  cases s with
  | useName info name use =>
    obtain ⟨origins, l, done, rfl⟩ := Machine.yield_ok.mp ran
    obtain ⟨touched, touches, rest⟩ : ∃ touched, (ctx.touch id info.span).run m.ledger = .ok ((), touched) ∧
        touched.Edits l := ctx.useName_touches uses done
    exact (Context.touch_tells mourned lost stored touches).extend rest.reports
  | usePlace e use =>
    obtain ⟨origins, l, done, rfl⟩ := Machine.yield_ok.mp ran
    obtain ⟨p, _, located, done⟩ := Own.run_bind_ok.mp done
    obtain ⟨reached, rfl⟩ := place_ok located
    obtain ⟨touched, touches, rest⟩ : ∃ touched, (ctx.touch id e.span).run m.ledger = .ok ((), touched) ∧
        touched.Edits l := ctx.usePlace_touches (Ledger.StartsAt.root uses reached) done
    exact (Context.touch_tells mourned lost stored touches).extend rest.reports
  | borrowPlace operand mutable site =>
    obtain ⟨origins, l, done, rfl⟩ := Machine.yield_ok.mp ran
    obtain ⟨p, _, located, done⟩ := Own.run_bind_ok.mp done
    obtain ⟨reached, rfl⟩ := place_ok located
    simp only [Ledger.StartsAt.root uses reached] at done
    obtain ⟨touched, touches, rest⟩ : ∃ touched, (ctx.touch id operand.span).run m.ledger = .ok ((), touched) ∧
        touched.Edits l := ctx.borrowPlace_touches (fun _ => trivial) done
    exact (Context.touch_tells mourned lost stored touches).extend rest.reports
  | _ => exact uses.elim

/-! ### Assignments -/

namespace Context

/-- The type of what is assigned to: a variable, or a part of it. -/
def targetType (ctx : Context) (v : Var) (target : Expr) : Ty :=
  if isWhole target then v.type else ctx.notes.typeOf target.id

/-- What the latest value may point into, if it is that of a node. -/
def originsOf (ctx : Context) (m : Machine) (node : Nat) : List Origin :=
  if ctx.carries (ctx.notes.typeOf node) then m.top else []

/-- An assignment to a variable or a part of it that is not reported: if the target can hold references, the
variable adopts what the value points into. -/
theorem writeVar_adopts {target : Expr} {origins : List Origin} {v : Var} {u : Unit} (quiet : after.Quiet)
    (known : l.vars[id]? = some v) (carries : ctx.carries (ctx.targetType v target) = true)
    (ran : (ctx.writeVar id target origins).run l = .ok (u, after)) :
    ∃ flow held, flow.live = l.flow.live ∧ id < flow.vars.length ∧ (∀ o ∈ origins, o ∈ held) ∧
      after = ({ l with flow } : Ledger).adopt id v held := by
  obtain ⟨w, _, found, ran⟩ := Own.run_bind_ok.mp ran
  obtain ⟨same, rfl⟩ := var_ok found
  cases same.symm.trans known
  obtain ⟨s, _, state, ran⟩ := Own.run_bind_ok.mp ran
  obtain ⟨-, -, -, rfl⟩ := stateOf_ok state
  obtain ⟨flow, _, path, ran⟩ := Own.run_bind_ok.mp ran
  obtain ⟨present, rfl⟩ := varFlow_ok path
  have inside := (List.getElem?_eq_some_iff.mp present).1
  have adopted {held : List Origin} {before : Ledger} (ran : (adopt id held).run before = .ok (u, after))
      (same : before.vars[id]? = some v) : after = before.adopt id v held := by
    obtain ⟨w, _, found, ran⟩ := Own.run_bind_ok.mp ran
    obtain ⟨known, rfl⟩ := var_ok found
    cases known.symm.trans same
    exact (Own.run_modify_ok.mp ran).symm
  unfold targetType at carries
  split at ran
  · exact absurd quiet (useAfterMove_loud ran)
  split at ran
  · split at ran
    · exact absurd quiet (add_loud ran)
    · obtain ⟨loan, _, blocked, ran⟩ := Own.run_bind_ok.mp ran
      exact absurd quiet (add_loud ran)
  split at ran
  · rename_i whole
    rw [if_pos whole] at carries
    obtain ⟨_, _, cleared, ran⟩ := Own.run_bind_ok.mp ran
    obtain rfl := Own.run_modify_ok.mp cleared
    rw [if_pos carries] at ran
    refine ⟨_, origins, ?_, ?_, fun _ member => member, adopted ran known⟩
    · rfl
    · simpa [Flow.updateVar] using inside
  · rename_i part
    rw [if_neg part] at carries
    obtain ⟨t, _, typed, ran⟩ := Own.run_bind_ok.mp ran
    obtain ⟨rfl, rfl⟩ := typeOf_ok typed
    rw [if_pos carries] at ran
    exact ⟨_, _, rfl, inside, fun _ member => Origin.mem_union.mpr (.inr member), adopted ran known⟩

end Context

/-- Whether a variable holds a loan, and keeps it at least as long as a scope: if the loan is live, it is the
variable that holds it, and it is given back with that scope or one around it. -/
structure Ledger.Stores (l : Ledger) (loan id scope : Nat) : Prop where
  holds : l.flow.Has (fun v => .loan loan ∈ v.holds) id
  kept : ∀ lease, (loan, lease) ∈ l.flow.live → lease.holder = some id ∧ l.Encloses lease.scope scope

theorem Ledger.Seated.stores {v : Var} {held : List Origin} (seated : l.Seated) (inScope : v.scope ∈ l.scopeIds)
    (inside : id < l.flow.vars.length) (member : .loan loan ∈ held) :
    (l.adopt id v held).Stores loan id v.scope where
  holds := by
    unfold Ledger.adopt
    rw [Flow.has_updateVar, if_pos rfl]
    simp [Flow.Has, Flow.updateLeases, inside, Origin.mem_union, member]
  kept := by
    intro lease live
    obtain ⟨⟨other, before⟩, -, same⟩ := List.mem_map.mp live
    cases same
    beta_reduce
    rw [if_pos (List.contains_iff_mem.mpr member)]
    exact ⟨rfl, seated.extend_lasts inScope before⟩

theorem Step.write_stores {target : Expr} {node : Nat} {v : Var} (seated : m.ledger.Seated)
    (quiet : next.ledger.Quiet) (start : m.ledger.StartsAt id target) (known : m.ledger.vars[id]? = some v)
    (direct : ctx.through target = false) (carries : ctx.carries (ctx.targetType v target) = true)
    (member : .loan loan ∈ ctx.originsOf m node) (ran : (Step.write target node).run ctx m = .ok next) :
    next.ledger.vars = m.ledger.vars ∧ next.ledger.Stores loan id v.scope := by
  obtain ⟨l, done, rfl⟩ := Machine.perform_ok.mp ran
  obtain ⟨origins, _, carried, done⟩ := Own.run_bind_ok.mp done
  have given := Context.carried_value carried
  obtain rfl := carried_pure_ok carried
  obtain ⟨p, _, located, done⟩ := Own.run_bind_ok.mp done
  obtain ⟨reached, rfl⟩ := place_ok located
  simp only [start.root reached] at done
  rw [Context.write, Context.throughRef_eq reached, direct] at done
  obtain ⟨flow, held, -, inside, all, rfl⟩ := Context.writeVar_adopts quiet known carries done
  have inScope : v.scope ∈ m.ledger.scopeIds := by
    obtain ⟨w, same, seat⟩ := seated.seat start.inScope
    cases same.symm.trans known
    exact seat
  have moved : ({ m.ledger with flow } : Ledger).Seated := Ledger.seated_lasting.flow flow seated
  refine ⟨rfl, moved.stores inScope inside (all _ ?_)⟩
  rw [given]
  exact member

/-! ### Ways on from an assignment -/

theorem mourned_start : ({} : Ledger).Mourned := fun noted => absurd rfl noted

/-- As long as a loan is live and its owner is there, the variable that holds it is watched: once the owner has
been moved or dropped, a use of the variable that still holds the loan is reported. -/
def Machine.Watches (ctx : Context) (m : Machine) (loan id : Nat) : Prop :=
  ∀ ⦃owner : Nat⦄, (m.ledger.loans[loan]?).bind Loan.owner = some owner → m.ledger.Present owner →
    (∃ lease, (loan, lease) ∈ m.ledger.flow.live) → ∀ ⦃after next : Machine⦄ ⦃s : Step⦄, m.Onward ctx after →
      ¬after.ledger.Present owner → after.ledger.flow.Has (fun v => .loan loan ∈ v.holds) id →
        s.Uses after.ledger id → s.run ctx after = .ok next → next.ledger.Tells .borrowOutlivesOwner

theorem Step.Uses.inScope {s : Step} (uses : s.Uses l id) : id ∈ l.env.map Prod.snd := by
  cases s with
  | useName _ name _ => exact Ledger.mem_env_of_lookup uses
  | usePlace | borrowPlace => exact Ledger.StartsAt.inScope uses
  | _ => exact uses.elim

theorem Ledger.Stores.watches {v : Var} (stores : m.ledger.Stores loan id v.scope)
    (known : m.ledger.vars[id]? = some v) (seated : m.ledger.Seated) (mourned : m.ledger.Mourned) :
    m.Watches ctx loan id := by
  intro owner lent present live after next s onward gone stored uses ran
  have guards : m.ledger.Guards loan id owner v.scope := by
    refine ⟨⟨v, known, rfl⟩, lent, fun _ => live, fun _ lease member => ?_⟩
    obtain ⟨holder, lasts⟩ := stores.kept lease member
    exact ⟨by simp [holder], lasts, fun _ => present⟩
  have still := guards.onward seated onward
  obtain ⟨lease, found, member⟩ := Flow.exists_lease (still.live uses.inScope)
  have lost : (after.ledger.flow.lease? loan).bind Lease.ended ≠ none := by
    rw [found]
    exact fun ended => gone ((still.vouched uses.inScope lease member).present ended)
  exact uses.tells (Ledger.mourned_lasting.onward onward mourned) lost stored ran

/-- In a function that is checked without a diagnostic, each assignment to a variable or a part of it, other than
through a reference, stores what the assigned value points into: the variable that the target starts at holds it
and is watched. -/
theorem check_tracks_stored_borrows {table : Table} {position : Nat} {f : FuncDecl} {notes : Typing.Annotations}
    {signature : Signature} {result : Result} (declared : table.signature? position f = some signature)
    (checked : check table position f notes = .ok result) (accepted : result.diagnostics = [])
    {start stop : Machine} {target : Expr} {value : Nat}
    (assigned : (start, .write target value, stop) ∈
      ((contextOf table signature f notes).functionCode f).steps (contextOf table signature f notes) {})
    {v : Var} (named : start.ledger.StartsAt id target) (known : start.ledger.vars[id]? = some v)
    (direct : (contextOf table signature f notes).through target = false)
    (carries : (contextOf table signature f notes).carries
      ((contextOf table signature f notes).targetType v target) = true)
    (member : .loan loan ∈ (contextOf table signature f notes).originsOf start value) :
    stop.ledger.Stores loan id v.scope ∧ stop.Watches (contextOf table signature f notes) loan id := by
  obtain ⟨l, ran, diagnostics⟩ := check_ok declared checked
  generalize contextOf table signature f notes = ctx at *
  have sorted : result.diagnostics.Perm l.bag.contents := diagnostics ▸ List.mergeSort_perm _ _
  have ran : (ctx.functionCode f).run ctx {} = .ok { ledger := l } := by
    rw [performs_functionCode ctx f, ran]
    rfl
  have applied : (Step.write target value).run ctx start = .ok stop := Code.steps_ran _ assigned
  -- What is reported stays so, hence nothing is reported up to the assignment.
  have reported : stop.ledger.bag.contents <+: l.bag.contents :=
    (Ledger.reports_lasting _).goesOn List.prefix_rfl _ assigned ran
  have quiet : stop.ledger.Quiet := by
    have none : l.bag.contents = [] := (accepted ▸ sorted).nil_eq.symm
    exact List.prefix_nil.mp (none ▸ reported)
  have seated : start.ledger.Seated := Ledger.seated_lasting.reached _ assigned Ledger.seated_start
  have mourned : start.ledger.Mourned := Ledger.mourned_lasting.reached _ assigned mourned_start
  obtain ⟨vars, stores⟩ := Step.write_stores seated quiet named known direct carries member applied
  have edits := Step.run_edits applied
  exact ⟨stores, stores.watches (vars ▸ known) (Ledger.seated_lasting.edits edits seated)
    (Ledger.mourned_lasting.edits edits mourned)⟩

instance (property : VarFlow → Prop) [DecidablePred property] (f : Flow) (id : Nat) :
    Decidable (f.Has property id) :=
  inferInstanceAs (Decidable (∃ v ∈ f.vars[id]?, property v))

instance (l : Ledger) (id : Nat) : Decidable (l.Present id) := inferInstanceAs (Decidable (_ ∧ _))

/-- Where the function stores the reference: in its parameter, or in what that refers to. -/
def storingTarget (through : Bool) : Expr :=
  if through then .deref ⟨6, default⟩ (.ident ⟨7, default⟩ "r") else .ident ⟨6, default⟩ "r"

/-- What is used of what the parameter refers to. -/
def storingUse : Expr := .deref ⟨11, default⟩ (.deref ⟨12, default⟩ (.ident ⟨13, default⟩ "r"))

/-- A function that stores a reference to a variable of an inner scope. What is stored through its parameter is
used behind that scope. -/
def storing (through : Bool) : FuncDecl :=
  let declare (id : Nat) (name : String) (value : Expr) : Stmt :=
    .bind default (.binding { info := ⟨id, default⟩, name }) none (some value)
  let value : Expr := .ref ⟨8, default⟩ false (.ident ⟨9, default⟩ "x")
  let store : Stmt := .expr default (.assign ⟨5, default⟩ (storingTarget through) value)
  { (default : FuncDecl) with
    name := "g"
    body := .mk ⟨1, default⟩
      (.expr default (.block (.mk ⟨2, default⟩ [declare 3 "x" (.int ⟨4, default⟩ 2 ""), store] none)) ::
        if through then [declare 10 "z" storingUse] else []) none }

def storingSignature (through : Bool) : Signature :=
  let stored : Ty := .ref false (.int .i32)
  { name := "g", kind := .function, typeParams := [], result := .unit, origin := some 0
    params := [{ name := "r", type := if through then .ref true stored else stored, mutable := true }] }

def storingNotes : Typing.Annotations :=
  { types := ([1, 2, 5].map fun id => (id, .unit)) ++ ([3, 4, 9, 10, 11].map fun id => (id, .int .i32)) ++
      ([6, 8, 12].map fun id => (id, .ref false (.int .i32))) ++
      [7, 13].map fun id => (id, .ref true (.ref false (.int .i32))) }

def storingTable (through : Bool) : Table := { functions := [("g", storingSignature through)] }

def storingContext (through : Bool) : Context :=
  contextOf (storingTable through) (storingSignature through) (storing through) storingNotes

def storingSteps (through : Bool) : List (Machine × Step × Machine) :=
  ((storingContext through).functionCode (storing through)).steps (storingContext through) {}

theorem storing_quiet (through : Bool) :
    (check (storingTable through) 0 (storing through) storingNotes).map Result.diagnostics = .ok [] := by
  cases through <;> cbv

theorem storing_write (through : Bool) :
    (storingSteps through)[8]?.map (fun x => x.2.1) = some (.write (storingTarget through) 8) := by
  cases through <;> cbv

theorem check_tracks_stored_borrows_parameter : ∃ start stop,
    (start, .write (storingTarget false) 8, stop) ∈ storingSteps false ∧ stop.ledger.Stores 0 0 1 ∧
      ∃ last, (Step.useName default "r" .read).run (storingContext false) stop.exit.exit = .ok last ∧
        last.ledger.Tells .borrowOutlivesOwner := by
  obtain ⟨result, checked, accepted⟩ := quiet_of_map (storing_quiet false)
  obtain ⟨⟨start, s, stop⟩, found, same⟩ := Option.map_eq_some_iff.mp (storing_write false)
  obtain rfl : s = _ := same
  have facts : ∀ x ∈ (storingSteps false)[8]?, x.1.ledger.StartsAt 0 (storingTarget false) ∧
      (∃ v ∈ x.1.ledger.vars[0]?, v.scope = 1 ∧
        (storingContext false).carries ((storingContext false).targetType v (storingTarget false)) = true) ∧
      .loan 0 ∈ (storingContext false).originsOf x.1 8 ∧
      (x.2.2.ledger.loans[0]?).bind Loan.owner = some 1 ∧ x.2.2.ledger.Present 1 ∧
      0 ∈ x.2.2.ledger.flow.live.map Prod.fst ∧ ¬x.2.2.exit.exit.ledger.Present 1 ∧
      x.2.2.exit.exit.ledger.lookup? "r" = some 0 ∧
      ((Step.useName default "r" .read).run (storingContext false) x.2.2.exit.exit).toOption.isSome := by
    decide +kernel
  obtain ⟨named, ⟨v, known, scope, carries⟩, member, lent, present, live, gone, uses, runs⟩ := facts _ found
  have taken := List.mem_of_getElem? found
  obtain ⟨stores, watches⟩ := check_tracks_stored_borrows (show _ = some (storingSignature false) by cbv) checked
    accepted taken named known rfl carries member
  rw [scope] at stores
  obtain ⟨⟨loan, lease⟩, isLive, rfl⟩ := List.mem_map.mp live
  have onward : stop.Onward (storingContext false) stop.exit.exit := .tail (.single .exit) .exit
  have holds : stop.exit.exit.ledger.flow.Has (fun v => .loan 0 ∈ v.holds) 0 := by
    simpa [Flow.Has, Machine.exit] using stores.holds
  cases ran : (Step.useName default "r" .read).run (storingContext false) stop.exit.exit with
  | error failure =>
    rw [ran] at runs
    cases runs
  | ok last =>
    have used : (Step.useName default "r" .read).Uses stop.exit.exit.ledger 0 := uses
    have tells := watches lent present ⟨lease, isLive⟩ onward gone holds used ran
    exact ⟨start, stop, taken, stores, last, ran, tells⟩

/-- What is stored through the parameter is held by nobody: when it is used, its owner is gone. -/
theorem check_loses_stored_borrow :
    (check (storingTable true) 0 (storing true) storingNotes).map Result.diagnostics = .ok [] ∧
      ∃ start stop v, (start, .write (storingTarget true) 8, stop) ∈ storingSteps true ∧
        start.ledger.StartsAt 0 (storingTarget true) ∧ start.ledger.vars[0]? = some v ∧
        (storingContext true).carries ((storingContext true).targetType v (storingTarget true)) = true ∧
        .loan 0 ∈ (storingContext true).originsOf start 8 ∧ ¬stop.ledger.Stores 0 0 v.scope ∧
        ∃ before last, (before, .usePlace storingUse .read, last) ∈ storingSteps true ∧
          before.ledger.StartsAt 0 storingUse ∧ (before.ledger.loans[0]?).bind Loan.owner = some 1 ∧
          ¬before.ledger.Present 1 := by
  obtain ⟨⟨start, s, stop⟩, written, same⟩ := Option.map_eq_some_iff.mp (storing_write true)
  obtain rfl : s = _ := same
  have used : (storingSteps true)[14]?.map (fun x => x.2.1) = some (.usePlace storingUse .read) := by cbv
  obtain ⟨⟨before, s, last⟩, used, same⟩ := Option.map_eq_some_iff.mp used
  obtain rfl : s = _ := same
  have atWrite : ∀ x ∈ (storingSteps true)[8]?, x.1.ledger.StartsAt 0 (storingTarget true) ∧
      (∃ v ∈ x.1.ledger.vars[0]?,
        (storingContext true).carries ((storingContext true).targetType v (storingTarget true)) = true) ∧
      .loan 0 ∈ (storingContext true).originsOf x.1 8 ∧
      ¬x.2.2.ledger.flow.Has (fun v => .loan 0 ∈ v.holds) 0 := by
    decide +kernel
  have atUse : ∀ x ∈ (storingSteps true)[14]?, x.1.ledger.StartsAt 0 storingUse ∧
      (x.1.ledger.loans[0]?).bind Loan.owner = some 1 ∧ ¬x.1.ledger.Present 1 := by
    decide +kernel
  obtain ⟨named, ⟨v, known, carries⟩, member, lost⟩ := atWrite _ written
  exact ⟨storing_quiet true, start, stop, v, List.mem_of_getElem? written, named, known, carries, member,
    fun stores => lost stores.holds, before, last, List.mem_of_getElem? used, atUse _ used⟩

end TreeCheck.Ownership
