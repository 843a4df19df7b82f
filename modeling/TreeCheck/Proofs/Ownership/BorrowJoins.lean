import Mathlib
import TreeCheck.Proofs.Ownership.Code
import TreeCheck.Proofs.Ownership.Functions
import TreeCheck.Proofs.Ownership.Joins
import TreeCheck.Proofs.Ownership.Moves

/-!
Borrow conflicts at joins. What is refused on a path because of a borrow is refused after a join with other
paths as well, unless a path has moved the variable or ended a loan on it.
-/

namespace TreeCheck.Ownership

namespace Ledger

variable {l : Ledger} {id : Nat} {v : VarFlow}

theorem mem_loansOn {loan : Loan} : loan ∈ l.loansOn id ↔ ∃ k lease, (k, lease) ∈ l.flow.live ∧
    l.loans[k]? = some loan ∧ loan.owner = some id ∧ lease.ended = none := by
  simp only [loansOn, List.mem_filterMap, Prod.exists]
  refine exists_congr fun k => exists_congr fun lease => and_congr_right fun _ => ?_
  cases found : l.loans[k]? with
  | none => simp
  | some other =>
    simp only [Option.ite_none_right_eq_some, Option.some.injEq, Bool.and_eq_true, beq_iff_eq,
      Option.isNone_iff_eq_none]
    constructor
    · rintro ⟨⟨owner, ended⟩, rfl⟩
      exact ⟨rfl, owner, ended⟩
    · rintro ⟨rfl, owner, ended⟩
      exact ⟨⟨owner, ended⟩, rfl⟩

theorem mem_loansOn_invalidate {reason : String} {span : Span} {loan : Loan} :
    loan ∈ (l.invalidate id reason span).loansOn id ↔ ∃ k lease, (k, lease) ∈ l.flow.live ∧
      l.loans[k]? = some loan ∧ loan.owner = some id ∧ lease.ended = none ∧ lease.holder.isSome = false := by
  have ends {k : Nat} (lease : Lease) (found : l.loans[k]? = some loan) (owner : loan.owner = some id) :
      (if ((l.loans[k]?).bind Loan.owner) == some id && lease.holder.isSome then
        { lease with ended := lease.ended.or (some (reason, span)) } else lease).ended = none ↔
        lease.ended = none ∧ lease.holder.isSome = false := by
    cases held : lease.holder.isSome <;> simp [found, owner]
  rw [mem_loansOn]
  simp only [invalidate, Flow.updateLeases, List.mem_map, Prod.exists, Prod.mk.injEq]
  constructor
  · rintro ⟨k, _, ⟨_, before, live, rfl, rfl⟩, found, owner, kept⟩
    exact ⟨_, before, live, found, owner, (ends before found owner).mp kept⟩
  · rintro ⟨k, before, live, found, owner, kept⟩
    exact ⟨k, _, ⟨k, before, live, rfl, rfl⟩, found, owner, (ends before found owner).mpr kept⟩

theorem state_eq_exclusive : l.state id v = .exclusive ↔
    v.moved = false ∧ ∃ loan ∈ l.loansOn id, loan.mutable = true := by
  unfold state
  cases v.moved with
  | true => simp
  | false =>
    rw [← List.any_eq_true]
    simp only [Bool.false_eq_true, if_false, true_and]
    split
    · simp [*]
    · cases (l.loansOn id).length <;> simp [State.sharedBy, *]

end Ledger

/-! ### Demands -/

/-- What a borrow of a variable may stand against. -/
inductive Demand where
  | move (site : NodeInfo)
  | borrow (operand : Expr) (mutable : Bool) (site : NodeInfo)
  | write (target : Expr) (origins : List Origin)

namespace Demand

def run (ctx : Context) (id : Nat) : Demand → Own Unit
  | .move site => ctx.move id site
  | .borrow operand mutable site => do
    let v ← var id
    let _ ← ctx.borrowVar id v operand mutable site
  | .write target origins => ctx.writeVar id target origins

def action : Demand → Action
  | .move _ => .move
  | .borrow _ mutable _ => if mutable then .borrowMut else .borrow
  | .write .. => .write

/-- What a demand is checked against: a move ends the loans that variables hold first. -/
def meets (l : Ledger) (id : Nat) : Demand → Ledger
  | .move site => l.invalidate id "moved" site.span
  | .borrow .. | .write .. => l

variable {ctx : Context} {l after : Ledger} {id : Nat} {v : Var} {flow : VarFlow} {u : Unit}

section Reads

variable {α β : Type}

theorem run_bind {x : Own α} {f : α → Own β} {a : α} {middle : Ledger} (first : x.run l = .ok (a, middle)) :
    (x >>= f).run l = (f a).run middle := by
  rw [StateT.run_bind, first]
  rfl

end Reads

end Demand

/-! ### Joins -/

/-- Paths that agree on a variable: it has been declared before, none of those that go on has moved it or
ended a loan on it, and a loan on it is held by a variable on all of them or on none. -/
structure Agree (l : Ledger) (paths : List Flow) (id : Nat) : Prop where
  declared : id < l.vars.length
  present : ∀ p ∈ paths, id < p.vars.length
  owned : ∀ p ∈ paths, p.diverged = false → ¬p.Has IsMoved id
  loans : ∀ k loan, l.loans[k]? = some loan → loan.owner = some id → ∃ held : Bool, ∀ p ∈ paths,
    p.diverged = false → p.Shared (fun lease => lease.ended = none ∧ lease.holder.isSome = held) k

variable {ctx : Context} {l : Ledger} {paths : List Flow} {p : Flow} {id : Nat}

/-- A demand meets the loans after a join that it meets on one of the paths. -/
theorem Agree.loansOn (agree : Agree l paths id) (member : p ∈ paths) (goesOn : p.diverged = false)
    (d : Demand) {loan : Loan} (met : loan ∈ (d.meets { l with flow := p } id).loansOn id) :
    loan ∈ (d.meets { l with flow := l.flow.merge paths } id).loansOn id := by
  have reached : ∃ p ∈ paths, p.diverged = false := ⟨p, member, goesOn⟩
  have joined {k : Nat} {lease : Lease} (live : (k, lease) ∈ p.live) (found : l.loans[k]? = some loan)
      (owner : loan.owner = some id) : ∃ other, (k, other) ∈ (l.flow.merge paths).live ∧
        other.ended = none ∧ other.holder.isSome = lease.holder.isSome := by
    obtain ⟨held, same⟩ := agree.loans k loan found owner
    obtain ⟨other, joined⟩ := Flow.live_merge l.flow member goesOn live
    obtain ⟨ended, holder⟩ := Flow.shared_merge l.flow
      (fun a b first next => ⟨by simp [Flow.joinLease, first.1, next.1], first.2⟩) reached same other joined
    exact ⟨other, joined, ended, holder.trans (same p member goesOn lease live).2.symm⟩
  cases d with
  | borrow operand mutable site | write target origins =>
    obtain ⟨k, lease, live, found, owner, -⟩ := Ledger.mem_loansOn.mp met
    obtain ⟨other, joined, ended, -⟩ := joined live found owner
    exact Ledger.mem_loansOn.mpr ⟨k, other, joined, found, owner, ended⟩
  | move site =>
    obtain ⟨k, lease, live, found, owner, -, free⟩ := Ledger.mem_loansOn_invalidate.mp met
    obtain ⟨other, joined, ended, holder⟩ := joined live found owner
    exact Ledger.mem_loansOn_invalidate.mpr ⟨k, other, joined, found, owner, ended, holder.trans free⟩

/-- A function that moves a variable in one branch and lends it in the other one, and assigns to it
afterwards. -/
def lending : FuncDecl :=
  let declare (id : Nat) (name : String) (value : Expr) : Stmt :=
    .bind default (.binding { info := ⟨id, default⟩, name, mutable := true }) none (some value)
  let assign (id : Nat) (name : String) (value : Expr) : Stmt :=
    .expr default (.assign ⟨id, default⟩ (.ident ⟨id + 1, default⟩ name) value)
  let text (id : Nat) : Expr := .string ⟨id, default⟩ default
  { (default : FuncDecl) with
    name := "g"
    body := .mk ⟨1, default⟩ [
      declare 2 "x" (text 3), declare 4 "y" (text 5),
      declare 6 "r" (.ref ⟨7, default⟩ false (.ident ⟨8, default⟩ "y")),
      .expr default (.branch ⟨9, default⟩ (.ident ⟨10, default⟩ "c")
        (.block (.mk ⟨11, default⟩ [declare 12 "z" (.ident ⟨13, default⟩ "x")] none))
        (some (.block (.mk ⟨14, default⟩
          [assign 15 "r" (.ref ⟨17, default⟩ false (.ident ⟨18, default⟩ "x"))] none)))),
      assign 19 "x" (text 21)] none }

end TreeCheck.Ownership
