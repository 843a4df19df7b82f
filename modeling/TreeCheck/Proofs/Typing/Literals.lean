import TreeCheck.Proofs.Syntax.Legible
import TreeCheck.Proofs.Typing.WellTyped

/-!
The integers that are written in accepted functions. Each of them is compared with the type that is found for its node
when all types are final, with the sign that is written before it, and that type is an integer type.
-/

namespace TreeCheck.Typing

variable {ctx : Context}

/-! ### What waits at the end -/

/-- An integer fits the type that is found for its node, if that is an integer type. -/
def State.Admits (s : State) (lit : PendingLiteral) : Prop :=
  (s.engine.resolve (s.notes.typeOf lit.id)).isInteger = true →
    (s.engine.resolve (s.notes.typeOf lit.id)).fits lit.value = true

namespace Context

theorem checkLiterals_quiet {s s' : State} (ran : ctx.checkLiterals s = .ok ((), s')) (quiet : s'.Quiet) :
    s' = s ∧ ∀ lit ∈ s.literals, s.Admits lit := by
  obtain ⟨same, none⟩ := forM_faultless ctx ran quiet
  refine ⟨same, fun lit member integer => ?_⟩
  simpa [integer] using none lit member

theorem checkBody_traces (f : FuncDecl) : Traces ctx f.body.nodes (ctx.checkBody f) := by
  have params : Traces ctx [] (ctx.signature.params.forM fun p => declare p.name p.type) :=
    .forM fun p => declare_traces p.name p.type
  have block := block_traces (@inferBlock_traces ctx f.body (some ctx.signature.result))
  refine .inScope ?_
  -- what follows a receiver is the same without one
  cases ctx.signature.receiverType?
  case' some t => refine (declare_traces "self" t).after fun _ => ?_
  all_goals
    refine params.after fun _ => block.before fun _ => ?_
    cases f.body.tail with
    | some value =>
      refine .look fun s => ?_
      cases s.notes.types.get? value.id with
      | some found => exact assign_traces value _ found
      | none => exact .pure _
    | none => exact .ite (report_traces _ _ _) (.pure _)

/-- The literals that wait at the end have been compared with the types of their nodes. -/
theorem prepare_literals {f : FuncDecl} {last : State} (ran : ctx.prepare f {} = .ok ((), last)) (quiet : last.Quiet) :
    Trace ctx last.notes f.body.nodes {} last ∧ ∀ lit ∈ last.literals, last.Admits lit := by
  obtain ⟨_, typed, checked, ran⟩ := ran_bind ran
  obtain ⟨_, settled, done, ran⟩ := ran_bind ran
  obtain ⟨_, compared, ranged, ran⟩ := ran_bind ran
  obtain ⟨rfl, -⟩ := checkCasts_quiet ran quiet
  obtain ⟨rfl, admits⟩ := checkLiterals_quiet ranged quiet
  have bound : Traces ctx [] settle := .modify (fun _ => rfl) (fun _ => rfl) fun _ => rfl
  obtain ⟨silent, late⟩ := bound _ _ _ _ done quiet (.refl _)
  obtain ⟨-, early⟩ := checkBody_traces f _ _ _ _ checked silent late.notes
  exact ⟨List.append_nil f.body.nodes ▸ early.append late, admits⟩

end Context

/-! ### The types of literals -/

namespace Accepted

variable {p : Program} {f : FuncDecl} {result : Result} {last : State}

theorem literal (done : Accepted p f result ctx last) (collected : ctx.Collected) (legible : Legible f.body.nodes)
    {info : NodeInfo} {value : Int} {suffix : String} (inside : .expr (.int info value suffix) ∈ f.body.nodes) :
    ∃ t, result.notes.types.get? info.id = some t ∧ t.isInteger = true := by
  obtain ⟨Γ, t, typed⟩ := done.expr_typed collected inside nofun
  have suffixed := legible _ inside
  refine ⟨t, typed.noted, ?_⟩
  obtain ⟨-, rule⟩ := typed
  cases rule with
  | int literal =>
    cases written : Ty.ofName? suffix with
    | none => simpa [written] using literal
    | some u => simp_all [TreeNode.legible]

theorem pattern (done : Accepted p f result ctx last) (collected : ctx.Collected) {q : Pattern}
    (inside : .pattern q ∈ f.body.nodes) (integer : ∀ Γ t Δ, MatchRule ctx result.notes Γ q t Δ → t.isInteger = true) :
    ∃ t, result.notes.types.get? q.id = some t ∧ t.isInteger = true := by
  obtain ⟨Γ, t, Δ, ⟨noted, rule⟩⟩ := done.pattern_typed collected inside
  exact ⟨t, noted, integer Γ t Δ rule⟩

theorem written (done : Accepted p f result ctx last) (decoded : p.Decoded) (member : f ∈ p.functions)
    {id : Nat} {value : Int} (writes : TreeNode.Writes f.body.nodes id value) :
    ∃ t, result.notes.types.get? id = some t ∧ t.isInteger = true := by
  have legible := decoded.legible member
  have collected : ctx.Collected := Context.collected decoded done.table
  cases writes with
  | bare inside => exact done.literal collected legible inside
  | negated inside =>
    obtain ⟨trace, -⟩ := Context.prepare_literals done.prepared done.quiet
    exact done.literal collected legible (trace.operand inside)
  | literal inside =>
    exact done.pattern collected inside fun _ t _ rule => by
      cases rule with
      | int integer => exact integer
  | low inside | high inside =>
    exact done.pattern collected inside fun _ t _ rule => by
      cases rule with
      | range integer => exact integer

end Accepted

/-- The integers that are written in a function that is accepted: each is in the range of the type that is found for
its node, which is an integer type. -/
theorem check_literals_fit {p : Program} (decoded : p.Decoded) (collected : p.collect.2 = []) (named : p.Named)
    {f : FuncDecl} {position : Nat} (member : (f, position) ∈ p.functions.zipIdx) {result : Result}
    (checked : check p.collect.1 position f = .ok result) (accepted : result.diagnostics = []) :
    ∀ id value, TreeNode.Writes f.body.nodes id value →
      ∃ k, result.notes.types.get? id = some (.int k) ∧ k.min ≤ value ∧ value ≤ k.max := by
  intro id value writes
  obtain ⟨ctx, last, done⟩ := check_accepted decoded collected named member checked accepted
  obtain ⟨t, noted, integer⟩ := done.written decoded (List.fst_mem_of_mem_zipIdx member) writes
  obtain ⟨trace, admits⟩ := Context.prepare_literals done.prepared done.quiet
  obtain ⟨lit, waits, rfl, rfl⟩ := trace.queued done.unique writes
  have fits := admits lit waits
  rw [State.Admits, ← done.typeOf_resolve noted] at fits
  rw [noted]
  cases t with
  | int k => exact ⟨k, rfl, by simpa [Ty.fits, Ty.bounds?] using fits rfl⟩
  | _ => cases integer

section

open Syntax

/-- A function that matches on a number and gives back numbers at the ends of their ranges. -/
def limiting : Input :=
  let arm (pattern body : Document.Node) := mappingNode [("pattern", pattern), ("body", body)]
  let negated := mappingNode [("op", textNode "-"), ("args", listNode [numberNode "128"])]
  documentOf [mappingNode [("fn", textNode "f"), ("params", listNode [mappingNode [("n", textNode "u8")]]),
    ("returns", textNode "i8"), ("value", mappingNode [("match", textNode "n"),
      ("arms", listNode [arm (numberNode "255") negated, arm (textNode "_") (numberNode "127")])])]]

def limit : FuncDecl :=
  { (default : FuncDecl) with
    name := "f"
    params := [⟨"n", ⟨origin, .named "u8" []⟩, false, origin⟩]
    result := some ⟨origin, .named "i8" []⟩
    body := .mk unnumbered [] (some (.select unnumbered (.ident unnumbered "n")
      [.mk origin (.literal unnumbered (.int 255)) none (.unary unnumbered .neg (.int unnumbered 128 "")),
        .mk origin (.wildcard unnumbered) none (.int unnumbered 127 "")]))
    span := origin }

theorem readProgram_limiting : readProgram limiting = .ok ⟨"", "t.yaml", [.function limit]⟩ := by
  with_unfolding_all rfl

theorem check_literals_fit_limits : ∃ p : Program, p.Decoded ∧ p.collect.2 = [] ∧ p.Named ∧
    ∃ f result, (f, 0) ∈ p.functions.zipIdx ∧ check p.collect.1 0 f = .ok result ∧ result.diagnostics = [] ∧
    ∀ id value, TreeNode.Writes f.body.nodes id value →
      ∃ k, result.notes.types.get? id = some (.int k) ∧ k.min ≤ value ∧ value ≤ k.max := by
  let p : Program := (Program.number ⟨"", "t.yaml", [.function limit]⟩).1
  let f : FuncDecl := { limit with body := (limit.body.number 0).1 }
  have decoded : p.Decoded := ⟨_, _, readProgram_limiting, rfl⟩
  have collected : p.collect.2 = [] := List.eq_nil_of_length_eq_zero (by decide +kernel)
  have named : p.Named := by
    have items : p.items = [.function f] := rfl
    simp [Program.Named, items, Item.typeName?]
  have passed : passes (check p.collect.1 0 f) = true := by cbv
  obtain ⟨result, checked, accepted⟩ := exists_of_passes passed
  exact ⟨p, decoded, collected, named, f, result, List.mem_cons_self, checked, accepted,
    check_literals_fit decoded collected named List.mem_cons_self checked accepted⟩

/-- A function that matches the result of a method there is none of with a number. -/
def untyping : Input :=
  let call := mappingNode [("method", textNode "m"),
    ("on", mappingNode [("fields", mappingNode [("x", truthNode "true")])])]
  documentOf [mappingNode [("struct", textNode ""), ("fields", mappingNode [("x", textNode "bool")])],
    mappingNode [("fn", textNode "f"), ("body", listNode [mappingNode [("match", call),
      ("arms", listNode [mappingNode [("pattern", numberNode "1"),
        ("body", mappingNode [("block", listNode [])])]])]])]]

def untyped : FuncDecl :=
  let call : Expr := .methodCall unnumbered (.struct unnumbered "" [.mk "x" origin (.bool unnumbered true)]) "m" []
  { (default : FuncDecl) with
    name := "f"
    body := .mk unnumbered [.expr origin (.select unnumbered call
      [.mk origin (.literal unnumbered (.int 1)) none (.block (.mk unnumbered [] none))])] none
    span := origin }

theorem readProgram_untyping : readProgram untyping = .ok ⟨"", "t.yaml", [.struct unnamed, .function untyped]⟩ := by
  with_unfolding_all rfl

/-- A number goes with a fault as well, so that an integer is accepted whose type is no integer type. -/
theorem check_accepts_untyped : ∃ p : Program, p.Decoded ∧ p.collect.2 = [] ∧
    ∃ f result, (f, 0) ∈ p.functions.zipIdx ∧ check p.collect.1 0 f = .ok result ∧ result.diagnostics = [] ∧
    ∃ id value, TreeNode.Writes f.body.nodes id value ∧ ¬ ∃ k, result.notes.types.get? id = some (.int k) := by
  let p : Program := (Program.number ⟨"", "t.yaml", [.struct unnamed, .function untyped]⟩).1
  let f : FuncDecl := { untyped with body := (untyped.body.number 0).1 }
  have collected : p.collect.2 = [] := List.eq_nil_of_length_eq_zero (by decide +kernel)
  have passed : passes (check p.collect.1 0 f) = true := by cbv
  obtain ⟨result, checked, accepted⟩ := exists_of_passes passed
  refine ⟨p, ⟨_, _, readProgram_untyping, rfl⟩, collected, f, result, List.mem_cons_self, checked, accepted,
    _, 1, .literal (List.mem_of_getElem? (i := 6) rfl), ?_⟩
  have faulty : ((check p.collect.1 0 f).toOption.bind fun result =>
      (result.notes.types.get? 6).map Ty.isInvalid) = some true := by cbv
  rw [checked] at faulty
  have invalid : (result.notes.types.get? 6).map Ty.isInvalid = some true := faulty
  intro typed
  obtain ⟨k, typed⟩ : ∃ k, result.notes.types.get? 6 = some (.int k) := typed
  rw [typed] at invalid
  cases invalid

end

end TreeCheck.Typing
