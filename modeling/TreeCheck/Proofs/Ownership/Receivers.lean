import TreeCheck.Proofs.Ownership.Inspected
import TreeCheck.Proofs.Ownership.LateSteps
import TreeCheck.Proofs.Syntax.Documents
import TreeCheck.Proofs.Typing.WellTyped

/-!
What methods change. The check of types sees to it that the receiver of a method that changes it is no reference or one
that lets it be changed, and the check of ownership that a place that is borrowed to be changed may be.
-/

namespace TreeCheck

/-- A receiver that is changed is a struct or an enum and borrowed as one that may be changed, or it is a reference
that lets it be. -/
theorem Typing.Accepted.receiver {p : Program} {f : FuncDecl} {result : Result} {ctx : Context} {last : State}
    (done : Accepted p f result ctx last) (collected : ctx.Collected) {info : NodeInfo} {receiver : Expr}
    {name : String} {args : List Expr} (inside : .expr (.methodCall info receiver name args) ∈ f.body.nodes)
    {signature : Signature} (resolved : result.notes.methods.get? info.id = some signature) {self : Signature.Self}
    (own : signature.self = some self) (exclusive : self.mode = .exclusive) :
    ∃ t, result.notes.types.get? receiver.id = some t ∧
      ((t.isRef = false ∧ result.notes.coercions.get? receiver.id = some .autoRefMut) ∨
        ∃ target, t = .ref true target) := by
  obtain ⟨Γ, t, ⟨-, rule⟩⟩ := done.expr_typed collected inside nofun
  cases rule with
  | method taken _ _ chosen self _ _ lends =>
    obtain rfl := Option.some.inj (resolved.symm.trans chosen)
    obtain rfl := Option.some.inj (own.symm.trans self)
    refine ⟨_, taken.noted, ?_⟩
    rw [exclusive] at lends
    cases lends with
    | changed plain noted => exact .inl ⟨plain, noted⟩
    | behindMut => exact .inr ⟨_, rfl⟩

namespace Ownership

variable {ctx : Context}

/-- A place may be changed through what its root stands for: all references on the way to it let it be, or there is
none, and the variable that it starts at is mutable. -/
def Context.Changes (ctx : Context) (l : Ledger) (place : Expr) : Prop :=
  ∀ info name id, place.root? = some (info, name) → l.lookup? name = some id →
    (ctx.through place = true ∧ (ctx.reach place).viaMut = true) ∨
      (ctx.through place = false ∧ ∃ v, l.vars[id]? = some v ∧ v.mutable = true)

theorem Step.borrowPlace_changes {operand : Expr} {site : NodeInfo} {m after : Machine}
    (ran : (Step.borrowPlace operand true site).run ctx m = .ok after) (quiet : after.ledger.Quiet) :
    ctx.Changes m.ledger operand := by
  obtain ⟨origins, l, done, rfl⟩ := Machine.yield_ok.mp ran
  obtain ⟨p, _, located, done⟩ := Own.run_bind_ok.mp done
  obtain ⟨reached, rfl⟩ := place_ok located
  intro info name id start found
  have root := placeIn_root_name reached start
  rw [← Ledger.lookup?, found] at root
  simp only [root] at done
  obtain ⟨v, _, known, -⟩ := Own.run_bind_ok.mp done
  obtain ⟨declared, -⟩ := var_ok known
  have spared := (Context.borrowPlace_charges declared done).spared quiet
  rw [Context.throughRef_eq reached, Context.viaMut_eq reached] at spared
  cases behind : ctx.through operand with
  | true => exact .inl ⟨rfl, by simpa [behind] using spared⟩
  | false => exact .inr ⟨rfl, v, declared, by simpa [behind] using spared⟩

namespace Code

/-- Code that is part of other code. -/
inductive Part (inner : Code) : Code → Prop
  | self : Part inner inner
  | first {first next : Code} (part : Part inner first) : Part inner (.seq first next)
  | next {first next : Code} (part : Part inner next) : Part inner (.seq first next)
  | discard {body : Code} (part : Part inner body) : Part inner (.discard body)
  | scope {isTemporary : Bool} {span : Span} {body : Code} (part : Part inner body) :
      Part inner (.scope isTemporary span body)
  | arm {arms : List Code} {arm : Code} (chosen : arm ∈ arms) (part : Part inner arm) : Part inner (.choice arms)
  | test {test round : Code} (part : Part inner test) : Part inner (.loop test round)
  | round {test round : Code} (part : Part inner round) : Part inner (.loop test round)

namespace Part

variable {inner middle c : Code}

theorem trans (first : inner.Part middle) (second : middle.Part c) : inner.Part c := by
  induction second with
  | self => exact first
  | first _ ih => exact .first ih
  | next _ ih => exact .next ih
  | discard _ ih => exact .discard ih
  | scope _ ih => exact .scope ih
  | arm chosen _ ih => exact .arm chosen ih
  | test _ ih => exact .test ih
  | round _ ih => exact .round ih

theorem reaches {s : Step} (part : (Code.step s).Part c) (names : List String) :
    ∃ scope, c.Reaches ctx s scope names := by
  induction part generalizing names with
  | self => exact ⟨names, .step⟩
  | first _ ih => exact (ih names).imp fun _ => .first
  | next _ ih => exact (ih _).imp fun _ => .next
  | discard _ ih => exact (ih names).imp fun _ => .discard
  | scope _ ih => exact (ih names).imp fun _ => .scope
  | arm chosen _ ih => exact (ih names).imp fun _ => .arm chosen
  | test _ ih => exact (ih names).imp fun _ => .test
  | round _ ih => exact (ih names).imp fun _ => .round

end Part

end Code

theorem methodCall_borrows {info : NodeInfo} {receiver : Expr} {name : String} {args : List Expr}
    {signature : Signature} {self : Signature.Self} (called : ctx.notes.methods.get? info.id = some signature)
    (own : signature.self = some self) (exclusive : self.mode = .exclusive)
    (lent : ctx.notes.coercions.get? receiver.id = some .autoRefMut) (place : receiver.isPlace = true) (use : Use) :
    (Code.step (.borrowPlace receiver true receiver.info)).Part
      (code ctx (.methodCall info receiver name args) use) := by
  rw [code]
  simp only [called, own, Option.map_some, exclusive, Context.argumentCode, lent, Context.borrowCode, place, if_true,
    Code.all]
  exact .first (.first (.next (.next .self)))

/-- The receivers of methods that change them, in a function that is accepted. Such a receiver is a reference that lets
what it points to be changed, or it is no reference and borrowed as one that may be changed; and if it is a place, it
may be, wherever the check comes to the call. -/
theorem check_receivers {p : Program} (decoded : p.Decoded) (collected : p.collect.2 = []) (named : p.Named)
    {f : FuncDecl} {position : Nat} (member : (f, position) ∈ p.functions.zipIdx) {typing : Typing.Result}
    (typed : Typing.check p.collect.1 position f = .ok typing) (sound : typing.diagnostics = [])
    {own : Signature} (declared : p.collect.1.signature? position f = some own) {result : Result}
    (checked : check p.collect.1 position f typing.notes = .ok result) (accepted : result.diagnostics = []) :
    ∀ info receiver name args signature self, .expr (.methodCall info receiver name args) ∈ f.body.nodes →
      typing.notes.methods.get? info.id = some signature → signature.self = some self → self.mode = .exclusive →
      ∃ t, typing.notes.types.get? receiver.id = some t ∧
        ((t.isRef = false ∧ typing.notes.coercions.get? receiver.id = some .autoRefMut ∧
          (receiver.isPlace = true → ∀ use,
            (code (contextOf p.collect.1 own f typing.notes) (.methodCall info receiver name args) use).Part
              ((contextOf p.collect.1 own f typing.notes).functionCode f) →
            ∃ start stop, Code.Applies (contextOf p.collect.1 own f typing.notes)
                (.borrowPlace receiver true receiver.info) start stop
                ((contextOf p.collect.1 own f typing.notes).functionCode f) {} ∧
              (contextOf p.collect.1 own f typing.notes).Changes start.ledger receiver)) ∨
          ∃ target, t = .ref true target) := by
  intro info receiver name args signature self inside called some exclusive
  obtain ⟨typingCtx, last, done⟩ := Typing.check_accepted decoded collected named member typed sound
  obtain ⟨t, found, taken⟩ := done.receiver (Typing.Context.collected decoded done.table) inside called some exclusive
  refine ⟨t, found, taken.imp_left fun given => ⟨given.1, given.2, fun place use part => ?_⟩⟩
  have lent := (methodCall_borrows called some exclusive given.2 place use).trans part
  obtain ⟨inner, run⟩ := check_accepted declared checked accepted
  generalize contextOf p.collect.1 own f typing.notes = ctx at *
  rw [functionCode_eq] at lent ⊢
  cases lent with
  | scope lent =>
    obtain ⟨scope, reaches⟩ : ∃ scope, Code.Reaches ctx _ scope [] _ := lent.reaches []
    obtain ⟨start, stop, applies, -, -, reported⟩ :=
      reaches.inspects (tidy_insideCode ctx f) (regular_start f.span) (names_start f.span) run.ran
    exact ⟨start, stop, .scope applies, Step.borrowPlace_changes applies.ran (run.quiet.of_reported reported)⟩

/-! ### A method that changes a struct -/

section

open Syntax

/-- A document with a method that changes a struct, and a function that calls it on its parameter. -/
def bumpingOn (param type : String) : Input :=
  documentOf [mappingNode [("struct", textNode "S"), ("fields", mappingNode [("x", textNode "bool")])],
    mappingNode [("method", textNode "bump"), ("on", textNode "S"), ("receiver", textNode "&mut self"),
      ("body", listNode [])],
    mappingNode [("fn", textNode "g"), ("params", listNode [mappingNode [(param, textNode type)]]),
      ("body", listNode [mappingNode [("method", textNode "bump"), ("on", textNode "s")]])]]

def holder : StructDecl := ⟨"S", [], [⟨"x", boolean, origin⟩], origin⟩

def bump : FuncDecl :=
  { (default : FuncDecl) with
    name := "bump"
    receiver := some ⟨"S", .exclusive, origin⟩
    body := .mk unnumbered [] none
    span := origin }

def bumpingFunction (param : Param) : FuncDecl :=
  { (default : FuncDecl) with
    name := "g"
    params := [param]
    body := .mk unnumbered [.expr origin (.methodCall unnumbered (.ident unnumbered "s") "bump" [])] none
    span := origin }

/-- The call with its nodes numbered. -/
def bumped : Expr := .ident ⟨4, origin⟩ "s"

def bumpCall : Expr := .methodCall ⟨3, origin⟩ bumped "bump" []

/-- The function with its nodes numbered. -/
def bumping (param : Param) : FuncDecl :=
  { bumpingFunction param with body := .mk ⟨2, origin⟩ [.expr origin bumpCall] none }

def bumpingProgram (param : Param) : Program :=
  ⟨"", "t.yaml", [.struct holder, .function { bump with body := .mk ⟨1, origin⟩ [] none }, .function (bumping param)]⟩

theorem bumping_mem (param : Param) : (bumping param, 1) ∈ (bumpingProgram param).functions.zipIdx :=
  .tail _ (.head _)

theorem bumpCall_mem (param : Param) : .expr bumpCall ∈ (bumping param).body.nodes :=
  List.mem_of_getElem? (i := 2) rfl

/-- The check comes to the call. -/
theorem bumpCall_part (ctx : Context) (param : Param) :
    (code ctx bumpCall .read).Part (ctx.functionCode (bumping param)) := by
  simp only [Context.functionCode, bumping, codeBlock, codeStmts, codeStmt]
  exact .scope (.next (.discard (.first (.scope (.first (.first (.scope (.discard .self))))))))

theorem bumpingProgram_named (param : Param) : (bumpingProgram param).Named := by
  simp [Program.Named, bumpingProgram, Item.typeName?, holder]

/-- Whether both checks of the function find nothing, and the call is of a method that changes its receiver, which has
a type. -/
def bumps (param : Param) (type : Ty → Bool) : Bool :=
  match Typing.check (bumpingProgram param).collect.1 1 (bumping param) with
  | .ok typing => typing.diagnostics.isEmpty &&
      decide (((typing.notes.methods.get? 3).bind Signature.self).map Signature.Self.mode = some .exclusive) &&
      (typing.notes.types.get? 4).any type &&
      (match check (bumpingProgram param).collect.1 1 (bumping param) typing.notes with
        | .ok result => result.diagnostics.isEmpty
        | .error _ => false)
  | .error _ => false

theorem exists_of_bumps {param : Param} {type : Ty → Bool} (runs : bumps param type = true) :
    ∃ typing result signature self t,
      Typing.check (bumpingProgram param).collect.1 1 (bumping param) = .ok typing ∧ typing.diagnostics = [] ∧
      check (bumpingProgram param).collect.1 1 (bumping param) typing.notes = .ok result ∧ result.diagnostics = [] ∧
      typing.notes.methods.get? 3 = some signature ∧ signature.self = some self ∧ self.mode = .exclusive ∧
      typing.notes.types.get? 4 = some t ∧ type t = true := by
  unfold bumps at runs
  split at runs
  next typing typed =>
    simp only [Bool.and_eq_true, decide_eq_true_eq, Option.map_eq_some_iff, Option.bind_eq_some_iff,
      Option.any_eq_true] at runs
    obtain ⟨⟨⟨sound, self, ⟨signature, resolved, some⟩, exclusive⟩, t, noted, holds⟩, accepted⟩ := runs
    split at accepted
    next result checked =>
      exact ⟨typing, result, signature, self, t, typed, List.isEmpty_iff.mp sound, checked,
        List.isEmpty_iff.mp accepted, resolved, some, exclusive, noted, holds⟩
    · cases accepted
  · cases runs

/-- A parameter that may be changed. -/
def changeable : Param := ⟨"s", ⟨origin, .named "S" []⟩, true, origin⟩

theorem readProgram_changeable : readProgram (bumpingOn "mut s" "S") =
    .ok ⟨"", "t.yaml", [.struct holder, .function bump, .function (bumpingFunction changeable)]⟩ := by
  with_unfolding_all rfl

theorem check_receivers_bumping : ∃ p : Program, p.Decoded ∧ p.collect.2 = [] ∧ p.Named ∧
    ∃ f typing own result, (f, 1) ∈ p.functions.zipIdx ∧ Typing.check p.collect.1 1 f = .ok typing ∧
      typing.diagnostics = [] ∧ p.collect.1.signature? 1 f = some own ∧
      check p.collect.1 1 f typing.notes = .ok result ∧ result.diagnostics = [] ∧
      ∃ info receiver, .expr (.methodCall info receiver "bump" []) ∈ f.body.nodes ∧
        typing.notes.coercions.get? receiver.id = some .autoRefMut ∧
        ∃ start stop, Code.Applies (contextOf p.collect.1 own f typing.notes)
            (.borrowPlace receiver true receiver.info) start stop
            ((contextOf p.collect.1 own f typing.notes).functionCode f) {} ∧
          (contextOf p.collect.1 own f typing.notes).Changes start.ledger receiver := by
  have decoded : (bumpingProgram changeable).Decoded := ⟨_, _, readProgram_changeable, rfl⟩
  have collected : (bumpingProgram changeable).collect.2 = [] := List.eq_nil_of_length_eq_zero (by decide +kernel)
  obtain ⟨own, declared⟩ : ∃ own, (bumpingProgram changeable).collect.1.signature? 1 (bumping changeable) = some own :=
    Option.isSome_iff_exists.mp (by decide +kernel)
  have runs : bumps changeable (fun t => !t.isRef) = true := by
    unfold bumps
    cbv
  obtain ⟨typing, result, signature, self, t, typed, sound, checked, accepted, resolved, some, exclusive, noted,
    direct⟩ := exists_of_bumps runs
  obtain ⟨outer, found, given⟩ := check_receivers decoded collected (bumpingProgram_named _) (bumping_mem _) typed sound
    declared checked accepted _ bumped _ _ signature self (bumpCall_mem _) resolved some exclusive
  obtain rfl := Option.some.inj (found.symm.trans noted)
  rcases given with ⟨-, lent, borrowed⟩ | ⟨target, rfl⟩
  · exact ⟨_, decoded, collected, bumpingProgram_named _, _, typing, own, result, bumping_mem _, typed, sound, declared,
      checked, accepted, _, bumped, bumpCall_mem _, lent, borrowed rfl .read (bumpCall_part _ _)⟩
  · cases direct

/-- A reference that may be changed to one that may not. -/
def blocked : Ty → Bool
  | .ref true (.ref false _) => true
  | _ => false

/-- A parameter that may be changed, but not what it points to. -/
def fixed : Param := ⟨"s", ⟨origin, .ref true (.ref false (.named "S" []))⟩, false, origin⟩

theorem readProgram_fixed : readProgram (bumpingOn "s" "&mut &S") =
    .ok ⟨"", "t.yaml", [.struct holder, .function bump, .function (bumpingFunction fixed)]⟩ := by
  with_unfolding_all rfl

/-- A reference that is not to be changed is overlooked below one that may be. -/
theorem check_accepts_fixed : ∃ p : Program, p.Decoded ∧ p.collect.2 = [] ∧ p.Named ∧
    ∃ f typing own result, (f, 1) ∈ p.functions.zipIdx ∧ Typing.check p.collect.1 1 f = .ok typing ∧
      typing.diagnostics = [] ∧ p.collect.1.signature? 1 f = some own ∧
      check p.collect.1 1 f typing.notes = .ok result ∧ result.diagnostics = [] ∧
      ∃ info receiver signature self target, .expr (.methodCall info receiver "bump" []) ∈ f.body.nodes ∧
        typing.notes.methods.get? info.id = some signature ∧ signature.self = some self ∧ self.mode = .exclusive ∧
        typing.notes.types.get? receiver.id = some (.ref true (.ref false target)) := by
  have decoded : (bumpingProgram fixed).Decoded := ⟨_, _, readProgram_fixed, rfl⟩
  have collected : (bumpingProgram fixed).collect.2 = [] := List.eq_nil_of_length_eq_zero (by decide +kernel)
  obtain ⟨own, declared⟩ : ∃ own, (bumpingProgram fixed).collect.1.signature? 1 (bumping fixed) = some own :=
    Option.isSome_iff_exists.mp (by decide +kernel)
  have runs : bumps fixed blocked = true := by
    unfold bumps
    cbv
  obtain ⟨typing, result, signature, self, t, typed, sound, checked, accepted, resolved, some, exclusive, noted,
    shape⟩ := exists_of_bumps runs
  obtain ⟨target, rfl⟩ : ∃ target, t = .ref true (.ref false target) := by
    unfold blocked at shape
    split at shape
    · exact ⟨_, rfl⟩
    · cases shape
  exact ⟨_, decoded, collected, bumpingProgram_named _, _, typing, own, result, bumping_mem _, typed, sound, declared,
    checked, accepted, _, bumped, signature, self, target, bumpCall_mem _, resolved, some, exclusive, noted⟩

end

end Ownership

end TreeCheck
