import TreeCheck.Proofs.Ownership.Blame
import TreeCheck.Proofs.Ownership.Functions
import TreeCheck.Proofs.Ownership.Sources
import TreeCheck.Proofs.Typing.Closed
import TreeCheck.Symbol.Collect

/-!
What calls hand on. The result of a call points into what the arguments point into that the signature passes on,
if both its declared and its recorded type hold a reference; so what the innermost argument of a chain of calls
points into is still there when the value is returned.
-/

namespace TreeCheck

/-- Whether the result of a call may point into what the argument at a position points into: the signature has no
lives clause, or one that names the parameter. -/
def Signature.Passes (s : Signature) (i : Nat) : Prop :=
  ∀ names, s.lives = some names → ∃ name ∈ names, name ≠ "self" ∧ s.paramIndex? name = some i

/-- Whether it may point into what the receiver points into. -/
def Signature.PassesSelf (s : Signature) : Prop := ∀ names, s.lives = some names → "self" ∈ names

namespace Ownership

variable {ctx : Context} {l middle after : Ledger} {origins : List Origin} {use : Use}

/-! ### The result of a call -/

/-- What an entry of a lives clause stands for. -/
def named (signature : Signature) (receiver : List Origin) (args : List (List Origin)) (name : String) :
    List Origin :=
  if name == "self" then receiver else ((signature.paramIndex? name).bind fun i => args[i]?).getD []

namespace Context

variable {signature : Signature} {receiver : List Origin} {args : List (List Origin)} {origin : Origin}

theorem mem_union_named (name : String) (start : List Origin) :
    origin ∈ (if name == "self" then Origin.union start receiver
      else match (signature.paramIndex? name).bind fun i => args[i]? with
        | some arg => Origin.union start arg
        | none => start) ↔ origin ∈ start ∨ origin ∈ named signature receiver args name := by
  unfold named
  split
  · exact Origin.mem_union
  · cases (signature.paramIndex? name).bind fun i => args[i]? with
    | none => simp
    | some arg => exact Origin.mem_union

theorem mem_foldl_named (names : List String) (start : List Origin) :
    origin ∈ names.foldl (fun origins name =>
      if name == "self" then Origin.union origins receiver
      else match (signature.paramIndex? name).bind fun i => args[i]? with
        | some arg => Origin.union origins arg
        | none => origins) start ↔
      origin ∈ start ∨ ∃ name ∈ names, origin ∈ named signature receiver args name := by
  induction names generalizing start with
  | nil => simp
  | cons name names ih => rw [List.foldl_cons, ih, mem_union_named, List.exists_mem_cons_iff, or_assoc]

theorem mem_returned (declared : ctx.carries signature.result = true) :
    origin ∈ ctx.returned signature receiver args ↔ match signature.lives with
      | none => origin ∈ receiver ∨ ∃ arg ∈ args, origin ∈ arg
      | some names => ∃ name ∈ names, origin ∈ named signature receiver args name := by
  have all : ∀ start, origin ∈ args.foldl Origin.union start ↔ origin ∈ start ∨ ∃ arg ∈ args, origin ∈ arg := by
    induction args with
    | nil => simp
    | cons arg args ih => simp [ih, Origin.mem_union, or_assoc]
  unfold returned
  rw [declared]
  cases signature.lives with
  | none => exact all receiver
  | some names => exact (mem_foldl_named names []).trans (by simp)

theorem mem_returned_arg (declared : ctx.carries signature.result = true) {i : Nat} (passes : signature.Passes i)
    {arg : List Origin} (given : args[i]? = some arg) (member : origin ∈ arg) :
    origin ∈ ctx.returned signature receiver args := by
  rw [mem_returned declared]
  cases lives : signature.lives with
  | none => exact .inr ⟨arg, List.mem_of_getElem? given, member⟩
  | some names =>
    obtain ⟨name, listed, notSelf, index⟩ := passes names lives
    refine ⟨name, listed, ?_⟩
    simpa [named, notSelf, index, given] using member

theorem mem_returned_self (declared : ctx.carries signature.result = true) (passes : signature.PassesSelf)
    (member : origin ∈ receiver) : origin ∈ ctx.returned signature receiver args := by
  rw [mem_returned declared]
  cases lives : signature.lives with
  | none => exact .inl member
  | some names => exact ⟨"self", passes names lives, member⟩

theorem carried_ok {node : Nat} {value : Own (List Origin)} (holds : ctx.carries (ctx.notes.typeOf node) = true)
    (ran : (ctx.carried node value).run l = .ok (origins, after)) : value.run l = .ok (origins, after) := by
  obtain ⟨found, middle, evaluated, rest⟩ := Own.run_bind_ok.mp ran
  have again : (ctx.carried node (pure found)).run middle = .ok (origins, after) :=
    Own.run_bind_ok.mpr ⟨found, middle, Own.run_pure_ok.mpr ⟨rfl, rfl⟩, rest⟩
  obtain rfl := carried_pure_ok again
  have same := carried_value again
  rw [holds, if_pos rfl] at same
  exact same ▸ evaluated

def callee? (ctx : Context) : Expr → Option Signature
  | .call info _ _ => ctx.notes.calls.get? info.id
  | .methodCall info _ _ _ => ctx.notes.methods.get? info.id
  | _ => none

end Context

/-! ### Calls -/

def receiver? : Expr → Option Expr
  | .methodCall _ receiver _ _ => some receiver
  | _ => none

def arguments : Expr → List Expr
  | .call _ _ args | .methodCall _ _ _ args => args
  | _ => []

/-- Passes an argument, which is borrowed first if it is coerced to a reference. -/
def evalArgument (ctx : Context) (a : Expr) : Own (List Origin) :=
  ctx.argument a (eval ctx a .read) (eval ctx a .move) (indices ctx a)

/-- Takes the value a method is called on: its receiver as it is, or as an argument. -/
def evalReceiver (ctx : Context) (signature : Option Signature) (receiver : Expr) : Own (List Origin) :=
  if (signature.bind fun s => s.self.map Signature.Self.mode) == some .value then eval ctx receiver .move
  else evalArgument ctx receiver

def evalCallee (ctx : Context) (callee : Expr) : Own Unit :=
  if Context.isWhole callee then pure ()
  else do
    let _ ← eval ctx callee .read
    return

/-- Evaluates what is passed in a call, and tells what the receiver and the arguments point into. -/
def passed (ctx : Context) : Expr → Own (List Origin × List (List Origin))
  | .call _ callee args => do
    evalCallee ctx callee
    let each ← evalArgs ctx args
    return ([], each)
  | .methodCall info receiver _ args => do
    let origins ← evalReceiver ctx (ctx.notes.methods.get? info.id) receiver
    let each ← evalArgs ctx args
    return (origins, each)
  | _ => return ([], [])

theorem eval_call {e : Expr} {signature : Signature} (called : ctx.callee? e = some signature) :
    eval ctx e use = ctx.carried e.id (do
      let (receiver, args) ← passed ctx e
      return ctx.returned signature receiver args) := by
  cases e with
  | call info callee args =>
    rw [eval, passed, evalCallee, show ctx.notes.calls.get? info.id = some signature from called]
    cases Context.isWhole callee <;> simp [Expr.id, Expr.info]
  | methodCall info receiver method args =>
    rw [eval, passed, evalReceiver, show ctx.notes.methods.get? info.id = some signature from called]
    simp only [Option.bind_some, evalArgument]
    split <;> simp [Expr.id, Expr.info]
  | _ => cases called

/-- The result of a call whose declared and recorded types hold references points into all that is passed on. -/
theorem eval_call_keeps {e : Expr} {signature : Signature} (called : ctx.callee? e = some signature)
    (declared : ctx.carries signature.result = true) (recorded : ctx.carries (ctx.notes.typeOf e.id) = true)
    (ran : (eval ctx e use).run l = .ok (origins, after)) :
    ∃ receiver args, (passed ctx e).run l = .ok ((receiver, args), after) ∧
      (signature.PassesSelf → ∀ origin ∈ receiver, origin ∈ origins) ∧
      ∀ i arg, signature.Passes i → args[i]? = some arg → ∀ origin ∈ arg, origin ∈ origins := by
  rw [eval_call called] at ran
  obtain ⟨⟨receiver, args⟩, _, evaluated, ran⟩ := Own.run_bind_ok.mp (ctx.carried_ok recorded ran)
  obtain ⟨rfl, rfl⟩ := Own.run_pure_ok.mp ran
  exact ⟨receiver, args, evaluated, fun passes _ member => ctx.mem_returned_self declared passes member,
    fun _ _ passes given _ member => ctx.mem_returned_arg declared passes given member⟩

/-! ### What evaluating leaves alone -/

theorem Code.Yields.grows {c : Code} {rule : Own (List Origin)} (yields : c.Yields ctx rule) (tidy : c.Tidy false)
    (ran : rule.run l = .ok (origins, after)) : l.Grows [] after := by
  have done : c.run ctx { ledger := l } = .ok { ledger := after, values := [origins] } := by
    rw [yields, ran]
    rfl
  exact tidy.grows_nil (tidy.ran nofun done).grows

/-- No variable is declared around an expression that was evaluated. -/
theorem eval_grows {e : Expr} (ran : (eval ctx e use).run l = .ok (origins, after)) : l.Grows [] after :=
  (yields_code e use).grows (tidy_code e use) ran

theorem evalArgument_grows {a : Expr} (ran : (evalArgument ctx a).run l = .ok (origins, after)) :
    l.Grows [] after :=
  have places : (codeIndices ctx a).Performs ctx (indices ctx a) := performs_codeIndices a
  have yields := Code.yields_argumentCode (tidy_codeIndices a) (yields_code a .read) (yields_code a .move) places
  yields.grows (tidy_argumentCode (tidy_code a .read) (tidy_code a .move) (tidy_codeIndices a)) ran

theorem evalArgs_grows {args : List Expr} {each : List (List Origin)}
    (ran : (evalArgs ctx args).run l = .ok (each, after)) : l.Grows [] after := by
  induction args generalizing l each with
  | nil =>
    rw [evalArgs] at ran
    obtain ⟨-, rfl⟩ := Own.run_pure_ok.mp ran
    exact .refl l
  | cons a args ih =>
    rw [evalArgs] at ran
    obtain ⟨found, middle, evaluated, ran⟩ := Own.run_bind_ok.mp ran
    obtain ⟨others, _, following, ran⟩ := Own.run_bind_ok.mp ran
    obtain ⟨-, rfl⟩ := Own.run_pure_ok.mp ran
    exact (evalArgument_grows evaluated).trans (ih following)

theorem Ledger.Grows.lookup? (grows : l.Grows [] after) (name : String) : after.lookup? name = l.lookup? name := by
  rw [Ledger.lookup?, Ledger.lookup?, grows.scopes_eq]

theorem Ledger.Grows.quiet (grows : l.Grows [] after) (quiet : after.Quiet) : l.Quiet :=
  quiet.of_reported grows.reports

/-- Each argument is passed on the way. -/
theorem evalArgs_ok {args : List Expr} {each : List (List Origin)}
    (ran : (evalArgs ctx args).run l = .ok (each, after)) {i : Nat} {a : Expr} (given : args[i]? = some a) :
    ∃ before middle found, each[i]? = some found ∧ l.Grows [] before ∧
      (evalArgument ctx a).run before = .ok (found, middle) ∧ middle.Grows [] after := by
  induction args generalizing l each i with
  | nil => cases given
  | cons first rest ih =>
    rw [evalArgs] at ran
    obtain ⟨found, middle, evaluated, ran⟩ := Own.run_bind_ok.mp ran
    obtain ⟨others, _, following, ran⟩ := Own.run_bind_ok.mp ran
    obtain ⟨rfl, rfl⟩ := Own.run_pure_ok.mp ran
    cases i with
    | zero =>
      obtain rfl := Option.some.inj given
      exact ⟨l, middle, found, rfl, .refl l, evaluated, evalArgs_grows following⟩
    | succ i =>
      obtain ⟨before, last, value, there, grows, ended, later⟩ := ih following given
      exact ⟨before, last, value, there, (evalArgument_grows evaluated).trans grows, ended, later⟩

theorem evalCallee_grows {callee : Expr} {u : Unit} (ran : (evalCallee ctx callee).run l = .ok (u, after)) :
    l.Grows [] after := by
  unfold evalCallee at ran
  split at ran
  · obtain ⟨-, rfl⟩ := Own.run_pure_ok.mp ran
    exact .refl l
  · obtain ⟨_, middle, evaluated, ran⟩ := Own.run_bind_ok.mp ran
    obtain ⟨-, rfl⟩ := Own.run_pure_ok.mp ran
    exact eval_grows evaluated

theorem evalReceiver_grows {signature : Option Signature} {receiver : Expr}
    (ran : (evalReceiver ctx signature receiver).run l = .ok (origins, after)) : l.Grows [] after := by
  unfold evalReceiver at ran
  split at ran
  · exact eval_grows ran
  · exact evalArgument_grows ran

theorem passed_args {e : Expr} {receiver : List Origin} {each : List (List Origin)}
    (ran : (passed ctx e).run l = .ok ((receiver, each), after)) :
    ∃ start, l.Grows [] start ∧ (evalArgs ctx (arguments e)).run start = .ok (each, after) := by
  unfold passed at ran
  split at ran
  · obtain ⟨_, start, called, ran⟩ := Own.run_bind_ok.mp ran
    obtain ⟨others, _, evaluated, ran⟩ := Own.run_bind_ok.mp ran
    obtain ⟨same, rfl⟩ := Own.run_pure_ok.mp ran
    cases same
    exact ⟨start, evalCallee_grows called, evaluated⟩
  · obtain ⟨_, start, taken, ran⟩ := Own.run_bind_ok.mp ran
    obtain ⟨others, _, evaluated, ran⟩ := Own.run_bind_ok.mp ran
    obtain ⟨same, rfl⟩ := Own.run_pure_ok.mp ran
    cases same
    exact ⟨start, evalReceiver_grows taken, evaluated⟩
  next noCall noMethod =>
    obtain ⟨same, rfl⟩ := Own.run_pure_ok.mp ran
    cases same
    have none : arguments e = [] := by
      unfold arguments
      split
      · exact absurd rfl (noCall _ _ _)
      · exact absurd rfl (noMethod _ _ _ _)
      · rfl
    rw [none, evalArgs]
    exact ⟨l, .refl l, rfl⟩

theorem passed_receiver {e a : Expr} {receiver : List Origin} {each : List (List Origin)}
    (ran : (passed ctx e).run l = .ok ((receiver, each), after)) (given : receiver? e = some a) :
    ∃ signature middle, (evalReceiver ctx signature a).run l = .ok (receiver, middle) ∧ middle.Grows [] after := by
  cases e with
  | methodCall info other method args =>
    obtain rfl : other = a := Option.some.inj given
    rw [passed] at ran
    obtain ⟨found, middle, evaluated, ran⟩ := Own.run_bind_ok.mp ran
    obtain ⟨others, _, following, ran⟩ := Own.run_bind_ok.mp ran
    obtain ⟨same, rfl⟩ := Own.run_pure_ok.mp ran
    cases same
    exact ⟨_, middle, evaluated, evalArgs_grows following⟩
  | _ => cases given

/-! ### Chains of calls -/

/-- An expression whose value is a reference to what a name stands for, handed on by calls. Each callee passes it on,
and what it is declared to return holds a reference, as does what it is found to return here. -/
inductive Lends (ctx : Context) (name : String) : Expr → Prop
  | ref {info site : NodeInfo} {mutable : Bool} (recorded : ctx.carries (ctx.notes.typeOf info.id) = true) :
      Lends ctx name (.ref info mutable (.ident site name))
  /-- A variable that is passed as a reference to it. -/
  | coerced {e : Expr} {i : Nat} {signature : Signature} {site : NodeInfo} (called : ctx.callee? e = some signature)
      (declared : ctx.carries signature.result = true) (recorded : ctx.carries (ctx.notes.typeOf e.id) = true)
      (given : (arguments e)[i]? = some (.ident site name)) (passes : signature.Passes i)
      (borrowed : ctx.notes.coercions.get? site.id = some .autoRef ∨
        ctx.notes.coercions.get? site.id = some .autoRefMut) :
      Lends ctx name e
  | argument {e a : Expr} {i : Nat} {signature : Signature} (called : ctx.callee? e = some signature)
      (declared : ctx.carries signature.result = true) (recorded : ctx.carries (ctx.notes.typeOf e.id) = true)
      (given : (arguments e)[i]? = some a) (passes : signature.Passes i) (rest : Lends ctx name a) :
      Lends ctx name e
  | receiver {e a : Expr} {signature : Signature} (called : ctx.callee? e = some signature)
      (declared : ctx.carries signature.result = true) (recorded : ctx.carries (ctx.notes.typeOf e.id) = true)
      (given : receiver? e = some a) (passes : signature.PassesSelf) (rest : Lends ctx name a) :
      Lends ctx name e

theorem Context.callee?_value {e : Expr} {signature : Signature} (called : ctx.callee? e = some signature) :
    e.isPlace = false := by
  cases e with
  | call | methodCall => rfl
  | _ => cases called

theorem Lends.value {name : String} {e : Expr} (lends : Lends ctx name e) : e.isPlace = false := by
  cases lends with
  | ref => rfl
  | coerced called | argument called | receiver called => exact Context.callee?_value called

theorem evalArgument_value {a : Expr} (value : a.isPlace = false)
    (ran : (evalArgument ctx a).run l = .ok (origins, after)) :
    ∃ use found middle, (eval ctx a use).run l = .ok (found, middle) ∧ middle.Grows [] after ∧
      ∀ origin ∈ found, origin ∈ origins := by
  have borrowed {mutable : Bool} (ran : (ctx.borrow a mutable a.info (eval ctx a .move) (indices ctx a)).run l =
      .ok (origins, after)) : ∃ use found middle, (eval ctx a use).run l = .ok (found, middle) ∧
        middle.Grows [] after ∧ ∀ origin ∈ found, origin ∈ origins := by
    unfold Context.borrow at ran
    rw [value, if_neg (by simp)] at ran
    obtain ⟨found, middle, evaluated, ran⟩ := Own.run_bind_ok.mp ran
    obtain ⟨loan, _, lent, ran⟩ := Own.run_bind_ok.mp ran
    obtain ⟨rfl, rfl⟩ := Own.run_pure_ok.mp ran
    have keeps : middle.Keeps (fun _ => ()) (fun _ => True) _ := lend_keeps none mutable a.info lent
    exact ⟨.move, found, middle, evaluated, .of_keeps keeps, fun _ member => Origin.mem_union.mpr (.inl member)⟩
  unfold evalArgument Context.argument at ran
  split at ran
  · exact borrowed ran
  · exact borrowed ran
  · obtain ⟨t, _, typed, ran⟩ := Own.run_bind_ok.mp ran
    obtain ⟨-, rfl⟩ := Context.typeOf_ok typed
    split at ran
    · exact ⟨.read, origins, after, ran, .refl after, fun _ member => member⟩
    · exact ⟨.move, origins, after, ran, .refl after, fun _ member => member⟩

theorem evalReceiver_value {signature : Option Signature} {a : Expr} (value : a.isPlace = false)
    (ran : (evalReceiver ctx signature a).run l = .ok (origins, after)) :
    ∃ use found middle, (eval ctx a use).run l = .ok (found, middle) ∧ middle.Grows [] after ∧
      ∀ origin ∈ found, origin ∈ origins := by
  unfold evalReceiver at ran
  split at ran
  · exact ⟨.move, origins, after, ran, .refl after, fun _ member => member⟩
  · exact evalArgument_value value ran

/-- Borrowing a variable gives a loan, or something is reported. -/
theorem borrow_name {site info : NodeInfo} {name : String} {mutable : Bool} {evaluate : Own (List Origin)} {id : Nat}
    (declared : l.lookup? name = some id) (quiet : after.Quiet)
    (ran : (ctx.borrow (.ident info name) mutable site evaluate (indices ctx (.ident info name))).run l =
      .ok (origins, after)) :
    ∃ loan, .loan loan ∈ origins := by
  unfold Context.borrow at ran
  obtain ⟨p, _, placed, ran⟩ := Own.run_bind_ok.mp ran
  obtain ⟨reached, rfl⟩ := place_ok placed
  obtain ⟨u, _, walked, ran⟩ := Own.run_bind_ok.mp ran
  simp only [indices] at walked
  obtain ⟨-, rfl⟩ := Own.run_pure_ok.mp walked
  obtain rfl : p = { root := .var id } := by
    rw [Ledger.lookup?] at declared
    simp only [Context.placeIn, declared] at reached
    exact (Except.ok.inj reached).symm
  obtain ⟨loan, rfl⟩ : ∃ loan, origins = [.loan loan] := Context.borrowPlace_value quiet ran
  exact ⟨loan, List.mem_singleton_self _⟩

/-- The value of a chain of calls still points into what was lent at its start. -/
theorem Lends.loan {name : String} {e : Expr} (lends : Lends ctx name e) {id : Nat}
    (declared : l.lookup? name = some id) (ran : (eval ctx e use).run l = .ok (origins, after))
    (quiet : after.Quiet) : ∃ loan, .loan loan ∈ origins := by
  induction lends generalizing use l origins after with
  | ref recorded =>
    rw [eval] at ran
    exact borrow_name declared quiet (ctx.carried_ok recorded ran)
  | coerced called result recorded given passes borrowed =>
    obtain ⟨receiver, args, passing, -, kept⟩ := eval_call_keeps called result recorded ran
    obtain ⟨start, early, each⟩ := passed_args passing
    obtain ⟨before, middle, found, there, grows, ended, later⟩ := evalArgs_ok each given
    have same := (early.trans grows).lookup? name
    obtain ⟨loan, member⟩ : ∃ loan, .loan loan ∈ found := by
      unfold evalArgument Context.argument at ended
      rcases borrowed with borrowed | borrowed
      all_goals
        simp only [Expr.id, Expr.info, borrowed] at ended
        exact borrow_name (same.trans declared) (later.quiet quiet) ended
    exact ⟨loan, kept _ found passes there _ member⟩
  | argument called result recorded given passes rest ih =>
    obtain ⟨receiver, args, passing, -, kept⟩ := eval_call_keeps called result recorded ran
    obtain ⟨start, early, each⟩ := passed_args passing
    obtain ⟨before, middle, found, there, grows, ended, later⟩ := evalArgs_ok each given
    obtain ⟨use, value, last, evaluated, lastly, subset⟩ := evalArgument_value rest.value ended
    have same := (early.trans grows).lookup? name
    obtain ⟨loan, member⟩ := ih (same.trans declared) evaluated ((lastly.trans later).quiet quiet)
    exact ⟨loan, kept _ found passes there _ (subset _ member)⟩
  | receiver called result recorded given passes rest ih =>
    obtain ⟨receiver, args, passing, kept, -⟩ := eval_call_keeps called result recorded ran
    obtain ⟨_, middle, taken, later⟩ := passed_receiver passing given
    obtain ⟨use, found, last, evaluated, lastly, subset⟩ := evalReceiver_value rest.value taken
    obtain ⟨loan, member⟩ := ih declared evaluated ((lastly.trans later).quiet quiet)
    exact ⟨loan, kept passes _ (subset _ member)⟩

/-- What is reported first when a loan is returned. -/
theorem checkEscape_lead {span : Span} {u : Unit} (carries : ctx.carries ctx.signature.result = true)
    (quiet : l.Quiet) {loan : Nat} (member : .loan loan ∈ origins)
    (ran : (ctx.checkEscape span origins).run l = .ok (u, after)) : after.lead = some .danglingReference := by
  have reaches : Reaches origins none := ⟨_, member, rfl⟩
  have loud : ¬after.Quiet := fun quiet => Context.checkEscape_quiet carries quiet ran reaches
  have keeps : (ctx.checkEscape span origins).Keeps VarFlow.holds (.danglingReference = ·) :=
    ctx.checkEscape_keeps rfl span origins
  obtain ⟨new, bag, kinds⟩ := (keeps ran).reports
  rw [quiet, List.nil_append] at bag
  rw [Ledger.Quiet, bag] at loud
  rw [Ledger.lead, bag]
  cases new with
  | nil => exact absurd rfl loud
  | cons d rest => exact congrArg some (kinds d List.mem_cons_self).symm

/-- A call whose declared and recorded result types hold references points into what the arguments and the receiver
point into that the signature passes on. So a reference to a variable that is handed on by such calls and returned
is reported, unless something was reported before. -/
theorem calls_keep_origins (ctx : Context) {e : Expr} {signature : Signature}
    (called : ctx.callee? e = some signature) (declared : ctx.carries signature.result = true)
    (recorded : ctx.carries (ctx.notes.typeOf e.id) = true) (use : Use) (l after : Ledger) (origins : List Origin)
    (ran : (eval ctx e use).run l = .ok (origins, after)) :
    (∃ receiver args, (passed ctx e).run l = .ok ((receiver, args), after) ∧
      (signature.PassesSelf → ∀ origin ∈ receiver, origin ∈ origins) ∧
      ∀ i arg, signature.Passes i → args[i]? = some arg → ∀ origin ∈ arg, origin ∈ origins) ∧
    ∀ name id span returned, Lends ctx name e → l.lookup? name = some id → after.Quiet →
      ctx.carries ctx.signature.result = true → (ctx.checkEscape span origins).run after = .ok ((), returned) →
      returned.lead = some .danglingReference := by
  refine ⟨eval_call_keeps called declared recorded ran, ?_⟩
  intro name id span returned lends inScope quiet carries checked
  obtain ⟨loan, member⟩ := lends.loan inScope ran quiet
  exact checkEscape_lead carries quiet member checked

/-- A call with a reference to a local variable. -/
def givenBack : Expr :=
  .call ⟨6, default⟩ (.ident ⟨7, default⟩ "id") [.ref ⟨8, default⟩ false (.ident ⟨9, default⟩ "s")]

def leakingLedger : Ledger := ((({} : Ledger).push false default).declare "s" .string false default).2

/-- A signature that takes and gives back a reference. -/
def handingSignature : Signature :=
  { name := "id", kind := .function, typeParams := [], params := [{ name := "x", type := .ref false .string }]
    result := .ref false .string }

def handingContext : Context :=
  { decls := {}, signature := handingSignature, function := "f"
    notes :=
      { types := [(6, .ref false .string), (8, .ref false .string), (9, .string)], calls := [(6, handingSignature)] } }

theorem handing_runs :
    (match (eval handingContext givenBack .move).run leakingLedger with
      | .ok (origins, after) => after.bag.contents.isEmpty &&
          (match (handingContext.checkEscape default origins).run after with
            | .ok _ => true
            | .error _ => false)
      | .error _ => false) = true := by cbv

theorem calls_keep_origins_handing : ∃ origins after returned,
    (eval handingContext givenBack .move).run leakingLedger = .ok (origins, after) ∧
      (∃ receiver args, (passed handingContext givenBack).run leakingLedger = .ok ((receiver, args), after) ∧
        ∀ i arg, handingSignature.Passes i → args[i]? = some arg → ∀ origin ∈ arg, origin ∈ origins) ∧
      (handingContext.checkEscape default origins).run after = .ok ((), returned) ∧
      returned.lead = some .danglingReference := by
  have ends := handing_runs
  split at ends
  next origins after ran =>
    simp only [Bool.and_eq_true] at ends
    obtain ⟨quiet, ends⟩ := ends
    split at ends
    next last checked =>
      obtain ⟨⟨⟩, returned⟩ := last
      have recorded : handingContext.carries (handingContext.notes.typeOf 8) = true := by decide +kernel
      have lends : Lends handingContext "s" givenBack :=
        .argument (i := 0) rfl rfl rfl rfl (fun _ same => by cases same) (.ref recorded)
      obtain ⟨⟨receiver, args, passing, -, kept⟩, reported⟩ :=
        calls_keep_origins handingContext (e := givenBack) rfl rfl rfl .move leakingLedger after origins ran
      exact ⟨origins, after, returned, ran, ⟨receiver, args, passing, kept⟩, checked,
        reported "s" 0 default returned lends rfl (List.isEmpty_iff.mp quiet) rfl checked⟩
    · cases ends
  · cases ends

/-- A function that gives back what it is given, whatever its type. -/
def giving : FuncDecl :=
  { (default : FuncDecl) with
    name := "id"
    typeParams := ["T"]
    params := [⟨"x", ⟨default, .named "T" []⟩, false, default⟩]
    result := some ⟨default, .named "T" []⟩
    body := .mk ⟨1, default⟩ [] (some (.ident ⟨2, default⟩ "x")) }

/-- A function that returns what the call gives back. -/
def leaking : FuncDecl :=
  { (default : FuncDecl) with
    name := "f"
    result := some ⟨default, .ref false (.named "String" [])⟩
    body := .mk ⟨3, default⟩
      [.bind default (.binding { info := ⟨4, default⟩, name := "s" }) none (some (.string ⟨5, default⟩ default))]
      (some givenBack) }

def leakingProgram : Program := ⟨"0.1.0", "t.yaml", [.function giving, .function leaking]⟩

/-- What the calling function is checked against once its types are known. -/
def leakingContext (signature : Signature) (typing : Typing.Result) : Context :=
  contextOf leakingProgram.collect.1 signature leaking typing.notes

theorem leaking_runs :
    (match Typing.check leakingProgram.collect.1 1 leaking with
      | .ok typing => match leakingProgram.collect.1.signature? 1 leaking with
        | some signature => typing.isOk &&
            decide (((leakingContext signature typing).callee? givenBack).map Signature.lives = some none) &&
            (leakingContext signature typing).carries (typing.notes.typeOf givenBack.id) &&
            (match (passed (leakingContext signature typing) givenBack).run leakingLedger with
              | .ok (found, _) => decide (found = ([], [[.loan 0]]))
              | .error _ => false) &&
            (match (eval (leakingContext signature typing) givenBack .move).run leakingLedger with
              | .ok (found, _) => found.isEmpty
              | .error _ => false) &&
            (match check leakingProgram.collect.1 1 leaking typing.notes with
              | .ok result => result.diagnostics.isEmpty
              | .error _ => false)
        | none => false
      | .error _ => false) = true := by cbv

/-- The result of a call of a generic function points nowhere, and the reference to the local variable is not
reported when it is returned. -/
theorem check_overlooks_generic : leakingProgram.collect.2.length = 0 ∧
    (leaking, 1) ∈ leakingProgram.functions.zipIdx ∧ ∃ typing signature,
      Typing.check leakingProgram.collect.1 1 leaking = .ok typing ∧ typing.isOk = true ∧
      leakingProgram.collect.1.signature? 1 leaking = some signature ∧
      ((leakingContext signature typing).callee? givenBack).map Signature.lives = some none ∧
      (leakingContext signature typing).carries (typing.notes.typeOf givenBack.id) = true ∧
      ((passed (leakingContext signature typing) givenBack).run leakingLedger).map Prod.fst = .ok ([], [[.loan 0]]) ∧
      ((eval (leakingContext signature typing) givenBack .move).run leakingLedger).map Prod.fst = .ok [] ∧
      (check leakingProgram.collect.1 1 leaking typing.notes).map Result.diagnostics = .ok [] := by
  have accepted := leaking_runs
  split at accepted
  next typing typed =>
    split at accepted
    next signature own =>
      simp only [Bool.and_eq_true, decide_eq_true_eq] at accepted
      obtain ⟨⟨⟨⟨⟨isOk, lives⟩, recorded⟩, passing⟩, forgotten⟩, quiet⟩ := accepted
      refine ⟨by decide +kernel, by simp [leakingProgram, Program.functions], typing, signature, typed, isOk, own,
        lives, recorded, ?_, ?_, ?_⟩
      · split at passing
        next evaluated =>
          obtain rfl := of_decide_eq_true passing
          rw [evaluated]
          rfl
        · cases passing
      · split at forgotten
        next evaluated =>
          rw [evaluated]
          exact congrArg Except.ok (List.isEmpty_iff.mp forgotten)
        · cases forgotten
      · split at quiet
        next checked =>
          rw [checked]
          exact congrArg Except.ok (List.isEmpty_iff.mp quiet)
        · cases quiet
    · cases accepted
  · cases accepted

end Ownership

end TreeCheck
