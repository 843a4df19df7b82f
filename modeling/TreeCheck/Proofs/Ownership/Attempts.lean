import TreeCheck.Proofs.Ownership.MovePaths

/-!
Arms that are tried in vain. A match goes on with its next arm when a guard answers no, and what the guard has
done to the variables stays done; so an arm comes after attempts at the arms before it, as code in its
own right.
-/

namespace TreeCheck.Ownership

namespace Code

/-- First parts of some code, at one of which evaluation may stop. -/
def prefixes : Code → List Code
  | .seq first next => prefixes first ++ (prefixes next).map (.seq first)
  | c => [.skip, c]

def isDiscard : Code → Bool
  | .discard _ => true
  | _ => false

/-- What may be evaluated of an arm before its body: first parts up to its guard, which is the first code whose
value is not looked at. -/
def openings : Code → List Code
  | .seq first next =>
    if first.isDiscard then [first] else prefixes first ++ (openings next).map (.seq first)
  | _ => []

/-- An arm of a match that is not chosen: nothing of it is evaluated, or its guards up to one that
answers no. -/
def attempt : Code → Code
  | .scope false span body => .discard (.choice (.skip :: (openings body).map (.scope false span)))
  | _ => .skip

mutual

/-- The code in which each arm of a match comes after attempts at the arms before it. -/
def falling : Code → Code
  | .skip => .skip
  | .step s => .step s
  | .seq first next => .seq (falling first) (falling next)
  | .discard body => .discard (falling body)
  | .scope isTemporary span body => .scope isTemporary span (falling body)
  | .choice arms => .choice (fallingArms .skip arms)
  | .loop test round => .loop (falling test) (falling round)
  | .leave => .leave

def fallingArms (before : Code) : List Code → List Code
  | [] => []
  | arm :: rest => .seq before (falling arm) :: fallingArms (.seq before (attempt (falling arm))) rest

end

/-- What is tried of an arm: its pattern is bound, and then come any number of the guards in the pattern and the
guard of the arm. -/
theorem openings_arm (ctx : Context) (bindings : List Binding) (p : Pattern) (guard : Option Expr)
    (rest : List Code) (some : rest ≠ []) :
    openings (.all (.step (.bind bindings) :: codeGuards ctx p ::
      .discard (codeOption ctx guard .read) :: rest)) =
    [.skip, .step (.bind bindings)] ++ (prefixes (codeGuards ctx p) ++
      [Code.seq (codeGuards ctx p) (.discard (codeOption ctx guard .read))]).map
        (Code.seq (.step (.bind bindings))) := by
  have parts : isDiscard (codeGuards ctx p) = false := by
    cases p with
    | tuple _ elements | list _ elements | alternatives _ elements =>
      cases elements <;> simp [codeGuards, codeGuardsAll, isDiscard]
    | record _ _ fields =>
      rcases fields with - | ⟨⟨_, _⟩, _⟩ <;> simp [codeGuards, codeGuardsFields, isDiscard]
    | _ => simp [codeGuards, isDiscard, all]
  have first : isDiscard (.step (.bind bindings)) = false := rfl
  have last : isDiscard (.discard (codeOption ctx guard .read)) = true := rfl
  obtain ⟨c, others, rfl⟩ := List.exists_cons_of_ne_nil some
  simp [all, openings, first, parts, last, prefixes]

/-! ### Moves inside guards -/

section Spares

variable (ctx : Context) (count : Nat)

mutual

/-- Code that moves none of the variables in the first slots, from where some names are in scope. -/
def Spares : Code → List (String × Option Ty) → Prop
  | .skip, _ | .leave, _ => True
  | .step s, names => ∀ j < count, ¬(s.effect ctx names).sets j
  | .seq first next, names => Spares first names ∧ Spares next (first.declared ctx ++ names)
  | .discard body, names | .scope _ _ body, names => Spares body names
  | .choice arms, names => SparesEach arms names
  | .loop test round, names => Spares test names ∧ Spares round names

def SparesEach : List Code → List (String × Option Ty) → Prop
  | [], _ => True
  | arm :: rest, names => Spares arm names ∧ SparesEach rest names

end

mutual

/-- Code whose guards move nothing from outside the arms they belong to. -/
def GuardsSpare : Code → List (String × Option Ty) → Prop
  | .skip, _ | .leave, _ | .step _, _ => True
  | .seq first next, names => GuardsSpare first names ∧ GuardsSpare next (first.declared ctx ++ names)
  | .discard body, names | .scope _ _ body, names => GuardsSpare body names
  | .choice arms, names => GuardsSpareEach arms names
  | .loop test round, names => GuardsSpare test names ∧ GuardsSpare round names

def GuardsSpareEach : List Code → List (String × Option Ty) → Prop
  | [], _ => True
  | arm :: rest, names =>
    (arm.attempt.Spares ctx names.length names ∧ GuardsSpare arm names) ∧ GuardsSpareEach rest names

end

instance (access : Access) (id : Nat) : DecidablePred (access.on id).sets := fun j =>
  match access with
  | .take => inferInstanceAs (Decidable (j = id))
  | .use | .replace => inferInstanceAs (Decidable False)

instance (slot : Option Nat) (access : Access) : DecidablePred (Step.effectAt slot access).sets :=
  match slot with
  | some j => inferInstanceAs (DecidablePred (access.on j).sets)
  | none => fun _ => inferInstanceAs (Decidable False)

instance (names : List (String × Option Ty)) (s : Step) : DecidablePred (s.effect ctx names).sets :=
  fun j => match s with
  | .useName .. | .usePlace .. | .borrowPlace .. | .write .. =>
    inferInstanceAs (Decidable ((Step.effectAt _ _).sets j))
  | .bindLate bindings =>
    inferInstanceAs (Decidable (names.length ≤ j ∧ j < bindings.length + names.length))
  | .value | .nip | .union | .collect | .typed _ | .carried _ | .locate _ | .lend .. | .gather _
  | .returned .. | .keep | .keepFound | .bind _ | .param .. | .escape _ => inferInstanceAs (Decidable False)

mutual

def decideSpares : ∀ (c : Code) (names : List (String × Option Ty)),
    Decidable (c.Spares ctx count names)
  | .skip, _ | .leave, _ => inferInstanceAs (Decidable True)
  | .step s, names => inferInstanceAs (Decidable (∀ j < count, ¬(s.effect ctx names).sets j))
  | .seq first next, names =>
    have := decideSpares first names
    have := decideSpares next (first.declared ctx ++ names)
    inferInstanceAs (Decidable (_ ∧ _))
  | .discard body, names | .scope _ _ body, names => decideSpares body names
  | .choice arms, names => decideSparesEach arms names
  | .loop test round, names =>
    have := decideSpares test names
    have := decideSpares round names
    inferInstanceAs (Decidable (_ ∧ _))

def decideSparesEach : ∀ (arms : List Code) (names : List (String × Option Ty)),
    Decidable (SparesEach ctx count arms names)
  | [], _ => inferInstanceAs (Decidable True)
  | arm :: rest, names =>
    have := decideSpares arm names
    have := decideSparesEach rest names
    inferInstanceAs (Decidable (_ ∧ _))

end

instance (c : Code) (names : List (String × Option Ty)) : Decidable (c.Spares ctx count names) :=
  decideSpares ctx count c names

mutual

def decideGuardsSpare : ∀ (c : Code) (names : List (String × Option Ty)),
    Decidable (c.GuardsSpare ctx names)
  | .skip, _ | .leave, _ | .step _, _ => inferInstanceAs (Decidable True)
  | .seq first next, names =>
    have := decideGuardsSpare first names
    have := decideGuardsSpare next (first.declared ctx ++ names)
    inferInstanceAs (Decidable (_ ∧ _))
  | .discard body, names | .scope _ _ body, names => decideGuardsSpare body names
  | .choice arms, names => decideGuardsSpareEach arms names
  | .loop test round, names =>
    have := decideGuardsSpare test names
    have := decideGuardsSpare round names
    inferInstanceAs (Decidable (_ ∧ _))

def decideGuardsSpareEach : ∀ (arms : List Code) (names : List (String × Option Ty)),
    Decidable (GuardsSpareEach ctx arms names)
  | [], _ => inferInstanceAs (Decidable True)
  | arm :: rest, names =>
    have := decideGuardsSpare arm names
    have := decideGuardsSpareEach rest names
    inferInstanceAs (Decidable ((_ ∧ _) ∧ _))

end

instance (c : Code) (names : List (String × Option Ty)) : Decidable (c.GuardsSpare ctx names) :=
  decideGuardsSpare ctx c names

end Spares

variable {ctx : Context} {count : Nat} {anchored : Prop} {declares whole : Bool}
  {names : List (String × Option Ty)} {c d before : Code}

theorem sparesEach_iff {arms : List Code} :
    SparesEach ctx count arms names ↔ ∀ arm ∈ arms, arm.Spares ctx count names := by
  induction arms with
  | nil => simp [SparesEach]
  | cons arm rest ih => simp [SparesEach, ih]

theorem guardsSpareEach_iff {arms : List Code} : GuardsSpareEach ctx arms names ↔
    ∀ arm ∈ arms, arm.attempt.Spares ctx names.length names ∧ arm.GuardsSpare ctx names := by
  induction arms with
  | nil => simp [GuardsSpareEach]
  | cons arm rest ih => simp [GuardsSpareEach, ih]

/-! ### Parts and attempts -/

/-- A property that code one after the other has by parts; the second part starts where the first one
leads to. -/
structure ByParts {α : Type} (lead : Code → α → α) (P : α → Code → Prop) : Prop where
  skip : ∀ start, P start .skip
  seq : ∀ start first next, P start (.seq first next) ↔ P start first ∧ P (lead first start) next

section Parts

variable {α : Type} {lead : Code → α → α} {P : α → Code → Prop}

theorem ByParts.prefixes (byParts : ByParts lead P) : ∀ (c : Code) (names : α),
    P names c → ∀ pre ∈ prefixes c, P names pre
  | .seq first next, names, holds, pre, member => by
    obtain ⟨start, rest⟩ := (byParts.seq names first next).mp holds
    rw [Code.prefixes, List.mem_append, List.mem_map] at member
    rcases member with inFirst | ⟨part, inNext, rfl⟩
    · exact byParts.prefixes first names start pre inFirst
    · exact (byParts.seq names first part).mpr ⟨start, byParts.prefixes next _ rest part inNext⟩
  | .skip, names, holds, pre, member | .step _, names, holds, pre, member
  | .discard _, names, holds, pre, member | .scope _ _ _, names, holds, pre, member
  | .choice _, names, holds, pre, member | .loop _ _, names, holds, pre, member
  | .leave, names, holds, pre, member => by
    rcases List.mem_pair.mp member with rfl | rfl
    · exact byParts.skip names
    · exact holds

theorem ByParts.openings (byParts : ByParts lead P) : ∀ (c : Code) (names : α),
    P names c → ∀ pre ∈ openings c, P names pre
  | .seq first next, names, holds, pre, member => by
    obtain ⟨start, rest⟩ := (byParts.seq names first next).mp holds
    rw [Code.openings] at member
    split at member
    · rw [List.mem_singleton.mp member]
      exact start
    · rw [List.mem_append, List.mem_map] at member
      rcases member with inFirst | ⟨part, inNext, rfl⟩
      · exact byParts.prefixes first names start pre inFirst
      · exact (byParts.seq names first part).mpr ⟨start, byParts.openings next _ rest part inNext⟩
  | .skip, _, _, _, member | .step _, _, _, _, member | .discard _, _, _, _, member
  | .scope _ _ _, _, _, _, member | .choice _, _, _, _, member | .loop _ _, _, _, _, member
  | .leave, _, _, _, member => by simp [Code.openings] at member

end Parts

/-- What holds of code that does nothing and of choices between openings holds of attempts. -/
theorem attempt_cases {P : Code → Prop} (skip : P .skip)
    (tries : ∀ span body, c = .scope false span body →
      P (.discard (.choice (.skip :: (openings body).map (.scope false span))))) : P c.attempt := by
  unfold attempt
  split
  · exact tries _ _ rfl
  · exact skip

theorem mem_fallingArms {arms : List Code} {P : Code → Prop} (start : P before)
    (tries : ∀ b, ∀ arm ∈ arms, P b → P (.seq b (attempt arm.falling)))
    (member : d ∈ fallingArms before arms) : ∃ arm ∈ arms, ∃ b, P b ∧ d = .seq b arm.falling := by
  induction arms generalizing before with
  | nil => simp [fallingArms] at member
  | cons arm rest ih =>
    rw [fallingArms, List.mem_cons] at member
    rcases member with rfl | inRest
    · exact ⟨arm, List.mem_cons_self, before, start, rfl⟩
    · obtain ⟨other, inArms, b, holds, rfl⟩ := ih (tries before arm List.mem_cons_self start)
        (fun b other inArms => tries b other (List.mem_cons_of_mem _ inArms)) inRest
      exact ⟨other, List.mem_cons_of_mem _ inArms, b, holds, rfl⟩

theorem fallingArms_eq_nil {arms : List Code} (none : fallingArms before arms = []) : arms = [] := by
  cases arms with
  | nil => rfl
  | cons arm rest => simp [fallingArms] at none

/-! ### The code with attempts -/

theorem leaves_attempt : c.attempt.leaves = false := by
  unfold attempt
  split <;> simp [leaves, allLeave]

theorem declared_attempt : c.attempt.declared ctx = [] := by
  unfold attempt
  split <;> rfl

theorem allLeave_fallingArms {arms : List Code} (goesOn : before.leaves = false)
    (each : ∀ arm ∈ arms, arm.falling.leaves = arm.leaves) :
    allLeave (fallingArms before arms) = allLeave arms := by
  induction arms generalizing before with
  | nil => rfl
  | cons arm rest ih =>
    obtain ⟨same, others⟩ := List.forall_mem_cons.mp each
    have behind : (Code.seq before arm.falling.attempt).leaves = false := by
      simp [leaves, goesOn, leaves_attempt]
    simp [fallingArms, allLeave, leaves, goesOn, same, ih behind others]

theorem byParts_tidy : ByParts (fun _ => id) fun (_ : Unit) => Tidy declares :=
  ⟨fun _ => .skip, fun _ _ _ => tidy_seq⟩

theorem Tidy.attempt (tidy : Tidy declares c) : Tidy false c.attempt := by
  refine attempt_cases .skip ?_
  rintro span body rfl
  obtain ⟨_, inner⟩ := tidy.inner
  refine .discard (.choice ?_)
  rw [List.forall_mem_cons]
  refine ⟨.skip, fun arm member => ?_⟩
  obtain ⟨pre, opening, rfl⟩ := List.mem_map.mp member
  exact .named (byParts_tidy.openings body () inner pre opening).mayDeclare

/-- Attempts declare nothing and do not return, so the code with them stands in for the code. -/
theorem Tidy.falling (tidy : Tidy declares c) : c.Mirrors ctx true declares c.falling := by
  induction tidy with
  | skip => exact Tidy.skip.mirrors
  | step allowed => exact (Tidy.step allowed).mirrors
  | seq start rest early late =>
    refine ⟨.seq start rest, .seq early.other late.other, ?_, fun _ => ?_⟩
    · simp [Code.falling, declared, early.declared, late.declared]
    · simp [Code.falling, leaves, early.leaves, late.leaves]
  | discard inner ih => exact ⟨.discard inner, .discard ih.other, ih.declared, ih.leaves⟩
  | temporary inner ih => exact ⟨.temporary inner, .temporary ih.other, ih.declared, ih.leaves⟩
  | named inner ih => exact ⟨.named inner, .named ih.other, rfl, ih.leaves⟩
  | @choice _ arms each ih =>
    refine ⟨.choice each, .choice fun d member => ?_, rfl, fun _ => ?_⟩
    · obtain ⟨arm, inArms, b, kept, rfl⟩ := mem_fallingArms (P := Tidy false) .skip
        (fun b arm inArms kept => .seq kept (ih arm inArms).other.attempt) member
      exact .seq kept (ih arm inArms).other
    · have same := allLeave_fallingArms (show Code.skip.leaves = false from rfl)
        fun arm member => (ih arm member).leaves rfl
      cases arms with
      | nil => rfl
      | cons arm rest => simpa [Code.falling, fallingArms, leaves] using same
  | loop condition body test round =>
    exact ⟨.loop condition body, .loop test.other round.other, rfl, test.leaves⟩
  | leave => exact Tidy.leave.mirrors

theorem byParts_each {property : Step → Prop} : ByParts (fun _ => id) fun (_ : Unit) => Each property :=
  ⟨fun _ => .skip, fun _ _ _ =>
    ⟨fun parts => by cases parts with | seq start rest => exact ⟨start, rest⟩,
      fun parts => .seq parts.1 parts.2⟩⟩

theorem Each.attempt {property : Step → Prop} (each : c.Each property) : c.attempt.Each property := by
  refine attempt_cases .skip ?_
  rintro span body rfl
  cases each with
  | scope inner =>
    refine .discard (.choice ?_)
    rw [List.forall_mem_cons]
    refine ⟨.skip, fun arm member => ?_⟩
    obtain ⟨pre, opening, rfl⟩ := List.mem_map.mp member
    exact .scope (byParts_each.openings body () inner pre opening)

theorem Each.falling {property : Step → Prop} (each : c.Each property) : c.falling.Each property := by
  induction each with
  | skip => exact .skip
  | step holds => exact .step holds
  | seq _ _ early late => exact .seq early late
  | discard _ ih => exact .discard ih
  | scope _ ih => exact .scope ih
  | choice _ ih =>
    refine .choice fun d member => ?_
    obtain ⟨arm, inArms, b, kept, rfl⟩ := mem_fallingArms (P := Each property) .skip
      (fun b arm inArms kept => .seq kept (ih arm inArms).attempt) member
    exact .seq kept (ih arm inArms)
  | loop _ _ test round => exact .loop test round
  | leave => exact .leave

theorem byParts_spares : ByParts (fun first names => first.declared ctx ++ names)
    fun names c => c.Spares ctx count names :=
  ⟨fun _ => trivial, fun _ _ _ => Iff.rfl⟩

theorem Spares.attempt (spares : c.Spares ctx count names) : c.attempt.Spares ctx count names := by
  refine attempt_cases (P := fun c => c.Spares ctx count names) trivial ?_
  rintro span body rfl
  refine sparesEach_iff.mpr ?_
  rw [List.forall_mem_cons]
  refine ⟨trivial, fun arm member => ?_⟩
  obtain ⟨pre, opening, rfl⟩ := List.mem_map.mp member
  exact byParts_spares.openings body names spares pre opening

/-- Code that spares the first slots also does so with attempts. -/
theorem Tidy.spares_falling (tidy : Tidy declares c) (spares : c.Spares ctx count names) :
    c.falling.Spares ctx count names := by
  induction tidy generalizing names with
  | skip | leave => trivial
  | step => exact spares
  | seq start _ early late =>
    refine ⟨early spares.1, ?_⟩
    rw [start.falling.declared]
    exact late spares.2
  | discard _ ih | temporary _ ih | named _ ih => exact ih spares
  | @choice _ arms each ih =>
    refine sparesEach_iff.mpr fun d member => ?_
    have spares := sparesEach_iff.mp spares
    have behind (b arm : Code) (inArms : arm ∈ arms)
        (kept : b.declared ctx = [] ∧ b.Spares ctx count names) :
        (Code.seq b arm.falling.attempt).declared ctx = [] ∧
          (Code.seq b arm.falling.attempt).Spares ctx count names := by
      refine ⟨by simp [declared, kept.1, declared_attempt], kept.2, ?_⟩
      rw [kept.1]
      exact (ih arm inArms (spares arm inArms)).attempt
    have start : Code.skip.declared ctx = [] ∧ Code.skip.Spares ctx count names := ⟨rfl, trivial⟩
    obtain ⟨arm, inArms, b, kept, rfl⟩ := mem_fallingArms start behind member
    refine ⟨kept.2, ?_⟩
    rw [kept.1]
    exact ih arm inArms (spares arm inArms)
  | loop condition body test round => exact ⟨test spares.1, round spares.2⟩

theorem prefixes_falling : ∀ c : Code, prefixes c.falling = (prefixes c).map falling
  | .seq first next => by
    simp [falling, prefixes, prefixes_falling first, prefixes_falling next, Function.comp_def]
  | .skip | .step _ | .discard _ | .scope _ _ _ | .choice _ | .loop _ _ | .leave => rfl

theorem isDiscard_falling (c : Code) : c.falling.isDiscard = c.isDiscard := by
  cases c <;> rfl

theorem openings_falling : ∀ c : Code, openings c.falling = (openings c).map falling
  | .seq first next => by
    rw [falling, openings, openings, isDiscard_falling, prefixes_falling first, openings_falling next]
    split <;> simp [falling, Function.comp_def]
  | .skip | .step _ | .discard _ | .scope _ _ _ | .choice _ | .loop _ _ | .leave => rfl

/-- An arm whose guards spare the first slots also does so with attempts inside its guards. -/
theorem Tidy.spares_attempt (tidy : Tidy declares c) (spares : c.attempt.Spares ctx count names) :
    c.falling.attempt.Spares ctx count names := by
  refine attempt_cases (P := fun c => c.Spares ctx count names) trivial fun span body same => ?_
  cases c with
  | scope isTemporary span body =>
    cases same
    obtain ⟨_, inner⟩ := tidy.inner
    refine sparesEach_iff.mpr ?_
    rw [List.forall_mem_cons]
    refine ⟨trivial, fun arm member => ?_⟩
    obtain ⟨_, shown, rfl⟩ := List.mem_map.mp member
    rw [openings_falling] at shown
    obtain ⟨pre, opening, rfl⟩ := List.mem_map.mp shown
    have part : (Code.scope false span pre).Spares ctx count names :=
      sparesEach_iff.mp spares _ (List.mem_cons_of_mem _ (List.mem_map_of_mem opening))
    exact (byParts_tidy.openings body () inner pre opening).spares_falling part
  | _ => cases same

theorem Spares.rounds {test round : Code} (condition : Tidy false test) (body : Tidy false round)
    (tests : test.Spares ctx count names) (goes : round.Spares ctx count names) (times : Nat) :
    (Code.rounds test round times).Spares ctx count names := by
  induction times with
  | zero => exact tests
  | succ times ih =>
    refine ⟨ih, ?_⟩
    have kept : Tidy false (Code.rounds test round times) := condition.rounds body times
    have bodyKept : (Code.discard round).declared ctx = [] := body.declared_eq_nil
    rw [kept.declared_eq_nil]
    refine ⟨goes, ?_⟩
    rw [bodyKept]
    exact tests

end Code

end TreeCheck.Ownership
