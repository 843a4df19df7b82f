import TreeCheck.Proofs.Ownership.Accepted
import TreeCheck.Proofs.Ownership.Sources

/-!
What a step lets variables and values point into, told by slots. A step keeps a path under a run: what the
path holds, the run holds as well.
-/

namespace TreeCheck.Ownership

variable {ctx : Context} {l after : Ledger}

/-! ### Steps -/

def Taken (l : Ledger) (slot : Option Nat) (origins : List Origin) : Prop :=
  match slot with
  | none => origins = []
  | some j => ∀ source, Reaches origins source ↔ l.Shows (HoldsFrom source) j

theorem Ledger.Holds.taken {origins : List Origin} {id j : Nat} (holds : l.Holds id origins)
    (found : slotIn l.env j = some id) : Taken l (some j) origins := by
  intro source
  rw [Ledger.shows_iff found, holds.has]

namespace Step

variable {m next : Machine}

theorem useName_taken {info : NodeInfo} {name : String} {use : Use}
    (ran : (Step.useName info name use).run ctx m = .ok next) : ∃ origins,
      Taken m.ledger (position (m.ledger.outline.map Prod.fst) name) origins ∧
        next.values = origins :: m.values ∧ next.found = m.found := by
  obtain ⟨origins, l, done, rfl⟩ := Machine.yield_ok.mp ran
  refine ⟨origins, ?_, rfl, rfl⟩
  rcases lookup?_slot m.ledger name with ⟨noSlot, absent⟩ | ⟨j, id, slot, inScope, found⟩
  · obtain ⟨current, _, read, done⟩ := Own.run_bind_ok.mp done
    obtain ⟨rfl, rfl⟩ := Own.run_get_ok.mp read
    simp only [absent] at done
    obtain ⟨rfl, -⟩ := Own.run_pure_ok.mp done
    rw [noSlot]
    rfl
  · rw [slot]
    exact (Context.useName_value found done).taken inScope

theorem usePlace_taken {e : Expr} {use : Use} (ran : (Step.usePlace e use).run ctx m = .ok next) :
    ∃ origins, Taken m.ledger (slotOf m.ledger.outline e) origins ∧
      next.values = origins :: m.values ∧ next.found = m.found := by
  obtain ⟨origins, l, done, rfl⟩ := Machine.yield_ok.mp ran
  refine ⟨origins, ?_, rfl, rfl⟩
  obtain ⟨p, _, located, done⟩ := Own.run_bind_ok.mp done
  obtain ⟨reached, rfl⟩ := place_ok located
  rcases place_start reached with ⟨noRoot, temporary⟩ | ⟨root, -, noSlot, unbound⟩ |
    ⟨info, name, j, id, -, slot, inScope, -, bound⟩
  · simp only [Context.usePlace, temporary] at done
    obtain ⟨rfl, -⟩ := Own.run_pure_ok.mp done
    simp [slotOf, noRoot, Taken]
  · simp only [Context.usePlace, unbound] at done
    obtain ⟨rfl, -⟩ := Own.run_pure_ok.mp done
    simp [noSlot, Taken]
  · rw [slot]
    exact (Context.usePlace_value bound done).taken inScope

theorem borrowPlace_taken {operand : Expr} {mutable : Bool} {site : NodeInfo}
    (rooted : (Step.borrowPlace operand mutable site).Rooted ∨ slotIn m.ledger.env 0 = some 0)
    (quiet : next.ledger.Quiet)
    (ran : (Step.borrowPlace operand mutable site).run ctx m = .ok next) : ∃ origins,
      (if (borrowSlot m.ledger.outline operand).isSome && !ctx.through operand then
        ∃ loan, origins = [.loan loan]
      else Taken m.ledger (borrowSlot m.ledger.outline operand) origins) ∧
        next.values = origins :: m.values ∧ next.found = m.found := by
  obtain ⟨origins, l, done, rfl⟩ := Machine.yield_ok.mp ran
  refine ⟨origins, ?_, rfl, rfl⟩
  obtain ⟨p, _, located, done⟩ := Own.run_bind_ok.mp done
  obtain ⟨reached, rfl⟩ := place_ok located
  have through := Context.throughRef_eq reached
  have granted {id j : Nat} (found : slotIn m.ledger.env j = some id)
      (slot : borrowSlot m.ledger.outline operand = some j)
      (ran : (ctx.borrowPlace id p operand mutable site).run m.ledger = .ok (origins, l)) :
      if (borrowSlot m.ledger.outline operand).isSome && !ctx.through operand then
        ∃ loan, origins = [.loan loan]
      else Taken m.ledger (borrowSlot m.ledger.outline operand) origins := by
    have value := Context.borrowPlace_value quiet ran
    rw [slot]
    cases behind : ctx.through operand with
    | false => simpa [through, behind] using value
    | true =>
      simp only [through, behind, if_true] at value
      simpa using value.taken found
  rcases place_start reached with ⟨noRoot, temporary⟩ | ⟨root, hasRoot, noSlot, unbound⟩ |
    ⟨info, name, j, id, hasRoot, slot, inScope, -, bound⟩
  · simp only [temporary] at done
    have anchor : slotIn m.ledger.env 0 = some 0 := by simpa [Rooted, noRoot] using rooted
    exact granted anchor (by simp [borrowSlot, noRoot]) done
  · simp only [unbound] at done
    obtain ⟨rfl, -⟩ := Own.run_pure_ok.mp done
    simp [borrowSlot, hasRoot, noSlot, Taken]
  · simp only [bound] at done
    exact granted inScope (by simp [borrowSlot, hasRoot, slot]) done

theorem write_shows {target : Expr} {node : Nat} (regular : m.ledger.Regular) (quiet : next.ledger.Quiet)
    (ran : (Step.write target node).run ctx m = .ok next) (source : Option String) (j : Nat) :
    next.ledger.Shows (HoldsFrom source) j ↔
      if slotOf m.ledger.outline target = some j then
        ctx.assigned target (slotType m.ledger.outline target)
          (m.ledger.Shows (HoldsFrom source) j)
          (ctx.carries (ctx.notes.typeOf node) = true ∧ Reaches m.top source)
      else m.ledger.Shows (HoldsFrom source) j := by
  have scopes := (run_keeps rfl ran).scopes
  have vars := (run_keeps rfl ran).vars
  obtain ⟨l, done, rfl⟩ := Machine.perform_ok.mp ran
  obtain ⟨origins, _, carried, done⟩ := Own.run_bind_ok.mp done
  have value := Context.carried_value carried
  obtain rfl := carried_pure_ok carried
  obtain ⟨p, _, located, done⟩ := Own.run_bind_ok.mp done
  obtain ⟨reached, rfl⟩ := place_ok located
  have env : l.env = m.ledger.env := by rw [Ledger.env, scopes, Ledger.env]
  rcases place_start reached with ⟨noRoot, temporary⟩ | ⟨root, hasRoot, noSlot, unbound⟩ |
    ⟨info, name, k, id, hasRoot, slot, inScope, found, bound⟩
  · simp only [temporary] at done
    obtain ⟨-, rfl⟩ := Own.run_pure_ok.mp done
    simp [slotOf, noRoot]
  · simp only [unbound] at done
    obtain ⟨-, rfl⟩ := Own.run_pure_ok.mp done
    simp [noSlot]
  · simp only [bound] at done
    have declared := regular.lt_of_slotIn inScope
    obtain ⟨v, present⟩ : ∃ v, m.ledger.vars[id]? = some v := ⟨_, List.getElem?_eq_getElem declared⟩
    have type : slotType m.ledger.outline target = v.type := by
      simp [slotType, hasRoot, Ledger.lookup_outline found present]
    have reaches : Reaches origins source ↔
        ctx.carries (ctx.notes.typeOf node) = true ∧ Reaches m.top source := by
      rw [value]
      split <;> simp [*]
    have effect := Context.write_holds quiet (Context.throughRef_eq reached) present done source
    rw [slot, type]
    cases other : slotIn m.ledger.env j with
    | none =>
      have different : ¬k = j := by
        rintro rfl
        simp [inScope] at other
      simp [Ledger.Shows, env, other, different]
    | some i =>
      rw [Ledger.shows_iff (show slotIn l.env j = some i by rw [env, other]),
        Ledger.shows_iff other, effect i, reaches]
      by_cases same : k = j
      · subst same
        obtain rfl : i = id := Option.some.inj (other.symm.trans inScope)
        simp
      · have different : i ≠ id := by
          rintro rfl
          exact same (slotIn_inj regular.distinct inScope other)
        simp [same, different]

end Step

/-- What a path holds is no more than what a run holds. -/
structure Machine.Under (p m : Machine) : Prop where
  slots : ∀ source j, p.ledger.Shows (HoldsFrom source) j → m.ledger.Shows (HoldsFrom source) j
  values : List.Forall₂ Below p.values m.values
  found : Below p.found m.found

namespace Machine.Under

variable {p m nextP nextM : Machine}

theorem taken {slot : Option Nat} {a b : List Origin} (under : p.Under m)
    (first : Taken p.ledger slot a) (second : Taken m.ledger slot b) : Below a b := by
  cases slot with
  | none =>
    obtain rfl : a = [] := first
    exact .nil b
  | some j =>
    intro source reaches
    exact (second source).mpr (under.slots source j ((first source).mp reaches))

theorem kept {kindsP kindsM : Diagnostic.Kind → Prop} (under : p.Under m)
    (first : p.ledger.Keeps VarFlow.holds kindsP nextP.ledger)
    (second : m.ledger.Keeps VarFlow.holds kindsM nextM.ledger)
    (values : List.Forall₂ Below nextP.values nextM.values) (found : Below nextP.found nextM.found) :
    nextP.Under nextM := by
  have same {l after : Ledger} {kinds : Diagnostic.Kind → Prop} (keeps : l.Keeps VarFlow.holds kinds after)
      (source : Option String) (j : Nat) :
      after.Shows (HoldsFrom source) j ↔ l.Shows (HoldsFrom source) j :=
    Ledger.shows_congr (by rw [Ledger.env, keeps.scopes, Ledger.env]) fun id _ =>
      keeps.has_holds source id
  refine ⟨fun source j shows => ?_, values, found⟩
  rw [same second]
  exact under.slots source j ((same first source j).mp shows)

/-- A step on a path holds no more than the same step of a run, if neither reports anything. -/
theorem step {s : Step} (under : p.Under m) (alike : m.ledger.outline = p.ledger.outline)
    (regularP : p.ledger.Regular) (regularM : m.ledger.Regular)
    (rootedP : s.Rooted ∨ slotIn p.ledger.env 0 = some 0)
    (rootedM : s.Rooted ∨ slotIn m.ledger.env 0 = some 0)
    (ranP : s.run ctx p = .ok nextP) (ranM : s.run ctx m = .ok nextM)
    (quietP : nextP.ledger.Quiet) (quietM : nextM.ledger.Quiet) : nextP.Under nextM := by
  have length : m.ledger.env.length = p.ledger.env.length := by
    rw [← Ledger.length_outline, alike, Ledger.length_outline]
  have top := Below.top under.values
  have pushed {a b : List Origin} (below : Below a b) :
      List.Forall₂ Below (a :: p.values) (b :: m.values) := .cons below under.values
  cases s with
  | value =>
    cases ranP
    cases ranM
    exact ⟨under.slots, pushed (.refl _), under.found⟩
  | nip =>
    cases ranP
    cases ranM
    exact ⟨under.slots, .cons top (List.forall₂_drop 2 under.values), under.found⟩
  | union =>
    cases ranP
    cases ranM
    exact ⟨under.slots, .cons ((Below.getD under.values 1).union top)
      (List.forall₂_drop 2 under.values), under.found⟩
  | collect =>
    cases ranP
    cases ranM
    refine ⟨under.slots, ?_, under.found.union top⟩
    simpa using List.forall₂_drop 1 under.values
  | gather count =>
    cases ranP
    cases ranM
    exact ⟨under.slots, .cons (Below.foldl (Below.args under.values count)
      (Below.getD under.values count)) (List.forall₂_drop _ under.values), under.found⟩
  | returned signature count =>
    cases ranP
    cases ranM
    exact ⟨under.slots, .cons (Below.returned (Below.getD under.values count)
      (Below.args under.values count)) (List.forall₂_drop _ under.values), under.found⟩
  | typed id | locate e | keep | keepFound | escape span =>
    have first := Step.run_keeps rfl ranP
    have second := Step.run_keeps rfl ranM
    obtain ⟨lP, doneP, rfl⟩ := Machine.perform_ok.mp ranP
    obtain ⟨lM, doneM, rfl⟩ := Machine.perform_ok.mp ranM
    exact under.kept first second under.values under.found
  | carried id =>
    have first := Step.run_keeps rfl ranP
    have second := Step.run_keeps rfl ranM
    obtain ⟨a, lP, doneP, rfl⟩ := Machine.yield_ok.mp ranP
    obtain ⟨b, lM, doneM, rfl⟩ := Machine.yield_ok.mp ranM
    refine under.kept first second (.cons ?_ (List.forall₂_drop 1 under.values)) under.found
    rw [Context.carried_value doneP, Context.carried_value doneM]
    split
    · exact top
    · exact .nil _
  | lend mutable site =>
    have first := Step.run_keeps rfl ranP
    have second := Step.run_keeps rfl ranM
    obtain ⟨a, lP, doneP, rfl⟩ := Machine.yield_ok.mp ranP
    obtain ⟨b, lM, doneM, rfl⟩ := Machine.yield_ok.mp ranM
    obtain ⟨loanP, _, -, doneP⟩ := Own.run_bind_ok.mp doneP
    obtain ⟨loanM, _, -, doneM⟩ := Own.run_bind_ok.mp doneM
    obtain ⟨rfl, -⟩ := Own.run_pure_ok.mp doneP
    obtain ⟨rfl, -⟩ := Own.run_pure_ok.mp doneM
    refine under.kept first second (.cons (top.union ?_) (List.forall₂_drop 1 under.values)) under.found
    intro source reaches
    simpa [Origin.source] using reaches
  | useName info name use =>
    obtain ⟨a, takenP, valuesP, foundP⟩ := Step.useName_taken ranP
    obtain ⟨b, takenM, valuesM, foundM⟩ := Step.useName_taken ranM
    rw [alike] at takenM
    refine under.kept (Step.run_keeps rfl ranP) (Step.run_keeps rfl ranM) ?_
      (by rw [foundP, foundM]; exact under.found)
    rw [valuesP, valuesM]
    exact pushed (under.taken takenP takenM)
  | usePlace e use =>
    obtain ⟨a, takenP, valuesP, foundP⟩ := Step.usePlace_taken ranP
    obtain ⟨b, takenM, valuesM, foundM⟩ := Step.usePlace_taken ranM
    rw [alike] at takenM
    refine under.kept (Step.run_keeps rfl ranP) (Step.run_keeps rfl ranM) ?_
      (by rw [foundP, foundM]; exact under.found)
    rw [valuesP, valuesM]
    exact pushed (under.taken takenP takenM)
  | borrowPlace operand mutable site =>
    obtain ⟨a, takenP, valuesP, foundP⟩ := Step.borrowPlace_taken rootedP quietP ranP
    obtain ⟨b, takenM, valuesM, foundM⟩ := Step.borrowPlace_taken rootedM quietM ranM
    rw [alike] at takenM
    refine under.kept (Step.run_keeps rfl ranP) (Step.run_keeps rfl ranM) ?_
      (by rw [foundP, foundM]; exact under.found)
    rw [valuesP, valuesM]
    refine pushed ?_
    split at takenP
    · rename_i lent
      rw [if_pos lent] at takenM
      obtain ⟨loanP, rfl⟩ := takenP
      obtain ⟨loanM, rfl⟩ := takenM
      intro source reaches
      simpa [Origin.source] using reaches
    · rename_i through
      rw [if_neg through] at takenM
      exact under.taken takenP takenM
  | write target node =>
    have showsP := Step.write_shows regularP quietP ranP
    have showsM := Step.write_shows regularM quietM ranM
    obtain ⟨lP, doneP, rfl⟩ := Machine.perform_ok.mp ranP
    obtain ⟨lM, doneM, rfl⟩ := Machine.perform_ok.mp ranM
    refine ⟨fun source j shows => ?_, under.values, under.found⟩
    rw [showsP] at shows
    rw [showsM, alike]
    split at shows
    · rename_i slot
      rw [if_pos slot]
      exact Context.assigned_mono (under.slots source j) (And.imp_right (top source)) shows
    · rename_i other
      rw [if_neg other]
      exact under.slots source j shows
  | bind bindings =>
    obtain ⟨lP, doneP, rfl⟩ := Machine.perform_ok.mp ranP
    obtain ⟨lM, doneM, rfl⟩ := Machine.perform_ok.mp ranM
    refine ⟨fun source j shows => ?_, under.values, under.found⟩
    rw [Context.bindAll_holds regularM doneM, length]
    refine ((Context.bindAll_holds regularP doneP source j).mp shows).imp (under.slots source j) ?_
    rintro ⟨bound, origins, same, reaches⟩
    obtain rfl := Option.some.inj same
    exact ⟨bound, _, rfl, top source reaches⟩
  | bindLate bindings =>
    obtain ⟨lP, doneP, rfl⟩ := Machine.perform_ok.mp ranP
    obtain ⟨lM, doneM, rfl⟩ := Machine.perform_ok.mp ranM
    refine ⟨fun source j shows => ?_, under.values, under.found⟩
    rw [Context.bindAll_holds regularM doneM, length]
    exact ((Context.bindAll_holds regularP doneP source j).mp shows).imp (under.slots source j)
      (by simp)
  | param name type mutable span =>
    obtain ⟨lP, doneP, rfl⟩ := Machine.perform_ok.mp ranP
    obtain ⟨lM, doneM, rfl⟩ := Machine.perform_ok.mp ranM
    refine ⟨fun source j shows => ?_, under.values, under.found⟩
    rw [declareParam_holds regularM doneM, length]
    exact ((declareParam_holds regularP doneP source j).mp shows).imp_left (under.slots source j)

end Machine.Under

namespace Step

variable {s : Step} {p m nextP nextM : Machine}

def assigns (ctx : Context) : Step → Bool
  | .write _ node => ctx.carries (ctx.notes.typeOf node)
  | _ => false

/-- A step that assigns no reference. -/
def Inert (ctx : Context) (s : Step) : Prop := s.assigns ctx = false

/-- A step that neither assigns nor returns references. -/
def Idle (ctx : Context) (s : Step) : Prop := s.assigns ctx = false ∧ s.escapes = false

instance : DecidablePred (Inert ctx) := fun s => inferInstanceAs (Decidable (s.assigns ctx = false))

instance : DecidablePred (Idle ctx) := fun s =>
  inferInstanceAs (Decidable (s.assigns ctx = false ∧ s.escapes = false))

/-- A step that assigns no reference lets no variable hold more than before. -/
theorem shows_before (inert : s.Inert ctx) (regular : m.ledger.Regular) (quiet : nextM.ledger.Quiet)
    (ran : s.run ctx m = .ok nextM) {source : Option String} {j : Nat} (inside : j < m.ledger.env.length)
    (shows : nextM.ledger.Shows (HoldsFrom source) j) : m.ledger.Shows (HoldsFrom source) j := by
  have kept {kinds : Diagnostic.Kind → Prop}
      (keeps : m.ledger.Keeps VarFlow.holds kinds nextM.ledger) :
      m.ledger.Shows (HoldsFrom source) j :=
    (Ledger.shows_congr (by rw [Ledger.env, keeps.scopes, Ledger.env]) fun id _ =>
      keeps.has_holds source id).mp shows
  cases s with
  | write target node =>
    have bare : ctx.carries (ctx.notes.typeOf node) = false := inert
    rw [write_shows regular quiet ran] at shows
    simp only [bare, Bool.false_eq_true, false_and] at shows
    unfold Context.assigned at shows
    split_ifs at shows <;> simpa using shows
  | bind bindings =>
    obtain ⟨l, done, rfl⟩ := Machine.perform_ok.mp ran
    rcases (Context.bindAll_holds regular done source j).mp shows with before | ⟨⟨i, b, -, new, -⟩, -⟩
    · exact before
    · omega
  | bindLate bindings =>
    obtain ⟨l, done, rfl⟩ := Machine.perform_ok.mp ran
    rcases (Context.bindAll_holds regular done source j).mp shows with before | ⟨⟨i, b, -, new, -⟩, -⟩
    · exact before
    · omega
  | param name type mutable span =>
    obtain ⟨l, done, rfl⟩ := Machine.perform_ok.mp ran
    rcases (declareParam_holds regular done source j).mp shows with before | ⟨new, -⟩
    · exact before
    · omega
  | _ => exact kept (run_keeps rfl ran)

/-- A step that checks nothing returned reports nothing about it. -/
theorem lead_ne (stays : s.escapes = false) (ran : s.run ctx p = .ok nextP) (quiet : p.ledger.Quiet) :
    nextP.ledger.lead ≠ some .danglingReference := by
  have quietly (bag : nextP.ledger.bag = p.ledger.bag) :
      nextP.ledger.lead ≠ some .danglingReference := by
    have quietAfter : nextP.ledger.Quiet := by rw [Ledger.Quiet, bag, quiet]
    simp [Ledger.lead_of_quiet quietAfter]
  cases s with
  | bind bindings =>
    obtain ⟨l, done, rfl⟩ := Machine.perform_ok.mp ran
    exact quietly (Context.bindAll_bag done)
  | bindLate bindings =>
    obtain ⟨l, done, rfl⟩ := Machine.perform_ok.mp ran
    exact quietly (Context.bindAll_bag done)
  | param name type mutable span =>
    obtain ⟨l, done, rfl⟩ := Machine.perform_ok.mp ran
    have changed := Own.run_modify_ok.mp done
    refine quietly ?_
    rw [← changed]
    rfl
  | _ =>
    have keeps := run_keeps rfl ran
    refine (keeps.weaken (fun _ _ same => same) fun kind allowed dangling => ?_).lead_ne quiet
    rw [allowed dangling] at stays
    cases stays

/-- A step on a path does not report first that something is returned that must not be, if the same step
of a run that holds no less reports nothing. -/
theorem lead_under (under : p.Under m) (ranP : s.run ctx p = .ok nextP) (ranM : s.run ctx m = .ok nextM)
    (quietP : p.ledger.Quiet) (quietM : nextM.ledger.Quiet) :
    nextP.ledger.lead ≠ some .danglingReference := by
  cases s with
  | escape span =>
    obtain ⟨lP, doneP, rfl⟩ := Machine.perform_ok.mp ranP
    obtain ⟨lM, doneM, rfl⟩ := Machine.perform_ok.mp ranM
    have same := Context.checkEscape_allowed (fun carries source reaches =>
      Context.checkEscape_quiet carries quietM doneM (Below.top under.values source reaches)) doneP
    have quiet : lP.Quiet := by rwa [← same]
    simp [Ledger.lead_of_quiet quiet]
  | _ => exact lead_ne rfl ranP quietP

end Step

end TreeCheck.Ownership
