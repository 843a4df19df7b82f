import TreeCheck.Proofs.Match.Selection

/-!
What a guard is offered. A decision tree offers the alternatives of an arm that trying the arms offers, but it goes
through them level by level; which of those that a guard accepts comes first depends on that where alternatives below
the top of one part meet alternatives of a later part.
-/

namespace TreeCheck.Match

/-- A guard that looks names up. -/
abbrev asking (g : Nat → (String → Option Value) → Bool) : Guard := fun arm env => g arm env.get?

/-- An arm is selected with a way in which its pattern matches if the way is offered. -/
def Arm.Accepts (a : Arm) (g : Nat → (String → Option Value) → Bool) (position : Nat) (w : Way) : Prop :=
  (a.guarded || w.guarded) = true → g position w.env.get? = true

theorem exists_of_choose {guard : Guard} {outs : List (Nat × Way)} {arm : Nat} {env : Env}
    (chosen : choose guard outs = some (arm, env)) :
    ∃ w, (arm, w) ∈ outs ∧ w.env = env ∧ (w.guarded = true → guard arm w.env = true) := by
  obtain ⟨⟨arm', w⟩, member, found⟩ := List.exists_of_findSome?_eq_some chosen
  dsimp only at found
  split at found
  · cases found
  · rename_i refused
    cases found
    exact ⟨w, member, rfl, by simpa using refused⟩

/-- What is chosen among all outcomes is chosen among those of its arm. -/
theorem choose_ofArm {guard : Guard} {outs : List (Nat × Way)} {arm : Nat} {env : Env}
    (chosen : choose guard outs = some (arm, env)) : choose guard (ofArm arm outs) = some (arm, env) := by
  induction outs with
  | nil => cases chosen
  | cons o outs ih =>
    obtain ⟨arm', w⟩ := o
    rw [choose_cons] at chosen
    by_cases same : arm' = arm
    · subst same
      simp only [ofArm, List.filter_cons, beq_self_eq_true, if_true]
      rw [choose_cons]
      split at chosen
      · rename_i passed
        rw [if_pos passed]
        exact ih chosen
      · rename_i accepted
        rwa [if_neg accepted]
    · have passed : (w.guarded && !guard arm' w.env) = true := by
        by_contra accepted
        rw [if_neg accepted] at chosen
        exact same (Prod.mk.inj (Option.some.inj chosen)).1
      rw [if_pos passed] at chosen
      simpa [ofArm, same] using ih chosen

theorem choose_of_all {guard : Guard} {outs : List (Nat × Way)}
    (all : ∀ o ∈ outs, o.2.guarded = true → guard o.1 o.2.env = true) :
    choose guard outs = outs.head?.map fun o => (o.1, o.2.env) := by
  cases outs with
  | nil => rfl
  | cons o outs =>
    have accepted := all o (by simp)
    obtain ⟨arm, w⟩ := o
    rw [choose_cons, if_neg (by simpa using accepted)]
    rfl

theorem get?_of_label {o o' : Nat × Way} (once : Once (label o)) (same : label o = label o') :
    o.2.env.get? = o'.2.env.get? :=
  Env.get?_congr (once_label.mp once) (congrArg (fun l => l.2.1) same)

/-- Outcomes that are the same in the same order are told apart by no guard. -/
theorem choose_congr {xs ys : List (Nat × Way)} (same : xs.map label = ys.map label)
    (once : ∀ o ∈ xs, Once (label o)) (g : Nat → (String → Option Value) → Bool) :
    (choose (asking g) xs).map (fun (arm, env) => (arm, env.get?)) =
      (choose (asking g) ys).map fun (arm, env) => (arm, env.get?) := by
  induction xs generalizing ys with
  | nil =>
    obtain rfl : ys = [] := by simpa using same.symm
    rfl
  | cons x xs ih =>
    cases ys with
    | nil => cases same
    | cons y ys =>
      obtain ⟨first, later⟩ := List.cons.inj same
      have look := get?_of_label (once x (by simp)) first
      have rest := ih later fun o member => once o (by simp [member])
      obtain ⟨arm, w⟩ := x
      obtain ⟨arm', w'⟩ := y
      have arms : arm = arm' := congrArg Prod.fst first
      have unsure : w.guarded = w'.guarded := congrArg (fun l : Nat × Gist => l.2.2) first
      have look : w.env.get? = w'.env.get? := look
      subst arms
      rw [choose_cons, choose_cons]
      simp only [asking, look, unsure] at rest ⊢
      split
      · exact rest
      · simp [look]

theorem Agree.mem {xs ys : List (Nat × Way)} (agree : Agree xs ys) {o : Nat × Way} (member : o ∈ ys) :
    ∃ o' ∈ xs, label o' = label o := by
  by_contra none
  exact @all _ _ agree (fun l => l ≠ label o) (fun o' inside same => none ⟨o', inside, same⟩) o member rfl

theorem mem_armOutcomes {arms : List Arm} {v : Value} {i : Nat} {w : Way} (member : (i, w) ∈ armOutcomes arms v) :
    ∃ a, arms[i]? = some a ∧ ∃ w' ∈ ways a.pattern v, w = ⟨w'.env, a.guarded || w'.guarded⟩ := by
  obtain ⟨⟨a, j⟩, entry, inside⟩ := List.mem_flatMap.mp member
  obtain ⟨w', way, same⟩ := List.mem_map.mp inside
  obtain ⟨rfl, rfl⟩ := Prod.mk.inj same
  rw [cross_singleton] at way
  obtain ⟨inner, matched, rfl⟩ := List.mem_map.mp way
  exact ⟨a, List.mem_zipIdx_iff_getElem?.mp entry, inner, matched, by simp [Way.append]⟩

/-- Where the outcomes of an arm stand in one order, or none of them is refused, what is chosen among them binds the
same. -/
theorem Paired.chosen_eq {strict : Nat → Prop} {xs ys : List (Nat × Way)} (paired : Paired strict xs ys)
    (once : ∀ o ∈ xs, Once (label o)) {g : Nat → (String → Option Value) → Bool} {i : Nat} {env env' : Env}
    (left : choose (asking g) xs = some (i, env)) (right : choose (asking g) ys = some (i, env'))
    (settled : strict i ∨ ∀ w, (i, w) ∈ xs → w.guarded = true → g i w.env.get? = true) :
    env.get? = env'.get? := by
  have inner := choose_ofArm left
  have inner' := choose_ofArm right
  have own (o : Nat × Way) (member : o ∈ ofArm i xs) : o ∈ xs ∧ o.1 = i := by simpa [ofArm] using member
  rcases settled with known | all
  · have same := choose_congr (paired.level i known) (fun o member => once o (own o member).1) g
    simpa [inner, inner'] using same
  · have accepted : ∀ o ∈ ofArm i xs, o.2.guarded = true → asking g o.1 o.2.env = true := by
      intro o member unsure
      obtain ⟨inside, rfl⟩ := own o member
      exact all o.2 inside unsure
    have accepted' : ∀ o ∈ ofArm i ys, o.2.guarded = true → asking g o.1 o.2.env = true := by
      intro o member unsure
      obtain ⟨inside, arm⟩ : o ∈ ys ∧ o.1 = i := by simpa [ofArm] using member
      obtain ⟨o', inside', same⟩ := paired.agree.mem inside
      have look := get?_of_label (once o' inside') same
      have arms : o'.1 = o.1 := congrArg (fun l : Nat × Gist => l.1) same
      have unsure' : o'.2.guarded = o.2.guarded := congrArg (fun l : Nat × Gist => l.2.2) same
      have consent := all o'.2 (by rw [← arm, ← arms]; exact inside') (unsure'.trans unsure)
      simpa [asking, ← look, arm] using consent
    have first := paired.first i
    rw [choose_of_all accepted] at inner
    rw [choose_of_all accepted'] at inner'
    obtain ⟨o, head, same⟩ := Option.map_eq_some_iff.mp inner
    obtain ⟨o', head', same'⟩ := Option.map_eq_some_iff.mp inner'
    have labels : label o = label o' := by simpa [head, head'] using first
    have look := get?_of_label (once o (own o (List.mem_of_mem_head? head)).1) labels
    obtain ⟨-, rfl⟩ := Prod.mk.inj same
    obtain ⟨-, rfl⟩ := Prod.mk.inj same'
    exact look

/-- The tree of well-formed arms selects the arm that trying them one after the other selects, and binds what some
way of its pattern binds that is accepted. If the pattern of that arm is orderly, or the guard refuses none of its ways,
then both bind the same. -/
theorem walk_binds_accepted (ctx : Context) (regular : ctx.decls.Regular) (type : Ty) (arms : List Arm)
    (formed : ∀ a ∈ arms, WellFormed ctx.decls type a.pattern) :
    ∃ d, compile ctx type arms = .ok d ∧ ∀ v, HasType ctx v type →
      ∀ g : Nat → (String → Option Value) → Bool,
        match select (asking g) arms v with
        | none => d.tree.walk (asking g) v = none
        | some (i, env) => ∃ a env', arms[i]? = some a ∧ d.tree.walk (asking g) v = some (i, env') ∧
            (∃ w ∈ ways a.pattern v, a.Accepts g i w ∧ w.env.get? = env'.get?) ∧
            (a.pattern.orderly = true ∨ (∀ w ∈ ways a.pattern v, a.Accepts g i w) → env'.get? = env.get?) := by
  obtain ⟨d, compiled, -, walks⟩ := compile_pairs regular formed
  refine ⟨d, compiled, fun v typed g => ?_⟩
  obtain ⟨outs, paired, walk⟩ := walks v typed
  have once := armOutcomes_once (fun a member => (formed a member).once) v
  have arms_eq := paired.agree.choose_eq once g
  rw [walk, select_eq]
  cases chosen : choose (asking g) (armOutcomes arms v) with
  | none =>
    simp only [chosen, Option.map_none] at arms_eq
    exact Option.map_eq_none_iff.mp arms_eq.symm
  | some outcome =>
    obtain ⟨i, env⟩ := outcome
    simp only [chosen, Option.map_some] at arms_eq
    obtain ⟨⟨i', env'⟩, found, same⟩ := Option.map_eq_some_iff.mp arms_eq.symm
    obtain rfl : i' = i := same
    obtain ⟨w, inside, rfl, consent⟩ := exists_of_choose found
    obtain ⟨⟨i', own⟩, inside', labels⟩ := paired.agree.mem inside
    obtain rfl : i' = _ := congrArg Prod.fst labels
    obtain ⟨a, here, way, matched, rfl⟩ := mem_armOutcomes inside'
    have look : way.env.get? = w.env.get? := get?_of_label (once _ inside') labels
    have unsure : (a.guarded || way.guarded) = w.guarded := congrArg (fun l : Nat × Gist => l.2.2) labels
    refine ⟨a, w.env, here, found, ⟨way, matched, fun asked => ?_, look⟩, fun settled => ?_⟩
    · rw [look]
      exact consent (unsure.symm.trans asked)
    · refine (paired.chosen_eq once chosen found ?_).symm
      refine settled.imp (fun orderly a' there => ?_) fun all w' member asked => ?_
      · obtain rfl : a = a' := Option.some.inj (here.symm.trans there)
        exact orderly
      · obtain ⟨a', there, way', matched', rfl⟩ := mem_armOutcomes member
        obtain rfl : a = a' := Option.some.inj (here.symm.trans there)
        exact all way' matched' asked

/-- The second arm has an orderly pattern, so the tree binds what trying the arms binds. -/
theorem walk_binds_accepted_option :
    optionContext.decls.Regular ∧
    (∀ a ∈ optionArms, WellFormed optionContext.decls optionType a.pattern) ∧
    HasType optionContext (.variant "Some" [] [.int 7]) optionType ∧
    ∃ d env, compile optionContext optionType optionArms = .ok d ∧
      d.tree.walk (asking fun _ look => (look "n").isSome) (.variant "Some" [] [.int 7]) = some (1, env) ∧
      env.get? "n" = some (.int 7) := by
  refine ⟨optionContext_regular, optionArms_formed, some_hasType, ?_⟩
  obtain ⟨d, compiled, walks⟩ := walk_binds_accepted optionContext optionContext_regular optionType
    optionArms optionArms_formed
  have walked := walks _ some_hasType fun _ look => (look "n").isSome
  have selected : select (asking fun _ look => (look "n").isSome) optionArms (.variant "Some" [] [.int 7]) =
      some (1, [("n", .int 7)]) := rfl
  rw [selected] at walked
  obtain ⟨a, env, here, walk, -, settled⟩ := walked
  obtain rfl := Option.some.inj here
  refine ⟨d, env, compiled, walk, ?_⟩
  rw [settled (.inl (by decide))]
  rfl

/-- Two numbers. -/
def pairType : Ty := .tuple [.int .i32, .int .i32]

/-- A pair inside a tuple, and another pair. -/
def nestedType : Ty := .tuple [.tuple [pairType], pairType]

/-- Binds the first number of a pair. -/
def leftOf (name : String) : Pattern := .tuple default [.binding ⟨default, name, false⟩, .wildcard default]

/-- Binds the second number of a pair. -/
def rightOf (name : String) : Pattern := .tuple default [.wildcard default, .binding ⟨default, name, false⟩]

/-- One arm with a guard on the first alternative of the inner pair. -/
def nestedArms : List Arm :=
  [{ pattern := .tuple default
      [.tuple default [.alternatives default [.guarded default (leftOf "x") (.bool default true), rightOf "x"]],
       .alternatives default [leftOf "n", rightOf "n"]] }]

def nestedValue : Value := .tuple [.tuple [.tuple [.int 1, .int 2]], .tuple [.int 1, .int 2]]

def evenGuard (_ : Nat) (look : String → Option Value) : Bool :=
  match look "n" with
  | some (.int n) => n % 2 == 0
  | _ => false

/-- When a guard refuses the first offer, trying the arm goes on with the last pair and the tree with the inner one, so
they bind different numbers. -/
theorem walk_offers_in_another_order :
    (∀ a ∈ nestedArms, WellFormed {} nestedType a.pattern) ∧
    HasType { decls := {} } nestedValue nestedType ∧
    (select (asking evenGuard) nestedArms nestedValue).map (fun (i, env) => (i, env.get? "n")) =
      some (0, some (.int 2)) ∧
    ∃ d, compile { decls := {} } nestedType nestedArms = .ok d ∧
      (d.tree.walk (asking evenGuard) nestedValue).map (fun (i, env) => (i, env.get? "n")) =
        some (0, some (.int 1)) := by
  refine ⟨?_, ?_, rfl, _, rfl, rfl⟩
  · intro a member
    obtain rfl := List.mem_singleton.mp member
    exact ⟨by decide, by decide⟩
  · have one : HasType { decls := {} } (.int 1) (.int .i32) := .int (by decide) (by decide)
    have two : HasType { decls := {} } (.int 2) (.int .i32) := .int (by decide) (by decide)
    have pair : HasType { decls := {} } (.tuple [.int 1, .int 2]) pairType := .tuple (.cons one (.cons two .nil))
    exact .tuple (.cons (.tuple (.cons pair .nil)) (.cons pair .nil))

end TreeCheck.Match
