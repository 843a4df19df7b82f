/-!
Computations that may fail. Two computations over a state run in parallel if the second does from a changed state
what the first does from the state itself: it stops where the first stops, answers the same, and leaves the changed
state behind.
-/

namespace TreeCheck

variable {ε α β : Type}

/-- A sequence succeeds exactly when its two parts do. -/
theorem bind_ok {x : Except ε α} {f : α → Except ε β} {b : β} :
    (x >>= f) = .ok b ↔ ∃ a, x = .ok a ∧ f a = .ok b := by
  cases x <;> simp [bind, Except.bind]

/-- Two sequences with one start agree if what follows agrees. -/
theorem bind_congr_ok {x : Except ε α} {f g : α → Except ε β} (same : ∀ a, x = .ok a → f a = g a) :
    (x >>= f) = (x >>= g) := by
  cases x with
  | error e => rfl
  | ok a => exact same a rfl

theorem mapM_congr {f g : α → Except ε β} {list : List α} (same : ∀ a ∈ list, f a = g a) :
    list.mapM f = list.mapM g := by
  induction list with
  | nil => rfl
  | cons a list ih =>
    have later := ih fun a' member => same a' (List.mem_cons_of_mem a member)
    simp only [List.mapM_cons, same a List.mem_cons_self, later]

/-! ### Computations in step -/

variable {σ : Type} {change : σ → σ}

def Parallel (change : σ → σ) (first second : StateT σ (Except ε) α) : Prop :=
  ∀ s, second (change s) = (first s).map fun out => (out.1, change out.2)

namespace Parallel

protected theorem pure (a : α) : Parallel change (pure a : StateT σ (Except ε) α) (pure a) := fun _ => rfl

protected theorem throw (e : ε) : Parallel change (throw e : StateT σ (Except ε) α) (throw e) := fun _ => rfl

protected theorem bind {first second : StateT σ (Except ε) α} {next after : α → StateT σ (Except ε) β}
    (start : Parallel change first second) (rest : ∀ a, Parallel change (next a) (after a)) :
    Parallel change (first >>= next) (second >>= after) := by
  intro s
  change Except.bind (second (change s)) (fun out => after out.1 out.2) =
    (Except.bind (first s) fun out => next out.1 out.2).map _
  rw [start s]
  cases first s with
  | error e => rfl
  | ok out => exact rest out.1 out.2

/-- What follows may look at the state. -/
protected theorem get {next after : σ → StateT σ (Except ε) α}
    (rest : ∀ s, Parallel change (next s) (after (change s))) :
    Parallel change (get >>= next) (get >>= after) :=
  fun s => rest s s

protected theorem set (s : σ) : Parallel change (set s : StateT σ (Except ε) PUnit) (set (change s)) :=
  fun _ => rfl

protected theorem modify {f g : σ → σ} (same : ∀ s, g (change s) = change (f s)) :
    Parallel change (modify f : StateT σ (Except ε) PUnit) (modify g) :=
  fun s => congrArg (fun s => Except.ok (PUnit.unit, s)) (same s)

protected theorem modifyGet {f g : σ → α × σ} (same : ∀ s, g (change s) = ((f s).1, change (f s).2)) :
    Parallel change (modifyGet f : StateT σ (Except ε) α) (modifyGet g) :=
  fun s => congrArg Except.ok (same s)

/-- Both take the same branch. -/
protected theorem ite (c : Prop) [Decidable c] {first second next after : StateT σ (Except ε) α}
    (yes : Parallel change first second) (no : Parallel change next after) :
    Parallel change (if c then first else next) (if c then second else after) := by
  split
  · exact yes
  · exact no

/-- Both take a first step, or neither does. -/
protected theorem optional (c : Prop) [Decidable c] {first second : StateT σ (Except ε) β}
    {next after : StateT σ (Except ε) α} (start : Parallel change first second) (rest : Parallel change next after) :
    Parallel change (if c then first >>= fun _ => next else next) (if c then second >>= fun _ => after else after) :=
  .ite c (.bind start fun _ => rest) rest

protected theorem map {first second : StateT σ (Except ε) α} (start : Parallel change first second) (f : α → β) :
    Parallel change (f <$> first) (f <$> second) := by
  intro s
  change Except.map _ (second (change s)) = (Except.map _ (first s)).map _
  rw [start s]
  cases first s <;> rfl

protected theorem forM_map {γ : Type} {each : β → γ} {list : List β} {first : β → StateT σ (Except ε) PUnit}
    {second : γ → StateT σ (Except ε) PUnit} (one : ∀ b ∈ list, Parallel change (first b) (second (each b))) :
    Parallel change (list.forM first) ((list.map each).forM second) := by
  induction list with
  | nil => exact .pure _
  | cons b rest ih =>
    obtain ⟨now, later⟩ := List.forall_mem_cons.mp one
    exact .bind now fun _ => ih later

protected theorem forM {list : List β} {first second : β → StateT σ (Except ε) PUnit}
    (one : ∀ b ∈ list, Parallel change (first b) (second b)) :
    Parallel change (list.forM first) (list.forM second) := by
  simpa only [List.map_id] using (Parallel.forM_map one : Parallel change _ ((list.map id).forM second))

end Parallel

end TreeCheck
