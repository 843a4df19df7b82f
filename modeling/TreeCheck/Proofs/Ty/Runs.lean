import Mathlib.Tactic.Ring
import TreeCheck.Proofs.Ty.MostGeneral

/-!
Runs of an engine. Every operation keeps the bindings that are there and their invariant, also where it
fails midway; hence a run has no way to close a cycle or to bind a literal to anything but a number.
-/

namespace TreeCheck

open Relation

theorem Owned.append {classes : List LiteralClass} {id : Nat} {c : LiteralClass}
    (owned : Owned classes id c) (more : List LiteralClass) : Owned (classes ++ more) id c := by
  obtain ⟨i, rfl, known⟩ := owned
  have inside : i < classes.length := (List.getElem?_eq_some_iff.mp known).1
  exact ⟨i, rfl, by rw [List.getElem?_append_left inside, known]⟩

theorem Owned.bounds {classes : List LiteralClass} {id : Nat} {c : LiteralClass}
    (owned : Owned classes id c) : 0 < id ∧ id ≤ classes.length := by
  obtain ⟨i, rfl, known⟩ := owned
  exact ⟨Nat.succ_pos i, (List.getElem?_eq_some_iff.mp known).1⟩

theorem Owned.inScope {classes : List LiteralClass} {id : Nat} {c : LiteralClass}
    (owned : Owned classes id c) : (Ty.var id c).InScope classes := by
  refine ⟨fun other d inside => ?_, by simp⟩
  cases Ty.mem_parts_var.mp inside
  exact owned

theorem Ty.InScope.append {classes : List LiteralClass} {t : Ty} (inScope : t.InScope classes)
    (more : List LiteralClass) : t.InScope (classes ++ more) :=
  ⟨fun id c inside => (inScope.owned id c inside).append more, inScope.spelled⟩

namespace Subst

theorem Carries.imp {P Q : Ty → Prop} {s : Subst} (carries : s.Carries P)
    (implies : ∀ t, P t → Q t) : s.Carries Q := by
  intro id t bound
  obtain ⟨holds, c, own, allowed⟩ := carries id t bound
  exact ⟨implies t holds, c, implies _ own, allowed⟩

theorem depth_le_of_lookup? {s : Subst} {id : Nat} {t : Ty} (bound : s.lookup? id = some t) :
    t.depth ≤ s.depth := by
  have grows (s : Subst) (least : Nat) :
      least ≤ s.foldl (fun deepest entry => max deepest entry.2.depth) least ∧
      ∀ entry ∈ s, entry.2.depth ≤ s.foldl (fun deepest entry => max deepest entry.2.depth) least := by
    induction s generalizing least with
    | nil => simp
    | cons entry s ih =>
      obtain ⟨start, each⟩ := ih (max least entry.2.depth)
      rw [List.foldl_cons]
      refine ⟨by omega, List.forall_mem_cons.mpr ⟨by omega, each⟩⟩
  obtain ⟨entry, found, rfl⟩ := Option.map_eq_some_iff.mp bound
  exact (grows s 0).2 entry (List.mem_of_find?_eq_some found)

end Subst

/-- The invariant of an engine: no cycles, and only types over its own variables, each bound as its
class allows. -/
structure Engine.Sound (e : Engine) : Prop where
  acyclic : e.bindings.Acyclic
  carries : e.bindings.Carries (Ty.InScope e.classes)

namespace Engine

/-- A type over the variables of an engine that is no deeper than those bound or given. -/
def Fits (e : Engine) (a b t : Ty) : Prop :=
  t.InScope e.classes ∧ t.depth ≤ max e.bindings.depth (max a.depth b.depth)

theorem fits_child {e : Engine} {a b t : Ty} (fits : e.Fits a b t) :
    ∀ child ∈ t.children, e.Fits a b child := by
  intro child member
  have := Ty.depth_child member
  exact ⟨fits.1.child t child member, (Nat.le_of_lt this).trans fits.2⟩

theorem fuel_enough (e : Engine) (a b : Ty) :
    Subst.Enough (e.Fits a b) e.bindings (e.fuel a b) a := by
  intro s' _ acyclic carries
  have few : ∀ id, s'.rank id ≤ e.classes.length := by
    refine Subst.rank_le fun id t bound => ?_
    obtain ⟨-, c, own, -⟩ := carries id t bound
    exact (own.1.owned id c (Ty.self_mem_parts _)).bounds
  have bound := acyclic.depth_apply_le (fun id t bound => (carries id t bound).1.2) few a
  generalize deepest : max e.bindings.depth (max a.depth b.depth) = D at bound
  have whole : e.fuel a b = 2 * (D * e.classes.length + 2 * e.classes.length + 2 * D + 4) := by
    rw [fuel, deepest]
    ring
  omega

/-- Unifying solves the pair of types, whether it succeeds or not. -/
theorem Sound.unify_solves {e : Engine} (sound : e.Sound) {a b : Ty} (inScopeA : a.InScope e.classes)
    (inScopeB : b.InScope e.classes) : ∃ s clash, Subst.Solves e.bindings [(a, b)] s clash ∧
      (e.unify a b).1 = { e with bindings := s } ∧ ((e.unify a b).2 = none ↔ clash = none) := by
  have carries : e.bindings.Carries (e.Fits a b) := by
    intro id t bound
    obtain ⟨inScope, c, own, allowed⟩ := sound.carries id t bound
    have := Subst.depth_le_of_lookup? bound
    exact ⟨⟨inScope, by omega⟩, c, ⟨own, Nat.zero_le _⟩, allowed⟩
  have solves := Subst.unify_solves (fun _ => fits_child) sound.acyclic carries
    ⟨inScopeA, by omega⟩ ⟨inScopeB, by omega⟩ (e.fuel_enough a b)
  refine ⟨_, _, solves, ?_, ?_⟩
  · simp only [unify]
    split <;> rfl
  · simp only [unify]
    split <;> simp_all

theorem Sound.unify {e : Engine} (sound : e.Sound) {a b : Ty} (inScopeA : a.InScope e.classes)
    (inScopeB : b.InScope e.classes) :
    (e.unify a b).1.Sound ∧ e.bindings.Grows (e.unify a b).1.bindings := by
  obtain ⟨s, clash, solves, after, -⟩ := sound.unify_solves inScopeA inScopeB
  obtain ⟨acyclic, grows, carries⟩ := solves.keeps Ty.InScope.child sound.acyclic sound.carries
    (by simpa using ⟨inScopeA, inScopeB⟩)
  rw [after]
  exact ⟨⟨acyclic, carries⟩, grows⟩

theorem Sound.more {e : Engine} (sound : e.Sound) (more : List LiteralClass) :
    Sound { e with classes := e.classes ++ more } :=
  ⟨sound.acyclic, sound.carries.imp fun _ inScope => inScope.append more⟩

theorem freshAll_eq (e : Engine) (count : Nat) :
    (e.freshAll count).2 = { e with classes := e.classes ++ List.replicate count .general } := by
  induction count generalizing e with
  | zero => simp [freshAll]
  | succ count ih => simp [freshAll, ih, fresh, List.replicate_succ]

/-- Binds what a variable is pruned to, if it is an open literal. -/
def settle (e : Engine) (v : Ty) : Engine :=
  match e.shallow v with
  | .var id .integer => { e with bindings := (id, .int .i32) :: e.bindings }
  | .var id .float => { e with bindings := (id, .float .f64) :: e.bindings }
  | _ => e

theorem default_eq (e : Engine) : e.default = e.vars.foldl settle e := rfl

theorem settle_classes (e : Engine) (v : Ty) : (e.settle v).classes = e.classes := by
  unfold settle
  split <;> rfl

/-- A literal is settled as if it were unified with its default type. -/
theorem settle_solves (e : Engine) (v : Ty) : ∃ pairs : List (Ty × Ty),
    (∀ pair ∈ pairs, pair.1 = v ∧ (pair.2 = .int .i32 ∨ pair.2 = .float .f64)) ∧
      Subst.Solves e.bindings pairs (e.settle v).bindings none := by
  unfold settle
  split
  · rename_i id known
    exact ⟨[(v, .int .i32)], by simp, .bind (.inl ⟨known, rfl⟩) rfl rfl (.done _)⟩
  · rename_i id known
    exact ⟨[(v, .float .f64)], by simp, .bind (.inl ⟨known, rfl⟩) rfl rfl (.done _)⟩
  · exact ⟨[], by simp, .done _⟩

theorem Sound.settle {e : Engine} (sound : e.Sound) {v : Ty} (inScope : v.InScope e.classes) :
    (e.settle v).Sound ∧ e.bindings.Grows (e.settle v).bindings := by
  have intInScope : (Ty.int .i32).InScope e.classes := ⟨by simp [Ty.parts], by simp [Ty.parts]⟩
  have floatInScope : (Ty.float .f64).InScope e.classes := ⟨by simp [Ty.parts], by simp [Ty.parts]⟩
  obtain ⟨pairs, given, solves⟩ := e.settle_solves v
  obtain ⟨acyclic, grows, carries⟩ :=
    solves.keeps Ty.InScope.child sound.acyclic sound.carries fun pair member => by
      obtain ⟨left, right | right⟩ := given pair member
      · exact ⟨left ▸ inScope, right ▸ intInScope⟩
      · exact ⟨left ▸ inScope, right ▸ floatInScope⟩
  exact ⟨⟨acyclic, by rwa [settle_classes]⟩, grows⟩

theorem settle_bound (e : Engine) (id : Nat) {c : LiteralClass} (special : c ≠ .general) :
    ∃ t, (e.settle (.var id c)).bindings.lookup? id = some t ∨ e.bindings.lookup? id = some t := by
  cases bound : e.bindings.lookup? id with
  | some t => exact ⟨t, .inr rfl⟩
  | none =>
    have known : e.shallow (.var id c) = .var id c := Subst.prune_unbound bound c
    cases c <;> simp_all [Engine.settle]

theorem Sound.settleAll {e : Engine} (sound : e.Sound) {vars : List Ty}
    (inScope : ∀ v ∈ vars, v.InScope e.classes) :
    (vars.foldl Engine.settle e).Sound ∧ e.bindings.Grows (vars.foldl Engine.settle e).bindings ∧
      (vars.foldl Engine.settle e).classes = e.classes ∧
      ∀ id c, .var id c ∈ vars → c ≠ .general →
        ∃ t, (vars.foldl Engine.settle e).bindings.lookup? id = some t := by
  induction vars generalizing e with
  | nil => exact ⟨sound, .refl _, rfl, by simp⟩
  | cons v vars ih =>
    obtain ⟨first, grows⟩ := sound.settle (inScope v List.mem_cons_self)
    obtain ⟨last, further, classes, bound⟩ := ih first fun w member =>
      (e.settle_classes v).symm ▸ inScope w (List.mem_cons_of_mem _ member)
    rw [List.foldl_cons]
    refine ⟨last, grows.trans further, classes.trans (e.settle_classes v), ?_⟩
    intro id c member special
    rcases List.mem_cons.mp member with rfl | later
    · obtain ⟨t, now | before⟩ := e.settle_bound id special
      · exact ⟨t, further id t now⟩
      · exact ⟨t, further id t (grows id t before)⟩
    · exact bound id c later special

theorem mem_vars {e : Engine} {v : Ty} :
    v ∈ e.vars ↔ ∃ id c, v = .var id c ∧ Owned e.classes id c := by
  rw [vars, List.mem_mapIdx]
  constructor
  · rintro ⟨i, inside, rfl⟩
    exact ⟨i + 1, _, rfl, i, rfl, List.getElem?_eq_getElem inside⟩
  · rintro ⟨id, c, rfl, i, rfl, known⟩
    obtain ⟨inside, rfl⟩ := List.getElem?_eq_some_iff.mp known
    exact ⟨i, inside, rfl⟩

theorem Sound.default {e : Engine} (sound : e.Sound) :
    e.default.Sound ∧ e.bindings.Grows e.default.bindings ∧ e.default.classes = e.classes ∧
      ∀ id c, Owned e.classes id c → c ≠ .general →
        ∃ t, e.default.bindings.lookup? id = some t := by
  have inScope : ∀ v ∈ e.vars, v.InScope e.classes := by
    intro v member
    obtain ⟨id, c, rfl, owned⟩ := mem_vars.mp member
    exact owned.inScope
  obtain ⟨after, grows, classes, bound⟩ := sound.settleAll inScope
  rw [default_eq]
  exact ⟨after, grows, classes, fun id c owned => bound id c (mem_vars.mpr ⟨id, c, rfl, owned⟩)⟩

/-- One operation of an engine, on types over its variables. -/
inductive Step : Engine → Engine → Prop
  | fresh (e : Engine) (literal : LiteralClass) : Step e (e.fresh literal).2
  | unify (e : Engine) {expected found : Ty} (inScopeA : expected.InScope e.classes)
      (inScopeB : found.InScope e.classes) : Step e (e.unify expected found).1
  | assign (e : Engine) {expected found : Ty} (inScopeA : expected.InScope e.classes)
      (inScopeB : found.InScope e.classes) : Step e (e.assign expected found).1
  | default (e : Engine) : Step e e.default
  | instantiate (e : Engine) (params : List String) {types : List Ty}
      (inScope : ∀ t ∈ types, t.InScope e.classes) : Step e (e.instantiate params types).2.2

/-- A sequence of operations leads from one state to another. -/
abbrev Runs : Engine → Engine → Prop := ReflTransGen Step

theorem Step.keeps {e e' : Engine} (step : Step e e') (sound : e.Sound) :
    e'.Sound ∧ e.bindings.Grows e'.bindings := by
  cases step with
  | fresh literal => exact ⟨sound.more [literal], .refl _⟩
  | unify inScopeA inScopeB => exact sound.unify inScopeA inScopeB
  | assign inScopeA inScopeB =>
    unfold Engine.assign
    split
    · exact ⟨sound, .refl _⟩
    · exact sound.unify inScopeA inScopeB
  | default =>
    obtain ⟨after, grows, -, -⟩ := sound.default
    exact ⟨after, grows⟩
  | @instantiate params types inScope =>
    have after : (e.instantiate params types).2.2 = (e.freshAll params.length).2 := rfl
    rw [after, freshAll_eq]
    exact ⟨sound.more _, .refl _⟩

theorem Runs.keeps {e e' : Engine} (run : Runs e e') (sound : e.Sound) :
    e'.Sound ∧ e.bindings.Grows e'.bindings := by
  induction run with
  | refl => exact ⟨sound, .refl _⟩
  | tail _ step ih =>
    obtain ⟨before, grows⟩ := ih
    obtain ⟨after, further⟩ := step.keeps before
    exact ⟨after, grows.trans further⟩

theorem sound_new : Sound {} := ⟨Subst.acyclic_nil, Subst.carries_nil _⟩

/-- A literal stands for a number of its class or for another literal of it. -/
theorem Sound.allows_resolve {e : Engine} (sound : e.Sound) (id : Nat) :
    ∀ c, Owned e.classes id c → c.allows (e.resolve (.var id c)) = true := by
  induction id using sound.acyclic.leads_induction with
  | step id ih =>
    intro c owned
    cases bound : e.bindings.lookup? id with
    | none =>
      have stays : e.resolve (.var id c) = .var id c := Subst.value_unbound bound c
      simp [stays, LiteralClass.allows]
    | some t =>
      obtain ⟨inScope, d, own, allowed⟩ := sound.carries id t bound
      obtain rfl := owned.unique (own.owned id d (Ty.self_mem_parts _))
      have follows : e.resolve (.var id c) = e.resolve t := sound.acyclic.value_bound bound c
      rw [follows]
      by_cases plain : t.isVar = false
      · rw [LiteralClass.allows_plain plain] at allowed
        exact (LiteralClass.allows_fill plain).trans allowed
      · cases t <;> simp [Ty.isVar] at plain
        rename_i other d
        rcases Bool.or_eq_true_iff.mp allowed with general | same
        · rw [beq_iff_eq.mp general]
          exact LiteralClass.allows_general _
        · obtain rfl := beq_iff_eq.mp same
          have inside := Ty.self_mem_parts (.var other d)
          exact ih other ⟨_, d, bound, inside⟩ d (inScope.owned other d inside)

/-- The invariant of runs. Bindings are never changed or removed; they have no cycles, so that following
them ends however far it is allowed to go; replacing bound variables twice is replacing them once;
literals stand for numbers of their class or for literals of it; and after the defaults no literal is
open. -/
theorem runs_invariant (e : Engine) (reached : Runs {} e) :
    (∀ e', Runs e e' → ∀ id t, e.bindings.lookup? id = some t → e'.bindings.lookup? id = some t) ∧
    e.bindings.Acyclic ∧
    (∀ count t, e.bindings.length < count →
      e.bindings.pruneWithin count t = e.shallow t ∧ e.bindings.applyWithin count t = e.resolve t) ∧
    (∀ t, e.resolve (e.resolve t) = e.resolve t) ∧
    (∀ id c, Owned e.classes id c → c.allows (e.resolve (.var id c)) = true) ∧
    (∀ id c, Owned e.default.classes id c → c ≠ .general →
      (e.default.bindings.lookup? id).isSome = true) := by
  have sound := (reached.keeps sound_new).1
  refine ⟨fun e' run => (run.keeps sound).2, sound.acyclic, ?_, ?_, sound.allows_resolve, ?_⟩
  · intro count t enough
    exact ⟨sound.acyclic.pruneWithin_eq enough t, sound.acyclic.applyWithin_eq enough t⟩
  · exact (Subst.Grows.refl e.bindings).apply_apply sound.acyclic
  · obtain ⟨-, -, classes, bound⟩ := sound.default
    intro id c owned special
    rw [classes] at owned
    exact Option.isSome_iff_exists.mpr (bound id c owned special)

/-- An engine with a literal and a variable that has been bound to an array of it. -/
def literalEngine : Engine :=
  ((({} : Engine).fresh .integer).2.fresh .general).2.unify (.var 2 .general)
    (.array (.var 1 .integer)) |>.1

theorem literalEngine_reached : Runs {} literalEngine :=
  .tail (.tail (.single (.fresh {} .integer)) (.fresh _ .general)) (.unify _ (by decide) (by decide))

/-- The array is one of default integers in the end. -/
theorem runs_invariant_literal :
    Runs {} literalEngine ∧ literalEngine.bindings.Acyclic ∧
    literalEngine.resolve (.var 2 .general) = .array (.var 1 .integer) ∧
    (literalEngine.default.bindings.lookup? 1).isSome = true := by
  obtain ⟨-, acyclic, -, -, -, closed⟩ := runs_invariant literalEngine literalEngine_reached
  exact ⟨literalEngine_reached, acyclic, rfl, closed 1 .integer ⟨0, rfl, rfl⟩ (by decide)⟩

/-- Unifying is most general. If it succeeds on types that stand for types without faults, they stand
for the same type afterwards; and whatever choice of types agrees with the old bindings and the classes
and makes the two types equal agrees with the new bindings. If it fails, there is no such choice. -/
theorem unify_most_general (e : Engine) (reached : Runs {} e) (expected found : Ty)
    (inScopeA : expected.InScope e.classes) (inScopeB : found.InScope e.classes) :
    let after := (e.unify expected found).1
    ((e.unify expected found).2 = none →
      (e.bindings.Clean expected → e.bindings.Clean found →
        after.resolve expected = after.resolve found) ∧
      ∀ σ, e.bindings.Respects e.classes σ → expected.under σ = found.under σ →
        ∀ t, t.under σ = (after.resolve t).under σ) ∧
    ((e.unify expected found).2 ≠ none →
      ¬ ∃ σ, e.bindings.Respects e.classes σ ∧ expected.under σ = found.under σ) := by
  have sound := (reached.keeps sound_new).1
  obtain ⟨s, clash, solves, after, verdict⟩ := sound.unify_solves inScopeA inScopeB
  have given : ∀ pair ∈ [(expected, found)], pair.1.InScope e.classes ∧ pair.2.InScope e.classes := by
    simpa using ⟨inScopeA, inScopeB⟩
  have complete {σ : Nat → Ty} (respects : e.bindings.Respects e.classes σ)
      (equal : expected.under σ = found.under σ) : clash = none ∧ s.Respects e.classes σ :=
    solves.complete sound.carries given respects (by simpa using equal)
  simp only [after]
  refine ⟨fun success => ⟨fun cleanA cleanB => ?_, fun σ respects equal t => ?_⟩, ?_⟩
  · have equal := solves.sound (verdict.mp success) sound.acyclic sound.carries given
      (by simpa using ⟨cleanA, cleanB⟩)
    exact equal _ List.mem_cons_self
  · exact ((complete respects equal).2.under_apply t).symm
  · rintro failure ⟨σ, respects, equal⟩
    exact failure (verdict.mpr (complete respects equal).1)

/-- The element of the array is found where the literal is, and then everywhere. -/
theorem unify_most_general_literal :
    Runs {} literalEngine ∧
    let found := literalEngine.unify (.tuple [.var 2 .general, .var 1 .integer])
      (.tuple [.array (.int .u8), .int .u8])
    found.2 = none ∧ found.1.resolve (.var 2 .general) = .array (.int .u8) ∧
      found.1.resolve (.tuple [.var 2 .general, .var 1 .integer]) =
        found.1.resolve (.tuple [.array (.int .u8), .int .u8]) := by
  refine ⟨literalEngine_reached, rfl, rfl, ?_⟩
  obtain ⟨success, -⟩ := unify_most_general literalEngine literalEngine_reached
    (.tuple [.var 2 .general, .var 1 .integer]) (.tuple [.array (.int .u8), .int .u8])
    (by decide) (by decide)
  exact (success rfl).1 (by decide) (by decide)

/-- A variable that has been bound to a type with a fault in it agrees with other types as well, which
it does not stand for afterwards. -/
theorem unify_faulty_binding :
    let e := ((({} : Engine).fresh .general).2.unify (.var 1 .general) (.array .invalid)).1
    let after := e.unify (.var 1 .general) (.array (.int .i32))
    Runs {} e ∧ (Ty.var 1 .general).InScope e.classes ∧ (Ty.array (.int .i32)).InScope e.classes ∧
      .invalid ∉ (Ty.var 1 .general).parts ∧ .invalid ∉ (Ty.array (.int .i32)).parts ∧
      after.2 = none ∧ after.1.resolve (.var 1 .general) ≠ after.1.resolve (.array (.int .i32)) := by
  refine ⟨.tail (.single (.fresh {} .general)) (.unify _ (by decide) (by decide)), by decide, by decide,
    by simp, by simp [Ty.parts], rfl, ?_⟩
  intro same
  cases same

end Engine

end TreeCheck
