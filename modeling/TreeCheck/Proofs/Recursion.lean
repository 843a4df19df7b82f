import Mathlib.Data.Prod.Lex
import Mathlib.Logic.Relation
import Mathlib.Order.WellFounded

/-!
Recursions that end. A recursion is given by what one call makes of the calls inside it and by the steps
that lead to these calls; a measure that every step makes smaller shows that it ends.
-/

namespace TreeCheck

open Relation (TransGen)

/-- A function is computed by a recursion that ends. Every step makes a measure smaller, so that there
are no endless steps; one call depends on nothing but calls that steps lead to; and the function, and no
other, is what one call makes of the calls inside it. -/
structure Terminates {α β γ : Type} [LT γ] (measure : α → γ) (steps : α → α → Prop)
    (body : (α → β) → α → β) (f : α → β) : Prop where
  decreases : ∀ a b, steps a b → measure b < measure a
  founded : WellFounded fun b a => steps a b
  confined : ∀ a g h, (∀ b, TransGen steps a b → g b = h b) → body g a = body h a
  unfolds : ∀ a, f a = body f a
  only : ∀ g, (∀ a, g a = body g a) → g = f

section

variable {α β γ : Type} {steps : α → α → Prop} {body : (α → β) → α → β}

theorem terminates_of [LT γ] [WellFoundedLT γ] {measure : α → γ} {f : α → β}
    (decreases : ∀ a b, steps a b → measure b < measure a)
    (confined : ∀ a g h, (∀ b, TransGen steps a b → g b = h b) → body g a = body h a)
    (unfolds : ∀ a, f a = body f a) : Terminates measure steps body f := by
  have founded : WellFounded fun b a => steps a b :=
    Subrelation.wf (decreases _ _ ·) (InvImage.wf measure wellFounded_lt)
  refine ⟨decreases, founded, confined, unfolds, ?_⟩
  intro g fixed
  funext a
  induction a using founded.transGen.induction with
  | _ a ih =>
    calc
      g a = body g a := fixed a
      _ = body f a := confined a g f fun b call => ih b (Relation.transGen_swap.mpr call)
      _ = f a := (unfolds a).symm

variable (size : α → Nat) (run : Nat → α → β) (succ : ∀ fuel a, run (fuel + 1) a = body (run fuel) a)
variable (congr : ∀ a g h, (∀ b, TransGen steps a b → size b < size a → g b = h b) →
  body g a = body h a)

include succ congr

/-- More fuel than the size makes no difference. -/
theorem run_congr (fuel : Nat) : ∀ {fuel' : Nat} {a : α}, size a < fuel → size a < fuel' →
    run fuel a = run fuel' a := by
  induction fuel with
  | zero =>
    intro fuel' a enough _
    omega
  | succ fuel ih =>
    intro fuel' a enough enough'
    cases fuel' with
    | zero => omega
    | succ fuel' =>
      rw [succ, succ]
      -- a smaller argument still has enough of the fuel that is left
      apply congr
      intro b _ smaller
      exact ih (by omega) (by omega)

theorem run_unfolds (a : α) : run (size a + 1) a = body (fun b => run (size b + 1) b) a := by
  rw [succ]
  apply congr
  intro b _ smaller
  exact run_congr size run succ congr (size a) smaller (Nat.lt_succ_self _)

end

/-- The second component decides where the first does not grow. -/
theorem toLex_lt {γ : Type} [LT γ] {a a' : Nat} {b b' : γ} (le : a ≤ a') (lt : b < b') :
    toLex (a, b) < toLex (a', b') := by
  rw [Prod.Lex.toLex_lt_toLex]
  rcases Nat.lt_or_eq_of_le le with less | same
  · exact .inl less
  · exact .inr ⟨same, lt⟩

end TreeCheck
