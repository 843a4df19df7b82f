import TreeCheck.Proofs.Ty.Runs
import TreeCheck.Ty.Decls

/-!
Proper types: over variables that have been handed out, without faults, and with a name for every struct
and enum. They stay proper when variables are replaced, parameters are instantiated and references are
followed.
-/

namespace TreeCheck

namespace Ty

/-- Whether a part may stand in a proper type. -/
def suits (classes : List LiteralClass) : Ty → Bool
  | .invalid => false
  | .struct name _ | .enum name _ => !name.isEmpty
  | t => t.placed classes

/-- A type over variables that have been handed out, without faults, all of whose declared types have
names. -/
def Proper (classes : List LiteralClass) (t : Ty) : Prop := ∀ part ∈ t.parts, part.suits classes = true

instance (classes : List LiteralClass) (t : Ty) : Decidable (t.Proper classes) := by
  unfold Proper
  infer_instance

variable {classes more : List LiteralClass} {t : Ty}

theorem proper_iff : t.Proper classes ↔
    t.suits classes = true ∧ ∀ child ∈ t.children, child.Proper classes := by
  constructor
  · intro proper
    exact ⟨proper t (self_mem_parts t), fun child member part inside =>
      proper part (mem_parts_child member inside)⟩
  · rintro ⟨own, each⟩ part inside
    rcases mem_parts.mp inside with rfl | ⟨child, member, within⟩
    · exact own
    · exact each child member part within

theorem Proper.child (t : Ty) (proper : t.Proper classes) : ∀ child ∈ t.children, child.Proper classes :=
  (proper_iff.mp proper).2

theorem Proper.inScope (proper : t.Proper classes) : t.InScope classes := by
  refine inScope_iff.mpr fun part member => ?_
  have suits := proper part member
  unfold Ty.suits at suits
  split at suits
  · cases suits
  · rfl
  · rfl
  · exact suits

theorem proper_node (own : t.suits classes = true) :
    t.Proper classes ↔ ∀ child ∈ t.children, child.Proper classes :=
  proper_iff.trans (and_iff_right own)

theorem proper_leaf (own : t.suits classes = true) (leaf : t.children = []) : t.Proper classes := by
  rw [proper_node own, leaf]
  exact List.forall_mem_nil _

@[simp] theorem proper_unit : Ty.unit.Proper classes := proper_leaf rfl rfl

@[simp] theorem proper_bool : Ty.bool.Proper classes := proper_leaf rfl rfl

@[simp] theorem proper_int (k : IntType) : (Ty.int k).Proper classes := proper_leaf rfl rfl

@[simp] theorem proper_float (k : FloatType) : (Ty.float k).Proper classes := proper_leaf rfl rfl

@[simp] theorem proper_string : Ty.string.Proper classes := proper_leaf rfl rfl

@[simp] theorem proper_generic (name : String) : (Ty.generic name).Proper classes := proper_leaf rfl rfl

@[simp] theorem not_proper_invalid : ¬ Ty.invalid.Proper classes :=
  fun proper => Bool.false_ne_true (proper .invalid (self_mem_parts _))

@[simp] theorem proper_array : (Ty.array t).Proper classes ↔ t.Proper classes :=
  (proper_node rfl).trans List.forall_mem_singleton

@[simp] theorem proper_ref {mutable : Bool} : (Ty.ref mutable t).Proper classes ↔ t.Proper classes :=
  (proper_node rfl).trans List.forall_mem_singleton

@[simp] theorem proper_struct {name : String} {args : List Ty} :
    (Ty.struct name args).Proper classes ↔ name ≠ "" ∧ ∀ a ∈ args, a.Proper classes := by
  simp [proper_iff (t := .struct name args), suits, children]

@[simp] theorem proper_enum {name : String} {args : List Ty} :
    (Ty.enum name args).Proper classes ↔ name ≠ "" ∧ ∀ a ∈ args, a.Proper classes := by
  simp [proper_iff (t := .enum name args), suits, children]

@[simp] theorem proper_function {params : List Ty} {result : Ty} :
    (Ty.function params result).Proper classes ↔
      (∀ p ∈ params, p.Proper classes) ∧ result.Proper classes := by
  rw [proper_node rfl]
  simp [children, or_imp, forall_and]

@[simp] theorem proper_product {types : List Ty} :
    (product types).Proper classes ↔ ∀ t ∈ types, t.Proper classes := by
  rw [proper_node (by cases types <;> rfl), children_product]

@[simp] theorem proper_var {id : Nat} {c : LiteralClass} :
    (Ty.var id c).Proper classes ↔ Owned classes id c := by
  constructor
  · exact fun proper => proper.inScope.owned id c (self_mem_parts _)
  · intro owned part member
    cases mem_parts_var.mp member
    exact inScope_iff.mp owned.inScope _ (self_mem_parts _)

theorem Proper.mono (proper : t.Proper classes) (longer : classes <+: more) : t.Proper more := by
  obtain ⟨rest, rfl⟩ := longer
  intro part inside
  have suits := proper part inside
  cases part with
  | var id c =>
    have owned := (proper.inScope.owned id c inside).append rest
    exact proper_var.mpr owned _ (self_mem_parts _)
  | tuple types => cases types <;> exact suits
  | _ => exact suits

theorem Proper.noVars (proper : t.Proper []) : t.hasVars = false :=
  hasVars_eq_false.mpr fun id c inside => by
    obtain ⟨i, -, none⟩ := proper.inScope.owned id c inside
    cases none

/-- What is put in the place of parameters and variables of a proper type makes it a proper one again. -/
theorem Proper.replace {param : String → Ty} {var : Nat → LiteralClass → Ty} (proper : t.Proper classes)
    (params : ∀ name, (param name).Proper more)
    (vars : ∀ id c, Ty.var id c ∈ t.parts → (var id c).Proper more) :
    (t.replace param var).Proper more := by
  induction t using child_induction with
  | step t ih =>
    have each : ∀ child ∈ t.children, (child.replace param var).Proper more := fun child member =>
      ih child member (proper.child t child member) fun id c inside =>
        vars id c (mem_parts_child member inside)
    cases t with
    | var id c => exact vars id c (self_mem_parts _)
    | generic name => exact params name
    | invalid => exact absurd proper not_proper_invalid
    | struct name args =>
      simp only [proper_struct] at proper
      simpa [Ty.replace, replaceAll_map, children, proper.1] using each
    | enum name args =>
      simp only [proper_enum] at proper
      simpa [Ty.replace, replaceAll_map, children, proper.1] using each
    | function args result =>
      simpa [Ty.replace, replaceAll_map, children, or_imp, forall_and] using each
    | tuple types => simpa [Ty.replace, replaceAll_map, children] using each
    | array element => simpa [Ty.replace, children] using each
    | ref mutable target => simpa [Ty.replace, children] using each
    | unit | bool | int | float | string => simp [Ty.replace]

/-- A declared type with arguments in the place of its parameters. -/
theorem Proper.instantiate {params : List String} {args : List Ty} (proper : t.Proper [])
    (each : ∀ a ∈ args, a.Proper classes) : (t.instantiate params args).Proper classes := by
  refine proper.replace (fun name => ?_) fun id c inside => ?_
  · cases found : argument? name params args with
    | none => exact proper_generic name
    | some a => exact each a (argument?_mem found)
  · obtain ⟨i, -, none⟩ := proper.inScope.owned id c inside
    cases none

end Ty

namespace Subst

variable {classes : List LiteralClass} {s : Subst} {t : Ty}

theorem Carries.proper_applyWithin (carries : s.Carries (Ty.Proper classes)) (count : Nat)
    (proper : t.Proper classes) : (s.applyWithin count t).Proper classes := by
  induction count generalizing t with
  | zero => exact proper
  | succ count ih =>
    refine proper.replace Ty.proper_generic fun id c inside => ?_
    cases bound : s.lookup? id with
    | none => exact Ty.proper_var.mpr (proper.inScope.owned id c inside)
    | some b => exact ih (carries id b bound).1

theorem Carries.proper_apply (carries : s.Carries (Ty.Proper classes)) (proper : t.Proper classes) :
    (s.apply t).Proper classes := carries.proper_applyWithin _ proper

end Subst

namespace Engine

/-- The invariant of an engine that only saw proper types. -/
structure Proper (e : Engine) : Prop where
  acyclic : e.bindings.Acyclic
  carries : e.bindings.Carries (Ty.Proper e.classes)

namespace Proper

variable {e : Engine} {a b t : Ty}

theorem sound (proper : e.Proper) : e.Sound :=
  ⟨proper.acyclic, proper.carries.imp fun _ => Ty.Proper.inScope⟩

theorem new : Proper {} := ⟨Subst.acyclic_nil, Subst.carries_nil _⟩

theorem more (proper : e.Proper) (more : List LiteralClass) :
    Proper { e with classes := e.classes ++ more } :=
  ⟨proper.acyclic, proper.carries.imp fun _ known => known.mono (List.prefix_append _ _)⟩

theorem shallow (proper : e.Proper) (known : t.Proper e.classes) : (e.shallow t).Proper e.classes :=
  proper.carries.prune known

theorem resolve (proper : e.Proper) (known : t.Proper e.classes) : (e.resolve t).Proper e.classes :=
  proper.carries.proper_apply known

theorem unify (proper : e.Proper) (left : a.Proper e.classes) (right : b.Proper e.classes) :
    (e.unify a b).1.Proper ∧ (e.unify a b).1.classes = e.classes ∧
      e.bindings.Grows (e.unify a b).1.bindings := by
  obtain ⟨s, clash, solves, after, -⟩ := proper.sound.unify_solves left.inScope right.inScope
  obtain ⟨acyclic, grows, carries⟩ := solves.keeps Ty.Proper.child proper.acyclic proper.carries
    (by simpa using ⟨left, right⟩)
  rw [after]
  exact ⟨⟨acyclic, carries⟩, rfl, grows⟩

theorem assign (proper : e.Proper) (left : a.Proper e.classes) (right : b.Proper e.classes) :
    (e.assign a b).1.Proper ∧ (e.assign a b).1.classes = e.classes ∧
      e.bindings.Grows (e.assign a b).1.bindings := by
  unfold Engine.assign
  split
  · exact ⟨proper, rfl, .refl _⟩
  · exact proper.unify left right

/-- Open literals become numbers, which are proper. -/
theorem settle (proper : e.Proper) (known : t.Proper e.classes) :
    (e.settle t).Proper ∧ (e.settle t).classes = e.classes ∧ e.bindings.Grows (e.settle t).bindings := by
  obtain ⟨pairs, given, solves⟩ := e.settle_solves t
  obtain ⟨acyclic, grows, carries⟩ :=
    solves.keeps Ty.Proper.child proper.acyclic proper.carries fun pair member => by
      obtain ⟨left, right | right⟩ := given pair member
      · exact ⟨left ▸ known, right ▸ Ty.proper_int _⟩
      · exact ⟨left ▸ known, right ▸ Ty.proper_float _⟩
  exact ⟨⟨acyclic, by rwa [settle_classes]⟩, settle_classes e t, grows⟩

theorem default (proper : e.Proper) : e.default.Proper ∧ e.default.classes = e.classes ∧
    e.bindings.Grows e.default.bindings := by
  have known : ∀ v ∈ e.vars, v.Proper e.classes := by
    intro v member
    obtain ⟨id, c, rfl, owned⟩ := mem_vars.mp member
    exact Ty.proper_var.mpr owned
  rw [default_eq]
  generalize e.vars = vars at known
  induction vars generalizing e with
  | nil => exact ⟨proper, rfl, .refl _⟩
  | cons v vars ih =>
    obtain ⟨first, classes, grows⟩ := proper.settle (known v List.mem_cons_self)
    obtain ⟨last, same, further⟩ := ih first fun w member =>
      classes.symm ▸ known w (List.mem_cons_of_mem _ member)
    exact ⟨last, same.trans classes, grows.trans further⟩

/-- What is left open where a block does not return becomes unit. -/
theorem settleUnits (proper : e.Proper) {types : List Ty}
    (known : ∀ t ∈ types, t.Proper e.classes) :
    let e' := types.foldl (fun e t => if (e.shallow t).isVar then (e.unify t .unit).1 else e) e
    e'.Proper ∧ e'.classes = e.classes ∧ e.bindings.Grows e'.bindings := by
  induction types generalizing e with
  | nil => exact ⟨proper, rfl, .refl _⟩
  | cons t types ih =>
    obtain ⟨first, rest⟩ := List.forall_mem_cons.mp known
    rw [List.foldl_cons]
    split
    · obtain ⟨after, classes, grows⟩ := proper.unify first Ty.proper_unit
      obtain ⟨last, same, further⟩ := ih after fun t member => classes ▸ rest t member
      exact ⟨last, same.trans classes, grows.trans further⟩
    · exact ih proper rest

end Proper

end Engine

end TreeCheck
