import Mathlib.Data.Finset.Card
import Mathlib.Data.List.Forall2
import Mathlib.Logic.Relation
import TreeCheck.Ty.Decls

/-!
References within types. The search for a reference enters each declaration once, so it sees the first
application of a declaration only. What it finds is there; what is there is found if the applications of a
declaration differ only in parts that lead to no reference.
-/

namespace TreeCheck

open Relation

def Ty.declaration? : Ty → Option String
  | .struct name _ => some name
  | .enum name _ => some name
  | _ => none

namespace Decls

variable {decls : Decls} {root t u : Ty} {types : List Ty} {name : String} {seen middle after : List String}
  {depth steps : Nat}

/-- The types that a value of a type holds directly: elements, or fields and payloads with the arguments put in
for the parameters. -/
def held (decls : Decls) : Ty → List Ty
  | .tuple elements => elements
  | .array element => [element]
  | t => decls.components t

/-- Finitely many steps to a type that a value holds lead from one type to another. -/
def Leads (decls : Decls) : Ty → Ty → Prop := ReflTransGen fun t u => u ∈ decls.held t

/-- A type leads to a reference. -/
def CarriesReference (decls : Decls) (t : Ty) : Prop := ∃ mutable target, decls.Leads t (.ref mutable target)

/-- A type leads to a reference in a number of steps. -/
def RefAt (decls : Decls) : Nat → Ty → Prop
  | 0, t => t.isRef = true
  | steps + 1, t => ∃ u ∈ decls.held t, decls.RefAt steps u

theorem held_of_applies (applies : t.declaration? = some name) : decls.held t = decls.components t := by
  cases t <;> cases applies <;> rfl

theorem carriesReference_of_held (member : u ∈ decls.held t) (carries : decls.CarriesReference u) :
    decls.CarriesReference t := by
  obtain ⟨mutable, target, leads⟩ := carries
  exact ⟨mutable, target, .head member leads⟩

theorem carriesReference_iff : decls.CarriesReference t ↔ ∃ steps, decls.RefAt steps t := by
  constructor
  · rintro ⟨mutable, target, leads⟩
    induction leads using ReflTransGen.head_induction_on with
    | refl => exact ⟨0, rfl⟩
    | head member _ ih =>
      obtain ⟨steps, found⟩ := ih
      exact ⟨steps + 1, _, member, found⟩
  · rintro ⟨steps, found⟩
    induction steps generalizing t with
    | zero =>
      cases t <;> cases found
      exact ⟨_, _, .refl⟩
    | succ steps ih =>
      obtain ⟨u, member, found⟩ := found
      exact carriesReference_of_held member (ih found)

/-! ### Applications of one declaration -/

/-- Types that differ only in parts where the first one leads to no reference. -/
inductive Alike (decls : Decls) : Ty → Ty → Prop
  | same (t : Ty) : Alike decls t t
  | free {t : Ty} (none : ¬decls.CarriesReference t) (u : Ty) : Alike decls t u
  | struct {name : String} {args others : List Ty} (each : List.Forall₂ (Alike decls) args others) :
      Alike decls (.struct name args) (.struct name others)
  | enum {name : String} {args others : List Ty} (each : List.Forall₂ (Alike decls) args others) :
      Alike decls (.enum name args) (.enum name others)
  | tuple {elements others : List Ty} (each : List.Forall₂ (Alike decls) elements others) :
      Alike decls (.tuple elements) (.tuple others)
  | array {element other : Ty} (elements : Alike decls element other) :
      Alike decls (.array element) (.array other)
  | ref (mutable : Bool) (target other : Ty) : Alike decls (.ref mutable target) (.ref mutable other)

/-- A declaration holds the same types for all arguments, up to the arguments. -/
theorem components_struct (decls : Decls) (name : String) : ∃ (params : List String) (shapes : List Ty),
    ∀ args, decls.components (.struct name args) = shapes.map (Ty.instantiate params args) := by
  cases declared : decls.struct? name with
  | none => exact ⟨[], [], fun args => by simp [components, fields, declared]⟩
  | some d => exact ⟨d.params, d.fields.map Field.type, fun args => by simp [components, fields, declared]⟩

theorem components_enum (decls : Decls) (name : String) : ∃ (params : List String) (shapes : List Ty),
    ∀ args, decls.components (.enum name args) = shapes.map (Ty.instantiate params args) := by
  cases declared : decls.enum? name with
  | none => exact ⟨[], [], fun args => by simp [components, declared]⟩
  | some d =>
    refine ⟨d.params, d.variants.flatMap Variant.slots, fun args => ?_⟩
    simp only [components, declared, List.map_flatMap]
    rfl

theorem argument?_alike {args others : List Ty} (each : List.Forall₂ decls.Alike args others)
    (params : List String) :
    Option.Rel decls.Alike (Ty.argument? name params args) (Ty.argument? name params others) := by
  induction each generalizing params with
  | nil => cases params <;> exact .none
  | @cons _ _ args others head _ ih =>
    cases params with
    | nil => exact .none
    | cons param params =>
      simp only [Ty.argument?]
      have later := ih params
      generalize Ty.argument? name params args = one, Ty.argument? name params others = two at later ⊢
      cases later with
      | some alike => exact .some alike
      | none =>
        by_cases named : (param == name) = true
        · simpa [named] using Option.Rel.some head
        · simp [named]

mutual

theorem replace_alike {arg other : String → Ty} (each : ∀ name, decls.Alike (arg name) (other name)) :
    ∀ t : Ty, decls.Alike (t.replace arg .var) (t.replace other .var)
  | .struct _ args => .struct (replaceAll_alike each args)
  | .enum _ args => .enum (replaceAll_alike each args)
  | .tuple [] => .same _
  | .tuple (first :: rest) => .tuple (replaceAll_alike each (first :: rest))
  | .array element => .array (replace_alike each element)
  | .ref mutable _ => .ref mutable _ _
  | .generic name => each name
  | .function _ _ => .free (fun ⟨_, _, leads⟩ => by
    rcases ReflTransGen.cases_head leads with same | ⟨_, member, -⟩
    · cases same
    · cases member) _
  | .unit | .bool | .int _ | .float _ | .string | .var _ _ | .invalid => .same _

theorem replaceAll_alike {arg other : String → Ty} (each : ∀ name, decls.Alike (arg name) (other name)) :
    ∀ types : List Ty, List.Forall₂ decls.Alike (Ty.replaceAll arg .var types) (Ty.replaceAll other .var types)
  | [] => .nil
  | t :: rest => .cons (replace_alike each t) (replaceAll_alike each rest)

end

theorem instantiate_alike {args others : List Ty} (each : List.Forall₂ decls.Alike args others)
    (params : List String) (t : Ty) : decls.Alike (t.instantiate params args) (t.instantiate params others) := by
  refine replace_alike (fun name => ?_) t
  have related : Option.Rel decls.Alike (Ty.argument? name params args) (Ty.argument? name params others) :=
    argument?_alike each params
  generalize Ty.argument? name params args = one, Ty.argument? name params others = two at related ⊢
  cases related with
  | some alike => exact alike
  | none => exact .same _

/-- A reference in the first one is in the other one, the same number of steps away. -/
theorem Alike.refAt (alike : decls.Alike t u) (found : decls.RefAt steps t) : decls.RefAt steps u := by
  induction steps generalizing t u with
  | zero =>
    cases alike with
    | same => exact found
    | free none => exact absurd (carriesReference_iff.mpr ⟨0, found⟩) none
    | ref => rfl
    | _ => cases found
  | succ steps ih =>
    have applied {params : List String} {shapes args others : List Ty}
        (each : List.Forall₂ decls.Alike args others)
        (found : ∃ v ∈ shapes.map (Ty.instantiate params args), decls.RefAt steps v) :
        ∃ v ∈ shapes.map (Ty.instantiate params others), decls.RefAt steps v := by
      obtain ⟨_, member, found⟩ := found
      obtain ⟨shape, inside, rfl⟩ := List.mem_map.mp member
      exact ⟨_, List.mem_map_of_mem inside, ih (instantiate_alike each params shape) found⟩
    cases alike with
    | same => exact found
    | free none => exact absurd (carriesReference_iff.mpr ⟨steps + 1, found⟩) none
    | @struct name args others each =>
      obtain ⟨params, shapes, uniform⟩ := components_struct decls name
      simp only [RefAt, held, uniform] at found ⊢
      exact applied each found
    | @enum name args others each =>
      obtain ⟨params, shapes, uniform⟩ := components_enum decls name
      simp only [RefAt, held, uniform] at found ⊢
      exact applied each found
    | tuple each =>
      obtain ⟨v, member, found⟩ := found
      obtain ⟨i, inside, rfl⟩ := List.getElem_of_mem member
      have lengths := each.length_eq
      exact ⟨_, List.getElem_mem (lengths ▸ inside), ih (each.get inside (lengths ▸ inside)) found⟩
    | array elements =>
      obtain ⟨v, member, found⟩ := found
      obtain rfl := List.mem_singleton.mp member
      exact ⟨_, List.mem_singleton.mpr rfl, ih elements found⟩
    | ref => obtain ⟨v, member, -⟩ := found; cases member

/-- The applications of a declaration that a type leads to differ only in parts that lead to no reference. -/
def Steady (decls : Decls) (root : Ty) : Prop :=
  ∀ ⦃t u : Ty⦄ ⦃name : String⦄, decls.Leads root t → decls.Leads root u → t.declaration? = some name →
    u.declaration? = some name → decls.Alike t u

/-! ### What the search finds -/

/-- What is entered is searched soundly. -/
def FindsOnly (decls : Decls) (enter : List String → List Ty → Bool × List String) : Prop :=
  ∀ seen types, (enter seen types).1 = true → ∃ t ∈ types, decls.CarriesReference t

variable {enter : List String → List Ty → Bool × List String}

mutual

theorem seek_sound (entered : decls.FindsOnly enter) : ∀ (t : Ty) (seen : List String),
    (seek decls enter seen t).1 = true → decls.CarriesReference t
  | .ref mutable target, _, _ => ⟨mutable, target, .refl⟩
  | .tuple elements, seen, found => by
    obtain ⟨t, member, carries⟩ := seekAll_sound entered elements seen (by simpa only [seek] using found)
    exact carriesReference_of_held member carries
  | .array element, seen, found =>
    carriesReference_of_held (List.mem_singleton.mpr rfl)
      (seek_sound entered element seen (by simpa only [seek] using found))
  | .struct name args, seen, found => by
    by_cases known : seen.contains name = true
    · simp only [seek, known] at found
      cases found
    · simp only [seek, if_neg known] at found
      obtain ⟨t, member, carries⟩ := entered _ _ found
      exact carriesReference_of_held member carries
  | .enum name args, seen, found => by
    by_cases known : seen.contains name = true
    · simp only [seek, known] at found
      cases found
    · simp only [seek, if_neg known] at found
      obtain ⟨t, member, carries⟩ := entered _ _ found
      exact carriesReference_of_held member carries
  | .unit, _, found | .bool, _, found | .int _, _, found | .float _, _, found | .string, _, found
  | .generic _, _, found | .function _ _, _, found | .var _ _, _, found | .invalid, _, found => by
    simp only [seek] at found
    cases found

theorem seekAll_sound (entered : decls.FindsOnly enter) : ∀ (types : List Ty) (seen : List String),
    (seekAll decls enter seen types).1 = true → ∃ t ∈ types, decls.CarriesReference t
  | [], _, found => by
    simp only [seekAll] at found
    cases found
  | t :: rest, seen, found => by
    rw [seekAll] at found
    split at found
    next later hit => exact ⟨t, List.mem_cons_self, seek_sound entered t seen (by rw [hit])⟩
    next later _ =>
      obtain ⟨u, member, carries⟩ := seekAll_sound entered rest later found
      exact ⟨u, List.mem_cons_of_mem _ member, carries⟩

end

theorem seekWithin_sound (found : (seekWithin decls depth seen types).1 = true) :
    ∃ t ∈ types, decls.CarriesReference t := by
  induction depth generalizing seen types with
  | zero => cases found
  | succ depth ih => exact seekAll_sound (fun _ _ => ih) types seen found

/-! ### What the search leaves out -/

mutual

/-- No reference is in a type but behind declarations that have been entered. -/
def Settled (seen : List String) : Ty → Prop
  | .ref .. => False
  | .tuple elements => SettledAll seen elements
  | .array element => Settled seen element
  | .struct name _ => name ∈ seen
  | .enum name _ => name ∈ seen
  | _ => True

def SettledAll (seen : List String) : List Ty → Prop
  | [] => True
  | t :: rest => Settled seen t ∧ SettledAll seen rest

end

theorem settledAll_iff : SettledAll seen types ↔ ∀ t ∈ types, Settled seen t := by
  induction types with
  | nil => simp [SettledAll]
  | cons t rest ih => simp [SettledAll, ih]

mutual

theorem settled_mono (more : seen ⊆ after) : ∀ t : Ty, Settled seen t → Settled after t
  | .ref .., settled => settled
  | .tuple elements, settled => settledAll_mono more elements settled
  | .array element, settled => settled_mono more element settled
  | .struct .., settled => more settled
  | .enum .., settled => more settled
  | .unit, _ | .bool, _ | .int _, _ | .float _, _ | .string, _ | .generic _, _ | .function _ _, _ | .var _ _, _
  | .invalid, _ => trivial

theorem settledAll_mono (more : seen ⊆ after) :
    ∀ types : List Ty, SettledAll seen types → SettledAll after types
  | [], _ => trivial
  | t :: rest, settled => ⟨settled_mono more t settled.1, settledAll_mono more rest settled.2⟩

end

theorem settled_of_applies (applies : t.declaration? = some name) : Settled seen t ↔ name ∈ seen := by
  cases t <;> cases applies <;> rfl

/-- The declared names that have not been entered. -/
def unseen (decls : Decls) (seen : List String) : Finset String :=
  (decls.structs.map StructDef.name ++ decls.enums.map EnumDef.name).toFinset.filter (· ∉ seen)

theorem card_unseen_le : (decls.unseen seen).card ≤ decls.structs.length + decls.enums.length :=
  calc (decls.unseen seen).card
    _ ≤ (decls.structs.map StructDef.name ++ decls.enums.map EnumDef.name).toFinset.card :=
      Finset.card_filter_le _ _
    _ ≤ (decls.structs.map StructDef.name ++ decls.enums.map EnumDef.name).length := List.toFinset_card_le _
    _ = decls.structs.length + decls.enums.length := by simp

theorem card_unseen_mono (more : seen ⊆ after) : (decls.unseen after).card ≤ (decls.unseen seen).card := by
  refine Finset.card_le_card fun name member => ?_
  obtain ⟨declared, fresh⟩ := Finset.mem_filter.mp member
  exact Finset.mem_filter.mpr ⟨declared, mt (@more name) fresh⟩

/-- Entering a declaration that holds something leaves one fewer. -/
theorem card_unseen_lt (applies : t.declaration? = some name) (holds : decls.components t ≠ [])
    (fresh : name ∉ seen) : (decls.unseen (name :: seen)).card < (decls.unseen seen).card := by
  have declared : name ∈ decls.structs.map StructDef.name ++ decls.enums.map EnumDef.name := by
    cases t with
    | struct other args =>
      cases applies
      cases found : decls.struct? name with
      | none => exact absurd (by simp [components, fields, found]) holds
      | some d =>
        have named : d.name = name := by simpa using List.find?_some found
        exact List.mem_append_left _ (named ▸ List.mem_map_of_mem (List.mem_of_find?_eq_some found))
    | enum other args =>
      cases applies
      cases found : decls.enum? name with
      | none => exact absurd (by simp [components, found]) holds
      | some d =>
        have named : d.name = name := by simpa using List.find?_some found
        exact List.mem_append_right _ (named ▸ List.mem_map_of_mem (List.mem_of_find?_eq_some found))
    | _ => cases applies
  refine Finset.card_lt_card (Finset.ssubset_iff_of_subset ?_ |>.mpr ⟨name, ?_, ?_⟩)
  · intro other member
    obtain ⟨inside, unentered⟩ := Finset.mem_filter.mp member
    exact Finset.mem_filter.mpr ⟨inside, mt (List.mem_cons_of_mem name) unentered⟩
  · exact Finset.mem_filter.mpr ⟨List.mem_toFinset.mpr declared, fresh⟩
  · exact fun member => (Finset.mem_filter.mp member).2 List.mem_cons_self

/-- What a search that finds nothing has gone through: the types it was given, and what the declarations hold
that it has entered. -/
structure Explored (decls : Decls) (root : Ty) (seen : List String) (types : List Ty) (after : List String) :
    Prop where
  grows : seen ⊆ after
  settled : ∀ t ∈ types, Settled after t
  opened : ∀ name ∈ after, name ∉ seen → ∃ t, t.declaration? = some name ∧ decls.Leads root t ∧
    ∀ u ∈ decls.components t, Settled after u

namespace Explored

theorem nil : Explored decls root seen [] seen :=
  ⟨List.Subset.refl _, by simp, fun _ member fresh => absurd member fresh⟩

theorem single (settled : Settled seen t) : Explored decls root seen [t] seen :=
  ⟨List.Subset.refl _, by simpa using settled, fun _ member fresh => absurd member fresh⟩

theorem append {first rest : List Ty} (before : Explored decls root seen first middle)
    (later : Explored decls root middle rest after) : Explored decls root seen (first ++ rest) after := by
  refine ⟨fun _ member => later.grows (before.grows member), fun t member => ?_, fun name member fresh => ?_⟩
  · rcases List.mem_append.mp member with inFirst | inRest
    · exact settled_mono later.grows t (before.settled t inFirst)
    · exact later.settled t inRest
  · by_cases early : name ∈ middle
    · obtain ⟨t, applies, leads, settled⟩ := before.opened name early fresh
      exact ⟨t, applies, leads, fun u inside => settled_mono later.grows u (settled u inside)⟩
    · exact later.opened name member early

theorem entering (applies : t.declaration? = some name) (leads : decls.Leads root t)
    (inner : Explored decls root (name :: seen) (decls.components t) after) :
    Explored decls root seen [t] after := by
  refine ⟨fun _ member => inner.grows (List.mem_cons_of_mem _ member), ?_, fun other member fresh => ?_⟩
  · simpa [settled_of_applies applies] using inner.grows List.mem_cons_self
  · by_cases same : other = name
    · exact ⟨t, same ▸ applies, leads, inner.settled⟩
    · exact inner.opened other member (by simp [same, fresh])

end Explored

/-- What is entered is gone through if fewer declarations than there is room for are left. -/
def Explores (decls : Decls) (root : Ty) (room : Nat) (enter : List String → List Ty → Bool × List String) :
    Prop :=
  ∀ seen types after, (types = [] ∨ (decls.unseen seen).card < room) → (∀ t ∈ types, decls.Leads root t) →
    enter seen types = (false, after) → Explored decls root seen types after

variable {room : Nat}

theorem apply_explored (entered : decls.Explores root room enter) (applies : t.declaration? = some name)
    (enough : (decls.unseen seen).card ≤ room) (leads : decls.Leads root t)
    (missed : (if seen.contains name then (false, seen) else enter (name :: seen) (decls.components t)) =
      (false, after)) : Explored decls root seen [t] after := by
  split at missed
  next known =>
    cases missed
    exact .single ((settled_of_applies applies).mpr (List.contains_iff_mem.mp known))
  next fresh =>
    have inside : ∀ u ∈ decls.components t, decls.Leads root u := fun u member =>
      leads.tail (held_of_applies applies ▸ member)
    refine .entering applies leads (entered _ _ _ ?_ inside missed)
    by_cases empty : decls.components t = []
    · exact .inl empty
    · exact .inr ((card_unseen_lt applies empty (by simpa using fresh)).trans_le enough)

mutual

theorem seek_explored (entered : decls.Explores root room enter) : ∀ (t : Ty) (seen after : List String),
    (decls.unseen seen).card ≤ room → decls.Leads root t → seek decls enter seen t = (false, after) →
    Explored decls root seen [t] after
  | .ref .., _, _, _, _, missed => by
    simp only [seek] at missed
    cases missed
  | .tuple elements, seen, after, enough, leads, missed => by
    have inner := seekAll_explored entered elements seen after enough (fun u member => leads.tail member)
      (by simpa only [seek] using missed)
    exact ⟨inner.grows, by simpa [Settled, settledAll_iff] using inner.settled, inner.opened⟩
  | .array element, seen, after, enough, leads, missed => by
    have inner := seek_explored entered element seen after enough (leads.tail (List.mem_singleton.mpr rfl))
      (by simpa only [seek] using missed)
    exact ⟨inner.grows, by simpa [Settled] using inner.settled, inner.opened⟩
  | .struct name args, seen, after, enough, leads, missed =>
    apply_explored entered (t := .struct name args) rfl enough leads
      (by simpa only [seek] using missed)
  | .enum name args, seen, after, enough, leads, missed =>
    apply_explored entered (t := .enum name args) rfl enough leads
      (by simpa only [seek] using missed)
  | .unit, _, _, _, _, missed | .bool, _, _, _, _, missed | .int _, _, _, _, _, missed
  | .float _, _, _, _, _, missed | .string, _, _, _, _, missed | .generic _, _, _, _, _, missed
  | .function _ _, _, _, _, _, missed | .var _ _, _, _, _, _, missed | .invalid, _, _, _, _, missed => by
    simp only [seek] at missed
    cases missed
    exact .single trivial

theorem seekAll_explored (entered : decls.Explores root room enter) : ∀ (types : List Ty)
    (seen after : List String), (decls.unseen seen).card ≤ room → (∀ t ∈ types, decls.Leads root t) →
    seekAll decls enter seen types = (false, after) → Explored decls root seen types after
  | [], _, _, _, _, missed => by
    simp only [seekAll] at missed
    cases missed
    exact .nil
  | t :: rest, seen, after, enough, leads, missed => by
    rw [seekAll] at missed
    split at missed
    next => cases missed
    next middle first =>
      have before := seek_explored entered t seen middle enough (leads t List.mem_cons_self) first
      have stillEnough := (card_unseen_mono before.grows).trans enough
      exact before.append (seekAll_explored entered rest middle after stillEnough
        (fun u member => leads u (List.mem_cons_of_mem t member)) missed)

end

theorem seekWithin_explored (enough : types = [] ∨ (decls.unseen seen).card < depth)
    (leads : ∀ t ∈ types, decls.Leads root t) (missed : seekWithin decls depth seen types = (false, after)) :
    Explored decls root seen types after := by
  induction depth generalizing seen types after with
  | zero =>
    obtain rfl := enough.resolve_right (Nat.not_lt_zero _)
    cases missed
    exact .nil
  | succ depth ih =>
    rcases enough with rfl | enough
    · simp only [seekWithin, seekAll] at missed
      cases missed
      exact .nil
    · exact seekAll_explored (fun _ _ _ room leads missed => ih room leads missed) types seen after
        (Nat.lt_succ_iff.mp enough) leads missed

/-- Nothing that the search has gone through is a number of steps from a reference: a shorter way would start at
a declaration's first application. -/
theorem Explored.free (explored : Explored decls root [] [root] after) (steady : decls.Steady root)
    (leads : decls.Leads root t) (settled : Settled after t) : ¬decls.RefAt steps t := by
  intro found
  induction steps generalizing t with
  | zero =>
    cases t <;> cases found
    exact settled
  | succ steps ih =>
    have applied {name : String} (applies : t.declaration? = some name) : False := by
      have entered := (settled_of_applies applies).mp settled
      obtain ⟨first, same, reached, opened⟩ := explored.opened name entered (by simp)
      obtain ⟨u, member, found⟩ := (steady leads reached applies same).refAt found
      exact ih (reached.tail member) (opened u (held_of_applies same ▸ member)) found
    obtain ⟨u, member, nearer⟩ := id found
    cases t with
    | tuple elements => exact ih (leads.tail member) (settledAll_iff.mp settled u member) nearer
    | array element =>
      obtain rfl := List.mem_singleton.mp member
      exact ih (leads.tail member) settled nearer
    | struct name args => exact applied rfl
    | enum name args => exact applied rfl
    | _ => cases member

/-- The search is right about every reference that it finds, and it finds one in each type that leads to one, as
long as the applications of a declaration differ only in parts that lead to none. -/
theorem containsReference_exact (decls : Decls) (t : Ty) :
    (decls.containsReference t = true → decls.CarriesReference t) ∧
      (decls.Steady t → (decls.containsReference t = true ↔ decls.CarriesReference t)) := by
  have sound : decls.containsReference t = true → decls.CarriesReference t := by
    intro found
    obtain ⟨u, member, carries⟩ := seekWithin_sound found
    exact List.mem_singleton.mp member ▸ carries
  refine ⟨sound, fun steady => ⟨sound, fun carries => ?_⟩⟩
  obtain ⟨steps, found⟩ := carriesReference_iff.mp carries
  by_contra missed
  have explored : Explored decls t [] [t] (seekWithin decls _ [] [t]).2 :=
    seekWithin_explored (.inr (Nat.lt_succ_of_le card_unseen_le)) (by simp [Leads, ReflTransGen.refl])
      (Prod.ext (Bool.eq_false_iff.mpr missed) rfl)
  exact explored.free steady .refl (explored.settled t List.mem_cons_self) found

/-- A declaration that holds itself, with twice its argument. -/
def towers : Decls where
  structs := [⟨"Tower", ["T"], [⟨"next", .struct "Tower" [.tuple [.generic "T", .generic "T"]]⟩,
    ⟨"value", .generic "T"⟩, ⟨"label", .ref false .string⟩]⟩]

/-- The arguments of a tower. -/
inductive Storey : Ty → Prop
  | int (type : IntType) : Storey (.int type)
  | pair {t : Ty} (storey : Storey t) : Storey (.tuple [t, t])

theorem Storey.free (storey : Storey t) : ¬decls.RefAt steps t := by
  induction storey generalizing steps with
  | int => cases steps <;> rintro ⟨-, ⟨⟩, -⟩
  | pair _ ih =>
    cases steps with
    | zero => rintro ⟨⟩
    | succ steps =>
      rintro ⟨u, member, found⟩
      obtain rfl : u = _ := by simpa [held] using member
      exact ih found

/-- What a tower leads to. -/
inductive InTower : Ty → Prop
  | tower {t : Ty} (storey : Storey t) : InTower (.struct "Tower" [t])
  | storey {t : Ty} (storey : Storey t) : InTower t
  | label : InTower (.ref false .string)

theorem inTower_of_leads (start : InTower root) (leads : towers.Leads root t) : InTower t := by
  induction leads with
  | refl => exact start
  | tail _ member ih =>
    cases ih with
    | @tower a storey =>
      have holds : towers.held (.struct "Tower" [a]) =
          [.struct "Tower" [.tuple [a, a]], a, .ref false .string] := rfl
      simp only [holds, List.mem_cons, List.not_mem_nil, or_false] at member
      rcases member with rfl | rfl | rfl
      · exact .tower storey.pair
      · exact .storey storey
      · exact .label
    | storey storey =>
      cases storey with
      | int => cases member
      | pair storey => exact .storey ((by simpa [held] using member : _ = _) ▸ storey)
    | label => cases member

theorem towers_steady (storey : Storey t) : towers.Steady (.struct "Tower" [t]) := by
  have applied {u : Ty} {name : String} (leads : towers.Leads (.struct "Tower" [t]) u)
      (applies : u.declaration? = some name) :
      ∃ a, Storey a ∧ u = .struct "Tower" [a] := by
    cases inTower_of_leads (.tower storey) leads with
    | tower storey => exact ⟨_, storey, rfl⟩
    | storey storey => cases storey <;> cases applies
    | label => cases applies
  intro one other name leads others applies same
  obtain ⟨a, storey, rfl⟩ := applied leads applies
  obtain ⟨b, -, rfl⟩ := applied others same
  have free : ¬towers.CarriesReference a := fun carries =>
    have ⟨_, found⟩ := carriesReference_iff.mp carries
    storey.free found
  exact .struct (.cons (.free free b) .nil)

theorem containsReference_exact_towers : towers.Steady (.struct "Tower" [.int .i32]) ∧
    towers.containsReference (.struct "Tower" [.int .i32]) = true ∧
    towers.CarriesReference (.struct "Tower" [.int .i32]) := by
  have steady := towers_steady (.int .i32)
  have found : towers.containsReference (.struct "Tower" [.int .i32]) = true := by decide +kernel
  exact ⟨steady, found, ((containsReference_exact towers _).2 steady).mp found⟩

/-- A declaration that holds its argument. -/
def boxes : Decls where
  structs := [⟨"Box", ["T"], [⟨"value", .generic "T"⟩]⟩]

/-- A reference in the second application of a declaration is overlooked. -/
theorem containsReference_overlooks : ∃ t : Ty, t.hasVars = false ∧ boxes.CarriesReference t ∧
    boxes.containsReference t = false := by
  refine ⟨.tuple [.struct "Box" [.int .i32], .struct "Box" [.ref false (.int .i32)]], by decide +kernel, ?_,
    by decide +kernel⟩
  refine carriesReference_iff.mpr ⟨2, .struct "Box" [.ref false (.int .i32)], by simp [held], ?_⟩
  exact ⟨.ref false (.int .i32), List.mem_singleton.mpr rfl, rfl⟩

end Decls

end TreeCheck
