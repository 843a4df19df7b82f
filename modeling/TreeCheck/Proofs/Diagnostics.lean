import Mathlib.Data.List.Nodup
import TreeCheck.Diagnostic

/-!
Bags of diagnostics. What was put into one stays there, and nothing is there twice.
-/

namespace TreeCheck

@[simp] theorem Diagnostic.withLabel_kind (d : Diagnostic) (span : Span) (message : String) :
    (d.withLabel span message).kind = d.kind := by
  unfold withLabel
  split <;> rfl

/-- Remarks do not tell diagnostics apart. -/
@[simp] theorem Diagnostic.withLabel_key (d : Diagnostic) (span : Span) (message : String) :
    (d.withLabel span message).key = d.key := by
  unfold withLabel
  split <;> rfl

namespace Bag

variable {bag more most : Bag}

theorem add_ne_nil (bag : Bag) (d : Diagnostic) : (bag.add d).contents ≠ [] := by
  unfold add
  split
  next held =>
    rintro empty
    simp [holds, empty] at held
  · simp

theorem addAll_eq_nil {ds : List Diagnostic} :
    (bag.addAll ds).contents = [] ↔ bag.contents = [] ∧ ds = [] := by
  induction ds generalizing bag with
  | nil => simp [addAll]
  | cons d ds ih =>
    have later : bag.addAll (d :: ds) = (bag.add d).addAll ds := rfl
    simp [later, ih, add_ne_nil]

theorem items_perm (bag : Bag) : bag.items.Perm bag.contents := List.mergeSort_perm _ _

theorem items_eq_nil : bag.items = [] ↔ bag.contents = [] :=
  ⟨fun empty => List.perm_nil.mp (empty ▸ bag.items_perm.symm), fun empty => List.perm_nil.mp (empty ▸ bag.items_perm)⟩

/-! ### Keys -/

def keys (bag : Bag) : List String := bag.contents.map Diagnostic.key

theorem keys_add (bag : Bag) (d : Diagnostic) :
    (bag.add d).keys = if d.key ∈ bag.keys then bag.keys else bag.keys ++ [d.key] := by
  have held : bag.holds d = true ↔ d.key ∈ bag.keys := by simp [holds, keys]
  unfold add
  simp only [held]
  split
  · rfl
  · simp [keys]

def Grows (bag more : Bag) : Prop := ∃ ds, more = bag.addAll ds

namespace Grows

theorem refl (bag : Bag) : bag.Grows bag := ⟨[], rfl⟩

theorem add (bag : Bag) (d : Diagnostic) : bag.Grows (bag.add d) := ⟨[d], rfl⟩

theorem trans (first : bag.Grows more) (rest : more.Grows most) : bag.Grows most := by
  obtain ⟨ds, rfl⟩ := first
  obtain ⟨es, rfl⟩ := rest
  exact ⟨ds ++ es, (List.foldl_append ..).symm⟩

/-- What every further diagnostic keeps is kept. -/
theorem keeps {P : Bag → Prop} (grows : bag.Grows more) (start : P bag)
    (each : ∀ bag : Bag, ∀ d, P bag → P (bag.add d)) : P more := by
  obtain ⟨ds, rfl⟩ := grows
  exact List.foldlRecOn (motive := P) ds Bag.add start fun bag known d _ => each bag d known

theorem subset (grows : bag.Grows more) : bag.keys ⊆ more.keys := by
  refine grows.keeps (P := fun later => bag.keys ⊆ later.keys) (List.Subset.refl _) fun held d inside => ?_
  rw [keys_add]
  split
  · exact inside
  · exact List.subset_append_of_subset_left _ inside

theorem nodup (grows : bag.Grows more) (apart : bag.keys.Nodup) : more.keys.Nodup := by
  refine grows.keeps (P := fun later => later.keys.Nodup) apart fun held d known => ?_
  rw [keys_add]
  split
  · exact known
  next free =>
    refine List.nodup_append.mpr ⟨known, List.nodup_singleton _, fun key inside other own same => free ?_⟩
    rwa [← List.mem_singleton.mp own, ← same]

theorem quiet (grows : bag.Grows more) (empty : more.contents = []) : bag.contents = [] := by
  obtain ⟨ds, rfl⟩ := grows
  exact (addAll_eq_nil.mp empty).1

end Grows

theorem addAll_append (bag : Bag) (ds es : List Diagnostic) : (bag.addAll ds).addAll es = bag.addAll (ds ++ es) :=
  (List.foldl_append ..).symm

theorem mem_keys_addAll {ds : List Diagnostic} {key : String} :
    key ∈ (bag.addAll ds).keys ↔ key ∈ bag.keys ∨ key ∈ ds.map Diagnostic.key := by
  induction ds generalizing bag with
  | nil => simp [addAll]
  | cons d ds ih =>
    have later : bag.addAll (d :: ds) = (bag.add d).addAll ds := rfl
    rw [later, ih, keys_add, List.map_cons, List.mem_cons]
    split
    next held =>
      have known : key = d.key → key ∈ bag.keys := fun same => same ▸ held
      grind
    next => rw [List.mem_append, List.mem_singleton, or_assoc]

theorem mem_of_addAll {ds : List Diagnostic} {d : Diagnostic} (member : d ∈ (bag.addAll ds).contents) :
    d ∈ bag.contents ∨ d ∈ ds := by
  induction ds generalizing bag with
  | nil => exact .inl member
  | cons e ds ih =>
    rcases @ih (bag.add e) member with held | later
    · unfold add at held
      split at held
      · exact .inl held
      · rcases List.mem_append.mp held with old | new
        · exact .inl old
        · exact .inr (List.mem_singleton.mp new ▸ List.mem_cons_self)
    · exact .inr (List.mem_cons_of_mem _ later)

theorem count_items {key : String} (apart : bag.keys.Nodup) (held : key ∈ bag.keys) :
    (bag.items.map Diagnostic.key).count key = 1 := by
  rw [(bag.items_perm.map Diagnostic.key).count_eq]
  exact List.count_eq_one_of_mem apart held

end Bag

end TreeCheck
