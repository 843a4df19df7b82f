import Mathlib.Data.List.Nodup
import TreeCheck.Typing.State

/-!
Facts about nodes. In a table that is keyed by the numbers of nodes the latest fact is found, and listing the entries
keeps it. Facts are noted in the order in which they are found: a later one stands in front of the earlier ones, which
stay.
-/

namespace TreeCheck.NodeTable

variable {α β : Type} {table : NodeTable α} {id : Nat}

theorem get?_isSome_iff : (table.get? id).isSome = true ↔ ∃ entry ∈ table, entry.1 = id := by
  simp [get?]

theorem get?_mem {value : α} (found : table.get? id = some value) : (id, value) ∈ table := by
  obtain ⟨entry, here, rfl⟩ := Option.map_eq_some_iff.mp found
  have same : entry.1 = id := by simpa using List.find?_some here
  exact same ▸ List.mem_of_find?_eq_some here

theorem distinct_subset (table : List (Nat × α)) : distinct table ⊆ table := by
  induction table with
  | nil => exact List.Subset.refl _
  | cons entry rest ih =>
    rw [distinct]
    refine List.cons_subset_cons _ (List.Subset.trans ?_ ih)
    cases distinct rest with
    | nil => exact List.Subset.refl _
    | cons next more =>
      dsimp only
      split
      · exact List.subset_cons_self _ _
      · exact List.Subset.refl _

/-- What is dropped has a number that is kept. -/
theorem distinct_covers (table : List (Nat × α)) : ∀ entry ∈ table, ∃ kept ∈ distinct table, kept.1 = entry.1 := by
  induction table with
  | nil => simp
  | cons first rest ih =>
    intro entry member
    rw [distinct]
    rcases List.mem_cons.mp member with rfl | later
    · exact ⟨entry, List.mem_cons_self, rfl⟩
    · obtain ⟨kept, inside, same⟩ := ih entry later
      cases listed : distinct rest with
      | nil => simp [listed] at inside
      | cons next more =>
        rw [listed] at inside
        dsimp only
        split
        next equal =>
          rcases List.mem_cons.mp inside with rfl | inside
          · exact ⟨first, List.mem_cons_self, (beq_iff_eq.mp equal).symm.trans same⟩
          · exact ⟨kept, List.mem_cons_of_mem _ inside, same⟩
        · exact ⟨kept, List.mem_cons_of_mem _ inside, same⟩

theorem mem_of_mem_entries {entry : Nat × α} (member : entry ∈ table.entries) : entry ∈ table :=
  (List.mergeSort_perm table _).subset (distinct_subset _ member)

/-- A node that has an entry is listed. -/
theorem entries_covers {entry : Nat × α} (member : entry ∈ table) : ∃ kept ∈ table.entries, kept.1 = entry.1 :=
  distinct_covers _ entry ((List.mergeSort_perm table _).mem_iff.mpr member)

/-! ### Tables with one fact about each node -/

/-- The nodes that facts are about. -/
def keys (table : NodeTable α) : List Nat := List.map Prod.fst table

@[simp] theorem keys_nil : keys ([] : NodeTable α) = [] := rfl

@[simp] theorem keys_cons (entry : Nat × α) (table : NodeTable α) : keys (entry :: table) = entry.1 :: keys table := rfl

@[simp] theorem keys_append (late early : NodeTable α) : keys (late ++ early) = keys late ++ keys early :=
  List.map_append

theorem get?_eq_some_iff {value : α} (once : table.keys.Nodup) :
    table.get? id = some value ↔ (id, value) ∈ table := by
  refine ⟨get?_mem, fun member => ?_⟩
  obtain ⟨other, found⟩ := Option.isSome_iff_exists.mp (get?_isSome_iff.mpr ⟨_, member, rfl⟩)
  have same := List.inj_on_of_nodup_map once (get?_mem found) member rfl
  exact found.trans (congrArg (fun entry : Nat × α => some entry.2) same)

/-! ### Tables with other numbers -/

/-- A table of the same facts about nodes with higher numbers. -/
def shift (k : Nat) (table : NodeTable α) : NodeTable α := List.map (fun entry => (entry.1 + k, entry.2)) table

variable {k : Nat}

@[simp] theorem shift_nil : shift k ([] : NodeTable α) = [] := rfl

@[simp] theorem shift_insert (id : Nat) (value : α) :
    (table.insert id value).shift k = (table.shift k).insert (id + k) value := rfl

@[simp] theorem get?_shift (id : Nat) : (table.shift k).get? (id + k) = table.get? id := by
  have same : (fun entry : Nat × α => entry.1 == id + k) ∘ (fun entry : Nat × α => (entry.1 + k, entry.2)) =
      fun entry => entry.1 == id := by
    funext entry
    exact decide_eq_decide.mpr Nat.add_right_cancel_iff
  rw [get?, get?, shift, List.find?_map, same, Option.map_map]
  rfl

end TreeCheck.NodeTable

namespace TreeCheck.Typing

/-- A check that goes through, and what follows it. -/
theorem ran_bind {α β : Type} {first : Check α} {next : α → Check β} {s s' : State} {b : β}
    (ran : (first >>= next) s = .ok (b, s')) :
    ∃ a middle, first s = .ok (a, middle) ∧ next a middle = .ok (b, s') := by
  change Except.bind (first s) (fun (a, s) => next a s) = .ok (b, s') at ran
  cases begun : first s with
  | error failure =>
    rw [begun] at ran
    cases ran
  | ok out =>
    rw [begun] at ran
    exact ⟨out.1, out.2, rfl, ran⟩

namespace Annotations

/-- New facts in front of old ones. -/
def atop (new old : Annotations) : Annotations where
  types := new.types ++ old.types
  coercions := new.coercions ++ old.coercions
  literalTargets := new.literalTargets ++ old.literalTargets
  instantiations := new.instantiations ++ old.instantiations
  calls := new.calls ++ old.calls
  methods := new.methods ++ old.methods
  variants := new.variants ++ old.variants
  structs := new.structs ++ old.structs

variable {a b c : Annotations}

@[simp] theorem empty_atop (a : Annotations) : atop {} a = a := rfl

@[simp] theorem atop_empty (a : Annotations) : atop a {} = a := by simp [atop]

theorem atop_assoc (a b c : Annotations) : (a.atop b).atop c = a.atop (b.atop c) := by simp [atop]

/-- All facts of some notes are among those of others, in front of which nothing is lost. -/
def Extends (old late : Annotations) : Prop := ∃ new : Annotations, late = new.atop old

namespace Extends

theorem refl (a : Annotations) : a.Extends a := ⟨{}, rfl⟩

theorem trans (first : a.Extends b) (second : b.Extends c) : a.Extends c := by
  obtain ⟨new, rfl⟩ := first
  obtain ⟨later, rfl⟩ := second
  exact ⟨later.atop new, (atop_assoc ..).symm⟩

theorem types {entry : Nat × Ty} (later : a.Extends b) (member : entry ∈ a.types) : entry ∈ b.types := by
  obtain ⟨new, rfl⟩ := later
  exact List.mem_append_right _ member

theorem coercions {entry : Nat × Coercion} (later : a.Extends b) (member : entry ∈ a.coercions) :
    entry ∈ b.coercions := by
  obtain ⟨new, rfl⟩ := later
  exact List.mem_append_right _ member

theorem calls {entry : Nat × Signature} (later : a.Extends b) (member : entry ∈ a.calls) : entry ∈ b.calls := by
  obtain ⟨new, rfl⟩ := later
  exact List.mem_append_right _ member

theorem methods {entry : Nat × Signature} (later : a.Extends b) (member : entry ∈ a.methods) :
    entry ∈ b.methods := by
  obtain ⟨new, rfl⟩ := later
  exact List.mem_append_right _ member

theorem variants {entry : Nat × VariantRef} (later : a.Extends b) (member : entry ∈ a.variants) :
    entry ∈ b.variants := by
  obtain ⟨new, rfl⟩ := later
  exact List.mem_append_right _ member

theorem instantiations {entry : Nat × List Ty} (later : a.Extends b) (member : entry ∈ a.instantiations) :
    entry ∈ b.instantiations := by
  obtain ⟨new, rfl⟩ := later
  exact List.mem_append_right _ member

end Extends

/-- Facts that were found at some time. -/
def Holds (a new : Annotations) : Prop := ∃ old, (new.atop old).Extends a

theorem Holds.later {new : Annotations} (held : a.Holds new) (later : a.Extends b) : b.Holds new := by
  obtain ⟨old, early⟩ := held
  exact ⟨old, early.trans later⟩

theorem holds_atop (new old : Annotations) : (new.atop old).Holds new := ⟨old, .refl _⟩

end Annotations

end TreeCheck.Typing
