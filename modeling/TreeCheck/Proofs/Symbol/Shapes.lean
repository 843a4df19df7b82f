import Mathlib
import TreeCheck.Proofs.Symbol.Regular
import TreeCheck.Proofs.Syntax.Documents

/-!
Structs that are found by the names of their fields. They are filed under the sorted names, joined with commas; this
tells two sets of names apart as far as no name has a comma in it and neither is the empty name alone.
-/

namespace TreeCheck

/-- Names that are told apart when they are joined. -/
structure Separable (names : List String) : Prop where
  plain : ∀ name ∈ names, ',' ∉ name.toList
  shown : names ≠ [""]

theorem pairwise_sortedBy {α β : Type} [LinearOrder β] (key : α → β) (list : List α) :
    (list.mergeSort fun a b => key a ≤ key b).Pairwise fun a b => key a ≤ key b := by
  have ordered := List.pairwise_mergeSort' (Order.Preimage key (· ≤ ·)) list
  exact ordered

variable {names other : List String}

/-- What is joined can be split again; without names there is what the empty name alone gives. -/
theorem splitOn_join (plain : ∀ name ∈ names, ',' ∉ name.toList) :
    (",".intercalate names).toList.splitOn ',' = (if names = [] then [""] else names).map String.toList := by
  rw [String.toList_intercalate]
  split
  next none => rw [none]; rfl
  next filled =>
    refine List.splitOn_intercalate ',' (fun letters member => ?_) (by simpa using filled)
    obtain ⟨name, inside, rfl⟩ := List.mem_map.mp member
    exact plain name inside

theorem Separable.join_injective (separable : Separable names) (separable' : Separable other)
    (same : ",".intercalate names = ",".intercalate other) : names = other := by
  have parts := (splitOn_join separable.plain).symm.trans (same ▸ splitOn_join separable'.plain)
  have parts := (List.map_injective_iff.mpr fun _ _ => String.toList_inj.mp) parts
  split at parts
  next none =>
    split at parts
    next none' => rw [none, none']
    next filled => exact absurd parts.symm separable'.shown
  next filled =>
    split at parts
    next none => exact absurd parts separable.shown
    next filled' => exact parts

namespace Table

theorem sortNames_perm (names : List String) : (sortNames names).Perm names := List.mergeSort_perm _ _

theorem sortNames_eq_iff : sortNames names = sortNames other ↔ names.Perm other := by
  have sorted (names : List String) : (sortNames names).Pairwise (· ≤ ·) := List.pairwise_mergeSort' (· ≤ ·) names
  constructor
  · intro same
    exact (sortNames_perm names).symm.trans (same ▸ sortNames_perm other)
  · intro same
    refine List.Perm.eq_of_pairwise (fun _ _ _ _ => le_antisymm) (sorted names) (sorted other) ?_
    exact (sortNames_perm names).trans (same.trans (sortNames_perm other).symm)

theorem shapeKey_congr (same : names.Perm other) : shapeKey names = shapeKey other := by
  rw [shapeKey, shapeKey, sortNames_eq_iff.mpr same]

theorem separable_sortNames (separable : Separable names) : Separable (sortNames names) where
  plain := fun name member => separable.plain name ((sortNames_perm names).mem_iff.mp member)
  shown := fun alone => separable.shown (List.perm_singleton.mp (alone ▸ (sortNames_perm names).symm))

theorem shapeKey_eq_iff (separable : Separable names) (separable' : Separable other) :
    shapeKey names = shapeKey other ↔ names.Perm other := by
  refine ⟨fun same => sortNames_eq_iff.mp ?_, shapeKey_congr⟩
  exact (separable_sortNames separable).join_injective (separable_sortNames separable') same

variable {t : Table}

theorem mem_structsWithFields {d : StructDef} : d ∈ t.structsWithFields names ↔
    d ∈ t.decls.structs ∧ shapeKey (d.fields.map Field.name) = shapeKey names := by
  rw [structsWithFields, List.mem_mergeSort, List.mem_filter, beq_iff_eq]

theorem structsWithFields_sorted (distinct : (t.decls.structs.map StructDef.name).Nodup) (names : List String) :
    (t.structsWithFields names).Pairwise fun a b => a.name < b.name := by
  have sorted : (t.structsWithFields names).Pairwise fun a b => a.name ≤ b.name := pairwise_sortedBy StructDef.name _
  have apart : (t.structsWithFields names).Pairwise fun a b => a.name ≠ b.name := by
    have kept : ((t.structsWithFields names).map StructDef.name).Nodup :=
      ((List.mergeSort_perm _ _).map StructDef.name).nodup_iff.mpr
        (distinct.sublist (List.filter_sublist.map StructDef.name))
    exact List.pairwise_map.mp kept
  exact (sorted.and apart).imp fun both => lt_of_le_of_ne both.1 both.2

end Table

/-- A lookup by field names gives structs of the program, sorted by name and each once. Every struct is found whose
fields have just these names, and no other one if the names and those of its fields can be told apart when they are
joined. -/
theorem structsWithFields_exact (p : Program) (decoded : p.Decoded) (names : List String) (distinct : names.Nodup) :
    (p.collect.1.structsWithFields names).Pairwise (fun a b => a.name < b.name) ∧
      (∀ d ∈ p.collect.1.structsWithFields names, d ∈ p.collect.1.decls.structs) ∧
      ∀ d ∈ p.collect.1.decls.structs,
        ((∀ name, name ∈ d.fields.map Field.name ↔ name ∈ names) → d ∈ p.collect.1.structsWithFields names) ∧
        (Separable names → Separable (d.fields.map Field.name) → d ∈ p.collect.1.structsWithFields names →
          ∀ name, name ∈ d.fields.map Field.name ↔ name ∈ names) := by
  refine ⟨Table.structsWithFields_sorted (List.nodup_append.mp p.collect_distinct.names).1 names,
    fun d found => (Table.mem_structsWithFields.mp found).1, fun d member => ⟨fun same => ?_, ?_⟩⟩
  · have apart := (p.collect_regular decoded).fields d member
    exact Table.mem_structsWithFields.mpr
      ⟨member, Table.shapeKey_congr ((List.perm_ext_iff_of_nodup apart distinct).mpr same)⟩
  · intro separable separable' found name
    exact ((Table.shapeKey_eq_iff separable' separable).mp (Table.mem_structsWithFields.mp found).2).mem_iff

section

open Syntax

/-- A document of structs, given by their names and those of their fields. -/
def structsOf (shapes : List (String × List String)) : Input :=
  documentOf (shapes.map fun entry => mappingNode [("struct", textNode entry.1),
    ("fields", mappingNode (entry.2.map fun name => (name, textNode "bool")))])

def structsProgram (shapes : List (String × List String)) : Program :=
  ⟨"", "t.yaml", shapes.map fun entry =>
    .struct ⟨entry.1, [], entry.2.map fun name => ⟨name, boolean, origin⟩, origin⟩⟩

/-- Two structs with the same fields, declared in different orders, beside another one. -/
theorem structsWithFields_exact_points :
    let p := structsProgram [("Size", ["y", "x"]), ("Named", ["name"]), ("Point", ["x", "y"])]
    p.Decoded ∧ ["y", "x"].Nodup ∧ (p.collect.1.structsWithFields ["y", "x"]).map StructDef.name = ["Point", "Size"] ∧
      ∀ d ∈ p.collect.1.decls.structs, d ∈ p.collect.1.structsWithFields ["y", "x"] ↔
        ∀ name, name ∈ d.fields.map Field.name ↔ name ∈ ["y", "x"] := by
  intro p
  have read : readProgram (structsOf [("Size", ["y", "x"]), ("Named", ["name"]), ("Point", ["x", "y"])]) = .ok p := by
    with_unfolding_all rfl
  have decoded : p.Decoded := ⟨_, _, read, rfl⟩
  have apart : ["y", "x"].Nodup := by decide
  have separable : ∀ names ∈ ["y", "x"] :: p.collect.1.decls.structs.map fun d => d.fields.map Field.name,
      (∀ name ∈ names, ',' ∉ name.toList) ∧ names ≠ [""] := by
    decide +kernel
  obtain ⟨own, others⟩ := List.forall_mem_cons.mp separable
  obtain ⟨-, -, each⟩ := structsWithFields_exact p decoded ["y", "x"] apart
  have structs : p.collect.1.decls.structs = [⟨"Size", [], [⟨"y", .bool⟩, ⟨"x", .bool⟩]⟩,
      ⟨"Named", [], [⟨"name", .bool⟩]⟩, ⟨"Point", [], [⟨"x", .bool⟩, ⟨"y", .bool⟩]⟩] := rfl
  have found : (p.collect.1.structsWithFields ["y", "x"]).map StructDef.name = ["Point", "Size"] := by
    rw [Table.structsWithFields, structs]
    cbv
  refine ⟨decoded, apart, found, fun d member => ⟨fun found => ?_, (each d member).1⟩⟩
  have plain := others _ (List.mem_map_of_mem member)
  exact (each d member).2 ⟨own.1, own.2⟩ ⟨plain.1, plain.2⟩ found

/-- A field whose name has a comma in it is taken for two. -/
theorem structsWithFields_joined : ∃ p : Program, p.Decoded ∧ p.collect.2 = [] ∧ ∃ names, names.Nodup ∧
    ∃ d ∈ p.collect.1.structsWithFields names, ¬∀ name, name ∈ d.fields.map Field.name ↔ name ∈ names := by
  let p := structsProgram [("Pair", ["x,y"])]
  have read : readProgram (structsOf [("Pair", ["x,y"])]) = .ok p := by with_unfolding_all rfl
  have collected : p.collect.2 = [] := List.eq_nil_of_length_eq_zero (by decide +kernel)
  refine ⟨p, ⟨_, _, read, rfl⟩, collected, ["x", "y"], by decide, ⟨"Pair", [], [⟨"x,y", .bool⟩]⟩, ?_, fun same => ?_⟩
  · exact Table.mem_structsWithFields.mpr ⟨List.mem_cons_self, by cbv⟩
  · exact absurd ((same "x").mpr (by decide)) (by decide)

end

end TreeCheck
