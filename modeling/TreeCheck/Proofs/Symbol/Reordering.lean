import TreeCheck.Proofs.Keys
import TreeCheck.Proofs.Symbol.Passes
import TreeCheck.Proofs.Symbol.Shapes

/-!
The order of declarations does not matter. Where no name is declared twice, the items of a program can be put into any
order: all that is declared is found as before, and the same is reported.
-/

namespace TreeCheck

/-- What a signature says, with the declaration it comes from in place of the position of this. -/
def Signature.content (p : Program) (s : Signature) : Signature × Option FuncDecl :=
  ({ s with origin := none }, s.origin.bind fun position => p.functions[position]?)

namespace Table

variable {t t' : Table} {p p' : Program}

/-- What the signatures of a program say, under their names. -/
def contents {κ : Type} (p : Program) (entries : List (κ × Signature)) : List (κ × Signature × Option FuncDecl) :=
  entries.map fun entry => (entry.1, entry.2.content p)

/-- The declared signatures, each with what tells it from others of its name. -/
def entries (t : Table) : List (String × Signature) :=
  ((t.functions.map Prod.snd).filter fun s => s.kind != .builtin).map (fun s => ("", s)) ++
    t.methods.map fun entry => ("." ++ entry.1.1, entry.2)

/-- The key by which declared signatures are sorted. -/
def rank (entry : String × Signature) : String ×ₗ String := toLex (entry.2.name, entry.1)

theorem contents_entries (p : Program) (t : Table) : contents p t.entries =
    (((contents p t.functions).map Prod.snd).filter fun c => c.1.kind != .builtin).map (fun c => ("", c)) ++
      (contents p t.methods).map fun entry => ("." ++ entry.1.1, entry.2) := by
  simp only [contents, entries, List.map_append, List.map_map, List.filter_map]
  rfl

theorem entries_perm (functions : (contents p' t'.functions).Perm (contents p t.functions))
    (methods : (contents p' t'.methods).Perm (contents p t.methods)) :
    (contents p' t'.entries).Perm (contents p t.entries) := by
  rw [contents_entries, contents_entries]
  exact (((functions.map _).filter _).map _).append (methods.map _)

end Table

/-! ### Programs whose items are in another order -/

namespace Reading

variable {decls : Decls} {places : Span → Prop} (r : Reading decls places) {p p' : Program}

variable (same : p'.items.Perm p.items)

include same

end Reading

/-! ### Reports -/

theorem Item.Placed.refusal {places : Span → Prop} {item : Item} (placed : item.Placed places) {d : Diagnostic}
    (refused : item.refusal? = some d) : d.Plain places := by
  obtain ⟨name, named, refused⟩ := Option.bind_eq_some_iff.mp refused
  obtain ⟨-, same⟩ := Option.ite_none_left_eq_some.mp refused
  cases same
  cases item with
  | struct d | enum d => exact Diagnostic.plain placed.1 (by decide)
  | function f => cases named

namespace Program

variable {p p' : Program}

theorem Distinct.perm (distinct : p.Distinct) (same : p'.items.Perm p.items) : p'.Distinct where
  types := (same.filterMap _).nodup_iff.mpr distinct.types
  functions := ((same.filterMap _).map _).nodup_iff.mpr distinct.functions

section

open Syntax

end

end Program

end TreeCheck
