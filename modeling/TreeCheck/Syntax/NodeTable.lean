/-!
Tables keyed by the numbers of nodes.
-/

namespace TreeCheck

/-- Facts about nodes, the latest first. A later fact about a node replaces an earlier one. -/
abbrev NodeTable (α : Type) : Type := List (Nat × α)

namespace NodeTable

variable {α β : Type}

def insert (table : NodeTable α) (id : Nat) (value : α) : NodeTable α := (id, value) :: table

def get? (table : NodeTable α) (id : Nat) : Option α :=
  (List.find? (fun entry => entry.1 == id) table).map Prod.snd

/-- Of several entries for a node in a row keeps the first. -/
def distinct : List (Nat × α) → List (Nat × α)
  | [] => []
  | entry :: rest =>
    entry :: match distinct rest with
      | next :: more => if next.1 == entry.1 then more else next :: more
      | [] => []

def entries (table : NodeTable α) : List (Nat × α) :=
  distinct (List.mergeSort table fun a b => a.1 ≤ b.1)

def map (table : NodeTable α) (f : α → β) : NodeTable β :=
  List.map (fun entry => (entry.1, f entry.2)) table

end NodeTable

end TreeCheck
