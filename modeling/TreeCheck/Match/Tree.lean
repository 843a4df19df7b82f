import TreeCheck.Match.Witness

/-!
Decision trees. A switch tests a part of the value, a leaf selects an arm, and a failure is reached
by the values that no arm matches. The first row decides: if it tests nothing it is selected,
otherwise the first column that it tests is switched on.
-/

namespace TreeCheck.Match

mutual

inductive Tree where
  /-- A value that passes none of the tests goes on with `otherwise`. -/
  | switch (path : Path) (type : Ty) (cases : List Case) (otherwise : Option Tree)
  /-- A guarded arm goes on with `next` when its guard says no. -/
  | leaf (arm : Nat) (bindings : List Extraction) (next : Option Tree)
  | fail (witnesses : List Pattern)

inductive Case where
  | mk (test : Test) (tree : Tree)

end

instance : Inhabited Tree := ⟨.fail []⟩

namespace Tree

mutual

def failures : Tree → List (List Pattern)
  | .switch _ _ cases otherwise => failuresAll cases ++ failuresOption otherwise
  | .leaf _ _ next => failuresOption next
  | .fail witnesses => [witnesses]

def failuresAll : List Case → List (List Pattern)
  | [] => []
  | .mk _ tree :: rest => tree.failures ++ failuresAll rest

def failuresOption : Option Tree → List (List Pattern)
  | none => []
  | some tree => tree.failures

end

mutual

/-- The arms that the leaves select, from left to right. -/
def arms : Tree → List Nat
  | .switch _ _ cases otherwise => armsAll cases ++ armsOption otherwise
  | .leaf arm _ next => arm :: armsOption next
  | .fail _ => []

def armsAll : List Case → List Nat
  | [] => []
  | .mk _ tree :: rest => tree.arms ++ armsAll rest

def armsOption : Option Tree → List Nat
  | none => []
  | some tree => tree.arms

end

end Tree

/-- The declarations and options that a compilation goes by. -/
structure Context where
  decls : Decls
  options : Options := {}

namespace Context

/-- Spreads alternatives and takes products apart until each shape tests something or nothing at
all. The fuel bounds the number of products. -/
def normalizeWithin (ctx : Context) : Nat → Matrix → List Frame →
    Except Failure (Matrix × List Frame)
  | 0, _, _ => .error (.crash "endless product")
  | fuel + 1, m, frames => do
    let m := m.spread
    match m.productColumn? with
    | none => return (m, frames)
    | some i =>
      let col ← m.column? i
      let (m, arity) ← m.expand ctx.decls i
      ctx.normalizeWithin fuel m (⟨i, arity, .product col.type⟩ :: frames)

/-- Taking a product apart makes a matrix lighter. -/
def normalize (ctx : Context) (m : Matrix) (frames : List Frame) :
    Except Failure (Matrix × List Frame) :=
  ctx.normalizeWithin (m.weight + 1) m frames

def treeWithin (ctx : Context) : Nat → Matrix → List Frame → Except Failure Tree
  | 0, _, _ => .error (.crash "endless tree")
  | fuel + 1, m, frames => do
    let (m, frames) ← ctx.normalize m frames
    match m.rows with
    | [] => return .fail (← Frame.witnesses ctx.decls frames m.cols.length)
    | first :: rest =>
      match first.tested? with
      | none =>
        let next ← if first.guarded then
            some <$> ctx.treeWithin fuel { m with rows := rest } frames
          else pure none
        return .leaf first.arm (first.bindings m.cols) next
      | some i =>
        let col ← m.column? i
        let (tests, missing) ← m.family ctx.decls ctx.options i
        let cases ← tests.mapM fun test => do
          let sub ← m.specialize ctx.decls i test
          let frame := ⟨i, test.arity, .test col.type test⟩
          return Case.mk test (← ctx.treeWithin fuel sub (frame :: frames))
        let otherwise ← if missing.isEmpty then pure none
          else do
            let sub ← m.without i
            some <$> ctx.treeWithin fuel sub (⟨i, 0, .missing missing⟩ :: frames)
        return .switch col.path col.type cases otherwise

/-- Every step down a tree makes the matrix lighter. -/
def tree (ctx : Context) (m : Matrix) : Except Failure Tree := ctx.treeWithin (m.weight + 1) m []

end Context

end TreeCheck.Match
