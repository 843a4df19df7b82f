import TreeCheck.Defect
import TreeCheck.Ty.Basic

/-!
Unification. An engine hands out type variables and binds them; a binding is never changed. Types
are compared up to the bindings, and what is missing is bound on the way.
-/

namespace TreeCheck

/-- Bindings of type variables, the latest first. -/
abbrev Subst : Type := List (Nat × Ty)

namespace Subst

def lookup? (s : Subst) (id : Nat) : Option Ty :=
  (List.find? (fun entry => entry.1 == id) s).map Prod.snd

/-- Replaces bound variables, following at most the given number of bindings in a row. -/
def applyWithin (s : Subst) : Nat → Ty → Ty
  | 0, t => t
  | count + 1, t => t.replace .generic fun id literal =>
    match s.lookup? id with
    | some bound => applyWithin s count bound
    | none => .var id literal

/-- Replaces every bound variable. No chain of bindings is longer than their number. -/
def apply (s : Subst) (t : Ty) : Ty := s.applyWithin (s.length + 1) t

def pruneWithin (s : Subst) : Nat → Ty → Ty
  | 0, t => t
  | count + 1, .var id literal =>
    match s.lookup? id with
    | some bound => pruneWithin s count bound
    | none => .var id literal
  | _, t => t

/-- Follows bindings until the outermost form is known. -/
def prune (s : Subst) (t : Ty) : Ty := s.pruneWithin (s.length + 1) t

/-- The greatest depth of a bound type. -/
def depth (s : Subst) : Nat := s.foldl (fun deepest entry => max deepest entry.2.depth) 0

end Subst

/-- Why two types do not unify. -/
inductive Clash where
  | mismatch
  /-- A variable would have to contain itself. -/
  | infinite (defect : Defect)
deriving Repr

/-- Binds one of two different variables to the other, so that a restriction is kept. -/
def Subst.unifyVars (s : Subst) (a : Nat) (ca : LiteralClass) (b : Nat) (cb : LiteralClass) :
    Subst × Option Clash :=
  if a == b then (s, none)
  else if ca == .general then ((a, .var b cb) :: s, none)
  else if cb == .general || ca == cb then ((b, .var a ca) :: s, none)
  else (s, some .mismatch)

/-- Whether a variable of a class may stand for a type that is no variable. -/
def LiteralClass.admits : LiteralClass → Ty → Bool
  | .general, _ => true
  | .integer, t => t.isInteger
  | .float, t => t.isFloat

/-- Binds a variable to a type that is no variable. -/
def Subst.bind (s : Subst) (id : Nat) (literal : LiteralClass) (t : Ty) : Subst × Option Clash :=
  if !literal.admits t then (s, some .mismatch)
  else
    let resolved := s.apply t
    if resolved.mentions id then (s, some (.infinite (.infiniteType s!"?{id}" resolved.text)))
    else ((id, t) :: s, none)

mutual

/-- Unifies two types; the fuel bounds the depth to which they are compared. Bindings made before a
clash stay. -/
def Subst.unify : Nat → Subst → Ty → Ty → Subst × Option Clash
  | 0, s, _, _ => (s, some .mismatch)
  | fuel + 1, s, a, b =>
    match s.prune a, s.prune b with
    | .invalid, _ => (s, none)
    | _, .invalid => (s, none)
    | .var a ca, .var b cb => s.unifyVars a ca b cb
    | .var a ca, t => s.bind a ca t
    | t, .var b cb => s.bind b cb t
    | .struct a as, .struct b bs =>
      if a == b then Subst.unifyAll fuel s as bs else (s, some .mismatch)
    | .enum a as, .enum b bs =>
      if a == b then Subst.unifyAll fuel s as bs else (s, some .mismatch)
    | .tuple as, .tuple bs => Subst.unifyAll fuel s as bs
    | .array a, .array b => Subst.unify fuel s a b
    | .ref m a, .ref n b => if m == n then Subst.unify fuel s a b else (s, some .mismatch)
    | .function as a, .function bs b =>
      match Subst.unifyAll fuel s as bs with
      | (s, none) => Subst.unify fuel s a b
      | (s, some clash) => (s, some clash)
    | a, b => (s, if a.same b then none else some .mismatch)

/-- Unifies lists element by element, up to the first clash; their lengths must agree. -/
def Subst.unifyAll : Nat → Subst → List Ty → List Ty → Subst × Option Clash
  | 0, s, _, _ => (s, some .mismatch)
  | fuel + 1, s, as, bs =>
    if as.length != bs.length then (s, some .mismatch)
    else (as.zip bs).foldl (fun (s, clash) (a, b) =>
      match clash with
      | some _ => (s, clash)
      | none => Subst.unify fuel s a b) (s, none)

end

/-- An implicit conversion. -/
inductive Coercion where
  | none
  | widen
  | autoRef
  | autoRefMut
  | autoDeref
deriving DecidableEq, Repr, Inhabited

def Coercion.text : Coercion → String
  | .none => "none"
  | .widen => "widen"
  | .autoRef => "auto-ref"
  | .autoRefMut => "auto-ref-mut"
  | .autoDeref => "auto-deref"

/-- The variables handed out so far, by their classes, and their bindings. Variables are numbered
from one on. -/
structure Engine where
  classes : List LiteralClass := []
  bindings : Subst := []
deriving Repr, Inhabited

/-- Why a unification failed; both types are resolved as far as possible. -/
inductive UnifyError where
  | mismatch (expected found : Ty)
  | infinite (defect : Defect)
deriving Repr

namespace Engine

def fresh (engine : Engine) (literal : LiteralClass) : Ty × Engine :=
  (.var (engine.classes.length + 1) literal,
    { engine with classes := engine.classes ++ [literal] })

def resolve (engine : Engine) (t : Ty) : Ty := engine.bindings.apply t

def shallow (engine : Engine) (t : Ty) : Ty := engine.bindings.prune t

/-- Enough fuel to compare two types: along a path no variable is met twice, and no type on it is
deeper than those bound or given. -/
def fuel (engine : Engine) (a b : Ty) : Nat :=
  2 * (engine.classes.length + 2)
    * (max engine.bindings.depth (max a.depth b.depth) + 2)

/-- Makes two types equal by binding variables. -/
def unify (engine : Engine) (expected found : Ty) : Engine × Option UnifyError :=
  let (bindings, clash) :=
    Subst.unify (engine.fuel expected found) engine.bindings expected found
  let engine := { engine with bindings }
  match clash with
  | none => (engine, none)
  | some .mismatch =>
    (engine, some (.mismatch (engine.resolve expected) (engine.resolve found)))
  | some (.infinite defect) => (engine, some (.infinite defect))

/-- Stores a value where a type is required: numbers may widen, all else must unify. -/
def assign (engine : Engine) (expected found : Ty) : Engine × Coercion × Option UnifyError :=
  if (engine.resolve found).canWiden (engine.resolve expected) then (engine, .widen, none)
  else
    let (engine, error) := engine.unify expected found
    (engine, .none, error)

/-- The variables handed out so far. -/
def vars (engine : Engine) : List Ty :=
  engine.classes.mapIdx fun i literal => .var (i + 1) literal

/-- Binds every literal that is still open to its default type. -/
def default (engine : Engine) : Engine :=
  engine.vars.foldl (fun engine v =>
    match engine.shallow v with
    | .var id .integer => { engine with bindings := (id, .int .i32) :: engine.bindings }
    | .var id .float => { engine with bindings := (id, .float .f64) :: engine.bindings }
    | _ => engine) engine

/-- Fresh variables for a number of parameters. -/
def freshAll (engine : Engine) : Nat → List Ty × Engine
  | 0 => ([], engine)
  | count + 1 =>
    let (v, engine) := engine.fresh .general
    let (rest, engine) := engine.freshAll count
    (v :: rest, engine)

/-- Replaces parameters by fresh variables, which are returned first. -/
def instantiate (engine : Engine) (params : List String) (types : List Ty) :
    List Ty × List Ty × Engine :=
  let (args, engine) := engine.freshAll params.length
  (args, types.map (Ty.instantiate params args), engine)

end Engine

end TreeCheck
