/-!
Types. Structs and enums are named and applied to arguments; what they consist of is kept by the
declarations. A variable stands for a type still to be found, possibly restricted to numbers.
-/

namespace TreeCheck

inductive IntType where
  | i8 | i16 | i32 | i64 | u8 | u16 | u32 | u64
deriving DecidableEq, Repr, Inhabited

inductive FloatType where
  | f32 | f64
deriving DecidableEq, Repr, Inhabited

/-- What a type variable may become: any type, or the type of an integer or float literal. -/
inductive LiteralClass where
  | general | integer | float
deriving DecidableEq, Repr, Inhabited

namespace IntType

def text : IntType → String
  | .i8 => "i8"
  | .i16 => "i16"
  | .i32 => "i32"
  | .i64 => "i64"
  | .u8 => "u8"
  | .u16 => "u16"
  | .u32 => "u32"
  | .u64 => "u64"

def all : List IntType := [.i8, .i16, .i32, .i64, .u8, .u16, .u32, .u64]

def signed : IntType → Bool
  | .i8 | .i16 | .i32 | .i64 => true
  | .u8 | .u16 | .u32 | .u64 => false

def bits : IntType → Nat
  | .i8 | .u8 => 8
  | .i16 | .u16 => 16
  | .i32 | .u32 => 32
  | .i64 | .u64 => 64

/-- How many numbers there are from zero up to the greatest one. -/
def capacity (t : IntType) : Nat := Nat.pow 2 (if t.signed then t.bits - 1 else t.bits)

def min (t : IntType) : Int := if t.signed then -(t.capacity : Int) else 0

def max (t : IntType) : Int := (t.capacity : Int) - 1

end IntType

namespace FloatType

def text : FloatType → String
  | .f32 => "f32"
  | .f64 => "f64"

def bits : FloatType → Nat
  | .f32 => 32
  | .f64 => 64

end FloatType

def LiteralClass.text : LiteralClass → String
  | .general => "general"
  | .integer => "integer"
  | .float => "float"

inductive Ty where
  | unit
  | bool
  | int (type : IntType)
  | float (type : FloatType)
  | string
  | struct (name : String) (args : List Ty)
  | enum (name : String) (args : List Ty)
  | tuple (elements : List Ty)
  | array (element : Ty)
  | ref (mutable : Bool) (target : Ty)
  | generic (name : String)
  | function (params : List Ty) (result : Ty)
  | var (id : Nat) (literal : LiteralClass)
  /-- The type of a faulty expression; it agrees with every type. -/
  | invalid
deriving Repr, Inhabited

namespace Ty

/-- The product of types; the empty one is the unit type. -/
def product : List Ty → Ty
  | [] => .unit
  | elements => .tuple elements

def primitives : List Ty :=
  [.unit, .bool] ++ IntType.all.map .int ++ [.float .f32, .float .f64, .string]

/-- The name of the form of a type; a primitive type is its own form. -/
def kind : Ty → String
  | .unit => "()"
  | .bool => "bool"
  | .int t => t.text
  | .float t => t.text
  | .string => "String"
  | .struct .. => "struct"
  | .enum .. => "enum"
  | .tuple _ => "tuple"
  | .array _ => "array"
  | .ref .. => "reference"
  | .generic _ => "generic"
  | .function .. => "function"
  | .var .. => "typevar"
  | .invalid => "invalid"

/-- The primitive type with a name. -/
def ofName? (name : String) : Option Ty := primitives.find? fun t => t.kind == name

mutual

/-- The spelling of a type. -/
def text : Ty → String
  | .struct name args => name ++ argsText args
  | .enum name args => name ++ argsText args
  | .tuple elements => "(" ++ joined elements ++ ")"
  | .array element => "[" ++ element.text ++ "]"
  | .ref true target => "&mut " ++ target.text
  | .ref false target => "&" ++ target.text
  | .generic name => name
  | .function params result => "fn(" ++ joined params ++ ") -> " ++ result.text
  | .var id .general => "?" ++ toString id
  | .var _ .integer => "\x7binteger\x7d"
  | .var _ .float => "\x7bfloat\x7d"
  | .invalid => "\x7berror\x7d"
  | .unit => "()"
  | .bool => "bool"
  | .int t => t.text
  | .float t => t.text
  | .string => "String"

/-- Arguments in angle brackets, or nothing. -/
def argsText : List Ty → String
  | [] => ""
  | t :: rest => "<" ++ joined (t :: rest) ++ ">"

/-- Spellings separated by commas. -/
def joined : List Ty → String
  | [] => ""
  | [t] => t.text
  | t :: rest => t.text ++ ", " ++ joined rest

end

mutual

/-- Structural equality; a variable equals only itself. -/
def same : Ty → Ty → Bool
  | .unit, .unit => true
  | .bool, .bool => true
  | .int a, .int b => a == b
  | .float a, .float b => a == b
  | .string, .string => true
  | .struct a as, .struct b bs => a == b && sameAll as bs
  | .enum a as, .enum b bs => a == b && sameAll as bs
  | .tuple as, .tuple bs => sameAll as bs
  | .array a, .array b => same a b
  | .ref m a, .ref n b => m == n && same a b
  | .generic a, .generic b => a == b
  | .function as a, .function bs b => sameAll as bs && same a b
  | .var a _, .var b _ => a == b
  | .invalid, .invalid => true
  | _, _ => false

def sameAll : List Ty → List Ty → Bool
  | [], [] => true
  | a :: as, b :: bs => same a b && sameAll as bs
  | _, _ => false

end

def isInteger : Ty → Bool
  | .int _ => true
  | _ => false

def isSigned : Ty → Bool
  | .int t => t.signed
  | _ => false

def isFloat : Ty → Bool
  | .float _ => true
  | _ => false

def isNumeric (t : Ty) : Bool := t.isInteger || t.isFloat

def isPrimitive : Ty → Bool
  | .unit | .bool | .int _ | .float _ | .string => true
  | _ => false

def isInvalid : Ty → Bool
  | .invalid => true
  | _ => false

def isUnit : Ty → Bool
  | .unit => true
  | _ => false

def isBool : Ty → Bool
  | .bool => true
  | _ => false

def isString : Ty → Bool
  | .string => true
  | _ => false

def isVar : Ty → Bool
  | .var .. => true
  | _ => false

def isRef : Ty → Bool
  | .ref .. => true
  | _ => false

mutual

/-- Whether values are duplicated rather than moved: numbers, truth values, unit, shared references,
and tuples and arrays of such. -/
def isCopy : Ty → Bool
  | .unit | .bool | .int _ | .float _ | .invalid => true
  | .ref mutable _ => !mutable
  | .tuple elements => isCopyAll elements
  | .array element => element.isCopy
  | .string | .struct .. | .enum .. | .generic _ | .function .. | .var .. => false

def isCopyAll : List Ty → Bool
  | [] => true
  | t :: rest => t.isCopy && isCopyAll rest

end

mutual

/-- A type and the types nested in it, outermost first. -/
def parts : Ty → List Ty
  | .struct name args => .struct name args :: partsAll args
  | .enum name args => .enum name args :: partsAll args
  | .tuple elements => .tuple elements :: partsAll elements
  | .array element => .array element :: element.parts
  | .ref mutable target => .ref mutable target :: target.parts
  | .function params result => .function params result :: (partsAll params ++ result.parts)
  | .unit => [.unit]
  | .bool => [.bool]
  | .int t => [.int t]
  | .float t => [.float t]
  | .string => [.string]
  | .generic name => [.generic name]
  | .var id literal => [.var id literal]
  | .invalid => [.invalid]

def partsAll : List Ty → List Ty
  | [] => []
  | t :: rest => t.parts ++ partsAll rest

end

def hasVars (t : Ty) : Bool := t.parts.any isVar

/-- Whether a variable occurs in a type. -/
def mentions (id : Nat) (t : Ty) : Bool :=
  t.parts.any fun
    | .var other _ => other == id
    | _ => false

mutual

def depth : Ty → Nat
  | .struct _ args => depthAll args + 1
  | .enum _ args => depthAll args + 1
  | .tuple elements => depthAll elements + 1
  | .array element => element.depth + 1
  | .ref _ target => target.depth + 1
  | .function params result => max (depthAll params) result.depth + 1
  | .unit | .bool | .int _ | .float _ | .string | .generic _ | .var .. | .invalid => 0

def depthAll : List Ty → Nat
  | [] => 0
  | t :: rest => max t.depth (depthAll rest)

end

mutual

def replace (param : String → Ty) (var : Nat → LiteralClass → Ty) : Ty → Ty
  | .struct name args => .struct name (replaceAll param var args)
  | .enum name args => .enum name (replaceAll param var args)
  | .tuple elements => product (replaceAll param var elements)
  | .array element => .array (replace param var element)
  | .ref mutable target => .ref mutable (replace param var target)
  | .generic name => param name
  | .function params result =>
    .function (replaceAll param var params) (replace param var result)
  | .var id literal => var id literal
  | .unit => .unit
  | .bool => .bool
  | .int t => .int t
  | .float t => .float t
  | .string => .string
  | .invalid => .invalid

def replaceAll (param : String → Ty) (var : Nat → LiteralClass → Ty) : List Ty → List Ty
  | [] => []
  | t :: rest => replace param var t :: replaceAll param var rest

end

/-- The argument for a parameter; of equal parameter names the last one with an argument counts. -/
def argument? (name : String) : List String → List Ty → Option Ty
  | param :: params, arg :: args =>
    (argument? name params args).or (if param == name then some arg else none)
  | _, _ => none

/-- Replaces the named parameters by arguments; parameters without an argument stay. -/
def instantiate (params : List String) (args : List Ty) (t : Ty) : Ty :=
  t.replace (fun name => (argument? name params args).getD (.generic name)) .var

/-! ### Number types: widths, ranges, and the conversions between them -/

/-- The width of a number type in bits, zero for other types. -/
def bits : Ty → Nat
  | .int t => t.bits
  | .float t => t.bits
  | _ => 0

/-- The least and greatest value of an integer type; the truth values are 0 and 1. -/
def bounds? : Ty → Option (Int × Int)
  | .bool => some (0, 1)
  | .int t => some (t.min, t.max)
  | _ => none

/-- Whether an integer is a value of a type. -/
def fits (t : Ty) (value : Int) : Bool :=
  match t.bounds? with
  | some (low, high) => low ≤ value && value ≤ high
  | none => false

/-- Whether values convert implicitly: to a wider type of the same kind, and from unsigned to wider
signed. -/
def canWiden : Ty → Ty → Bool
  | .int a, .int b => a.bits < b.bits && (a.signed == b.signed || b.signed)
  | .float a, .float b => a.bits < b.bits
  | _, _ => false

/-- Whether an explicit conversion is legal: between numbers, from truth values to integers, and
from a primitive type to itself. -/
def canCast (a b : Ty) : Bool :=
  a.isInvalid || b.isInvalid || (a.isNumeric && b.isNumeric) || (a.isBool && b.isInteger)
    || (a.isPrimitive && a.same b)

end Ty

end TreeCheck
