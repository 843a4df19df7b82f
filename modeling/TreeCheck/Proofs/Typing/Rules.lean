import TreeCheck.Match.Shape
import TreeCheck.Proofs.Typing.Patterns

/-!
The type system, as rules over what is noted about the nodes of a function. The rules are read off the language and
not off inference: they only speak of types that are known, and a name stands for what was bound to it last. Which
types an operator is for is not a part of them.
-/

namespace TreeCheck

/-- Initializers of declared fields: each name is declared and given once, and none is left out. -/
structure FieldInit.Names (fields : List FieldInit) (declared : List Field) : Prop where
  once : (fields.map FieldInit.name).Nodup
  known : ∀ field ∈ fields, ∃ f ∈ declared, f.name = field.name
  all : ∀ f ∈ declared, f.name ∈ fields.map FieldInit.name

namespace Typing

/-- The names in scope with their types, the innermost first. -/
abbrev Env := List (String × Ty)

/-- How a value of a type is stored where a type is wanted: as it is, or as a number that is widened. -/
inductive Annotations.Stores (notes : Annotations) (e : Expr) : Ty → Ty → Prop
  | same {t : Ty} : Stores notes e t t
  | widened {found want : Ty} (wider : found.canWiden want = true)
      (noted : notes.coercions.get? e.id = some .widen) : Stores notes e found want

/-- How a value is passed as an argument: it is stored, or the place that it is in is borrowed. -/
inductive Annotations.Passes (notes : Annotations) (e : Expr) : Ty → Ty → Prop
  | stored {found want : Ty} (stores : notes.Stores e found want) : Passes notes e found want
  | borrowed {t : Ty} {mutable : Bool} (place : e.isPlace = true)
      (noted : notes.coercions.get? e.id = some (if mutable then .autoRefMut else .autoRef)) :
      Passes notes e t (.ref mutable t)

/-- How a value of a type is taken by the method that is called on it. -/
inductive Annotations.Lends (notes : Annotations) (receiver : Expr) : Ty → SelfMode → Prop
  | moved {t : Ty} (plain : t.isRef = false) : Lends notes receiver t .value
  | borrowed {t : Ty} (noted : notes.coercions.get? receiver.id = some .autoRef) : Lends notes receiver t .shared
  | changed {t : Ty} (plain : t.isRef = false) (noted : notes.coercions.get? receiver.id = some .autoRefMut) :
      Lends notes receiver t .exclusive
  | behind {mutable : Bool} {target : Ty} : Lends notes receiver (.ref mutable target) .shared
  | behindMut {target : Ty} : Lends notes receiver (.ref true target) .exclusive

/-- A part is taken of the value behind the references around a value, which is noted. -/
def Annotations.Reaches (notes : Annotations) (object : Expr) (outer base : Ty) : Prop :=
  outer.strip.2 = base ∧ (outer.isRef = true → notes.coercions.get? object.id = some .autoDeref)

mutual

/-- An expression has a type where names are in scope: it is noted about the expression, and a rule gives it. -/
inductive HasType (ctx : Context) (notes : Annotations) : Env → Expr → Ty → Prop
  | intro {Γ : Env} {e : Expr} {t : Ty} (noted : notes.types.get? e.id = some t) (rule : Rule ctx notes Γ e t) :
      HasType ctx notes Γ e t

/-- The rules for expressions. -/
inductive Rule (ctx : Context) (notes : Annotations) : Env → Expr → Ty → Prop
  | int {Γ : Env} {info : NodeInfo} {value : Int} {suffix : String} {t : Ty}
      (literal : match Ty.ofName? suffix with
        | some written => t = written
        | none => t.isInteger = true) : Rule ctx notes Γ (.int info value suffix) t
  | float {Γ : Env} {info : NodeInfo} {value : Binary64} {suffix : String} {t : Ty}
      (literal : match Ty.ofName? suffix with
        | some written => t = written
        | none => t.isFloat = true) : Rule ctx notes Γ (.float info value suffix) t
  | string {Γ : Env} {info : NodeInfo} {text : Octets} : Rule ctx notes Γ (.string info text) .string
  | template {Γ : Env} {info : NodeInfo} {parts : List TemplatePart}
      (values : ∀ e, .value e ∈ parts → Typable ctx notes Γ e) : Rule ctx notes Γ (.template info parts) .string
  | bool {Γ : Env} {info : NodeInfo} {value : Bool} : Rule ctx notes Γ (.bool info value) .bool
  /-- A name has the type of its innermost binding. -/
  | variable {Γ : Env} {info : NodeInfo} {name : String} {t : Ty} (bound : Γ.lookup name = some t) :
      Rule ctx notes Γ (.ident info name) t
  /-- A name that is not bound has the type of a function, with type arguments. -/
  | function {Γ : Env} {info : NodeInfo} {name : String} {signature : Signature} {args : List Ty}
      (free : Γ.lookup name = none) (known : ctx.table.function? name = some signature)
      (sized : args.length = signature.typeParams.length) :
      Rule ctx notes Γ (.ident info name) (signature.type.instantiate signature.typeParams args)
  | uniform {Γ : Env} {info : NodeInfo} {op : BinaryOp} {left right : Expr} {t : Ty}
      (group : op.group = .arithmetic ∨ op.group = .bitwise) (first : HasType ctx notes Γ left t)
      (second : HasType ctx notes Γ right t) : Rule ctx notes Γ (.binary info op left right) t
  | shift {Γ : Env} {info : NodeInfo} {op : BinaryOp} {left right : Expr} {t amount : Ty} (group : op.group = .shift)
      (first : HasType ctx notes Γ left t) (second : HasType ctx notes Γ right amount)
      (integer : amount.isInteger = true) : Rule ctx notes Γ (.binary info op left right) t
  | compared {Γ : Env} {info : NodeInfo} {op : BinaryOp} {left right : Expr} {t : Ty}
      (group : op.group = .ordering ∨ op.group = .equality) (first : HasType ctx notes Γ left t)
      (second : HasType ctx notes Γ right t) : Rule ctx notes Γ (.binary info op left right) .bool
  | logical {Γ : Env} {info : NodeInfo} {op : BinaryOp} {left right : Expr} (group : op.group = .logical)
      (first : HasType ctx notes Γ left .bool) (second : HasType ctx notes Γ right .bool) :
      Rule ctx notes Γ (.binary info op left right) .bool
  | unary {Γ : Env} {info : NodeInfo} {op : UnaryOp} {operand : Expr} {t : Ty}
      (inner : HasType ctx notes Γ operand t) : Rule ctx notes Γ (.unary info op operand) t
  | call {Γ : Env} {info : NodeInfo} {callee : Expr} {args : List Expr} {params : List Ty} {result : Ty}
      (called : HasType ctx notes Γ callee (.function params result)) (count : args.length = params.length)
      (passed : ∀ pair ∈ args.zip params, Given ctx notes Γ pair.1 pair.2) :
      Rule ctx notes Γ (.call info callee args) result
  | method {Γ : Env} {info : NodeInfo} {receiver : Expr} {name type : String} {args : List Expr} {outer : Ty}
      {owner types : List Ty} {signature : Signature} {self : Signature.Self}
      (taken : HasType ctx notes Γ receiver outer)
      (nominal : outer.strip.2 = .struct type owner ∨ outer.strip.2 = .enum type owner)
      (known : ctx.table.method? type name = some signature)
      (chosen : notes.methods.get? info.id = some signature) (own : signature.self = some self)
      (sized : types.length = signature.typeParams.length)
      (behind : outer.strip.2 = self.type.instantiate signature.typeParams types)
      (lends : notes.Lends receiver outer self.mode) (count : args.length = signature.params.length)
      (passed : ∀ pair ∈ args.zip (signature.params.map fun p => p.type.instantiate signature.typeParams types),
        Given ctx notes Γ pair.1 pair.2) :
      Rule ctx notes Γ (.methodCall info receiver name args) (signature.result.instantiate signature.typeParams types)
  | field {Γ : Env} {info : NodeInfo} {object : Expr} {name : String} {outer base t : Ty}
      (inner : HasType ctx notes Γ object outer) (reaches : notes.Reaches object outer base)
      (part : ctx.table.decls.part? name base = some t) : Rule ctx notes Γ (.field info object name) t
  | index {Γ : Env} {info : NodeInfo} {object index : Expr} {outer t number : Ty}
      (inner : HasType ctx notes Γ object outer) (reaches : notes.Reaches object outer (.array t))
      (place : HasType ctx notes Γ index number) (integer : number.isInteger = true) :
      Rule ctx notes Γ (.index info object index) t
  | ref {Γ : Env} {info : NodeInfo} {mutable : Bool} {operand : Expr} {t : Ty}
      (inner : HasType ctx notes Γ operand t) : Rule ctx notes Γ (.ref info mutable operand) (.ref mutable t)
  | deref {Γ : Env} {info : NodeInfo} {mutable : Bool} {operand : Expr} {t : Ty}
      (inner : HasType ctx notes Γ operand (.ref mutable t)) : Rule ctx notes Γ (.deref info operand) t
  | struct {Γ : Env} {info : NodeInfo} {name struct : String} {fields : List FieldInit} {args : List Ty}
      (named : name = "" ∨ name = struct) (known : (ctx.table.decls.struct? struct).isSome = true)
      (names : FieldInit.Names fields (ctx.table.decls.fields struct args))
      (values : ∀ init ∈ fields, ∀ f ∈ ctx.table.decls.fields struct args, f.name = init.name →
        Stored ctx notes Γ init.value f.type) : Rule ctx notes Γ (.struct info name fields) (.struct struct args)
  | named {Γ : Env} {info : NodeInfo} {enum variant : String} {fields : List FieldInit} {found : VariantRef}
      {types : List Ty} (declared : found.Declared ctx.table enum variant)
      (chosen : notes.variants.get? info.id = some found) (named : found.variant.isNamed = true)
      (names : FieldInit.Names fields (Context.slotFields found.variant (Decls.slots found.enum types found.variant)))
      (values : ∀ init ∈ fields, ∀ f ∈ Context.slotFields found.variant (Decls.slots found.enum types found.variant),
        f.name = init.name → Stored ctx notes Γ init.value f.type) :
      Rule ctx notes Γ (.variant info enum variant [] fields) (.enum found.enum.name types)
  | positional {Γ : Env} {info : NodeInfo} {enum variant : String} {args : List Expr} {found : VariantRef}
      {types : List Ty} (declared : found.Declared ctx.table enum variant)
      (chosen : notes.variants.get? info.id = some found) (unnamed : found.variant.isNamed = false)
      (count : args.length = (Decls.slots found.enum types found.variant).length)
      (passed : ∀ pair ∈ args.zip (Decls.slots found.enum types found.variant), Given ctx notes Γ pair.1 pair.2) :
      Rule ctx notes Γ (.variant info enum variant args []) (.enum found.enum.name types)
  | tuple {Γ : Env} {info : NodeInfo} {elements : List Expr} {types : List Ty} (count : elements.length = types.length)
      (parts : ∀ pair ∈ elements.zip types, HasType ctx notes Γ pair.1 pair.2) :
      Rule ctx notes Γ (.tuple info elements) (.product types)
  | array {Γ : Env} {info : NodeInfo} {elements : List Expr} {t : Ty}
      (items : ∀ e ∈ elements, HasType ctx notes Γ e t) : Rule ctx notes Γ (.array info elements) (.array t)
  | cast {Γ : Env} {info : NodeInfo} {operand : Expr} {written : WrittenType} {source target : Ty}
      (inner : HasType ctx notes Γ operand source) (reads : ctx.Reads written target)
      (castable : source.canCast target = true) : Rule ctx notes Γ (.cast info operand written) target
  | assign {Γ : Env} {info : NodeInfo} {target value : Expr} {t : Ty} (place : target.isPlace = true)
      (inner : HasType ctx notes Γ target t) (stored : Stored ctx notes Γ value t) :
      Rule ctx notes Γ (.assign info target value) .unit
  | selectNone {Γ : Env} {info : NodeInfo} {scrutinee : Expr} {t : Ty} (inner : HasType ctx notes Γ scrutinee t) :
      Rule ctx notes Γ (.select info scrutinee []) .unit
  | select {Γ : Env} {info : NodeInfo} {scrutinee : Expr} {arms : List MatchArm} {t result : Ty}
      (inner : HasType ctx notes Γ scrutinee t) (some : arms ≠ [])
      (each : ∀ arm ∈ arms, ArmTyped ctx notes Γ t result arm) : Rule ctx notes Γ (.select info scrutinee arms) result
  | branch {Γ : Env} {info : NodeInfo} {condition consequent alternative : Expr} {t : Ty}
      (test : HasType ctx notes Γ condition .bool) (first : HasType ctx notes Γ consequent t)
      (second : HasType ctx notes Γ alternative t) :
      Rule ctx notes Γ (.branch info condition consequent (some alternative)) t
  | optional {Γ : Env} {info : NodeInfo} {condition consequent : Expr} (test : HasType ctx notes Γ condition .bool)
      (inner : HasType ctx notes Γ consequent .unit) :
      Rule ctx notes Γ (.branch info condition consequent none) .unit
  | block {Γ Δ : Env} {info : NodeInfo} {stmts : List Stmt} {value : Expr} {t : Ty}
      (steps : StmtsTyped ctx notes Γ stmts Δ) (last : HasType ctx notes (Δ ++ Γ) value t) :
      Rule ctx notes Γ (.block (.mk info stmts (some value))) t
  /-- A block that ends in a return has any type. -/
  | leaving {Γ Δ : Env} {info : NodeInfo} {stmts : List Stmt} {t : Ty} (steps : StmtsTyped ctx notes Γ stmts Δ)
      (returns : (Block.mk info stmts none).endsInReturn = true) : Rule ctx notes Γ (.block (.mk info stmts none)) t
  | running {Γ Δ : Env} {info : NodeInfo} {stmts : List Stmt} (steps : StmtsTyped ctx notes Γ stmts Δ) :
      Rule ctx notes Γ (.block (.mk info stmts none)) .unit

/-- An expression that has some type. -/
inductive Typable (ctx : Context) (notes : Annotations) : Env → Expr → Prop
  | intro {Γ : Env} {e : Expr} {t : Ty} (typed : HasType ctx notes Γ e t) : Typable ctx notes Γ e

/-- A value that is stored where a type is wanted. -/
inductive Stored (ctx : Context) (notes : Annotations) : Env → Expr → Ty → Prop
  | intro {Γ : Env} {e : Expr} {found want : Ty} (typed : HasType ctx notes Γ e found)
      (stores : notes.Stores e found want) : Stored ctx notes Γ e want

/-- An argument for a parameter of a type. -/
inductive Given (ctx : Context) (notes : Annotations) : Env → Expr → Ty → Prop
  | intro {Γ : Env} {e : Expr} {found want : Ty} (typed : HasType ctx notes Γ e found)
      (passes : notes.Passes e found want) : Given ctx notes Γ e want

/-- An arm of a match on a type that has a type. -/
inductive ArmTyped (ctx : Context) (notes : Annotations) : Env → Ty → Ty → MatchArm → Prop
  | intro {Γ Δ : Env} {t result : Ty} {span : Span} {pattern : Pattern} {guard : Option Expr} {body : Expr}
      (matched : Matches ctx notes Γ pattern t Δ)
      (guarded : ∀ condition ∈ guard, HasType ctx notes (Δ ++ Γ) condition .bool)
      (typed : HasType ctx notes (Δ ++ Γ) body result) : ArmTyped ctx notes Γ t result (.mk span pattern guard body)

/-- A statement, and what it binds for those behind it. -/
inductive StmtTyped (ctx : Context) (notes : Annotations) : Env → Stmt → Env → Prop
  | annotated {Γ Δ : Env} {span : Span} {pattern : Pattern} {written : WrittenType} {init : Option Expr} {t : Ty}
      (reads : ctx.Reads written t) (stored : ∀ value ∈ init, Stored ctx notes Γ value t)
      (matched : Matches ctx notes Γ pattern t Δ) : StmtTyped ctx notes Γ (.bind span pattern (some written) init) Δ
  | bind {Γ Δ : Env} {span : Span} {pattern : Pattern} {value : Expr} {t : Ty} (typed : HasType ctx notes Γ value t)
      (matched : Matches ctx notes Γ pattern t Δ) : StmtTyped ctx notes Γ (.bind span pattern none (some value)) Δ
  | declare {Γ Δ : Env} {span : Span} {pattern : Pattern} {t : Ty} (matched : Matches ctx notes Γ pattern t Δ) :
      StmtTyped ctx notes Γ (.bind span pattern none none) Δ
  | expr {Γ : Env} {span : Span} {value : Expr} (inner : Typable ctx notes Γ value) :
      StmtTyped ctx notes Γ (.expr span value) []
  | leave {Γ : Env} {span : Span} (unit : ctx.signature.result = .unit) : StmtTyped ctx notes Γ (.ret span none) []
  | ret {Γ : Env} {span : Span} {value : Expr} (stored : Stored ctx notes Γ value ctx.signature.result) :
      StmtTyped ctx notes Γ (.ret span (some value)) []
  | loop {Γ : Env} {span : Span} {condition : Expr} {body : Block} (test : HasType ctx notes Γ condition .bool)
      (inner : Typable ctx notes Γ (.block body)) : StmtTyped ctx notes Γ (.loop span condition body) []
  | counted {Γ Δ : Env} {span : Span} {init : Option Stmt} {condition update : Option Expr} {body : Block}
      (start : StmtsTyped ctx notes Γ init.toList Δ)
      (test : ∀ c ∈ condition, HasType ctx notes (Δ ++ Γ) c .bool)
      (inner : Typable ctx notes (Δ ++ Γ) (.block body)) (step : ∀ e ∈ update, Typable ctx notes (Δ ++ Γ) e) :
      StmtTyped ctx notes Γ (.counted span init condition update body) []

/-- Statements one after the other. -/
inductive StmtsTyped (ctx : Context) (notes : Annotations) : Env → List Stmt → Env → Prop
  | nil {Γ : Env} : StmtsTyped ctx notes Γ [] []
  | cons {Γ Δ Δ' : Env} {stmt : Stmt} {rest : List Stmt} (first : StmtTyped ctx notes Γ stmt Δ)
      (others : StmtsTyped ctx notes (Δ ++ Γ) rest Δ') : StmtsTyped ctx notes Γ (stmt :: rest) (Δ' ++ Δ)

/-- A pattern matches a type and binds names: the type is noted about the pattern, and a rule allows it. -/
inductive Matches (ctx : Context) (notes : Annotations) : Env → Pattern → Ty → Env → Prop
  | intro {Γ Δ : Env} {p : Pattern} {t : Ty} (noted : notes.types.get? p.id = some t)
      (rule : MatchRule ctx notes Γ p t Δ) : Matches ctx notes Γ p t Δ

/-- The rules for patterns. The names that a part binds are in scope in the parts behind it. -/
inductive MatchRule (ctx : Context) (notes : Annotations) : Env → Pattern → Ty → Env → Prop
  | wildcard {Γ : Env} {info : NodeInfo} {t : Ty} : MatchRule ctx notes Γ (.wildcard info) t []
  | binding {Γ : Env} {b : Binding} {t : Ty} : MatchRule ctx notes Γ (.binding b) t [(b.name, t)]
  | int {Γ : Env} {info : NodeInfo} {n : Int} {t : Ty} (integer : t.isInteger = true) :
      MatchRule ctx notes Γ (.literal info (.int n)) t []
  | float {Γ : Env} {info : NodeInfo} {value : Binary64} {t : Ty} (float : t.isFloat = true) :
      MatchRule ctx notes Γ (.literal info (.float value)) t []
  | string {Γ : Env} {info : NodeInfo} {text : Octets} : MatchRule ctx notes Γ (.literal info (.string text)) .string []
  | bool {Γ : Env} {info : NodeInfo} {value : Bool} : MatchRule ctx notes Γ (.literal info (.bool value)) .bool []
  | range {Γ : Env} {info : NodeInfo} {low high : Int} {inclusive : Bool} {t : Ty} (integer : t.isInteger = true) :
      MatchRule ctx notes Γ (.range info low high inclusive) t []
  | tuple {Γ Δ : Env} {info : NodeInfo} {elements : List Pattern} {types : List Ty}
      (parts : MatchesAll ctx notes Γ elements types Δ) :
      MatchRule ctx notes Γ (.tuple info elements) (.product types) Δ
  | list {Γ Δ : Env} {info : NodeInfo} {front : List Pattern} {isOpen : Bool} {t : Ty}
      (parts : MatchesAll ctx notes Γ front (List.replicate front.length t) Δ) :
      MatchRule ctx notes Γ (.list info front isOpen none) (.array t) Δ
  | listRest {Γ Δ : Env} {info : NodeInfo} {front : List Pattern} {isOpen : Bool} {b : Binding} {t : Ty}
      (parts : MatchesAll ctx notes Γ front (List.replicate front.length t) Δ)
      (noted : notes.types.get? b.info.id = some (.array t)) :
      MatchRule ctx notes Γ (.list info front isOpen (some b)) (.array t) ((b.name, .array t) :: Δ)
  | record {Γ Δ : Env} {info : NodeInfo} {name : String} {fields : List FieldPattern} {rest : Bool} {args : List Ty}
      (names : FieldPattern.Names fields (ctx.table.decls.fields name args) rest)
      (parts : FieldsMatch ctx notes (ctx.table.decls.fields name args) Γ fields Δ) :
      MatchRule ctx notes Γ (.record info name fields rest) (.struct name args) Δ
  | named {Γ Δ : Env} {info : NodeInfo} {enum variant : String} {fields : List FieldPattern} {rest : Bool}
      {found : VariantRef} {args : List Ty} (declared : found.Declared ctx.table enum variant)
      (chosen : notes.variants.get? info.id = some found)
      (named : found.variant.isNamed = true)
      (names : FieldPattern.Names fields
        (Context.slotFields found.variant (Decls.slots found.enum args found.variant)) rest)
      (parts : FieldsMatch ctx notes (Context.slotFields found.variant (Decls.slots found.enum args found.variant))
        Γ fields Δ) :
      MatchRule ctx notes Γ (.variant info enum variant [] fields rest) (.enum found.enum.name args) Δ
  | positional {Γ Δ : Env} {info : NodeInfo} {enum variant : String} {elements : List Pattern} {rest : Bool}
      {found : VariantRef} {args : List Ty} (declared : found.Declared ctx.table enum variant)
      (chosen : notes.variants.get? info.id = some found)
      (unnamed : found.variant.isNamed = false)
      (parts : MatchesAll ctx notes Γ elements (Decls.slots found.enum args found.variant) Δ) :
      MatchRule ctx notes Γ (.variant info enum variant elements [] rest) (.enum found.enum.name args) Δ
  | noChoice {Γ : Env} {info : NodeInfo} {t : Ty} : MatchRule ctx notes Γ (.alternatives info []) t []
  | alternatives {Γ Δ : Env} {info : NodeInfo} {first : Pattern} {rest : List Pattern} {t : Ty}
      (start : Matches ctx notes Γ first t Δ) (others : ∀ p ∈ rest, Alternative ctx notes (Δ ++ Γ) t Δ p) :
      MatchRule ctx notes Γ (.alternatives info (first :: rest)) t Δ
  | guarded {Γ Δ : Env} {info : NodeInfo} {inner : Pattern} {condition : Expr} {t : Ty}
      (matched : Matches ctx notes Γ inner t Δ) (test : HasType ctx notes (Δ ++ Γ) condition .bool) :
      MatchRule ctx notes Γ (.guarded info inner condition) t Δ

/-- Patterns for as many types, one after the other. -/
inductive MatchesAll (ctx : Context) (notes : Annotations) : Env → List Pattern → List Ty → Env → Prop
  | nil {Γ : Env} : MatchesAll ctx notes Γ [] [] []
  | cons {Γ Δ Δ' : Env} {p : Pattern} {rest : List Pattern} {t : Ty} {types : List Ty}
      (first : Matches ctx notes Γ p t Δ) (others : MatchesAll ctx notes (Δ ++ Γ) rest types Δ') :
      MatchesAll ctx notes Γ (p :: rest) (t :: types) (Δ' ++ Δ)

/-- Named patterns, each for a declared field of its name. -/
inductive FieldsMatch (ctx : Context) (notes : Annotations) : List Field → Env → List FieldPattern → Env → Prop
  | nil {declared : List Field} {Γ : Env} : FieldsMatch ctx notes declared Γ [] []
  | cons {declared : List Field} {Γ Δ Δ' : Env} {f : Field} {p : Pattern} {rest : List FieldPattern}
      (known : f ∈ declared) (first : Matches ctx notes Γ p f.type Δ)
      (others : FieldsMatch ctx notes declared (Δ ++ Γ) rest Δ') :
      FieldsMatch ctx notes declared Γ (.mk f.name p :: rest) (Δ' ++ Δ)

/-- Another choice among alternatives: each name stands for the same type as in the first one. -/
inductive Alternative (ctx : Context) (notes : Annotations) : Env → Ty → Env → Pattern → Prop
  | intro {Γ Δ Δ' : Env} {t : Ty} {p : Pattern} (matched : Matches ctx notes Γ p t Δ')
      (same : ∀ name, Δ'.lookup name = Δ.lookup name) : Alternative ctx notes Γ t Δ p

end

theorem HasType.noted {ctx : Context} {notes : Annotations} {Γ : Env} {e : Expr} {t : Ty}
    (typed : HasType ctx notes Γ e t) : notes.types.get? e.id = some t := by
  obtain ⟨noted, -⟩ := typed
  exact noted

theorem HasType.value {ctx : Context} {notes : Annotations} {Γ : Env} {b : Block} {e : Expr} {t : Ty}
    (typed : HasType ctx notes Γ (.block b) t) (last : e ∈ b.tail) : notes.types.get? e.id = some t := by
  obtain ⟨-, rule⟩ := typed
  cases rule with
  | block _ typed =>
    cases last
    exact typed.noted
  | leaving => cases last
  | running => cases last

/-- A function against its signature: its parameters are in scope in its body, and the value of the body is stored as
the result. -/
structure FunctionTyped (ctx : Context) (notes : Annotations) (f : FuncDecl) (t : Ty) : Prop where
  body : HasType ctx notes ((ctx.signature.params.map fun p => (p.name, p.type)).reverse ++
    (ctx.signature.receiverType?.map fun t => ("self", t)).toList) (.block f.body) t
  value : ∀ e ∈ f.body.tail, notes.Stores e t ctx.signature.result
  none : f.body.tail = none → f.body.endsInReturn = true ∨ ctx.signature.result = .unit

end Typing

end TreeCheck
