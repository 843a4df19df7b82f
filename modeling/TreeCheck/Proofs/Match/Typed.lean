import Mathlib.Data.List.Forall2
import TreeCheck.Match.Value

/-!
What suits a type: values, patterns, and the shapes that patterns are read as. References are looked
through, and a value of an abstract type may be anything, for no pattern looks into it.
-/

namespace TreeCheck

/-- What reading and collecting a program guarantee about its declarations. -/
structure Decls.Regular (decls : Decls) : Prop where
  fields : ∀ d ∈ decls.structs, (d.fields.map Field.name).Nodup
  variants : ∀ d ∈ decls.enums, (d.variants.map Variant.name).Nodup
  indices : ∀ d ∈ decls.enums, (d.variants.map Variant.index).Nodup
  payloads : ∀ d ∈ decls.enums, ∀ v ∈ d.variants, (v.fields.map Field.name).Nodup

/-- A type whose values no pattern can take apart. -/
def Ty.isAbstract : Ty → Bool
  | .generic _ | .function .. | .var .. | .invalid => true
  | _ => false

def Decls.productTypes? (decls : Decls) : Ty → Option (List Ty)
  | .unit => some []
  | .tuple types => some types
  | .struct name args => some ((decls.fields name args).map Field.type)
  | _ => none

namespace Match

/-- The values of a type; integers lie in the domain of a compilation. -/
inductive HasType (ctx : Context) : Value → Ty → Prop
  | unit : HasType ctx .unit .unit
  | bool (value : Bool) : HasType ctx (.bool value) .bool
  | int {n : Int} {k : IntType} (above : (ctx.options.bounds (.int k)).1 ≤ n)
      (below : n ≤ (ctx.options.bounds (.int k)).2) : HasType ctx (.int n) (.int k)
  | float (value : Binary64) (k : FloatType) : HasType ctx (.float value) (.float k)
  | string (value : Octets) : HasType ctx (.string value) .string
  | tuple {values : List Value} {types : List Ty} (parts : List.Forall₂ (HasType ctx) values types) :
      HasType ctx (.tuple values) (.tuple types)
  | array {values : List Value} {element : Ty} (parts : ∀ v ∈ values, HasType ctx v element) :
      HasType ctx (.array values) (.array element)
  | struct {name : String} {args : List Ty} {values : List Value}
      (parts : List.Forall₂ (HasType ctx) values ((ctx.decls.fields name args).map Field.type)) :
      HasType ctx (.struct ((ctx.decls.fields name args).map Field.name) values) (.struct name args)
  | variant {name : String} {args : List Ty} {d : EnumDef} {v : Variant} {values : List Value}
      (declared : ctx.decls.enum? name = some d) (member : v ∈ d.variants)
      (parts : List.Forall₂ (HasType ctx) values (Decls.slots d args v)) :
      HasType ctx (.variant v.name (v.fields.map Field.name) values) (.enum name args)
  | ref {v : Value} {mutable : Bool} {target : Ty} (inner : HasType ctx v target) :
      HasType ctx v (.ref mutable target)
  | abstract {v : Value} {t : Ty} (hidden : t.isAbstract = true) : HasType ctx v t

/-- One level of what makes a value of a type: its parts are of the types inside as far as `inner` says. -/
inductive Built (ctx : Context) (inner : Value → Ty → Prop) : Value → Ty → Prop
  | unit : Built ctx inner .unit .unit
  | bool (value : Bool) : Built ctx inner (.bool value) .bool
  | int {n : Int} {k : IntType} (above : (ctx.options.bounds (.int k)).1 ≤ n)
      (below : n ≤ (ctx.options.bounds (.int k)).2) : Built ctx inner (.int n) (.int k)
  | float (value : Binary64) (k : FloatType) : Built ctx inner (.float value) (.float k)
  | string (value : Octets) : Built ctx inner (.string value) .string
  | tuple {values : List Value} {types : List Ty} (parts : List.Forall₂ inner values types) :
      Built ctx inner (.tuple values) (.tuple types)
  | array {values : List Value} {element : Ty} (parts : ∀ v ∈ values, inner v element) :
      Built ctx inner (.array values) (.array element)
  | struct {name : String} {args : List Ty} {values : List Value}
      (parts : List.Forall₂ inner values ((ctx.decls.fields name args).map Field.type)) :
      Built ctx inner (.struct ((ctx.decls.fields name args).map Field.name) values) (.struct name args)
  | variant {name : String} {args : List Ty} {d : EnumDef} {v : Variant} {values : List Value}
      (declared : ctx.decls.enum? name = some d) (member : v ∈ d.variants)
      (parts : List.Forall₂ inner values (Decls.slots d args v)) :
      Built ctx inner (.variant v.name (v.fields.map Field.name) values) (.enum name args)
  | ref {v : Value} {mutable : Bool} {target : Ty} (behind : inner v target) :
      Built ctx inner v (.ref mutable target)
  | abstract {v : Value} {t : Ty} (hidden : t.isAbstract = true) : Built ctx inner v t

theorem hasType_iff_built {ctx : Context} {x : Value} {t : Ty} :
    HasType ctx x t ↔ Built ctx (HasType ctx) x t := by
  constructor
  · intro typed
    cases typed with
    | unit => exact .unit
    | bool value => exact .bool value
    | int above below => exact .int above below
    | float value k => exact .float value k
    | string value => exact .string value
    | tuple parts => exact .tuple parts
    | array parts => exact .array parts
    | struct parts => exact .struct parts
    | variant declared member parts => exact .variant declared member parts
    | ref inner => exact .ref inner
    | abstract hidden => exact .abstract hidden
  · intro built
    cases built with
    | unit => exact .unit
    | bool value => exact .bool value
    | int above below => exact .int above below
    | float value k => exact .float value k
    | string value => exact .string value
    | tuple parts => exact .tuple parts
    | array parts => exact .array parts
    | struct parts => exact .struct parts
    | variant declared member parts => exact .variant declared member parts
    | ref inner => exact .ref inner
    | abstract hidden => exact .abstract hidden

theorem Built.mono {ctx : Context} {inner inner' : Value → Ty → Prop} {x : Value} {t : Ty}
    (built : Built ctx inner x t) (weaker : ∀ y s, inner y s → inner' y s) : Built ctx inner' x t := by
  cases built with
  | unit => exact .unit
  | bool value => exact .bool value
  | int above below => exact .int above below
  | float value k => exact .float value k
  | string value => exact .string value
  | tuple parts => exact .tuple (parts.imp weaker)
  | array parts => exact .array fun v member => weaker v _ (parts v member)
  | struct parts => exact .struct (parts.imp weaker)
  | variant declared member parts => exact .variant declared member (parts.imp weaker)
  | ref inner => exact .ref (weaker _ _ inner)
  | abstract hidden => exact .abstract hidden

def suits : Literal → Ty → Bool
  | .bool _, .bool => true
  | .int _, .int _ => true
  | .string _, .string => true
  | _, _ => false

mutual

/-- Whether a pattern is well formed against a type: literals, tuples, records, variants and lists
stand for values of the type behind its references, named fields exist and are mentioned once, and
only variants with named fields are matched by names. -/
def fits (decls : Decls) : Pattern → Ty → Bool
  | .wildcard _, _ => true
  | .binding b, _ => !b.name.isEmpty
  | .literal _ value, t => suits value t.strip.2
  | .range .., t => t.strip.2.isInteger
  | .tuple _ elements, t =>
    match t.strip.2 with
    | .unit => elements.isEmpty
    | .tuple types => fitsAll decls elements types
    | _ => false
  | .record _ _ fields _, t =>
    match t.strip.2 with
    | .struct name args => fitsFields decls fields (decls.fields name args)
    | _ => false
  | .variant _ _ tag args fields rest, t =>
    match t.strip.2 with
    | .enum name typeArgs =>
      match decls.enum? name with
      | none => false
      | some d =>
        match d.variant? tag with
        | none => false
        | some v =>
          let slots := Decls.slots d typeArgs v
          if v.isNamed then
            let declared := (v.fields.zip slots).map fun (f, type) => { f with type }
            args.isEmpty && fitsFields decls fields declared
          else fields.isEmpty && !rest && fitsAll decls args slots
    | _ => false
  | .list _ front isOpen rest, t =>
    match t.strip.2 with
    | .array element =>
      fitsEach decls front element && (isOpen || rest.isNone) && rest.all fun b => !b.name.isEmpty
    | _ => false
  | .alternatives _ choices, t => fitsEach decls choices t
  | .guarded _ inner _, t => fits decls inner t

def fitsEach (decls : Decls) : List Pattern → Ty → Bool
  | [], _ => true
  | p :: rest, t => fits decls p t && fitsEach decls rest t

def fitsAll (decls : Decls) : List Pattern → List Ty → Bool
  | [], [] => true
  | p :: rest, t :: types => fits decls p t && fitsAll decls rest types
  | _, _ => false

def fitsFields (decls : Decls) : List FieldPattern → List Field → Bool
  | [], _ => true
  | .mk name p :: rest, declared =>
    (declared.any fun f => f.name == name)
      && (declared.all fun f => f.name != name || fits decls p f.type)
      && !(rest.any fun other => other.name == name) && fitsFields decls rest declared

end

mutual

/-- The names that a pattern binds, one list for each way to choose among its alternatives. -/
def namings : Pattern → List (List String)
  | .wildcard _ | .literal .. | .range .. => [[]]
  | .binding b => [[b.name]]
  | .tuple _ elements => namingsAll elements
  | .list _ front _ rest => (namingsAll front).map (rest.toList.map (·.name) ++ ·)
  | .record _ _ fields _ => namingsFields fields
  | .variant _ _ _ args fields rest =>
    if !fields.isEmpty || rest then namingsFields fields else namingsAll args
  | .alternatives _ choices => namingsAny choices
  | .guarded _ inner _ => namings inner

def namingsAll : List Pattern → List (List String)
  | [] => [[]]
  | p :: rest => (namings p).flatMap fun names => (namingsAll rest).map (names ++ ·)

def namingsFields : List FieldPattern → List (List String)
  | [] => [[]]
  | .mk _ p :: rest => (namings p).flatMap fun names => (namingsFields rest).map (names ++ ·)

def namingsAny : List Pattern → List (List String)
  | [] => []
  | p :: rest => namings p ++ namingsAny rest

end

/-- No alternative of a pattern binds a name twice. -/
def bindsOnce (p : Pattern) : Bool := (namings p).all fun names => decide names.Nodup

/-- A pattern without float literals that is well formed against a type. -/
structure WellFormed (decls : Decls) (t : Ty) (p : Pattern) : Prop where
  fits : fits decls p t = true
  once : bindsOnce p = true

/-!
### Shapes

A pattern read against a type always yields a shape that suits the type, whether or not the pattern is
well formed; the columns of a matrix hold nothing else.
-/

namespace Shape

mutual

/-- Whether a shape tests only what values of a type have. Floats may be tested only where `floats`
says so. -/
def Fits (decls : Decls) (floats : Bool) : Shape → Ty → Prop
  | .any _, _ => True
  | .bool _, t => t = .bool
  | .variant v args, t => ∃ name typeArgs d, t = .enum name typeArgs ∧
      decls.enum? name = some d ∧ v ∈ d.variants ∧ FitsAll decls floats args (Decls.slots d typeArgs v)
  | .range .., t => ∃ k, t = .int k
  | .string _, t => t = .string
  | .float _, t => floats = true ∧ ∃ k, t = .float k
  | .list front _ _, t => ∃ element, t = .array element ∧ FitsEach decls floats front element
  | .product args, t => ∃ types, decls.productTypes? t = some types ∧ FitsAll decls floats args types
  | .target inner, t => ∃ mutable target, t = .ref mutable target ∧ Fits decls floats inner target
  | .choice alternatives, t => FitsEach decls floats alternatives t
  | .guarded inner, t => Fits decls floats inner t

def FitsEach (decls : Decls) (floats : Bool) : List Shape → Ty → Prop
  | [], _ => True
  | s :: rest, t => Fits decls floats s t ∧ FitsEach decls floats rest t

def FitsAll (decls : Decls) (floats : Bool) : List Shape → List Ty → Prop
  | [], [] => True
  | s :: rest, t :: types => Fits decls floats s t ∧ FitsAll decls floats rest types
  | _, _ => False

end

variable {decls : Decls} {floats : Bool}

theorem fitsEach_iff {shapes : List Shape} {t : Ty} :
    FitsEach decls floats shapes t ↔ ∀ s ∈ shapes, Fits decls floats s t := by
  induction shapes with
  | nil => simp [FitsEach]
  | cons s rest ih => simp [FitsEach, ih]

theorem fitsAll_iff {shapes : List Shape} {types : List Ty} :
    FitsAll decls floats shapes types ↔ List.Forall₂ (Fits decls floats) shapes types := by
  induction shapes generalizing types with
  | nil => cases types <;> simp [FitsAll]
  | cons s rest ih => cases types <;> simp [FitsAll, ih]

theorem fits_wild (t : Ty) : Fits decls floats wild t := trivial

theorem fitsAll_wilds (types : List Ty) : FitsAll decls floats (wilds types.length) types := by
  rw [fitsAll_iff]
  induction types with
  | nil => exact .nil
  | cons t types ih => exact .cons trivial ih

theorem fit_length (args : List Shape) : fit args args.length = args := by simp [fit, wilds]

/-- A shape for the type inside references is put behind as many of them. -/
theorem fits_behind (s : Shape) (t : Ty) (inner : Fits decls floats s t.strip.2) :
    Fits decls floats (behind t.strip.1 s) t := by
  induction t using Ty.strip.induct with
  | case1 mutable target count core stripped ih =>
    simp only [Ty.strip, behind] at inner ⊢
    exact ⟨mutable, target, rfl, ih inner⟩
  | case2 t other =>
    have bare : t.strip = (0, t) := by cases t <;> simp_all [Ty.strip]
    simpa only [bare, behind] using inner

theorem map_type_withTypes {fields : List Field} {types : List Ty}
    (sized : types.length ≤ fields.length) :
    ((fields.zip types).map fun (f, type) => ({ f with type } : Field)).map Field.type = types := by
  rw [List.map_map]
  exact List.map_snd_zip sized

theorem map_name_withTypes {fields : List Field} {types : List Ty}
    (sized : fields.length ≤ types.length) :
    ((fields.zip types).map fun (f, type) => ({ f with type } : Field)).map Field.name =
      fields.map Field.name := by
  rw [List.map_map, ← List.map_fst_zip sized, List.map_map]
  simp [List.map_fst_zip sized]

theorem length_slots {v : Variant} (named : v.isNamed) (d : EnumDef) (args : List Ty) :
    (Decls.slots d args v).length = v.fields.length := by
  simp [Decls.slots, Variant.slots, named]

private theorem fits_ofLiteral (value : Literal) (t : Ty) (allowed : floats = true ∨ suits value t) :
    Fits decls floats (ofLiteral value t) t := by
  cases value <;> cases t <;> simp_all [ofLiteral, Fits, wild, suits]

private theorem fitsAll_update {declared : List Field} {shapes : List Shape} (name : String)
    (p : Pattern) (fit : FitsAll decls floats shapes (declared.map Field.type))
    (named : ∀ f ∈ declared, f.name = name → Fits decls floats (ofPattern decls p f.type) f.type) :
    FitsAll decls floats ((declared.zip shapes).map fun (f, old) =>
      if f.name == name then ofPattern decls p f.type else old) (declared.map Field.type) := by
  induction declared generalizing shapes with
  | nil => trivial
  | cons f declared ih =>
    cases shapes with
    | nil => simp [FitsAll] at fit
    | cons s shapes =>
      simp only [List.map_cons, FitsAll, List.zip_cons_cons] at fit ⊢
      refine ⟨?_, ih fit.2 fun g member => named g (List.mem_cons_of_mem f member)⟩
      by_cases same : f.name = name
      · simpa [same] using named f (by simp) same
      · simpa [same] using fit.1

-- Float literals are the only reason to ask for a well-formed pattern, so the hypothesis of each
-- theorem is dropped where floats are allowed.
mutual

theorem ofPattern_fits : ∀ (p : Pattern) (t : Ty), floats = true ∨ fits decls p t = true →
    Fits decls floats (ofPattern decls p t) t
  | .wildcard _, _, _ => by simp [ofPattern, wild, Fits]
  | .binding _, _, _ => by simp [ofPattern, Fits]
  | .alternatives _ choices, t, allowed => by
    simp only [ofPattern, Fits]
    exact ofEach_fits choices t (by simpa [fits] using allowed)
  | .guarded _ inner _, t, allowed => by
    simp only [ofPattern, Fits]
    exact ofPattern_fits inner t (by simpa [fits] using allowed)
  | .literal _ value, t, allowed => by
    simp only [ofPattern]
    exact fits_behind _ t (fits_ofLiteral value _ (by simpa [fits] using allowed))
  | .range .., t, _ => by
    simp only [ofPattern]
    apply fits_behind
    cases core : t.strip.2 <;> simp [Fits, wild]
  | .tuple _ elements, t, allowed => by
    simp only [ofPattern]
    apply fits_behind
    simp only [fits] at allowed
    cases core : t.strip.2 with
    | unit => simp [Fits, Decls.productTypes?, FitsAll]
    | tuple types =>
      simp only [Fits, Decls.productTypes?, Option.some.injEq, exists_eq_left']
      exact ofAll_fits elements types (by simpa [core] using allowed)
    | _ => trivial
  | .record _ _ fields _, t, allowed => by
    simp only [ofPattern]
    apply fits_behind
    simp only [fits] at allowed
    cases core : t.strip.2 with
    | struct name args =>
      simp only [Fits, Decls.productTypes?, Option.some.injEq, exists_eq_left']
      apply ofFields_fits fields _ _ (by simpa [core] using allowed)
      simpa using fitsAll_wilds ((decls.fields name args).map Field.type)
    | _ => trivial
  | .variant _ _ tag args fields rest, t, allowed => by
    simp only [ofPattern]
    apply fits_behind
    simp only [fits] at allowed
    cases core : t.strip.2 with
    | enum name typeArgs =>
      simp only [core] at allowed ⊢
      cases known : decls.enum? name with
      | none => trivial
      | some d =>
        simp only [known] at allowed ⊢
        cases found : d.variant? tag with
        | none => trivial
        | some v =>
          have member : v ∈ d.variants := List.mem_of_find?_eq_some found
          simp only [found] at allowed ⊢
          by_cases named : v.isNamed
          · simp only [named, if_true, Fits] at allowed ⊢
            refine ⟨name, typeArgs, d, rfl, known, member, ?_⟩
            have slots := map_type_withTypes (Nat.le_of_eq (length_slots named d typeArgs))
            have result := ofFields_fits fields _ (wilds (Decls.slots d typeArgs v).length)
              (allowed.imp_right fun ok => (Bool.and_eq_true _ _ ▸ ok).2)
              (by rw [slots]; exact fitsAll_wilds _)
            rwa [slots] at result
          · simp only [named, Bool.false_eq_true, if_false, Fits] at allowed ⊢
            refine ⟨name, typeArgs, d, rfl, known, member, ?_⟩
            exact ofAll_fits args _
              (allowed.imp_right fun ok => (Bool.and_eq_true _ _ ▸ ok).2)
    | _ => trivial
  | .list _ front isOpen rest, t, allowed => by
    simp only [ofPattern]
    apply fits_behind
    simp only [fits] at allowed
    cases core : t.strip.2 with
    | array element =>
      simp only [core, Bool.and_eq_true] at allowed
      exact ⟨element, rfl, ofEach_fits front element (allowed.imp_right fun ok => ok.1.1)⟩
    | _ => trivial

theorem ofEach_fits : ∀ (ps : List Pattern) (t : Ty), floats = true ∨ fitsEach decls ps t = true →
    FitsEach decls floats (ofEach decls ps t) t
  | [], _, _ => by simp [ofEach, FitsEach]
  | p :: rest, t, allowed => by
    simp only [fitsEach, Bool.and_eq_true] at allowed
    simp only [ofEach, FitsEach]
    exact ⟨ofPattern_fits p t (allowed.imp_right And.left),
      ofEach_fits rest t (allowed.imp_right And.right)⟩

theorem ofAll_fits : ∀ (ps : List Pattern) (types : List Ty),
    floats = true ∨ fitsAll decls ps types = true →
    FitsAll decls floats (ofAll decls ps types) types
  | [], types, _ => by simpa [ofAll] using fitsAll_wilds types
  | _ :: _, [], _ => by simp [ofAll, FitsAll]
  | p :: rest, t :: types, allowed => by
    simp only [fitsAll, Bool.and_eq_true] at allowed
    simp only [ofAll, FitsAll]
    exact ⟨ofPattern_fits p t (allowed.imp_right And.left),
      ofAll_fits rest types (allowed.imp_right And.right)⟩

theorem ofFields_fits : ∀ (fields : List FieldPattern) (declared : List Field) (shapes : List Shape),
    floats = true ∨ fitsFields decls fields declared = true →
    FitsAll decls floats shapes (declared.map Field.type) →
    FitsAll decls floats (ofFields decls fields declared shapes) (declared.map Field.type)
  | [], _, _, _, fit => by simpa [ofFields] using fit
  | .mk name p :: rest, declared, shapes, allowed, fit => by
    simp only [fitsFields, Bool.and_eq_true] at allowed
    simp only [ofFields]
    refine ofFields_fits rest declared _ (allowed.imp_right And.right) ?_
    refine fitsAll_update name p fit fun f member same => ofPattern_fits p f.type ?_
    refine allowed.imp_right fun ok => ?_
    have fitting := List.all_eq_true.mp ok.1.1.2 f member
    simpa [same] using fitting

end

end Shape

end Match

end TreeCheck
