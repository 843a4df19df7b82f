import Mathlib.Data.List.Basic
import TreeCheck.Ty.Basic

/-!
Types as trees. Types are put in the place of variables; what is known about the result comes from the
type and from what is put in, part by part. All places are filled at once, so that arguments may be completed before
they are put in the place of parameters or after, and what they mention is not captured.
-/

namespace TreeCheck.Ty

/-- The types that a type is made of. -/
def children : Ty → List Ty
  | .struct _ args | .enum _ args | .tuple args => args
  | .array part | .ref _ part => [part]
  | .function params result => params ++ [result]
  | _ => []

section
-- The equations of these definitions are made here once, so that no proof below waits while another makes them.
attribute [local simp] children parts partsAll depth depthAll replace replaceAll product mentions
end

theorem sizeOf_child {t child : Ty} (member : child ∈ t.children) : sizeOf child < sizeOf t := by
  cases t <;> simp only [children, List.mem_append, List.mem_singleton, List.not_mem_nil] at member
  case function params result =>
    rcases member with member | rfl
    · have := List.sizeOf_lt_of_mem member
      simp only [function.sizeOf_spec]
      omega
    · simp only [function.sizeOf_spec]
      omega
  case array => simp [member]
  case ref => simp [member]
  all_goals
    have := List.sizeOf_lt_of_mem member
    simp only [struct.sizeOf_spec, enum.sizeOf_spec, tuple.sizeOf_spec]
    omega

/-- What holds of a type when it holds of its children holds of all types. -/
theorem child_induction {P : Ty → Prop} (step : ∀ t, (∀ child ∈ t.children, P child) → P t) (t : Ty) : P t :=
  step t fun child _ => child_induction step child
termination_by sizeOf t
decreasing_by exact sizeOf_child ‹_›

theorem partsAll_eq (types : List Ty) : partsAll types = types.flatMap parts := by
  induction types with
  | nil => rfl
  | cons t types ih => rw [partsAll, ih, List.flatMap_cons]

theorem parts_eq (t : Ty) : t.parts = t :: t.children.flatMap parts := by
  cases t <;> simp [parts, children, partsAll_eq]

theorem mem_parts {t part : Ty} :
    part ∈ t.parts ↔ part = t ∨ ∃ child ∈ t.children, part ∈ child.parts := by
  rw [parts_eq, List.mem_cons, List.mem_flatMap]

theorem self_mem_parts (t : Ty) : t ∈ t.parts := mem_parts.mpr (.inl rfl)

theorem mem_parts_child {t child part : Ty} (member : child ∈ t.children) (inside : part ∈ child.parts) :
    part ∈ t.parts :=
  mem_parts.mpr (.inr ⟨child, member, inside⟩)

@[simp] theorem mem_parts_var {part : Ty} {id : Nat} {c : LiteralClass} :
    part ∈ (var id c).parts ↔ part = .var id c := by
  simp [parts]

theorem mentions_iff {id : Nat} {t : Ty} : t.mentions id = true ↔ ∃ c, .var id c ∈ t.parts := by
  rw [mentions, List.any_eq_true]
  constructor
  · rintro ⟨part, member, found⟩
    cases part <;> simp at found
    subst found
    exact ⟨_, member⟩
  · rintro ⟨c, member⟩
    exact ⟨_, member, by simp⟩

theorem depthAll_le {types : List Ty} {bound : Nat} :
    depthAll types ≤ bound ↔ ∀ t ∈ types, t.depth ≤ bound := by
  induction types with
  | nil => simp [depthAll]
  | cons t types ih => rw [depthAll, Nat.max_le, ih, List.forall_mem_cons]

theorem depthAll_append (front back : List Ty) :
    depthAll (front ++ back) = max (depthAll front) (depthAll back) := by
  induction front with
  | nil => simp [depthAll]
  | cons t front ih => simp [depthAll, ih, Nat.max_assoc]

theorem depth_child {t child : Ty} (member : child ∈ t.children) : child.depth < t.depth := by
  cases t <;> simp only [children, List.mem_append, List.mem_singleton, List.not_mem_nil] at member
  case function params result =>
    rcases member with member | rfl
    · have := depthAll_le.mp (Nat.le_refl _) child member
      simp only [depth]
      omega
    · simp only [depth]
      omega
  case array => simp [member, depth]
  case ref => simp [member, depth]
  all_goals exact Nat.lt_succ_of_le (depthAll_le.mp (Nat.le_refl _) child member)

/-! ### Replacing parameters and variables -/

section

variable {t : Ty} {param param' : String → Ty} {var var' : Nat → LiteralClass → Ty}

theorem replaceAll_map (param : String → Ty) (var : Nat → LiteralClass → Ty) (types : List Ty) :
    replaceAll param var types = types.map (replace param var) := by
  induction types with
  | nil => rfl
  | cons t rest ih => rw [replaceAll, ih, List.map_cons]

@[simp] theorem replace_product (types : List Ty) :
    (product types).replace param var = product (types.map (replace param var)) := by
  cases types <;> simp [product, replace, replaceAll_map]

@[simp] theorem children_product (types : List Ty) : (product types).children = types := by
  cases types <;> rfl

/-- Only the parameters and variables that occur in a type matter. -/
theorem replace_congr (params : ∀ name, .generic name ∈ t.parts → param name = param' name)
    (vars : ∀ id c, .var id c ∈ t.parts → var id c = var' id c) : t.replace param var = t.replace param' var' := by
  induction t using child_induction with
  | step t ih =>
    have each : ∀ child ∈ t.children, child.replace param var = child.replace param' var' := fun child member =>
      ih child member (fun name inside => params name (mem_parts_child member inside)) fun id c inside =>
        vars id c (mem_parts_child member inside)
    cases t with
    | generic name => exact params name (self_mem_parts _)
    | var id c => exact vars id c (self_mem_parts _)
    | function args result =>
      simpa [replace, replaceAll_map, children, or_imp, forall_and, List.map_inj_left] using each
    | tuple types =>
      simp only [replace, replaceAll_map]
      exact congrArg product (List.map_congr_left each)
    | struct | enum | array | ref => simpa [replace, replaceAll_map, children] using each
    | unit | bool | int | float | string | invalid => rfl

theorem replace_replace (t : Ty) : (t.replace param var).replace param' var' =
    t.replace (fun name => (param name).replace param' var') fun id c => (var id c).replace param' var' := by
  induction t using child_induction with
  | step t ih =>
    cases t with
    | function args result =>
      simpa [replace, replaceAll_map, children, or_imp, forall_and, List.map_inj_left] using ih
    | tuple types =>
      simp only [replace, replaceAll_map, replace_product, List.map_map]
      exact congrArg product (List.map_congr_left ih)
    | struct | enum | array | ref => simpa [replace, replaceAll_map, children] using ih
    | generic | var | unit | bool | int | float | string | invalid => rfl

end

/-- Puts types in the place of variables. -/
def fill (σ : Nat → LiteralClass → Ty) (t : Ty) : Ty := t.replace .generic σ

section

variable (σ τ : Nat → LiteralClass → Ty)

theorem replaceAll_eq (types : List Ty) : replaceAll .generic σ types = types.map (fill σ) :=
  replaceAll_map .generic σ types

@[simp] theorem fill_var (id : Nat) (c : LiteralClass) : (var id c).fill σ = σ id c := rfl

@[simp] theorem fill_product (types : List Ty) :
    (product types).fill σ = product (types.map (fill σ)) := replace_product types

@[simp] theorem fill_struct (name : String) (args : List Ty) :
    (struct name args).fill σ = .struct name (args.map (fill σ)) := by
  rw [← replaceAll_eq]; rfl

@[simp] theorem fill_enum (name : String) (args : List Ty) :
    (enum name args).fill σ = .enum name (args.map (fill σ)) := by
  rw [← replaceAll_eq]; rfl

@[simp] theorem fill_tuple (elements : List Ty) :
    (tuple elements).fill σ = product (elements.map (fill σ)) := by
  rw [← replaceAll_eq]; rfl

@[simp] theorem fill_array (element : Ty) : (array element).fill σ = .array (element.fill σ) := rfl

@[simp] theorem fill_ref (mutable : Bool) (target : Ty) :
    (ref mutable target).fill σ = .ref mutable (target.fill σ) := rfl

@[simp] theorem fill_function (params : List Ty) (result : Ty) :
    (function params result).fill σ = .function (params.map (fill σ)) (result.fill σ) := by
  rw [← replaceAll_eq]; rfl

@[simp] theorem fill_unit : unit.fill σ = .unit := rfl

@[simp] theorem fill_bool : bool.fill σ = .bool := rfl

@[simp] theorem fill_int (k : IntType) : (int k).fill σ = .int k := rfl

@[simp] theorem fill_float (k : FloatType) : (float k).fill σ = .float k := rfl

@[simp] theorem fill_string : string.fill σ = .string := rfl

@[simp] theorem fill_generic (name : String) : (generic name).fill σ = .generic name := rfl

@[simp] theorem fill_invalid : invalid.fill σ = .invalid := rfl

theorem children_fill {t : Ty} (plain : t.isVar = false) :
    (t.fill σ).children = t.children.map (fill σ) := by
  cases t <;> simp [children, isVar] at plain ⊢
  case tuple elements => exact children_product _

variable {σ τ}

theorem fill_congr {t : Ty} (agree : ∀ id c, .var id c ∈ t.parts → σ id c = τ id c) :
    t.fill σ = t.fill τ := replace_congr (fun _ _ => rfl) agree

theorem fill_fill (t : Ty) : (t.fill σ).fill τ = t.fill fun id c => (σ id c).fill τ := replace_replace t

/-- Only a faulty type is filled to one, and only variables to variables. -/
theorem eq_fill_iff {t part : Ty} (atom : part.isVar = true ∨ part = .invalid)
    (plain : t.isVar = false) : part = t.fill σ ↔ part = .invalid ∧ part = t := by
  have noProduct (types : List Ty) : part ≠ product types := by
    rintro rfl
    cases types <;> simp [product, Ty.isVar] at atom
  rcases atom with isVar | rfl
  · cases part <;> simp [Ty.isVar] at isVar
    cases t <;> simp_all [Ty.isVar]
  · cases t <;> simp_all [Ty.isVar]

/-- A variable or a faulty type in a filled type comes from what was put in, or was there before. -/
theorem mem_parts_fill {t part : Ty} (atom : part.isVar = true ∨ part = .invalid) :
    part ∈ (t.fill σ).parts ↔ part = .invalid ∧ part ∈ t.parts ∨
      ∃ id c, .var id c ∈ t.parts ∧ part ∈ (σ id c).parts := by
  induction t using child_induction with
  | step t ih =>
    by_cases plain : t.isVar = true
    · cases t <;> simp [isVar] at plain
      simp
      rintro rfl
      simp
    · have plain : t.isVar = false := by simpa using plain
      have notSelf (id : Nat) (c : LiteralClass) : .var id c ≠ t := by
        rintro rfl
        simp [isVar] at plain
      rw [mem_parts, eq_fill_iff atom plain, children_fill σ plain]
      simp only [List.mem_map, exists_exists_and_eq_and]
      constructor
      · rintro (⟨faulty, same⟩ | ⟨child, member, inside⟩)
        · exact .inl ⟨faulty, same ▸ self_mem_parts _⟩
        · rcases (ih child member).mp inside with ⟨faulty, within⟩ | ⟨id, c, within, origin⟩
          · exact .inl ⟨faulty, mem_parts_child member within⟩
          · exact .inr ⟨id, c, mem_parts_child member within, origin⟩
      · rintro (⟨faulty, inside⟩ | ⟨id, c, inside, origin⟩)
        · rcases mem_parts.mp inside with same | ⟨child, member, within⟩
          · exact .inl ⟨faulty, same⟩
          · exact .inr ⟨child, member, (ih child member).mpr (.inl ⟨faulty, within⟩)⟩
        · rcases mem_parts.mp inside with same | ⟨child, member, within⟩
          · exact absurd same (notSelf id c)
          · exact .inr ⟨child, member, (ih child member).mpr (.inr ⟨id, c, within, origin⟩)⟩

/-- What is put in is no deeper than the whole. -/
theorem depth_fill_of_mem {t : Ty} {id : Nat} {c : LiteralClass} (inside : .var id c ∈ t.parts) :
    (σ id c).depth ≤ (t.fill σ).depth ∧ (t.isVar = false → (σ id c).depth < (t.fill σ).depth) := by
  induction t using child_induction with
  | step t ih =>
    rcases mem_parts.mp inside with rfl | ⟨child, member, within⟩
    · exact ⟨Nat.le_refl _, by simp [isVar]⟩
    · have plain : t.isVar = false := by cases t <;> simp [children, isVar] at member ⊢
      have below : (child.fill σ).depth < (t.fill σ).depth :=
        depth_child (by rw [children_fill σ plain]; exact List.mem_map_of_mem member)
      have deep := (ih child member within).1
      exact ⟨by omega, fun _ => by omega⟩

theorem depth_fill_le {t : Ty} {bound : Nat}
    (shallow : ∀ id c, .var id c ∈ t.parts → (σ id c).depth ≤ bound) :
    (t.fill σ).depth ≤ t.depth + bound := by
  induction t using child_induction with
  | step t ih =>
    have every : ∀ child ∈ t.children, (child.fill σ).depth ≤ child.depth + bound :=
      fun child member => ih child member fun id c inside =>
        shallow id c (mem_parts_child member inside)
    have all : depthAll (t.children.map (fill σ)) ≤ depthAll t.children + bound := by
      refine depthAll_le.mpr fun filled member => ?_
      obtain ⟨child, inside, rfl⟩ := List.mem_map.mp member
      have := depthAll_le.mp (Nat.le_refl _) child inside
      have := every child inside
      omega
    have product_le (types : List Ty) : (product types).depth ≤ depthAll types + 1 := by
      cases types <;> simp [product, depth]
    cases t
    case var id c => simpa [depth] using shallow id c (self_mem_parts _)
    case tuple elements =>
      have := product_le (elements.map (fill σ))
      simp only [fill_tuple, depth, children] at all ⊢
      omega
    all_goals simp [depth, depthAll, depthAll_append, children] at all ⊢ <;> omega

/-- Two types have the same outermost form and as many children. -/
def alike : Ty → Ty → Bool
  | .struct a as, .struct b bs => a == b && as.length == bs.length
  | .enum a as, .enum b bs => a == b && as.length == bs.length
  | .tuple as, .tuple bs => as.length == bs.length
  | .array _, .array _ => true
  | .ref m _, .ref n _ => m == n
  | .function as _, .function bs _ => as.length == bs.length
  | a, b => a.same b

theorem map_fill_eq_iff {as bs : List Ty} : as.map (fill σ) = bs.map (fill σ) ↔
    as.length = bs.length ∧ ∀ pair ∈ as.zip bs, pair.1.fill σ = pair.2.fill σ := by
  induction as generalizing bs with
  | nil => cases bs <;> simp
  | cons a as ih =>
    cases bs with
    | nil => simp
    | cons b bs =>
      simp [ih]
      tauto

/-- The empty product is spelled otherwise; all others stay tuples. -/
theorem fill_tuple_some {types : List Ty} (some : tuple types ≠ .tuple []) :
    (tuple types).fill σ = .tuple (types.map (fill σ)) := by
  cases types with
  | nil => exact absurd rfl some
  | cons => exact fill_tuple σ _

/-- Filled types are equal exactly when the forms agree and the children are filled to equal ones. -/
theorem fill_eq_iff {a b : Ty} (plainA : a.isVar = false) (plainB : b.isVar = false)
    (someA : a ≠ .tuple []) (someB : b ≠ .tuple []) :
    a.fill σ = b.fill σ ↔
      a.alike b = true ∧ ∀ pair ∈ a.children.zip b.children, pair.1.fill σ = pair.2.fill σ := by
  cases a
  case tuple as =>
    rw [fill_tuple_some someA]
    cases b
    case tuple bs =>
      rw [fill_tuple_some someB]
      simp [alike, children, map_fill_eq_iff]
    all_goals simp [alike, same, isVar] at plainB ⊢
  case function as a =>
    cases b
    case function bs b =>
      simp only [fill_function, function.injEq, map_fill_eq_iff, alike, beq_iff_eq, children]
      rw [and_assoc]
      refine and_congr_right fun sized => ?_
      rw [List.zip_append sized]
      simp [or_imp, forall_and]
    case tuple bs => simp [fill_tuple_some someB, alike, same, -fill_tuple]
    all_goals simp [alike, same, isVar] at plainB ⊢
  all_goals
    cases b
    case tuple bs => simp [fill_tuple_some someB, alike, same, isVar, -fill_tuple] at plainA ⊢
    all_goals simp_all [alike, same, children, isVar, map_fill_eq_iff, and_assoc]

end

/-! ### Arguments for parameters -/

section

variable {t : Ty}

theorem hasVars_eq_false : t.hasVars = false ↔ ∀ id c, .var id c ∉ t.parts := by
  simp only [hasVars, List.any_eq_false, Bool.not_eq_true]
  constructor
  · exact fun shut id c inside => by simpa [isVar] using shut _ inside
  · intro shut part inside
    cases part with
    | var id c => exact absurd inside (shut id c)
    | _ => rfl

theorem hasVars_eq (t : Ty) : t.hasVars = (t.isVar || t.children.any hasVars) := by
  rw [hasVars, parts_eq, List.any_cons, List.any_flatMap]
  rfl

theorem hasVars_product (types : List Ty) : (product types).hasVars = types.any hasVars := by
  rw [hasVars_eq, children_product]
  cases types <;> rfl

theorem argument?_mem {name : String} {params : List String} {args : List Ty} {a : Ty}
    (found : argument? name params args = some a) : a ∈ args := by
  induction params, args using argument?.induct with
  | case1 param params arg args ih =>
    rw [argument?, Option.or_eq_some_iff] at found
    rcases found with later | ⟨-, here⟩
    · exact List.mem_cons_of_mem _ (ih later)
    · split at here
      · cases here
        exact List.mem_cons_self
      · cases here
  | case2 params args stop => simp [argument?] at found

theorem argument?_map (f : Ty → Ty) (name : String) (params : List String) (args : List Ty) :
    argument? name params (args.map f) = (argument? name params args).map f := by
  induction params, args using argument?.induct with
  | case1 param params arg args ih =>
    rw [List.map_cons, argument?, argument?, ih]
    cases argument? name params args <;> by_cases same : param == name <;> simp [same]
  | case2 params args stop =>
    cases params <;> cases args <;> first
      | exact (stop _ _ _ _ rfl rfl).elim
      | rfl

/-- Each parameter has an argument where there are as many of them. -/
theorem exists_argument {name : String} {params : List String} {args : List Ty} (sized : args.length = params.length)
    (member : name ∈ params) : ∃ a, argument? name params args = some a := by
  induction params generalizing args with
  | nil => cases member
  | cons param params ih =>
    obtain _ | ⟨arg, args⟩ := args
    · cases sized
    · rw [argument?]
      by_cases later : name ∈ params
      · obtain ⟨a, found⟩ := ih (Nat.succ.inj sized) later
        exact ⟨a, by rw [found, Option.some_or]⟩
      · have here : param = name := ((List.mem_cons.mp member).resolve_right later).symm
        cases argument? name params args with
        | none => exact ⟨arg, by simp [here]⟩
        | some a => exact ⟨a, rfl⟩

/-- What replaces variables alone can be done to the arguments of a type that has none. -/
theorem fill_instantiate (shut : t.hasVars = false) (σ : Nat → LiteralClass → Ty) (params : List String)
    (args : List Ty) : (t.instantiate params args).fill σ = t.instantiate params (args.map (fill σ)) := by
  unfold instantiate
  rw [fill, replace_replace]
  refine replace_congr (fun name _ => ?_) fun id c inside => absurd inside (hasVars_eq_false.mp shut id c)
  rw [argument?_map]
  cases argument? name params args <;> rfl

/-- Where every parameter of a type has an argument, further arguments go to the arguments alone. -/
theorem instantiate_instantiate {params : List String} {args : List Ty} (sized : args.length = params.length)
    (covered : ∀ name, .generic name ∈ t.parts → name ∈ params) (others : List String) (more : List Ty) :
    (t.instantiate params args).instantiate others more =
      t.instantiate params (args.map (instantiate others more)) := by
  unfold instantiate
  rw [replace_replace]
  refine replace_congr (fun name inside => ?_) fun _ _ _ => rfl
  obtain ⟨a, found⟩ := exists_argument sized (covered name inside)
  rw [argument?_map, found]
  rfl

end

end TreeCheck.Ty
