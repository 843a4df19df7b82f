import TreeCheck.Proofs.Match.Typed
import TreeCheck.Proofs.Symbol.Collection
import TreeCheck.Proofs.Syntax.Decoded

/-!
The declarations of a program are regular, whatever was reported about them: a field or variant that comes twice
is left out, and the variants are counted.
-/

namespace TreeCheck

namespace Collection

theorem resolveFields_nodup (params : List String) (owner : String) (ds : List FieldDecl) :
    ∀ (c : Collection) (fields : List Field), (fields.map Field.name).Nodup →
      ((resolveFields params owner c fields ds).1.map Field.name).Nodup := by
  induction ds with
  | nil => exact fun _ _ start => start
  | cons d ds ih =>
    intro c fields start
    rw [resolveFields]
    split
    · exact ih _ fields start
    next free => exact ih _ _ (nodup_map_append start free)

theorem length_resolveAll (params : List String) (ts : List (Option WrittenType)) :
    ∀ c : Collection, (resolveAll params c ts).1.length = ts.length := by
  induction ts with
  | nil => exact fun _ => rfl
  | cons t ts ih => exact fun c => congrArg (· + 1) (ih _)

/-- Variants that are read one after the other: no two have the same name, and each is numbered by its
place. -/
structure Listed (variants : List Variant) : Prop where
  names : (variants.map Variant.name).Nodup
  indices : variants.map Variant.index = List.range variants.length
  payloads : ∀ v ∈ variants, (v.fields.map Field.name).Nodup

theorem resolveVariants_listed (params : List String) (enum : String) (ds : List VariantDecl)
    (apart : ∀ d ∈ ds, (d.fields.map FieldDecl.name).Nodup) :
    ∀ (c : Collection) (variants : List Variant), Listed variants →
      Listed (resolveVariants params enum c variants ds).1 := by
  induction ds with
  | nil => exact fun _ _ start => start
  | cons d ds ih =>
    obtain ⟨own, others⟩ := List.forall_mem_cons.mp apart
    intro c variants start
    rw [resolveVariants]
    split
    · exact ih others _ variants start
    next free =>
      refine ih others _ _ ⟨nodup_map_append start.names free, ?_, ?_⟩
      · simp [start.indices, List.range_succ]
      refine List.forall_mem_append.mpr ⟨start.payloads, List.forall_mem_singleton.mpr ?_⟩
      have length :=
        length_resolveAll params (d.fields.map fun f => some f.type) (resolveAll params c d.payload).2
      rw [List.length_map] at length
      have paired := List.map_fst_zip (Nat.le_of_eq length.symm)
      have names := congrArg (List.map FieldDecl.name) paired
      rw [List.map_map] at names ⊢
      exact names ▸ own

def Steady (c : Collection) : Prop := c.table.decls.Regular

variable {c : Collection}

theorem Steady.setFields (steady : c.Steady) (name : String) {fields : List Field}
    (different : (fields.map Field.name).Nodup) : (c.setFields name fields).Steady := by
  refine ⟨fun d member => ?_, steady.variants, steady.indices, steady.payloads⟩
  obtain ⟨before, inside, rfl⟩ := List.mem_map.mp member
  split
  · exact different
  · exact steady.fields before inside

theorem Steady.setVariants (steady : c.Steady) (name : String) {variants : List Variant}
    (listed : Listed variants) : (c.setVariants name variants).Steady := by
  have each (property : List Variant → Prop) (old : ∀ d ∈ c.table.decls.enums, property d.variants)
      (new : property variants) : ∀ d ∈ (c.setVariants name variants).table.decls.enums, property d.variants := by
    intro d member
    obtain ⟨before, inside, rfl⟩ := List.mem_map.mp member
    split
    · exact new
    · exact old before inside
  have counted : (variants.map Variant.index).Nodup := listed.indices ▸ List.nodup_range
  exact ⟨steady.fields, each (fun variants => (variants.map Variant.name).Nodup) steady.variants listed.names,
    each (fun variants => (variants.map Variant.index).Nodup) steady.indices counted,
    each (fun variants => ∀ v ∈ variants, (v.fields.map Field.name).Nodup) steady.payloads listed.payloads⟩

theorem Steady.collectStructs (steady : c.Steady) (d : StructDecl) : (c.collectStructs d).Steady := by
  have read := (resolveFields_reads d.typeParams d.name d.fields c []).table
  have kept : (resolveFields d.typeParams d.name c [] d.fields).2.Steady := by rwa [Steady, read]
  exact kept.setFields d.name (resolveFields_nodup d.typeParams d.name d.fields c [] List.nodup_nil)

theorem Steady.collectEnums (steady : c.Steady) {d : EnumDecl} (apart : (Item.enum d).Apart) :
    (c.collectEnums d).Steady := by
  have read := (resolveVariants_reads d.typeParams d.name d.variants c []).table
  have kept : (resolveVariants d.typeParams d.name c [] d.variants).2.Steady := by rwa [Steady, read]
  exact kept.setVariants d.name (resolveVariants_listed d.typeParams d.name d.variants apart c []
    ⟨List.nodup_nil, rfl, List.forall_mem_nil _⟩)

theorem Steady.collectStruct (steady : c.Steady) (item : Item) : (c.collectStruct item).Steady := by
  cases item with
  | struct d => exact steady.collectStructs d
  | enum d | function f => exact steady

theorem Steady.collectEnum (steady : c.Steady) {item : Item} (apart : item.Apart) :
    (c.collectEnum item).Steady := by
  cases item with
  | enum d => exact steady.collectEnums apart
  | struct d | function f => exact steady

/-- Declaring an item changes nothing, or takes a free name for a type that has no members yet. -/
theorem declare_cases (c : Collection) (item : Item) : (c.declare item).table = c.table ∨
    ∃ name span params, name ∉ c.table.spans.map Prod.fst ∧ Ty.ofName? name = none ∧
      (c.declare item).table.spans = c.table.spans ++ [(name, span)] ∧
      ((c.declare item).table.decls =
          { c.table.decls with structs := c.table.decls.structs ++ [⟨name, params, []⟩] } ∨
        (c.declare item).table.decls =
          { c.table.decls with enums := c.table.decls.enums ++ [⟨name, params, []⟩] }) := by
  have typed (name : String) (span : Span) : (c.declareType name span).2 = false ∧
      (c.declareType name span).1.table = c.table ∨ c.declareType name span =
        ({ c with table := { c.table with spans := c.table.spans ++ [(name, span)] } }, true) ∧
        name ∉ c.table.spans.map Prod.fst ∧ Ty.ofName? name = none := by
    unfold declareType
    split
    · exact .inl ⟨rfl, rfl⟩
    next other =>
      split
      · exact .inl ⟨rfl, rfl⟩
      next free =>
        refine .inr ⟨rfl, fun member => free ?_, by simpa using other⟩
        obtain ⟨entry, inside, rfl⟩ := List.mem_map.mp member
        simp only [Table.span?, Option.isSome_map, List.find?_isSome]
        exact ⟨entry, inside, beq_self_eq_true _⟩
  cases item with
  | function f => exact .inl rfl
  | struct d =>
    unfold Collection.declare
    dsimp only
    rcases typed d.name d.span with ⟨old, same⟩ | ⟨new, free, other⟩
    · split
      next ran => simp [ran] at old
      next ran =>
        rw [ran] at same
        exact .inl same
    · rw [new]
      exact .inr ⟨d.name, d.span, d.typeParams, free, other, rfl, .inl rfl⟩
  | enum d =>
    unfold Collection.declare
    dsimp only
    rcases typed d.name d.span with ⟨old, same⟩ | ⟨new, free, other⟩
    · split
      next ran => simp [ran] at old
      next ran =>
        rw [ran] at same
        exact .inl same
    · rw [new]
      exact .inr ⟨d.name, d.span, d.typeParams, free, other, rfl, .inr rfl⟩

theorem Steady.declare (steady : c.Steady) (item : Item) : (c.declare item).Steady := by
  unfold Steady at steady ⊢
  rcases c.declare_cases item with same | ⟨name, span, params, -, -, -, same | same⟩
  · rwa [same]
  · rw [same]
    exact { steady with
      fields := List.forall_mem_append.mpr ⟨steady.fields, List.forall_mem_singleton.mpr List.nodup_nil⟩ }
  · rw [same]
    have each {property : EnumDef → Prop} (old : ∀ e ∈ c.table.decls.enums, property e)
        (new : property ⟨name, params, []⟩) := List.forall_mem_append.mpr ⟨old, List.forall_mem_singleton.mpr new⟩
    exact ⟨steady.fields, each steady.variants List.nodup_nil, each steady.indices List.nodup_nil,
      each steady.payloads (List.forall_mem_nil _)⟩

end Collection

namespace Program

theorem registered_steady (items : List Item) :
    (registered items).1.Steady ∧ ∀ item ∈ (registered items).2, item ∈ items := by
  let start : Collection × List Item :=
    ({ table := { functions := builtins.map fun name => (name, builtinSignature name) } }, [])
  have regular : start.1.Steady := by constructor <;> exact List.forall_mem_nil _
  refine List.foldlRecOn
    (motive := fun out : Collection × List Item => out.1.Steady ∧ ∀ item ∈ out.2, item ∈ items) items _
    (⟨regular, List.forall_mem_nil _⟩ : start.1.Steady ∧ ∀ item ∈ start.2, item ∈ items)
    fun out known item member => ⟨known.1.declare item, ?_⟩
  dsimp only
  split
  · exact List.forall_mem_append.mpr ⟨known.2, List.forall_mem_singleton.mpr member⟩
  · exact known.2

/-- Whatever was reported, the declarations of a program that was read are regular. -/
theorem collect_regular {p : Program} (decoded : p.Decoded) : p.collect.1.decls.Regular := by
  obtain ⟨steady, kept⟩ := registered_steady p.items
  have structs := List.foldlRecOn (registered p.items).2 Collection.collectStruct steady fun c known item _ =>
    known.collectStruct item
  have enums := List.foldlRecOn (registered p.items).2 Collection.collectEnum structs fun c known item member =>
    known.collectEnum (decoded.apart _ (kept _ member))
  have same : p.collect.1.decls = _ := (Collection.collectFunctions_collects p.functions.zipIdx _).1.decls
  rw [same]
  exact enums

end Program

/-! ### Names of types -/

namespace Decls

/-- The names of the declared types. -/
def names (decls : Decls) : List String := decls.structs.map StructDef.name ++ decls.enums.map EnumDef.name

/-- No two declared types have one name, and none has the name of a primitive type. -/
structure Distinct (decls : Decls) : Prop where
  names : decls.names.Nodup
  primitive : ∀ name ∈ decls.names, Ty.ofName? name = none

end Decls

namespace Collection

/-- The declared types of a collection are told apart by their names, which are taken. -/
structure Apart (c : Collection) : Prop where
  distinct : c.table.decls.Distinct
  taken : ∀ name ∈ c.table.decls.names, name ∈ c.table.spans.map Prod.fst

variable {c c' : Collection}

theorem Apart.declare (apart : c.Apart) (item : Item) : (c.declare item).Apart := by
  rcases c.declare_cases item with same | ⟨name, span, params, free, other, spans, added⟩
  · exact ⟨same ▸ apart.distinct, same ▸ apart.taken⟩
  · have names : (c.declare item).table.decls.names.Perm (name :: c.table.decls.names) := by
      rcases added with same | same <;> rw [same] <;> simp only [Decls.names, List.map_append, List.map_cons,
        List.map_nil, List.append_assoc]
      · exact List.perm_middle
      · exact (List.perm_append_singleton _ _).append_left _ |>.trans List.perm_middle
    have new : name ∉ c.table.decls.names := fun member => free (apart.taken name member)
    refine ⟨⟨names.nodup_iff.mpr (List.nodup_cons.mpr ⟨new, apart.distinct.names⟩), ?_⟩, ?_⟩
    · exact fun n member => (List.mem_cons.mp (names.mem_iff.mp member)).elim (· ▸ other) (apart.distinct.primitive n)
    · intro n member
      rw [spans, List.map_append]
      rcases List.mem_cons.mp (names.mem_iff.mp member) with rfl | old
      · exact List.mem_append_right _ List.mem_cons_self
      · exact List.mem_append_left _ (apart.taken n old)

theorem names_collectStruct (c : Collection) (item : Item) :
    (c.collectStruct item).table.decls.names = c.table.decls.names := by
  cases item with
  | struct d =>
    have read := congrArg (fun t => t.decls.names) (resolveFields_reads d.typeParams d.name d.fields c []).table
    refine Eq.trans ?_ read
    simp only [Decls.names, Collection.collectStruct, Collection.collectStructs, setFields, List.map_map]
    refine congrArg (· ++ _) (List.map_congr_left fun e _ => ?_)
    dsimp only [Function.comp]
    split <;> rfl
  | enum d | function f => rfl

theorem names_collectEnum (c : Collection) (item : Item) :
    (c.collectEnum item).table.decls.names = c.table.decls.names := by
  cases item with
  | enum d =>
    have read := congrArg (fun t => t.decls.names) (resolveVariants_reads d.typeParams d.name d.variants c []).table
    refine Eq.trans ?_ read
    simp only [Decls.names, Collection.collectEnum, Collection.collectEnums, setVariants, List.map_map]
    refine congrArg (_ ++ ·) (List.map_congr_left fun e _ => ?_)
    dsimp only [Function.comp]
    split <;> rfl
  | struct d | function f => rfl

end Collection

namespace Program

/-- Whatever was reported, the types of a program are told apart by their names. -/
theorem collect_distinct (p : Program) : p.collect.1.decls.Distinct := by
  have start : (registered p.items).1.Apart := by
    rw [registered_fst]
    refine List.foldlRecOn p.items Collection.declare
      ⟨⟨List.nodup_nil, List.forall_mem_nil _⟩, List.forall_mem_nil _⟩ ?_
    exact fun c apart item _ => apart.declare item
  have structs := List.foldlRecOn
    (motive := fun c => c.table.decls.names = (registered p.items).1.table.decls.names)
    (registered p.items).2 Collection.collectStruct rfl
    fun c known item _ => (c.names_collectStruct item).trans known
  have enums := List.foldlRecOn
    (motive := fun c => c.table.decls.names = (registered p.items).1.table.decls.names)
    (registered p.items).2 Collection.collectEnum structs
    fun c known item _ => (c.names_collectEnum item).trans known
  have same : p.collect.1.decls = _ := (Collection.collectFunctions_collects p.functions.zipIdx _).1.decls
  obtain ⟨names, primitive⟩ := start.distinct
  rw [← enums] at names primitive
  rw [same]
  exact ⟨names, primitive⟩

theorem collect_enums (p : Program) : (p.collect.1.decls.enums.map EnumDef.name).Nodup :=
  (List.nodup_append.mp p.collect_distinct.names).2.1

end Program

end TreeCheck
