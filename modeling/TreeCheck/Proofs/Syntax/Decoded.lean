import Mathlib.Data.List.Forall2
import Mathlib.Data.List.Nodup
import TreeCheck.Language
import TreeCheck.Proofs.Failing

/-!
Programs as they are read from documents. A mapping does not have a key twice, so the named fields of a variant
have different names. All parts of declarations have their places in the file of the document.
-/

namespace TreeCheck

/-- A list without repetitions is extended by something that is not there. -/
theorem nodup_map_append {α : Type} {name : α → String} {list : List α} {a : α}
    (start : (list.map name).Nodup) (free : ¬list.any (fun b => name b == name a) = true) :
    ((list ++ [a]).map name).Nodup := by
  rw [List.map_append, List.nodup_append]
  refine ⟨start, by simp, fun taken before other new => ?_⟩
  obtain ⟨b, member, rfl⟩ := List.mem_map.mp before
  rw [List.map_singleton, List.mem_singleton] at new
  rintro rfl
  exact free (List.any_eq_true.mpr ⟨b, member, beq_iff_eq.mpr new⟩)

section

variable {α κ : Type} [BEq κ] [LawfulBEq κ] {key : α → κ} {list list' : List α}

/-- Things whose keys differ are found by their keys. -/
theorem find?_key_iff (apart : (list.map key).Nodup) {k : κ} {a : α} :
    list.find? (fun b => key b == k) = some a ↔ a ∈ list ∧ key a = k := by
  constructor
  · exact fun found => ⟨List.mem_of_find?_eq_some found, by simpa using List.find?_some found⟩
  · rintro ⟨member, rfl⟩
    obtain ⟨b, found⟩ := Option.isSome_iff_exists.mp
      (List.find?_isSome (p := fun b => key b == key a) |>.mpr ⟨a, member, beq_self_eq_true _⟩)
    have same : key b = key a := by simpa using List.find?_some found
    exact List.inj_on_of_nodup_map apart (List.mem_of_find?_eq_some found) member same ▸ found

end

def Item.Apart : Item → Prop
  | .enum d => ∀ v ∈ d.variants, (v.fields.map FieldDecl.name).Nodup
  | _ => True

/-! ### Places -/

/-- The spans of a field are among the given ones. -/
structure FieldDecl.Placed (places : Span → Prop) (d : FieldDecl) : Prop where
  span : places d.span
  type : places d.type.span

structure VariantDecl.Placed (places : Span → Prop) (d : VariantDecl) : Prop where
  span : places d.span
  payload : ∀ t ∈ d.payload, ∀ written ∈ t, places written.span
  fields : ∀ f ∈ d.fields, f.Placed places

structure FuncDecl.Placed (places : Span → Prop) (f : FuncDecl) : Prop where
  span : places f.span
  receiver : ∀ receiver ∈ f.receiver, places receiver.span
  params : ∀ p ∈ f.params, places p.span ∧ places p.type.span
  result : ∀ written ∈ f.result, places written.span
  lives : ∀ clause ∈ f.lives, places clause.span

/-- The spans of a declaration are among the given ones, bodies left out. -/
def Item.Placed (places : Span → Prop) : Item → Prop
  | .struct d => places d.span ∧ ∀ f ∈ d.fields, f.Placed places
  | .enum d => places d.span ∧ ∀ v ∈ d.variants, v.Placed places
  | .function f => f.Placed places

theorem Item.Placed.imp {places more : Span → Prop} {item : Item} (placed : item.Placed places)
    (wider : ∀ s, places s → more s) : item.Placed more := by
  have field {d : FieldDecl} (placed : d.Placed places) : d.Placed more := ⟨wider _ placed.span, wider _ placed.type⟩
  cases item with
  | struct d => exact ⟨wider _ placed.1, fun f member => field (placed.2 f member)⟩
  | enum d =>
    refine ⟨wider _ placed.1, fun v member => ?_⟩
    obtain ⟨span, payload, fields⟩ := placed.2 v member
    exact ⟨wider _ span, fun t inside written own => wider _ (payload t inside written own),
      fun f inside => field (fields f inside)⟩
  | function f =>
    exact ⟨wider _ placed.span, fun receiver own => wider _ (placed.receiver receiver own),
      fun p member => ⟨wider _ (placed.params p member).1, wider _ (placed.params p member).2⟩,
      fun written own => wider _ (placed.result written own), fun clause own => wider _ (placed.lives clause own)⟩

def Span.Pointed (file : String) (s : Span) : Prop := ∃ line column : Nat, s = .point file (line + 1) (column + 1)

namespace Syntax

variable {input : Input} {α β γ : Type}

theorem mapM_related {read : α → Read β} {list : List α} {out : List β} (done : list.mapM read = .ok out) :
    List.Forall₂ (fun a b => read a = .ok b) list out := by
  induction list generalizing out with
  | nil =>
    cases done
    exact .nil
  | cons a list ih =>
    rw [List.mapM_cons] at done
    obtain ⟨b, first, done⟩ := bind_ok.mp done
    obtain ⟨later, rest, done⟩ := bind_ok.mp done
    cases done
    exact .cons first (ih rest)

theorem mem_of_mapM {read : α → Read β} {list : List α} {out : List β} (done : list.mapM read = .ok out)
    {b : β} (member : b ∈ out) : ∃ a ∈ list, read a = .ok b := by
  have related := mapM_related done
  clear done
  induction related with
  | nil => cases member
  | cons first _ ih =>
    rcases List.mem_cons.mp member with rfl | later
    · exact ⟨_, List.mem_cons_self, first⟩
    · obtain ⟨a, inside, ok⟩ := ih later
      exact ⟨a, List.mem_cons_of_mem _ inside, ok⟩

/-! ### Mappings -/

/-- A key that comes twice is refused. -/
theorem ofEntries_nodup {entries : List Document.Entry} {seen out : List (String × Document.Node)}
    (done : Fields.ofEntries input seen entries = .ok out) (start : (seen.map Prod.fst).Nodup) :
    (out.map Prod.fst).Nodup := by
  fun_induction Fields.ofEntries input seen entries with
  | case1 seen =>
    cases done
    exact start
  | case2 => cases done
  | case3 seen key value rest name free ih => exact ih done (nodup_map_append start free)

theorem read_nodup {node : Option Document.Node} {fields : Fields} (done : Fields.read input node = .ok fields) :
    fields.keys.Nodup := by
  unfold Fields.read at done
  split at done
  · cases done
  · split at done
    · obtain ⟨entries, known, done⟩ := bind_ok.mp done
      cases done
      exact ofEntries_nodup known List.nodup_nil
    · cases done

/-! ### Declarations -/

theorem readFieldDecls_nodup {node : Option Document.Node} {decls : List FieldDecl}
    (done : readFieldDecls input node = .ok decls) : (decls.map FieldDecl.name).Nodup := by
  unfold readFieldDecls at done
  split at done
  · cases done
    exact List.nodup_nil
  · obtain ⟨fields, known, done⟩ := bind_ok.mp done
    have named : List.Forall₂ (fun entry decl => entry.1 = FieldDecl.name decl) fields.entries decls := by
      refine (mapM_related done).imp fun entry decl read => ?_
      obtain ⟨type, -, read⟩ := bind_ok.mp read
      split at read
      · cases read
        rfl
      · cases read
    have same : fields.entries.map Prod.fst = decls.map FieldDecl.name := by
      rw [← List.forall₂_eq_eq_eq, List.forall₂_map_left_iff, List.forall₂_map_right_iff]
      exact named
    exact same ▸ read_nodup known

theorem readVariantDecl_nodup {name : String} {node : Document.Node} {v : VariantDecl}
    (done : readVariantDecl input name node = .ok v) : (v.fields.map FieldDecl.name).Nodup := by
  unfold readVariantDecl at done
  split at done
  · cases done
    exact List.nodup_nil
  · split at done
    · obtain ⟨payload, -, done⟩ := bind_ok.mp done
      cases done
      exact List.nodup_nil
    · obtain ⟨fields, read, done⟩ := bind_ok.mp done
      cases done
      exact readFieldDecls_nodup read
    · cases done

theorem readItem_apart {fuel : Nat} {node : Document.Node} {item : Item}
    (done : readItem input fuel node = .ok item) : item.Apart := by
  obtain ⟨fields, -, done⟩ := bind_ok.mp done
  split at done
  · obtain ⟨d, -, done⟩ := bind_ok.mp done
    cases done
    trivial
  · split at done
    · obtain ⟨d, read, done⟩ := bind_ok.mp done
      cases done
      obtain ⟨name, -, read⟩ := bind_ok.mp read
      obtain ⟨typeParams, -, read⟩ := bind_ok.mp read
      obtain ⟨parts, -, read⟩ := bind_ok.mp read
      obtain ⟨variants, each, read⟩ := bind_ok.mp read
      cases read
      intro v member
      obtain ⟨entry, -, own⟩ := mem_of_mapM each member
      exact readVariantDecl_nodup own
    · split at done
      · obtain ⟨f, -, done⟩ := bind_ok.mp done
        cases done
        trivial
      · cases done

theorem readProgram_items {p : Program} (done : readProgram input = .ok p) :
    p.file = input.file ∧ ∀ item ∈ p.items, ∃ fuel node, readItem input fuel node = .ok item := by
  obtain ⟨fields, -, done⟩ := bind_ok.mp done
  dsimp only at done
  -- with and without a language the items are read alike
  split at done
  all_goals
    obtain ⟨language, -, done⟩ := bind_ok.mp done
    split at done
    · obtain ⟨items, listed, done⟩ := bind_ok.mp done
      cases listed
      cases done
      exact ⟨rfl, List.forall_mem_nil _⟩
    · obtain ⟨items, listed, done⟩ := bind_ok.mp done
      cases done
      refine ⟨rfl, fun item member => ?_⟩
      obtain ⟨node, -, read⟩ := mem_of_mapM listed member
      exact ⟨_, node, read⟩
    · obtain ⟨items, listed, -⟩ := bind_ok.mp done
      cases listed

theorem readProgram_apart {p : Program} (done : readProgram input = .ok p) : ∀ item ∈ p.items, item.Apart := by
  intro item member
  obtain ⟨fuel, node, read⟩ := (readProgram_items done).2 item member
  exact readItem_apart read

/-! ### Places -/

theorem spanOf_pointed (input : Input) (node : Document.Node) : (spanOf input node).Pointed input.file :=
  ⟨node.start.line, node.start.column, rfl⟩

theorem readType_pointed {node : Option Document.Node} {t : Option WrittenType} (done : readType input node = .ok t) :
    ∀ written ∈ t, written.span.Pointed input.file := by
  unfold readType at done
  split at done
  · cases done
    rintro _ ⟨⟩
  · obtain ⟨text, -, done⟩ := bind_ok.mp done
    split at done
    · cases done
      rintro _ ⟨⟩
      exact spanOf_pointed input _
    · cases done

theorem readFieldDecls_placed {node : Option Document.Node} {decls : List FieldDecl}
    (done : readFieldDecls input node = .ok decls) : ∀ d ∈ decls, d.Placed (Span.Pointed input.file) := by
  unfold readFieldDecls at done
  split at done
  · cases done
    exact List.forall_mem_nil _
  · obtain ⟨fields, -, done⟩ := bind_ok.mp done
    intro d member
    obtain ⟨entry, -, read⟩ := mem_of_mapM done member
    obtain ⟨type, typed, read⟩ := bind_ok.mp read
    split at read
    · cases read
      exact ⟨spanOf_pointed input _, readType_pointed typed _ rfl⟩
    · cases read

theorem readStructDecl_placed {fields : Fields} {d : StructDecl} (done : readStructDecl input fields = .ok d) :
    (Item.struct d).Placed (Span.Pointed input.file) := by
  obtain ⟨name, -, done⟩ := bind_ok.mp done
  obtain ⟨typeParams, -, done⟩ := bind_ok.mp done
  obtain ⟨decls, read, done⟩ := bind_ok.mp done
  cases done
  exact ⟨spanOf_pointed input _, readFieldDecls_placed read⟩

theorem readVariantDecl_placed {name : String} {node : Document.Node} {v : VariantDecl}
    (done : readVariantDecl input name node = .ok v) : v.Placed (Span.Pointed input.file) := by
  unfold readVariantDecl at done
  split at done
  · cases done
    exact ⟨spanOf_pointed input _, List.forall_mem_nil _, List.forall_mem_nil _⟩
  · split at done
    · obtain ⟨payload, each, done⟩ := bind_ok.mp done
      cases done
      refine ⟨spanOf_pointed input _, fun t member => ?_, List.forall_mem_nil _⟩
      obtain ⟨item, -, read⟩ := mem_of_mapM each member
      exact readType_pointed read
    · obtain ⟨fields, read, done⟩ := bind_ok.mp done
      cases done
      exact ⟨spanOf_pointed input _, List.forall_mem_nil _, readFieldDecls_placed read⟩
    · cases done

theorem readEnumDecl_placed {fields : Fields} {d : EnumDecl} (done : readEnumDecl input fields = .ok d) :
    (Item.enum d).Placed (Span.Pointed input.file) := by
  obtain ⟨name, -, done⟩ := bind_ok.mp done
  obtain ⟨typeParams, -, done⟩ := bind_ok.mp done
  obtain ⟨parts, -, done⟩ := bind_ok.mp done
  obtain ⟨variants, each, done⟩ := bind_ok.mp done
  cases done
  refine ⟨spanOf_pointed input _, fun v member => ?_⟩
  obtain ⟨entry, -, read⟩ := mem_of_mapM each member
  exact readVariantDecl_placed read

theorem readReceiver_pointed {name : String} {fields : Fields} {receiver : Receiver}
    (done : readReceiver input name fields = .ok receiver) : receiver.span.Pointed input.file := by
  simp only [readReceiver, refuse] at done
  repeat' first
    | split at done
    | obtain ⟨_, _, done⟩ := bind_ok.mp done
  all_goals
    cases done
    exact spanOf_pointed input _

theorem readParam_placed {node : Document.Node} {p : Param} (done : readParam input node = .ok p) :
    p.span.Pointed input.file ∧ p.type.span.Pointed input.file := by
  obtain ⟨fields, -, done⟩ := bind_ok.mp done
  split at done
  · obtain ⟨type, typed, done⟩ := bind_ok.mp done
    split at done
    · cases done
      exact ⟨spanOf_pointed input _, readType_pointed typed _ rfl⟩
    · cases done
  · cases done

theorem readFuncDecl_parts {fuel : Nat} {fields : Fields} {f : FuncDecl}
    (done : readFuncDecl input fuel fields = .ok f) :
    (f.receiver = none ∨ ∃ name receiver, readReceiver input name fields = .ok receiver ∧ f.receiver = some receiver) ∧
      (f.params = [] ∨ ∃ items : List Document.Node, items.mapM (readParam input) = .ok f.params) ∧
      readType input (fields.get? "returns") = .ok f.result ∧
      (f.lives = none ∨ ∃ sources node, f.lives = some ⟨sources, spanOf input node⟩) ∧
      f.span = spanOf input fields.node := by
  simp only [readFuncDecl, refuse, pure_bind] at done
  repeat' first
    | split at done
    | obtain ⟨_, _, done⟩ := bind_ok.mp done
  all_goals
    cases done
    refine ⟨?_, ?_, by assumption, ?_, rfl⟩
    · first
        | exact .inl rfl
        | exact .inr ⟨_, _, by assumption, rfl⟩
    · first
        | exact .inl rfl
        | exact .inr ⟨_, by assumption⟩
        | contradiction
    · first
        | exact .inl rfl
        | exact .inr ⟨_, _, rfl⟩

theorem readFuncDecl_placed {fuel : Nat} {fields : Fields} {f : FuncDecl}
    (done : readFuncDecl input fuel fields = .ok f) : f.Placed (Span.Pointed input.file) := by
  obtain ⟨receiver, params, result, lives, span⟩ := readFuncDecl_parts done
  refine ⟨span ▸ spanOf_pointed input _, fun known own => ?_, ?_, readType_pointed result, fun clause own => ?_⟩
  · rcases receiver with none | ⟨name, read, received, same⟩
    · cases none.symm.trans own
    · cases same.symm.trans own
      exact readReceiver_pointed received
  · rcases params with none | ⟨items, each⟩
    · exact none ▸ List.forall_mem_nil _
    · intro p member
      obtain ⟨node, -, read⟩ := mem_of_mapM each member
      exact readParam_placed read
  · rcases lives with none | ⟨sources, node, same⟩
    · cases none.symm.trans own
    · cases same.symm.trans own
      exact spanOf_pointed input _

theorem readItem_placed {fuel : Nat} {node : Document.Node} {item : Item}
    (done : readItem input fuel node = .ok item) : item.Placed (Span.Pointed input.file) := by
  obtain ⟨fields, -, done⟩ := bind_ok.mp done
  split at done
  · obtain ⟨d, read, done⟩ := bind_ok.mp done
    cases done
    exact readStructDecl_placed read
  · split at done
    · obtain ⟨d, read, done⟩ := bind_ok.mp done
      cases done
      exact readEnumDecl_placed read
    · split at done
      · obtain ⟨f, read, done⟩ := bind_ok.mp done
        cases done
        exact readFuncDecl_placed read
      · cases done

theorem readProgram_placed {p : Program} (done : readProgram input = .ok p) :
    ∀ item ∈ p.items, item.Placed (Span.Pointed p.file) := by
  intro item member
  obtain ⟨file, each⟩ := readProgram_items done
  obtain ⟨fuel, node, read⟩ := each item member
  exact file ▸ readItem_placed read

end Syntax

/-- Numbering the nodes of functions leaves enums as they are. -/
theorem Item.numberAll_apart {items : List Item} (apart : ∀ item ∈ items, item.Apart) (count : Nat) :
    ∀ item ∈ (Item.numberAll items count).1, item.Apart := by
  induction items generalizing count with
  | nil => exact List.forall_mem_nil _
  | cons first rest ih =>
    obtain ⟨own, others⟩ := List.forall_mem_cons.mp apart
    cases first with
    | function f => exact List.forall_mem_cons.mpr ⟨trivial, ih others _⟩
    | struct d | enum d => exact List.forall_mem_cons.mpr ⟨own, ih others count⟩

/-- It leaves all places outside bodies as they are. -/
theorem Item.numberAll_placed {places : Span → Prop} {items : List Item} (placed : ∀ item ∈ items, item.Placed places)
    (count : Nat) : ∀ item ∈ (Item.numberAll items count).1, item.Placed places := by
  induction items generalizing count with
  | nil => exact List.forall_mem_nil _
  | cons first rest ih =>
    obtain ⟨own, others⟩ := List.forall_mem_cons.mp placed
    cases first with
    | function f =>
      exact List.forall_mem_cons.mpr ⟨⟨own.span, own.receiver, own.params, own.result, own.lives⟩, ih others _⟩
    | struct d | enum d => exact List.forall_mem_cons.mpr ⟨own, ih others count⟩

namespace Program

/-- A program as it is read from a document, its nodes numbered. -/
def Decoded (p : Program) : Prop := ∃ input read, Syntax.readProgram input = .ok read ∧ p = read.number.1

theorem ofText_decoded {file text : String} {languages : Option Version.Constraint} {p : Program}
    (done : ofText file text languages = .ok p) : p.Decoded := by
  unfold ofText at done
  split at done
  · cases done
  · cases done
  next document _ =>
    obtain ⟨read, program, done⟩ := bind_ok.mp done
    split at done
    · cases done
    · cases done
      exact ⟨_, read, program, rfl⟩

theorem Decoded.apart {p : Program} (decoded : p.Decoded) : ∀ item ∈ p.items, item.Apart := by
  obtain ⟨input, read, program, rfl⟩ := decoded
  exact Item.numberAll_apart (Syntax.readProgram_apart program) 0

theorem Decoded.placed {p : Program} (decoded : p.Decoded) : ∀ item ∈ p.items, item.Placed (Span.Pointed p.file) := by
  obtain ⟨input, read, program, rfl⟩ := decoded
  exact Item.numberAll_placed (Syntax.readProgram_placed program) 0

end Program

end TreeCheck
