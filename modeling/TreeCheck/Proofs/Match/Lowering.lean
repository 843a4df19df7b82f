import Mathlib.Data.List.Nodup
import TreeCheck.Proofs.Match.Orderly
import TreeCheck.Proofs.Match.Ways

/-!
What shapes match. Reading a pattern against a type keeps the ways in which it matches the values of
that type; only the order in which fields are looked at may change, and not that of an orderly pattern.
-/

namespace TreeCheck.Match

/-- Where no name is bound twice, it does not matter which binding counts. -/
theorem Env.get?_eq_some_iff {env : Env} (once : (env.map Prod.fst).Nodup) {name : String}
    {v : Value} : env.get? name = some v ↔ (name, v) ∈ env := by
  constructor
  · intro found
    obtain ⟨entry, hit, rfl⟩ := Option.map_eq_some_iff.mp found
    have member := List.mem_reverse.mp (List.mem_of_find?_eq_some hit)
    have named : entry.1 = name := by simpa using List.find?_some hit
    rwa [← named]
  · intro member
    have some : (List.find? (fun entry => entry.1 == name) env.reverse).isSome := by
      rw [List.find?_isSome]
      exact ⟨(name, v), List.mem_reverse.mpr member, by simp⟩
    obtain ⟨entry, hit⟩ := Option.isSome_iff_exists.mp some
    have inside := List.mem_reverse.mp (List.mem_of_find?_eq_some hit)
    have named : entry.1 = name := by simpa using List.find?_some hit
    have same : entry = (name, v) := List.inj_on_of_nodup_map once inside member named
    simp [Env.get?, hit, same]

theorem fieldValue?_eq_some {name : String} {names : List String} {values : List Value} {v : Value}
    (once : names.Nodup) (enough : names.length ≤ values.length) {j : Nat}
    (named : names[j]? = some name) (there : values[j]? = some v) :
    fieldValue? name names values = some v := by
  refine (Env.get?_eq_some_iff (by rwa [List.map_fst_zip enough])).mpr ?_
  exact List.mem_of_getElem? (i := j) (by simp [List.getElem?_zip_eq_some, named, there])

namespace Shape

mutual

def ways : Shape → Value → List Way
  | .any bind, v => [{ env := bind.toList.map fun name => (name, v) }]
  | .bool wanted, v => if (Test.bool wanted).accepts v then [{}] else []
  | .range low high, v => if (Test.range low high).accepts v then [{}] else []
  | .string wanted, v => if (Test.string wanted).accepts v then [{}] else []
  | .float wanted, v => if (Test.float wanted).accepts v then [{}] else []
  | .variant w args, v => if (Test.variant w).accepts v then waysAll args v.parts else []
  | .list front isOpen rest, v =>
    match v with
    | .array values =>
      if values.length < front.length || (!isOpen && values.length != front.length) then []
      else
        let bound := if isOpen then rest.toList else []
        cross [{ env := bound.map fun name => (name, .array (values.drop front.length)) }]
          (waysAll front values)
    | _ => []
  | .product args, v => waysAll args v.parts
  | .target inner, v => ways inner v
  | .choice alternatives, v => waysAny alternatives v
  | .guarded inner, v => cross [{ guarded := true }] (ways inner v)

def waysAll : List Shape → List Value → List Way
  | [], _ => [{}]
  | _ :: _, [] => []
  | s :: rest, v :: values => cross (ways s v) (waysAll rest values)

def waysAny : List Shape → Value → List Way
  | [], _ => []
  | s :: rest, v => ways s v ++ waysAny rest v

end

@[simp] theorem ways_wild (v : Value) : ways wild v = [{}] := by simp [wild, ways]

theorem ways_behind (count : Nat) (s : Shape) (v : Value) : ways (behind count s) v = ways s v := by
  induction count with
  | zero => rfl
  | succ count ih => simpa [behind, ways] using ih

theorem waysAll_wilds {count : Nat} {values : List Value} (enough : count ≤ values.length) :
    waysAll (wilds count) values = [{}] := by
  induction count generalizing values with
  | zero => rfl
  | succ count ih =>
    cases values with
    | nil => simp at enough
    | cons v values =>
      have fewer : waysAll (wilds count) values = [{}] := ih (by simpa using enough)
      simpa [wilds, List.replicate_succ, waysAll] using fewer

mutual

/-- Where nothing leaves a choice there is one way at most. -/
theorem length_ways : ∀ (s : Shape) (v : Value), s.definite = true → (s.ways v).length ≤ 1
  | .any _, _, _ => by simp [ways]
  | .bool _, _, _ | .range .., _, _ | .string _, _, _ | .float _, _, _ => by
    simp only [ways]
    split <;> simp
  | .variant _ args, v, known => by
    simp only [ways]
    split
    · exact length_waysAll args v.parts (by simpa [definite] using known)
    · simp
  | .list front _ _, v, known => by
    simp only [ways]
    split
    · split
      · simp
      · simpa [cross_singleton] using length_waysAll front _ (by simpa [definite] using known)
    · simp
  | .product args, v, known => length_waysAll args v.parts (by simpa [definite] using known)
  | .target inner, v, known => length_ways inner v (by simpa [definite] using known)
  | .guarded inner, v, known => by
    simpa [ways, cross_singleton] using length_ways inner v (by simpa [definite] using known)
  | .choice _, _, known => by simp [definite] at known

theorem length_waysAll : ∀ (shapes : List Shape) (values : List Value), definiteAll shapes = true →
    (waysAll shapes values).length ≤ 1
  | [], _, _ => by simp [waysAll]
  | _ :: _, [], _ => by simp [waysAll]
  | s :: rest, v :: values, known => by
    simp only [definiteAll, Bool.and_eq_true] at known
    simp only [waysAll, length_cross]
    exact Nat.mul_le_mul (length_ways s v known.1) (length_waysAll rest values known.2)

end

/-- A wild slot that is given a shape matches in the ways of that shape, whatever the others do. -/
theorem waysAll_set {strict : Prop} {shapes : List Shape} {values : List Value} {j : Nat} {s : Shape} {v : Value}
    (free : shapes[j]? = some wild) (there : values[j]? = some v)
    (few : strict → s.definite = true ∨ definiteAll shapes = true) :
    Arranged strict (waysAll (shapes.set j s) values) (cross (ways s v) (waysAll shapes values)) := by
  induction shapes generalizing values j with
  | nil => simp at free
  | cons head shapes ih =>
    cases values with
    | nil => simp at there
    | cons first values =>
      cases j with
      | zero =>
        obtain rfl : head = wild := by simpa using free
        obtain rfl : first = v := by simpa using there
        simpa [waysAll] using Arranged.refl _
      | succ j =>
        simp only [definiteAll, Bool.and_eq_true] at few
        have later : Arranged strict (waysAll (shapes.set j s) values)
            (cross (ways s v) (waysAll shapes values)) :=
          ih (by simpa using free) (by simpa using there) fun known => (few known).imp_right And.right
        simp only [List.set_cons_succ, waysAll]
        refine ((Arranged.refl (ways head first)).cross later).trans (.cross_left_comm (fun known => ?_) _)
        exact (few known).symm.imp (fun all => length_ways head first all.1) (length_ways s v)

end Shape

theorem HasType.strip {ctx : Context} {v : Value} {t : Ty} (typed : HasType ctx v t) :
    HasType ctx v t.strip.2 := by
  induction t using Ty.strip.induct with
  | case1 mutable target count core stripped ih =>
    cases typed with
    | ref inner => simpa only [Ty.strip] using ih inner
    | abstract hidden => simp [Ty.isAbstract] at hidden
  | case2 t other =>
    have bare : t.strip = (0, t) := by cases t <;> simp_all [Ty.strip]
    rwa [bare]


theorem update_eq_set {declared : List Field} {shapes : List Shape} {j : Nat} {f : Field}
    (once : (declared.map Field.name).Nodup) (sized : shapes.length = declared.length)
    (here : declared[j]? = some f) (p : Pattern) (decls : Decls) :
    ((declared.zip shapes).map fun (g, old) =>
      if g.name == f.name then Shape.ofPattern decls p g.type else old) =
      shapes.set j (Shape.ofPattern decls p f.type) := by
  apply List.ext_getElem?
  intro i
  rcases Nat.lt_or_ge i declared.length with inside | outside
  · have shape := List.getElem?_eq_getElem (l := shapes) (i := i) (by omega)
    have field := List.getElem?_eq_getElem inside
    have pair : (declared.zip shapes)[i]? = some (declared[i], shapes[i]) :=
      List.getElem?_zip_eq_some.mpr ⟨field, shape⟩
    simp only [List.getElem?_map, pair, Option.map_some, List.getElem?_set]
    by_cases same : j = i
    · subst same
      obtain rfl : declared[j] = f := by simpa [field] using here
      simp [sized, inside]
    · have differ : declared[i].name ≠ f.name := by
        intro equal
        have jn : j < declared.length := (List.getElem?_eq_some_iff.mp here).1
        have jf : declared[j] = f := (List.getElem?_eq_some_iff.mp here).2
        have first : i < (declared.map Field.name).length := by simpa using inside
        have second : j < (declared.map Field.name).length := by simpa using jn
        have names : (declared.map Field.name)[i] = (declared.map Field.name)[j] := by
          simp [equal, jf]
        exact same (once.getElem_inj_iff.mp names).symm
      simp [same, differ, shape]
  · have beyond : (declared.zip shapes).length ≤ i := by simp; omega
    rw [List.getElem?_eq_none (by simpa using beyond), List.getElem?_eq_none (by simp; omega)]

variable {ctx : Context}

theorem ways_ofLiteral {value : Literal} {t : Ty} {v : Value} (suited : suits value t = true)
    (typed : HasType ctx v t) :
    (if literalMatches value v then [({} : Way)] else []) = (Shape.ofLiteral value t).ways v := by
  cases value with
  | bool wanted =>
    cases t <;> simp [suits] at suited
    cases typed with
    | bool value => rfl
    | abstract hidden => simp [Ty.isAbstract] at hidden
  | int wanted =>
    cases t <;> simp [suits] at suited
    cases typed with
    | @int n k above below =>
      have equal : (n == wanted) = (decide (wanted ≤ n) && decide (n ≤ wanted)) := by
        rw [Bool.eq_iff_iff]
        simp only [beq_iff_eq, Bool.and_eq_true, decide_eq_true_eq]
        omega
      simp [literalMatches, Shape.ofLiteral, Shape.ways, Test.accepts, equal]
    | abstract hidden => simp [Ty.isAbstract] at hidden
  | string wanted =>
    cases t <;> simp [suits] at suited
    cases typed with
    | string value => rfl
    | abstract hidden => simp [Ty.isAbstract] at hidden
  | float wanted => cases t <;> simp [suits] at suited


theorem enum?_mem {decls : Decls} {name : String} {d : EnumDef} (known : decls.enum? name = some d) :
    d ∈ decls.enums := List.mem_of_find?_eq_some known

theorem fields_nodup {decls : Decls} (regular : decls.Regular) (name : String) (args : List Ty) :
    ((decls.fields name args).map Field.name).Nodup := by
  unfold Decls.fields
  cases known : decls.struct? name with
  | none => simp
  | some d =>
    simp only [List.map_map]
    exact regular.fields d (List.mem_of_find?_eq_some known)

theorem eq_of_variant? {decls : Decls} (regular : decls.Regular) {d : EnumDef}
    (declared : d ∈ decls.enums) {v w : Variant} {tag : String} (found : d.variant? tag = some v)
    (member : w ∈ d.variants) (named : w.name = tag) : w = v := by
  have inside : v ∈ d.variants := List.mem_of_find?_eq_some found
  have same : v.name = tag := by simpa using List.find?_some found
  exact List.inj_on_of_nodup_map (regular.variants d declared) member inside (named.trans same.symm)

namespace Shape

variable {decls : Decls}

/-- Shapes of which one leaves a choice at most. -/
def Lone (shapes : List Shape) : Prop :=
  (∀ s ∈ shapes, s.orderly = true) ∧ shapes.Pairwise fun s t => s.definite = true ∨ t.definite = true

theorem Lone.orderlyAll {shapes : List Shape} (lone : Lone shapes) : orderlyAll shapes = true :=
  orderlyAll_iff.mpr ⟨lone.1, lone.2.imp (Or.imp_left shallow_of_definite)⟩

theorem lone_wilds (count : Nat) : Lone (wilds count) := by
  have free := definiteAll_iff.mp (definiteAll_wilds count)
  exact ⟨fun s member => orderly_of_definite s (free s member),
    List.pairwise_of_forall_mem_list fun s member _ _ => .inl (free s member)⟩

theorem Lone.set {shapes : List Shape} {s : Shape} (lone : Lone shapes) (own : s.orderly = true)
    (few : s.definite = true ∨ definiteAll shapes = true) (j : Nat) : Lone (shapes.set j s) := by
  constructor
  · intro t member
    rcases List.mem_or_eq_of_mem_set member with old | rfl
    · exact lone.1 t old
    · exact own
  · rw [List.pairwise_iff_getElem]
    intro i k inside inside' before
    have wide : i < shapes.length ∧ k < shapes.length := by simp at inside inside'; omega
    have others := List.pairwise_iff_getElem.mp lone.2 i k wide.1 wide.2 before
    rcases few with sure | free
    · by_cases first : j = i
      · simp [first, sure]
      · by_cases second : j = k
        · simp [second, sure]
        · simpa [first, second] using others
    · have each := fun n (known : n < shapes.length) => definiteAll_iff.mp free _ (List.getElem_mem known)
      by_cases first : j = i
      · have differ : j ≠ k := by omega
        simp [differ, each k wide.2]
      · simp [first, each i wide.1]

/-- Reading a field against declared ones changes the slot of its name, if there is one. -/
theorem update_cases {declared : List Field} {shapes : List Shape} (once : (declared.map Field.name).Nodup)
    (sized : shapes.length = declared.length) (name : String) (p : Pattern) (decls : Decls) :
    ((declared.zip shapes).map fun (g, old) => if g.name == name then ofPattern decls p g.type else old) = shapes ∨
    ∃ (j : Nat) (f : Field),
      ((declared.zip shapes).map fun (g, old) => if g.name == name then ofPattern decls p g.type else old) =
        shapes.set j (ofPattern decls p f.type) := by
  by_cases known : ∃ f ∈ declared, f.name = name
  · obtain ⟨f, member, rfl⟩ := known
    obtain ⟨j, here⟩ := List.mem_iff_getElem?.mp member
    exact .inr ⟨j, f, update_eq_set once sized here p decls⟩
  · refine .inl (Eq.trans (List.map_congr_left fun entry member => ?_) (List.map_snd_zip sized.le))
    have differ : entry.1.name ≠ name := fun same => known ⟨entry.1, (List.of_mem_zip member).1, same⟩
    simp [differ]

mutual

/-- Reading an orderly pattern against a type gives an orderly shape. -/
theorem orderly_ofPattern (regular : decls.Regular) : ∀ (p : Pattern) (t : Ty), p.orderly = true →
    (ofPattern decls p t).orderly = true
  | .wildcard _, _, _ | .binding _, _, _ => by simp [ofPattern, wild, orderly]
  | .alternatives _ choices, t, known => by
    simp only [ofPattern, orderly]
    exact orderlyEach_ofEach regular choices t (by simpa [Pattern.orderly] using known)
  | .guarded _ inner _, t, known => by
    simp only [ofPattern, orderly]
    exact orderly_ofPattern regular inner t (by simpa [Pattern.orderly] using known)
  | .literal _ value, t, _ => by
    simp only [ofPattern, orderly_behind]
    exact orderly_of_definite _ (definite_ofLiteral value _)
  | .range .., t, _ => by
    simp only [ofPattern, orderly_behind]
    split <;> rfl
  | .tuple _ elements, t, known => by
    simp only [ofPattern, orderly_behind]
    split
    · rfl
    · exact orderlyAll_ofAll regular elements _ (by simpa [Pattern.orderly] using known)
    · rfl
  | .record _ _ fields _, t, known => by
    simp only [ofPattern, orderly_behind]
    split
    · rename_i name args _
      exact (lone_ofFields regular fields _ _ (fields_nodup regular name args) (by simp [wilds])
        (by simpa [Pattern.orderly] using known) (.inr (definiteAll_wilds _)) (lone_wilds _)).orderlyAll
    · rfl
  | .variant _ _ tag args fields _, t, known => by
    simp only [Pattern.orderly, Bool.and_eq_true] at known
    simp only [ofPattern, orderly_behind]
    split
    · rename_i name typeArgs _
      split
      · rfl
      · rename_i d declared
        split
        · rfl
        · rename_i v found
          split
          · rename_i named
            have lengths := length_slots named d typeArgs
            have names := map_name_withTypes lengths.ge
            have once := regular.payloads d (List.mem_of_find?_eq_some declared) v (List.mem_of_find?_eq_some found)
            exact (lone_ofFields regular fields _ _ (names ▸ once) (by simp [wilds, lengths]) known.2
              (.inr (definiteAll_wilds _)) (lone_wilds _)).orderlyAll
          · exact orderlyAll_ofAll regular args _ known.1
    · rfl
  | .list _ front isOpen rest, t, known => by
    simp only [ofPattern, orderly_behind]
    split
    · exact orderlyAll_ofEach regular front _ (by simpa [Pattern.orderly] using known)
    · rfl

theorem orderlyEach_ofEach (regular : decls.Regular) : ∀ (ps : List Pattern) (t : Ty),
    Pattern.orderlyEach ps = true → orderlyEach (ofEach decls ps t) = true
  | [], _, _ => by simp [ofEach, orderlyEach]
  | p :: rest, t, known => by
    simp only [Pattern.orderlyEach, Bool.and_eq_true] at known
    simp [ofEach, orderlyEach, orderly_ofPattern regular p t known.1, orderlyEach_ofEach regular rest t known.2]

theorem orderlyAll_ofEach (regular : decls.Regular) : ∀ (ps : List Pattern) (t : Ty),
    Pattern.orderlyAll ps = true → orderlyAll (ofEach decls ps t) = true
  | [], _, _ => by simp [ofEach, orderlyAll]
  | p :: rest, t, known => by
    simp only [Pattern.orderlyAll, Bool.and_eq_true, Bool.or_eq_true] at known
    simp only [ofEach, orderlyAll, Bool.and_eq_true, Bool.or_eq_true]
    exact ⟨⟨orderly_ofPattern regular p t known.1.1, orderlyAll_ofEach regular rest t known.1.2⟩,
      known.2.imp (shallow_ofPattern decls p t) (definiteAll_ofEach decls rest t)⟩

theorem orderlyAll_ofAll (regular : decls.Regular) : ∀ (ps : List Pattern) (types : List Ty),
    Pattern.orderlyAll ps = true → orderlyAll (ofAll decls ps types) = true
  | [], types, _ => by
    simp only [ofAll]
    exact (lone_wilds _).orderlyAll
  | _ :: _, [], _ => by simp [ofAll, orderlyAll]
  | p :: rest, t :: types, known => by
    simp only [Pattern.orderlyAll, Bool.and_eq_true, Bool.or_eq_true] at known
    simp only [ofAll, orderlyAll, Bool.and_eq_true, Bool.or_eq_true]
    exact ⟨⟨orderly_ofPattern regular p t known.1.1, orderlyAll_ofAll regular rest types known.1.2⟩,
      known.2.imp (shallow_ofPattern decls p t) (definiteAll_ofAll decls rest types)⟩

theorem lone_ofFields (regular : decls.Regular) : ∀ (fields : List FieldPattern) (declared : List Field)
    (shapes : List Shape), (declared.map Field.name).Nodup → shapes.length = declared.length →
    Pattern.orderlyFields fields = true → (Pattern.definiteFields fields = true ∨ definiteAll shapes = true) →
    Lone shapes → Lone (ofFields decls fields declared shapes)
  | [], _, _, _, _, _, _, lone => by simpa [ofFields] using lone
  | .mk name p :: rest, declared, shapes, once, sized, known, few, lone => by
    simp only [Pattern.orderlyFields, Pattern.definiteFields, Bool.and_eq_true, Bool.or_eq_true] at known few
    simp only [ofFields]
    refine lone_ofFields regular rest declared _ once (by simp [sized]) known.1.2 ?_ ?_
    all_goals rcases update_cases once sized name p decls with same | ⟨j, f, same⟩
    all_goals rw [same]
    · exact few.imp_left And.right
    · rcases few with sure | free
      · exact .inl sure.2
      · refine known.2.symm.imp_right fun definite => definiteAll_iff.mpr fun s member => ?_
        rcases List.mem_or_eq_of_mem_set member with old | rfl
        · exact definiteAll_iff.mp free s old
        · exact definite_ofPattern decls p f.type definite
    · exact lone
    · exact lone.set (orderly_ofPattern regular p f.type known.1.1)
        (few.imp_left fun sure => definite_ofPattern decls p f.type sure.1) j

end

end Shape

theorem Shape.length_ofEach (decls : Decls) (ps : List Pattern) (t : Ty) :
    (Shape.ofEach decls ps t).length = ps.length := by
  induction ps with
  | nil => simp [Shape.ofEach]
  | cons p rest ih => simp [Shape.ofEach, ih]

theorem free_wilds (declared : List Field) (fields : List FieldPattern) (j : Nat) (f : Field)
    (here : declared[j]? = some f) (_ : fields.any (·.name == f.name) = true) :
    (Shape.wilds declared.length)[j]? = some Shape.wild := by
  have inside : j < declared.length := (List.getElem?_eq_some_iff.mp here).1
  simp [Shape.wilds, inside]

mutual

/-- Where nothing leaves a choice there is one way at most. -/
theorem length_ways : ∀ (p : Pattern) (v : Value), p.definite = true → (ways p v).length ≤ 1
  | .wildcard _, _, _ | .binding _, _, _ => by simp [ways]
  | .literal .., _, _ => by
    simp only [ways]
    split <;> simp
  | .range .., _, _ => by
    simp only [ways]
    split
    · split <;> split <;> simp
    · simp
  | .tuple _ elements, v, known => by
    simp only [ways]
    split
    · split <;> simp
    · split
      · exact length_patternsWays elements _ (by simpa [Pattern.definite] using known)
      · simp
    · simp
  | .record _ _ fields _, v, known => by
    simp only [ways]
    split
    · exact length_waysFields fields _ _ (by simpa [Pattern.definite] using known)
    · simp
  | .variant _ _ _ args fields _, v, known => by
    simp only [Pattern.definite, Bool.and_eq_true] at known
    simp only [ways]
    split
    · split
      · simp
      · split
        · exact length_waysFields fields _ _ known.2
        · split
          · simp
          · exact length_patternsWays args _ known.1
    · simp
  | .list _ front _ _, v, known => by
    simp only [ways]
    split
    · split
      · simp
      · simpa using length_patternsWays front _ (by simpa [Pattern.definite] using known)
    · simp
  | .guarded _ inner _, v, known => by
    simpa [ways] using length_ways inner v (by simpa [Pattern.definite] using known)
  | .alternatives .., _, known => by simp [Pattern.definite] at known

theorem length_patternsWays : ∀ (ps : List Pattern) (values : List Value), Pattern.definiteAll ps = true →
    (waysAll ps values).length ≤ 1
  | [], _, _ => by simp [waysAll]
  | _ :: _, [], _ => by simp [waysAll]
  | p :: rest, v :: values, known => by
    simp only [Pattern.definiteAll, Bool.and_eq_true] at known
    rw [waysAll, ← cross, length_cross]
    exact Nat.mul_le_mul (length_ways p v known.1) (length_patternsWays rest values known.2)

theorem length_waysFields : ∀ (fields : List FieldPattern) (names : List String) (values : List Value),
    Pattern.definiteFields fields = true → (waysFields fields names values).length ≤ 1
  | [], _, _, _ => by simp [waysFields]
  | .mk name p :: rest, names, values, known => by
    simp only [Pattern.definiteFields, Bool.and_eq_true] at known
    simp only [waysFields]
    split
    · simp
    · rename_i v _
      rw [← cross, length_cross]
      exact Nat.mul_le_mul (length_ways p v known.1) (length_waysFields rest names values known.2)

end

mutual

theorem ways_ofPattern (regular : ctx.decls.Regular) : ∀ (p : Pattern) (t : Ty) (v : Value),
    fits ctx.decls p t = true → HasType ctx v t →
    Arranged (p.orderly = true) (ways p v) ((Shape.ofPattern ctx.decls p t).ways v)
  | .wildcard _, _, v, _, _ => Arranged.of_eq (by simp [ways, Shape.ofPattern])
  | .binding b, _, v, fit, _ => by
    have named : b.name.isEmpty = false := by simpa [fits] using fit
    exact Arranged.of_eq (by simp [ways, Shape.ofPattern, Shape.ways, Shape.bindName, named])
  | .alternatives _ choices, t, v, fit, typed => by
    simp only [ways, Shape.ofPattern, Shape.ways]
    exact (waysAny_ofEach regular choices t v (by simpa [fits] using fit) typed).weaken (by simp [Pattern.orderly])
  | .guarded _ inner _, t, v, fit, typed => by
    have below := ways_ofPattern regular inner t v (by simpa [fits] using fit) typed
    have marked : (ways inner v).map (fun way => { way with guarded := true }) =
        cross [{ guarded := true }] (ways inner v) := by
      rw [cross_singleton]
      exact List.map_congr_left fun way _ => by simp [Way.append]
    simp only [ways, Shape.ofPattern, Shape.ways, marked]
    exact (Arranged.refl _).cross (below.weaken (by simp [Pattern.orderly]))
  | .literal _ value, t, v, fit, typed => by
    simp only [ways, Shape.ofPattern, Shape.ways_behind]
    exact Arranged.of_eq (ways_ofLiteral (by simpa [fits] using fit) typed.strip)
  | .range _ low high inclusive, t, v, fit, typed => by
    simp only [fits] at fit
    simp only [ways, Shape.ofPattern, Shape.ways_behind]
    have inner := typed.strip
    cases core : t.strip.2 <;> simp [core, Ty.isInteger] at fit
    rw [core] at inner
    cases inner with
    | int above below => exact Arranged.of_eq (by simp [Shape.ways, Test.accepts])
    | abstract hidden => simp [Ty.isAbstract] at hidden
  | .tuple _ elements, t, v, fit, typed => by
    simp only [fits] at fit
    simp only [Shape.ofPattern, Shape.ways_behind]
    have inner := typed.strip
    cases core : t.strip.2 <;> simp only [core, Bool.false_eq_true] at fit inner ⊢
    · cases inner with
      | unit =>
        obtain rfl : elements = [] := by simpa using fit
        exact Arranged.of_eq (by simp [ways, Shape.ways, Shape.waysAll])
      | abstract hidden => simp [Ty.isAbstract] at hidden
    · cases inner with
      | tuple parts =>
        have below := waysAll_ofAll regular elements _ _ fit parts
        have sized : elements.length = _ := below.1
        simpa [ways, sized, Shape.ways, Value.parts, Pattern.orderly] using below.2
      | abstract hidden => simp [Ty.isAbstract] at hidden
  | .record _ _ fields _, t, v, fit, typed => by
    simp only [fits] at fit
    simp only [Shape.ofPattern, Shape.ways_behind]
    have inner := typed.strip
    cases core : t.strip.2 with
    | struct name args =>
      simp only [core] at fit inner ⊢
      cases inner with
      | struct parts =>
        have below := waysFields_ofFields regular fields (ctx.decls.fields name args)
          (Shape.wilds (ctx.decls.fields name args).length) _ (fields_nodup regular name args)
          fit parts (by simp [Shape.wilds]) (free_wilds _ _)
          fun (known : Pattern.orderlyFields fields = true) => ⟨known, .inr (by simp)⟩
        have sized := parts.length_eq
        rw [Shape.waysAll_wilds (by simp [sized]), cross_unit_right] at below
        simpa [ways, Shape.ways, Value.parts, Pattern.orderly] using below
      | abstract hidden => simp [Ty.isAbstract] at hidden
    | _ => simp [core] at fit
  | .variant info enum tag args fields rest, t, v, fit, typed => by
    simp only [fits] at fit
    simp only [Shape.ofPattern, Shape.ways_behind]
    have inner := typed.strip
    cases core : t.strip.2 with
    | enum name typeArgs =>
      simp only [core] at fit inner ⊢
      cases inner with
      | @variant _ _ d w values known member parts =>
        simp only [known] at fit ⊢
        cases found : d.variant? tag with
        | none => simp [found] at fit
        | some u =>
          simp only [found] at fit ⊢
          have tagged : u.name = tag := by simpa using List.find?_some found
          by_cases same : w.name = tag
          · obtain rfl := eq_of_variant? regular (enum?_mem known) found member same
            by_cases named : w.isNamed
            · simp only [named, if_true, Bool.and_eq_true, List.isEmpty_iff] at fit ⊢
              obtain ⟨rfl, fitting⟩ := fit
              have lengths := Shape.length_slots named d typeArgs
              have names := Shape.map_name_withTypes lengths.ge
              have types := Shape.map_type_withTypes lengths.le
              have once := regular.payloads d (enum?_mem known) w member
              have below := waysFields_ofFields regular fields _
                (Shape.wilds (Decls.slots d typeArgs w).length) values (names ▸ once)
                fitting (by rwa [types]) (by simp [Shape.wilds, lengths]) (by
                  have sized : ((w.fields.zip (Decls.slots d typeArgs w)).map
                    fun (f, type) => ({ f with type } : Field)).length =
                      (Decls.slots d typeArgs w).length := by simp [lengths]
                  rw [← sized]
                  exact free_wilds _ fields)
                fun (known : Pattern.orderlyFields fields = true) => ⟨known, .inr (by simp)⟩
              rw [Shape.waysAll_wilds (by simp [parts.length_eq]), cross_unit_right, names]
                at below
              have positional : ways (.variant info enum tag [] fields rest)
                  (.variant w.name (w.fields.map Field.name) values) =
                  waysFields fields (w.fields.map Field.name) values := by
                cases fields <;> simp [ways, same, waysFields, waysAll]
              simpa [positional, Shape.ways, Test.accepts, Value.parts, Pattern.orderly,
                Pattern.orderlyAll] using below
            · simp only [named, Bool.false_eq_true, if_false, Bool.and_eq_true,
                List.isEmpty_iff, Bool.not_eq_true'] at fit ⊢
              obtain ⟨⟨rfl, rfl⟩, fitting⟩ := fit
              have below := waysAll_ofAll regular args _ _ fitting parts
              simpa [ways, same, tagged, Shape.ways, Test.accepts, Value.parts, below.1,
                Pattern.orderly, Pattern.orderlyFields] using below.2
          · have other : w.name ≠ u.name := tagged ▸ same
            refine Arranged.of_eq ?_
            split <;> simp [ways, same, other, Shape.ways, Test.accepts]
      | abstract hidden => simp [Ty.isAbstract] at hidden
    | _ => simp [core] at fit
  | .list _ front isOpen rest, t, v, fit, typed => by
    simp only [fits] at fit
    simp only [Shape.ofPattern, Shape.ways_behind]
    have inner := typed.strip
    cases core : t.strip.2 with
    | array element =>
      simp only [core, Bool.and_eq_true] at fit inner ⊢
      cases inner with
      | @array values _ parts =>
        have below := waysAll_ofEach regular front element values fit.1.1 parts
        simp only [ways, Shape.ways, Shape.length_ofEach, Pattern.orderly]
        split
        · exact Arranged.refl []
        · cases rest with
          | none => simpa [← cross_singleton] using below
          | some b =>
            simp only [← cross_singleton]
            have opened : isOpen = true := by simpa using fit.1.2
            have named : b.name ≠ "" := by simpa using fit.2
            simpa [opened, Shape.bindName, named] using (Arranged.refl [_]).cross below
      | abstract hidden => simp [Ty.isAbstract] at hidden
    | _ => simp [core] at fit

theorem waysAny_ofEach (regular : ctx.decls.Regular) : ∀ (ps : List Pattern) (t : Ty) (v : Value),
    fitsEach ctx.decls ps t = true → HasType ctx v t →
    Arranged (Pattern.orderlyEach ps = true) (waysAny ps v) (Shape.waysAny (Shape.ofEach ctx.decls ps t) v)
  | [], _, _, _, _ => Arranged.of_eq (by simp [waysAny, Shape.ofEach, Shape.waysAny])
  | p :: rest, t, v, fit, typed => by
    simp only [fitsEach, Bool.and_eq_true] at fit
    simp only [waysAny, Shape.ofEach, Shape.waysAny, Pattern.orderlyEach, Bool.and_eq_true]
    exact ((ways_ofPattern regular p t v fit.1 typed).weaken And.left).append
      ((waysAny_ofEach regular rest t v fit.2 typed).weaken And.right)

theorem waysAll_ofAll (regular : ctx.decls.Regular) :
    ∀ (ps : List Pattern) (types : List Ty) (values : List Value),
    fitsAll ctx.decls ps types = true → List.Forall₂ (HasType ctx) values types →
    ps.length = values.length ∧
      Arranged (Pattern.orderlyAll ps = true) (waysAll ps values)
        (Shape.waysAll (Shape.ofAll ctx.decls ps types) values)
  | [], [], _, _, .nil => ⟨rfl, Arranged.of_eq (by simp [waysAll, Shape.ofAll, Shape.wilds, Shape.waysAll])⟩
  | p :: rest, t :: types, v :: values, fit, .cons typed others => by
    simp only [fitsAll, Bool.and_eq_true] at fit
    have below := waysAll_ofAll regular rest types values fit.2 others
    refine ⟨by simpa using below.1, ?_⟩
    simp only [waysAll, Shape.ofAll, Shape.waysAll, Pattern.orderlyAll, Bool.and_eq_true]
    exact ((ways_ofPattern regular p t v fit.1 typed).weaken fun known => known.1.1).cross
      (below.2.weaken fun known => known.1.2)

theorem waysAll_ofEach (regular : ctx.decls.Regular) :
    ∀ (ps : List Pattern) (element : Ty) (values : List Value),
    fitsEach ctx.decls ps element = true → (∀ v ∈ values, HasType ctx v element) →
    Arranged (Pattern.orderlyAll ps = true) (waysAll ps values)
      (Shape.waysAll (Shape.ofEach ctx.decls ps element) values)
  | [], _, _, _, _ => Arranged.of_eq (by simp [waysAll, Shape.ofEach, Shape.waysAll])
  | _ :: _, _, [], _, _ => Arranged.of_eq (by simp [waysAll, Shape.ofEach, Shape.waysAll])
  | p :: rest, element, v :: values, fit, typed => by
    simp only [fitsEach, Bool.and_eq_true] at fit
    simp only [waysAll, Shape.ofEach, Shape.waysAll, Pattern.orderlyAll, Bool.and_eq_true]
    have below := waysAll_ofEach regular rest element values fit.2 fun w member => typed w (by simp [member])
    exact ((ways_ofPattern regular p element v fit.1 (typed v (by simp))).weaken fun known => known.1.1).cross
      (below.weaken fun known => known.1.2)

theorem waysFields_ofFields (regular : ctx.decls.Regular) {strict : Prop} :
    ∀ (fields : List FieldPattern) (declared : List Field) (shapes : List Shape) (values : List Value),
    (declared.map Field.name).Nodup → fitsFields ctx.decls fields declared = true →
    List.Forall₂ (HasType ctx) values (declared.map Field.type) →
    shapes.length = declared.length →
    (∀ (j : Nat) (f : Field), declared[j]? = some f → fields.any (·.name == f.name) = true →
      shapes[j]? = some Shape.wild) →
    (strict → Pattern.orderlyFields fields = true ∧
      (Pattern.definiteFields fields = true ∨ Shape.definiteAll shapes = true)) →
    Arranged strict (cross (waysFields fields (declared.map Field.name) values) (Shape.waysAll shapes values))
      (Shape.waysAll (Shape.ofFields ctx.decls fields declared shapes) values)
  | [], declared, shapes, values, _, _, _, _, _, _ => by
    simpa [waysFields, Shape.ofFields] using Arranged.refl _
  | .mk name p :: rest, declared, shapes, values, once, fit, typed, sized, free, ordered => by
    simp only [Pattern.orderlyFields, Pattern.definiteFields, Bool.and_eq_true, Bool.or_eq_true] at ordered
    simp only [fitsFields, Bool.and_eq_true] at fit
    obtain ⟨⟨⟨known, fitting⟩, single⟩, others⟩ := fit
    obtain ⟨f, member, same⟩ := List.any_eq_true.mp known
    obtain rfl : f.name = name := by simpa using same
    obtain ⟨j, here⟩ := List.mem_iff_getElem?.mp member
    have inside : j < declared.length := (List.getElem?_eq_some_iff.mp here).1
    have long : values.length = declared.length := by simpa using typed.length_eq
    obtain ⟨v, there⟩ : ∃ v, values[j]? = some v :=
      ⟨values[j], List.getElem?_eq_getElem (by omega)⟩
    have vtyped : HasType ctx v f.type := by
      have pairs := (List.forall₂_iff_get.mp typed).2 j (by omega) (by simpa using inside)
      have field : declared[j] = f := (List.getElem?_eq_some_iff.mp here).2
      have held : values[j] = v := (List.getElem?_eq_some_iff.mp there).2
      simpa [field, held] using pairs
    have value : fieldValue? f.name (declared.map Field.name) values = some v :=
      fieldValue?_eq_some once (by simp [long]) (j := j) (by simp [here]) there
    have slot : shapes[j]? = some Shape.wild := free j f here (by simp [FieldPattern.name])
    have first := ways_ofPattern regular p f.type v (by
      have all := List.all_eq_true.mp fitting f member
      simpa using all) vtyped
    have filled : Arranged strict (Shape.waysAll (shapes.set j (Shape.ofPattern ctx.decls p f.type)) values) _ :=
      Shape.waysAll_set slot there fun known => (ordered known).2.imp_left fun sure =>
        Shape.definite_ofPattern ctx.decls p f.type sure.1
    have later := waysFields_ofFields regular rest declared
      (shapes.set j (Shape.ofPattern ctx.decls p f.type)) values once others typed
      (by simpa using sized) (by
        intro i g there mentioned
        have apart : j ≠ i := by
          rintro rfl
          obtain rfl : f = g := by simpa [here] using there
          simp [mentioned] at single
        rw [List.getElem?_set_ne apart]
        exact free i g there (by simp [mentioned]))
      fun (known : strict) => by
        refine ⟨(ordered known).1.1.2, ?_⟩
        rcases (ordered known).2 with sure | none
        · exact .inl sure.2
        · refine (ordered known).1.2.symm.imp_right fun definite => Shape.definiteAll_iff.mpr fun s member => ?_
          rcases List.mem_or_eq_of_mem_set member with old | rfl
          · exact Shape.definiteAll_iff.mp none s old
          · exact Shape.definite_ofPattern ctx.decls p f.type definite
    simp only [waysFields, value, Shape.ofFields]
    rw [update_eq_set once sized here, ← cross]
    calc
      Arranged strict (cross (cross (ways p v) (waysFields rest _ values)) (Shape.waysAll shapes values))
          (cross (waysFields rest _ values) (cross (ways p v) (Shape.waysAll shapes values))) := by
        rw [cross_assoc]
        refine .cross_left_comm (fun known => ?_) _
        exact (ordered known).1.2.imp (length_ways p v) (length_waysFields rest _ values)
      Arranged strict _ (cross (waysFields rest _ values) (Shape.waysAll (shapes.set j _) values)) := by
        have own := first.weaken fun (known : strict) => (ordered known).1.1.1
        exact (Arranged.refl _).cross ((own.cross (Arranged.refl _)).trans filled.symm)
      Arranged strict _ _ := later

end

-- The names of a way follow one choice among the alternatives.
mutual

theorem names_mem_namings : ∀ (p : Pattern) (v : Value) (w : Way), w ∈ ways p v →
    w.env.map Prod.fst ∈ namings p
  | .wildcard _, _, w, member => by
    obtain rfl : w = {} := by simpa [ways] using member
    simp [namings]
  | .binding b, v, w, member => by
    obtain rfl : w = { env := [(b.name, v)] } := by simpa [ways] using member
    simp [namings]
  | .literal _ value, v, w, member => by
    simp only [ways] at member
    split at member <;> simp_all [namings]
  | .range _ low high inclusive, v, w, member => by
    simp only [ways] at member
    split at member
    · split at member <;> simp_all [namings]
    · simp at member
  | .tuple _ elements, v, w, member => by
    simp only [ways] at member
    simp only [namings]
    split at member
    · split at member
      · rename_i empty
        obtain rfl : elements = [] := by simpa using empty
        obtain rfl : w = {} := by simpa using member
        simp [namingsAll]
      · simp at member
    · split at member
      · exact names_mem_namingsAll elements _ w member
      · simp at member
    · simp at member
  | .record _ _ fields _, v, w, member => by
    simp only [ways] at member
    simp only [namings]
    split at member
    · exact names_mem_namingsFields fields _ _ w member
    · simp at member
  | .variant _ _ tag args fields rest, v, w, member => by
    simp only [ways] at member
    simp only [namings]
    split at member
    · split at member
      · simp at member
      · split at member
        · rename_i byName
          rw [if_pos byName]
          exact names_mem_namingsFields fields _ _ w member
        · rename_i byPosition
          rw [if_neg byPosition]
          split at member
          · simp at member
          · exact names_mem_namingsAll args _ w member
    · simp at member
  | .list _ front isOpen rest, v, w, member => by
    simp only [ways] at member
    simp only [namings]
    split at member
    · split at member
      · simp at member
      · obtain ⟨inner, below, rfl⟩ := List.mem_map.mp member
        refine List.mem_map.mpr ⟨_, names_mem_namingsAll front _ inner below, ?_⟩
        cases rest <;> simp [Way.append]
    · simp at member
  | .alternatives _ choices, v, w, member => by
    simp only [ways] at member
    exact names_mem_namingsAny choices v w member
  | .guarded _ inner _, v, w, member => by
    simp only [ways] at member
    obtain ⟨way, below, rfl⟩ := List.mem_map.mp member
    exact names_mem_namings inner v way below

theorem names_mem_namingsAll : ∀ (ps : List Pattern) (values : List Value) (w : Way),
    w ∈ waysAll ps values → w.env.map Prod.fst ∈ namingsAll ps
  | [], _, w, member => by
    obtain rfl : w = {} := by simpa [waysAll] using member
    simp [namingsAll]
  | _ :: _, [], w, member => by simp [waysAll] at member
  | p :: rest, v :: values, w, member => by
    obtain ⟨a, first, b, second, rfl⟩ := mem_cross.mp member
    refine List.mem_flatMap.mpr ⟨_, names_mem_namings p v a first, ?_⟩
    exact List.mem_map.mpr ⟨_, names_mem_namingsAll rest values b second, by simp [Way.append]⟩

theorem names_mem_namingsFields : ∀ (fields : List FieldPattern) (names : List String)
    (values : List Value) (w : Way), w ∈ waysFields fields names values →
    w.env.map Prod.fst ∈ namingsFields fields
  | [], _, _, w, member => by
    obtain rfl : w = {} := by simpa [waysFields] using member
    simp [namingsFields]
  | .mk name p :: rest, names, values, w, member => by
    simp only [waysFields] at member
    split at member
    · simp at member
    · rename_i v found
      obtain ⟨a, first, b, second, rfl⟩ := mem_cross.mp member
      refine List.mem_flatMap.mpr ⟨_, names_mem_namings p v a first, ?_⟩
      exact List.mem_map.mpr
        ⟨_, names_mem_namingsFields rest names values b second, by simp [Way.append]⟩

theorem names_mem_namingsAny : ∀ (ps : List Pattern) (v : Value) (w : Way), w ∈ waysAny ps v →
    w.env.map Prod.fst ∈ namingsAny ps
  | [], _, w, member => by simp [waysAny] at member
  | p :: rest, v, w, member => by
    simp only [waysAny, List.mem_append] at member
    simp only [namingsAny, List.mem_append]
    exact member.imp (names_mem_namings p v w) (names_mem_namingsAny rest v w)

end

theorem names_nodup {p : Pattern} (once : bindsOnce p = true) {v : Value} {w : Way}
    (member : w ∈ ways p v) : (w.env.map Prod.fst).Nodup := by
  simpa using List.all_eq_true.mp once _ (names_mem_namings p v w member)

end TreeCheck.Match
