import TreeCheck.Proofs.Match.Accepted
import TreeCheck.Proofs.Match.Untyped

/-!
Patterns that cannot fail. A pattern whose form alone shows that it matches everything is read as a shape
without a test, whatever its type is; so a match with such an arm is exhaustive, and a binding with such a
pattern need not be checked. Where the pattern has the form that its type asks for, it matches every value.
-/

namespace TreeCheck

open Match (fits fitsEach fitsAll fitsFields)

namespace Pattern

variable {decls : Decls}

mutual

/-- What a type asks of a pattern that cannot fail: a tuple has a pattern for each element, and the named
fields of a record are declared. Of other patterns nothing is asked. -/
def Apt (decls : Decls) : Pattern → Ty → Prop
  | .tuple _ elements, t =>
    match t.strip.2 with
    | .unit => elements = []
    | .tuple types => AptAll decls elements types
    | _ => False
  | .record _ _ fields _, t =>
    match t.strip.2 with
    | .struct name args => AptFields decls fields (decls.fields name args)
    | _ => False
  | .alternatives _ choices, t => AptEach decls choices t
  | .wildcard _, _ | .binding _, _ | .literal .., _ | .range .., _ | .variant .., _ | .list .., _
  | .guarded .., _ => True

def AptEach (decls : Decls) : List Pattern → Ty → Prop
  | [], _ => True
  | p :: rest, t => p.Apt decls t ∧ AptEach decls rest t

def AptAll (decls : Decls) : List Pattern → List Ty → Prop
  | [], [] => True
  | p :: rest, t :: types => p.Apt decls t ∧ AptAll decls rest types
  | _, _ => False

def AptFields (decls : Decls) : List FieldPattern → List Field → Prop
  | [], _ => True
  | .mk name p :: rest, declared => (∃ f ∈ declared, f.name = name) ∧
    (∀ f ∈ declared, f.name = name → p.Apt decls f.type) ∧ AptFields decls rest declared

end

mutual

theorem apt_of_fits : ∀ {p : Pattern} {t : Ty}, fits decls p t = true → p.Apt decls t
  | .wildcard _, _, _ | .binding _, _, _ | .literal .., _, _ | .range .., _, _ | .variant .., _, _
  | .list .., _, _ | .guarded .., _, _ => by simp [Apt]
  | .tuple _ elements, t, fit => by
    simp only [fits] at fit
    simp only [Apt]
    cases core : t.strip.2 <;> simp only [core] at fit ⊢ <;> try cases fit
    case unit => simpa using fit
    case tuple types => exact aptAll_of_fits fit
  | .record _ _ fields _, t, fit => by
    simp only [fits] at fit
    simp only [Apt]
    cases core : t.strip.2 <;> simp only [core] at fit ⊢ <;> try cases fit
    case struct name args => exact aptFields_of_fits fit
  | .alternatives _ choices, t, fit => by
    simp only [fits] at fit
    simp only [Apt]
    exact aptEach_of_fits fit

theorem aptEach_of_fits : ∀ {ps : List Pattern} {t : Ty}, fitsEach decls ps t = true → AptEach decls ps t
  | [], _, _ => by simp [AptEach]
  | p :: rest, t, fit => by
    simp only [fitsEach, Bool.and_eq_true] at fit
    exact ⟨apt_of_fits fit.1, aptEach_of_fits fit.2⟩

theorem aptAll_of_fits : ∀ {ps : List Pattern} {types : List Ty}, fitsAll decls ps types = true →
    AptAll decls ps types
  | [], [], _ => by simp [AptAll]
  | [], _ :: _, fit => by simp [fitsAll] at fit
  | _ :: _, [], fit => by simp [fitsAll] at fit
  | p :: rest, t :: types, fit => by
    simp only [fitsAll, Bool.and_eq_true] at fit
    exact ⟨apt_of_fits fit.1, aptAll_of_fits fit.2⟩

theorem aptFields_of_fits : ∀ {fields : List FieldPattern} {declared : List Field},
    fitsFields decls fields declared = true → AptFields decls fields declared
  | [], _, _ => by simp [AptFields]
  | .mk name p :: rest, declared, fit => by
    simp only [fitsFields, Bool.and_eq_true] at fit
    obtain ⟨⟨⟨known, inner⟩, -⟩, others⟩ := fit
    refine ⟨by simpa using known, ?_, aptFields_of_fits others⟩
    intro f member same
    have fitting := List.all_eq_true.mp inner f member
    exact apt_of_fits (by simpa [same] using fitting)

end

mutual

theorem HasType.apt : ∀ {p : Pattern} {t : Ty}, p.HasType decls t → p.Apt decls t
  | .wildcard _, _, _ | .binding _, _, _ | .literal .., _, _ | .range .., _, _ | .variant .., _, _
  | .list .., _, _ | .guarded .., _, _ => by simp [Apt]
  | .tuple _ elements, _, typed => by
    cases typed with
    | tuple parts =>
      have inside := apt_all parts
      rw [Apt]
      cases parts with
      | nil => rfl
      | cons => exact inside
  | .record _ _ fields _, _, typed => by
    cases typed with
    | record names parts =>
      rw [Apt]
      exact apt_fields names.known parts
  | .alternatives _ choices, _, typed => by
    cases typed with
    | alternatives parts =>
      rw [Apt]
      exact apt_each parts

theorem apt_each : ∀ {ps : List Pattern} {t : Ty}, (∀ p ∈ ps, HasType decls p t) → AptEach decls ps t
  | [], _, _ => by simp [AptEach]
  | p :: rest, t, typed => by
    obtain ⟨head, tail⟩ := List.forall_mem_cons.mp typed
    exact ⟨head.apt, apt_each tail⟩

theorem apt_all : ∀ {ps : List Pattern} {types : List Ty}, List.Forall₂ (HasType decls) ps types →
    AptAll decls ps types
  | [], _, typed => by
    cases typed
    simp [AptAll]
  | p :: rest, _, typed => by
    cases typed with
    | cons head tail => exact ⟨head.apt, apt_all tail⟩

theorem apt_fields : ∀ {fields : List FieldPattern} {declared : List Field},
    (∀ field ∈ fields, ∃ f ∈ declared, f.name = field.name) →
    (∀ field ∈ fields, ∀ f ∈ declared, f.name = field.name → HasType decls field.pattern f.type) →
    AptFields decls fields declared
  | [], _, _, _ => by simp [AptFields]
  | .mk name p :: rest, declared, known, typed => by
    obtain ⟨here, known⟩ := List.forall_mem_cons.mp known
    obtain ⟨own, typed⟩ := List.forall_mem_cons.mp typed
    exact ⟨here, fun f member same => (own f member same).apt, apt_fields known typed⟩

end

end Pattern

namespace Match

namespace Shape

variable {decls : Decls}

mutual

/-- Whether a shape tests nothing, or has an alternative that tests nothing. -/
def unfailing : Shape → Bool
  | .any _ => true
  | .product args => unfailingAll args
  | .target inner => inner.unfailing
  | .choice alternatives => unfailingAny alternatives
  | .bool _ | .variant .. | .range .. | .string _ | .float _ | .list .. | .guarded _ => false

def unfailingAll : List Shape → Bool
  | [] => true
  | s :: rest => s.unfailing && unfailingAll rest

def unfailingAny : List Shape → Bool
  | [] => false
  | s :: rest => s.unfailing || unfailingAny rest

end

theorem unfailingAll_iff {shapes : List Shape} :
    unfailingAll shapes = true ↔ ∀ s ∈ shapes, s.unfailing = true := by
  induction shapes with
  | nil => simp [unfailingAll]
  | cons s rest ih => simp [unfailingAll, ih]

theorem unfailing_behind (count : Nat) (s : Shape) : (behind count s).unfailing = s.unfailing := by
  induction count with
  | zero => rfl
  | succ count ih => simpa [behind, unfailing] using ih

theorem unfailing_wilds (count : Nat) : ∀ s ∈ wilds count, s.unfailing = true := by
  intro s member
  rw [List.eq_of_mem_replicate member]
  rfl

theorem unfailing_fit {args : List Shape} (all : ∀ s ∈ args, s.unfailing = true) (count : Nat) :
    ∀ s ∈ fit args count, s.unfailing = true :=
  List.forall_mem_append.mpr
    ⟨fun s member => all s (List.mem_of_mem_take member), unfailing_wilds _⟩

mutual

/-- An irrefutable pattern is read as a shape without a test, whether or not it suits the type. -/
theorem unfailing_ofPattern : ∀ (p : Pattern) (t : Ty), p.irrefutable = true →
    (ofPattern decls p t).unfailing = true
  | .wildcard _, _, _ | .binding _, _, _ => by simp [ofPattern, wild, unfailing]
  | .literal .., _, never | .range .., _, never | .variant .., _, never | .list .., _, never
  | .guarded .., _, never => by simp [Pattern.irrefutable] at never
  | .alternatives _ choices, t, never => by
    simp only [ofPattern, unfailing]
    exact unfailing_ofEach choices t (by simpa [Pattern.irrefutable] using never)
  | .tuple _ elements, t, never => by
    simp only [ofPattern, unfailing_behind]
    simp only [Pattern.irrefutable] at never
    cases t.strip.2 with
    | tuple types => exact unfailingAll_iff.mpr (unfailing_ofAll elements types never)
    | _ => simp [unfailing, unfailingAll, wild]
  | .record _ _ fields _, t, never => by
    simp only [ofPattern, unfailing_behind]
    simp only [Pattern.irrefutable] at never
    cases t.strip.2 with
    | struct name args =>
      exact unfailingAll_iff.mpr (unfailing_ofFields fields _ _ never (unfailing_wilds _))
    | _ => simp [unfailing, wild]

theorem unfailing_ofEach : ∀ (ps : List Pattern) (t : Ty), Pattern.irrefutableAny ps = true →
    unfailingAny (ofEach decls ps t) = true
  | [], _, never => by simp [Pattern.irrefutableAny] at never
  | p :: rest, t, never => by
    simp only [Pattern.irrefutableAny, Bool.or_eq_true] at never
    simp only [ofEach, unfailingAny, Bool.or_eq_true]
    exact never.imp (unfailing_ofPattern p t) (unfailing_ofEach rest t)

theorem unfailing_ofAll : ∀ (ps : List Pattern) (types : List Ty), Pattern.irrefutableAll ps = true →
    ∀ s ∈ ofAll decls ps types, s.unfailing = true
  | [], types, _ => by simpa [ofAll] using unfailing_wilds types.length
  | _ :: _, [], _ => by simp [ofAll]
  | p :: rest, t :: types, never => by
    simp only [Pattern.irrefutableAll, Bool.and_eq_true] at never
    simp only [ofAll]
    exact List.forall_mem_cons.mpr ⟨unfailing_ofPattern p t never.1, unfailing_ofAll rest types never.2⟩

theorem unfailing_ofFields : ∀ (fields : List FieldPattern) (declared : List Field) (shapes : List Shape),
    Pattern.irrefutableFields fields = true → (∀ s ∈ shapes, s.unfailing = true) →
    ∀ s ∈ ofFields decls fields declared shapes, s.unfailing = true
  | [], _, _, _, all => by simpa [ofFields] using all
  | .mk name p :: rest, declared, shapes, never, all => by
    simp only [Pattern.irrefutableFields, Bool.and_eq_true] at never
    simp only [ofFields]
    apply unfailing_ofFields rest declared _ never.2
    intro s member
    obtain ⟨⟨f, old⟩, inside, rfl⟩ := List.mem_map.mp member
    by_cases same : f.name = name
    · simpa [same] using unfailing_ofPattern p f.type never.1
    · simpa [same] using all old (List.of_mem_zip inside).2

end

mutual

/-- Of the alternatives of a shape that cannot fail, one cannot fail and asks no guard. -/
theorem unfailing_heads : ∀ s : Shape, s.unfailing = true → ∃ h, (false, h) ∈ s.heads ∧ h.unfailing = true
  | .any bind, _ => ⟨.any bind, by simp [heads], rfl⟩
  | .product args, all => ⟨.product args, by simp [heads], all⟩
  | .target inner, all => ⟨.target inner, by simp [heads], all⟩
  | .choice alternatives, sure => by
    simp only [heads]
    exact unfailing_headsAll alternatives (by simpa [unfailing] using sure)
  | .bool _, sure | .variant .., sure | .range .., sure | .string _, sure | .float _, sure | .list .., sure
  | .guarded _, sure => by simp [unfailing] at sure

theorem unfailing_headsAll : ∀ shapes : List Shape, unfailingAny shapes = true →
    ∃ h, (false, h) ∈ headsAll shapes ∧ h.unfailing = true
  | [], sure => by simp [unfailingAny] at sure
  | s :: rest, sure => by
    simp only [unfailingAny, Bool.or_eq_true] at sure
    simp only [headsAll, List.mem_append]
    rcases sure with first | later
    · obtain ⟨h, member, all⟩ := unfailing_heads s first
      exact ⟨h, .inl member, all⟩
    · obtain ⟨h, member, all⟩ := unfailing_headsAll rest later
      exact ⟨h, .inr member, all⟩

end

theorem unfailing_spread {shapes : List Shape} (all : ∀ s ∈ shapes, s.unfailing = true) :
    ∃ row, (false, row) ∈ spread shapes ∧ ∀ s ∈ row, s.unfailing = true := by
  induction shapes with
  | nil => exact ⟨[], by simp [spread], by simp⟩
  | cons s rest ih =>
    obtain ⟨h, first, sure⟩ := unfailing_heads s (all s List.mem_cons_self)
    obtain ⟨row, later, others⟩ := ih fun t member => all t (List.mem_cons_of_mem s member)
    exact ⟨h :: row, mem_spread_cons.mpr ⟨false, h, false, row, first, later, rfl, rfl⟩,
      List.forall_mem_cons.mpr ⟨sure, others⟩⟩

/-- In a flat column a shape that cannot fail tests nothing. -/
theorem isAny_of_unfailing {s : Shape} (sure : s.unfailing = true) (isHead : s.isHead = true)
    (flat : s.isProduct = false) : s.isAny = true := by
  cases s <;> simp_all [unfailing, Shape.isHead, isProduct, isAny]

theorem unfailing_partShapes {s : Shape} (sure : s.unfailing = true) (count : Nat) :
    ∀ part ∈ Matrix.partShapes count s, part.unfailing = true := by
  cases s with
  | product args => exact unfailing_fit (unfailingAll_iff.mp sure) count
  | target inner => exact unfailing_fit (by simpa [unfailing] using sure) count
  | _ => exact unfailing_wilds count

end Shape

namespace Matrix

variable {m : Matrix} {i : Nat}

/-- Some row cannot fail and asks no guard. -/
def Secured (m : Matrix) : Prop :=
  ∃ r ∈ m.rows, r.guarded = false ∧ ∀ s ∈ r.pats, s.unfailing = true

theorem Secured.spread (secured : m.Secured) : m.spread.Secured := by
  obtain ⟨r, member, sure, all⟩ := secured
  obtain ⟨row, chosen, others⟩ := Shape.unfailing_spread all
  refine ⟨{ r with pats := row, guarded := r.guarded || false }, ?_, by simpa using sure, others⟩
  exact List.mem_flatMap.mpr ⟨r, member, List.mem_map.mpr ⟨_, chosen, rfl⟩⟩

theorem Fits.inside {decls : Decls} {floats : Bool} {col : Column} (fit : m.Fits decls floats)
    (here : m.cols[i]? = some col) : ∀ r ∈ m.rows, i < r.pats.length := by
  intro r member
  rw [fit.width member]
  exact (List.getElem?_eq_some_iff.mp here).1

/-- A change that keeps shapes that cannot fail keeps the row. -/
theorem Secured.splice (secured : m.Secured) (wide : ∀ r ∈ m.rows, i < r.pats.length)
    {sub : List Column} {change : Shape → Option (List Shape × List Extraction)}
    (each : ∀ s ∈ m.column i, s.unfailing = true → ∃ shapes binds, change s = some (shapes, binds) ∧
      ∀ part ∈ shapes, part.unfailing = true) : (m.spliced i sub change).Secured := by
  obtain ⟨r, member, sure, all⟩ := secured
  obtain ⟨s, shape⟩ : ∃ s, r.pats[i]? = some s := ⟨_, List.getElem?_eq_getElem (wide r member)⟩
  have inColumn : s ∈ m.column i := mem_column.mpr ⟨r, member, shape⟩
  obtain ⟨shapes, binds, changed, parts⟩ := each s inColumn (all s (List.mem_of_getElem? shape))
  refine ⟨{ r with pats := r.pats.take i ++ shapes ++ r.pats.drop (i + 1), binds := r.binds ++ binds },
    ?_, sure, ?_⟩
  · exact List.mem_filterMap.mpr ⟨r, member, by simp [Row.splice?, shape, changed]⟩
  · intro s inside
    rcases List.mem_append.mp inside with before | after
    · rcases List.mem_append.mp before with front | part
      · exact all s (List.mem_of_mem_take front)
      · exact parts s part
    · exact all s (List.mem_of_mem_drop after)

end Matrix

/-- A tree that has grown from a matrix with a row that cannot fail has no failure. -/
theorem Grown.secured_failures {ctx : Context} {floats : Bool} {m : Matrix} {frames : List Frame}
    {tree : Tree} (grown : Grown ctx floats m frames tree) (secured : m.Secured) : tree.failures = [] := by
  -- the row tests nothing in the column of a switch, so it passes each test and misses each
  induction grown with
  | spread fit next ih => exact ih secured.spread
  | @expand m sub frames tree i arity col fit heads here product expanded next ih =>
    obtain ⟨rfl, -⟩ := Prod.mk.inj (Except.ok.inj ((Matrix.expand_eq fit here).symm.trans expanded))
    apply ih
    apply secured.splice (fit.inside here)
    intro s _ sure
    exact ⟨_, _, rfl, Shape.unfailing_partShapes sure _⟩
  | fail empty shown =>
    obtain ⟨r, member, -⟩ := secured
    simp [empty] at member
  | leaf fit rows untested sure => rfl
  | @guarded m frames first rest tree fit rows untested unsure next ih =>
    apply ih
    obtain ⟨r, member, sure, all⟩ := secured
    rw [rows] at member
    rcases List.mem_cons.mp member with rfl | later
    · simp [unsure] at sure
    · exact ⟨r, later, sure, all⟩
  | @switch m frames first rest i col family cases otherwise fit flat rows tested here switched tests
      missing passed missed ihPassed ihMissed =>
      have known := flat.family fit here switched
      have suits := known.suits fun s inColumn => fit.column here inColumn
      have any : ∀ s ∈ m.column i, s.unfailing = true → s.isAny = true := fun s inColumn sure =>
        Shape.isAny_of_unfailing sure (flat i s inColumn).1 (flat i s inColumn).2
      rw [Tree.failures, List.append_eq_nil_iff, Tree.failuresAll_eq_nil]
      constructor
      · intro c inside
        obtain ⟨sub, opened, -, -⟩ := Test.columns_eq (suits c.test (tests ▸ List.mem_map_of_mem inside))
        apply ihPassed c inside _ (Matrix.specialize_eq fit here opened)
        apply secured.splice (fit.inside here)
        intro s inColumn sure
        exact ⟨_, _, if_pos (any s inColumn sure), Shape.unfailing_wilds _⟩
      · cases otherwise with
        | none => rfl
        | some tree =>
          apply ihMissed tree rfl _ (Matrix.without_eq fit here)
          apply secured.splice (fit.inside here)
          intro s inColumn sure
          exact ⟨_, _, if_pos (any s inColumn sure), by simp⟩

/-! ### Values -/

variable {ctx : Context}

mutual

/-- An apt pattern that cannot fail has, for each value of the type, a way to match that asks no guard. -/
theorem exists_unguarded_ways (regular : ctx.decls.Regular) : ∀ (p : Pattern) (t : Ty) (v : Value),
    p.irrefutable = true → p.Apt ctx.decls t → HasType ctx v t → ∃ w ∈ ways p v, w.guarded = false
  | .wildcard _, _, _, _, _, _ | .binding _, _, _, _, _, _ => by simp [ways]
  | .literal .., _, _, never, _, _ | .range .., _, _, never, _, _ | .variant .., _, _, never, _, _
  | .list .., _, _, never, _, _ | .guarded .., _, _, never, _, _ => by simp [Pattern.irrefutable] at never
  | .alternatives _ choices, t, v, never, formed, typed => by
    simp only [Pattern.irrefutable] at never
    simp only [Pattern.Apt] at formed
    simpa only [ways] using exists_unguarded_waysAny regular choices t v never formed typed
  | .tuple _ elements, t, v, never, formed, typed => by
    simp only [Pattern.irrefutable] at never
    have core := typed.strip
    simp only [Pattern.Apt] at formed
    generalize t.strip.2 = bare at formed core
    cases core with
    | unit =>
      obtain rfl : elements = [] := formed
      simp [ways]
    | @tuple values types parts =>
      obtain ⟨sized, matched⟩ := exists_unguarded_waysAll regular elements types values never formed parts
      simpa [ways, sized] using matched
    | abstract hidden => cases bare <;> simp_all [Ty.isAbstract]
    | _ => cases formed
  | .record _ _ fields _, t, v, never, formed, typed => by
    simp only [Pattern.irrefutable] at never
    have core := typed.strip
    simp only [Pattern.Apt] at formed
    generalize t.strip.2 = bare at formed core
    cases core with
    | @struct name args values parts =>
      exact exists_unguarded_waysFields regular fields _ values never formed (fields_nodup regular name args) parts
    | abstract hidden => cases bare <;> simp_all [Ty.isAbstract]
    | _ => cases formed

theorem exists_unguarded_waysAny (regular : ctx.decls.Regular) : ∀ (ps : List Pattern) (t : Ty) (v : Value),
    Pattern.irrefutableAny ps = true → Pattern.AptEach ctx.decls ps t → HasType ctx v t →
    ∃ w ∈ waysAny ps v, w.guarded = false
  | [], _, _, never, _, _ => by simp [Pattern.irrefutableAny] at never
  | p :: rest, t, v, never, formed, typed => by
    simp only [Pattern.irrefutableAny, Bool.or_eq_true] at never
    simp only [waysAny, List.mem_append]
    rcases never with first | later
    · obtain ⟨w, member, sure⟩ := exists_unguarded_ways regular p t v first formed.1 typed
      exact ⟨w, .inl member, sure⟩
    · obtain ⟨w, member, sure⟩ := exists_unguarded_waysAny regular rest t v later formed.2 typed
      exact ⟨w, .inr member, sure⟩

theorem exists_unguarded_waysAll (regular : ctx.decls.Regular) :
    ∀ (ps : List Pattern) (types : List Ty) (values : List Value), Pattern.irrefutableAll ps = true →
    Pattern.AptAll ctx.decls ps types → List.Forall₂ (HasType ctx) values types →
    ps.length = values.length ∧ ∃ w ∈ waysAll ps values, w.guarded = false
  | [], [], _, _, _, typed => by
    cases typed
    simp [waysAll]
  | [], _ :: _, _, _, formed, _ => by simp [Pattern.AptAll] at formed
  | _ :: _, [], _, _, formed, _ => by simp [Pattern.AptAll] at formed
  | p :: rest, t :: types, values, never, formed, typed => by
    simp only [Pattern.irrefutableAll, Bool.and_eq_true] at never
    cases typed with
    | @cons v _ values _ first others =>
      obtain ⟨sized, later⟩ := exists_unguarded_waysAll regular rest types values never.2 formed.2 others
      have own := exists_unguarded_ways regular p t v never.1 formed.1 first
      exact ⟨congrArg Nat.succ sized, exists_cross_unguarded.mpr ⟨own, later⟩⟩

theorem exists_unguarded_waysFields (regular : ctx.decls.Regular) :
    ∀ (fields : List FieldPattern) (declared : List Field) (values : List Value),
    Pattern.irrefutableFields fields = true → Pattern.AptFields ctx.decls fields declared →
    (declared.map Field.name).Nodup → List.Forall₂ (HasType ctx) values (declared.map Field.type) →
    ∃ w ∈ waysFields fields (declared.map Field.name) values, w.guarded = false
  | [], _, _, _, _, _, _ => by simp [waysFields]
  | .mk name p :: rest, declared, values, never, formed, once, typed => by
    simp only [Pattern.irrefutableFields, Bool.and_eq_true] at never
    obtain ⟨⟨f, member, rfl⟩, inner, others⟩ := formed
    have later := exists_unguarded_waysFields regular rest declared values never.2 others once typed
    obtain ⟨j, here⟩ := List.mem_iff_getElem?.mp member
    have long : values.length = declared.length := by simpa using typed.length_eq
    have inside : j < values.length := by
      rw [long]
      exact (List.getElem?_eq_some_iff.mp here).1
    have there := List.getElem?_eq_getElem inside
    have value : fieldValue? f.name (declared.map Field.name) values = some values[j] :=
      fieldValue?_eq_some once (by simp [long]) (j := j) (by simp [here]) there
    have own := exists_unguarded_ways regular p f.type values[j] never.1 (inner f member rfl)
      (forall₂_get? typed there (by simp [here]))
    simp only [waysFields, value]
    exact exists_cross_unguarded.mpr ⟨own, later⟩

end

/-! ### Matches and bindings -/

/-- A match with an arm that has no guard and a pattern that cannot fail is exhaustive, whatever is matched. -/
theorem compile_secured (regular : ctx.decls.Regular) (type : Ty) {arms : List Arm} {a : Arm} (member : a ∈ arms)
    (free : a.guarded = false) (never : a.pattern.irrefutable = true) :
    ∃ d, compile ctx type arms = .ok d ∧ d.isExhaustive = true := by
  have fit : (Matrix.ofArms ctx.decls type arms).Fits ctx.decls true := ofArms_fits fun _ _ => .inl rfl
  obtain ⟨d, compiled, grown⟩ := compile_eq regular type arms fit
  have secured : (Matrix.ofArms ctx.decls type arms).Secured := by
    obtain ⟨i, here⟩ := List.mem_iff_getElem?.mp member
    refine ⟨_, List.mem_map.mpr ⟨(a, i), List.mem_zipIdx_iff_getElem?.mpr here, rfl⟩, free, ?_⟩
    exact List.forall_mem_singleton.mpr (Shape.unfailing_ofPattern a.pattern type never)
  exact ⟨d, compiled, List.isEmpty_iff.mpr (grown.secured_failures secured)⟩

/-- An arm whose pattern matches without asking a guard is selected, whatever guards there are. -/
theorem select_isSome {p : Pattern} {v : Value} (sure : ∃ w ∈ ways p v, w.guarded = false) (guard : Guard) :
    (select guard [{ pattern := p }] v).isSome = true := by
  obtain ⟨w, member, free⟩ := sure
  rw [select_eq]
  apply choose_isSome
  refine ⟨(0, w), ?_, free⟩
  simpa [armOutcomes, cross_singleton, Way.append] using member

/-- A pattern that cannot fail by its form does not fail: it makes a match exhaustive under any options, it matches
each value of the type in a way that asks no guard, and a check of a binding with it would report nothing. -/
theorem irrefutable_never_fails (decls : Decls) (regular : decls.Regular) (t : Ty) (p : Pattern)
    (never : p.irrefutable = true) (formed : p.Apt decls t) :
    (∀ options, ∃ d, compile ⟨decls, options⟩ t [{ pattern := p }] = .ok d ∧ d.isExhaustive = true) ∧
    (∀ options v, HasType ⟨decls, options⟩ v t → (∃ w ∈ ways p v, w.guarded = false) ∧
      ∀ guard, (select guard [{ pattern := p }] v).isSome = true) ∧
    ∀ scope : Scope, scope.compiler.decls = decls → ∃ d, scope.checkBinding p = .ok (d, []) := by
  refine ⟨fun options => ?_, fun options v typed => ?_, fun scope same => ?_⟩
  · exact @compile_secured ⟨decls, options⟩ regular t _ _ (List.mem_singleton_self _) rfl never
  · have sure := @exists_unguarded_ways ⟨decls, options⟩ regular p t v never formed typed
    exact ⟨sure, select_isSome sure⟩
  · subst same
    obtain ⟨d, compiled, exhaustive⟩ := compile_secured regular (scope.notes.typeOf p.id)
      (List.mem_singleton_self ({ pattern := p } : Arm)) rfl never
    obtain ⟨ds, checked, quiet⟩ := Scope.checkBinding_eq compiled
    obtain rfl := quiet.mpr exhaustive
    exact ⟨d, checked⟩

/-- A point whose second part is a pair. -/
def pointDecls : Decls where
  structs := [⟨"Point", [], [⟨"x", .int .i32⟩, ⟨"y", .tuple [.int .i32, .bool]⟩]⟩]

/-- A reference to a point, and a number. -/
def pointType : Ty := .tuple [.ref false (.struct "Point" []), .int .i32]

/-- One part of the pair inside a point, whose other field is left out, and a number with a needless choice. -/
def pointPattern : Pattern :=
  .tuple default [
    .record default "Point" [.mk "y" (.tuple default [.wildcard default, .binding ⟨default, "b", false⟩])] true,
    .alternatives default [.literal default (.int 1), .binding ⟨default, "n", false⟩]]

/-- A point at 3 with a pair, and a number. -/
def pointValue : Value := .tuple [.struct ["x", "y"] [.int 3, .tuple [.int 4, .bool true]], .int 5]

theorem pointValue_hasType : HasType ⟨pointDecls, {}⟩ pointValue pointType := by
  have number (n : Int) (above : -2147483648 ≤ n) (below : n ≤ 2147483647) :
      HasType ⟨pointDecls, {}⟩ (.int n) (.int .i32) := .int above below
  have pair : HasType ⟨pointDecls, {}⟩ (.tuple [.int 4, .bool true]) (.tuple [.int .i32, .bool]) :=
    .tuple (.cons (number 4 (by decide) (by decide)) (.cons (.bool true) .nil))
  have point : HasType ⟨pointDecls, {}⟩ (.struct ["x", "y"] [.int 3, .tuple [.int 4, .bool true]])
      (.struct "Point" []) :=
    @HasType.struct ⟨pointDecls, {}⟩ "Point" [] _ (.cons (number 3 (by decide) (by decide)) (.cons pair .nil))
  exact .tuple (.cons (.ref point) (.cons (number 5 (by decide) (by decide)) .nil))

theorem irrefutable_never_fails_point :
    pointDecls.Regular ∧ pointPattern.irrefutable = true ∧ pointPattern.Apt pointDecls pointType ∧
    HasType ⟨pointDecls, {}⟩ pointValue pointType ∧
    (∃ d, compile ⟨pointDecls, {}⟩ pointType [{ pattern := pointPattern }] = .ok d ∧ d.isExhaustive = true) ∧
    (select (fun _ _ => false) [{ pattern := pointPattern }] pointValue).isSome = true := by
  have regular : pointDecls.Regular := by constructor <;> simp [pointDecls]
  have formed : pointPattern.Apt pointDecls pointType := Pattern.apt_of_fits (by decide)
  obtain ⟨exhaustive, matching, -⟩ :=
    irrefutable_never_fails pointDecls regular pointType pointPattern (by decide) formed
  exact ⟨regular, by decide, formed, pointValue_hasType, exhaustive {}, (matching {} _ pointValue_hasType).2 _⟩

end Match

end TreeCheck
