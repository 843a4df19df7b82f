import TreeCheck.Proofs.Match.Typed

/-!
Patterns whose alternatives come in one order. Match compilation spreads the alternatives of a pattern level by
level, while trying the pattern goes through one part after the other. Both come to the same order if a part with
alternatives below its top is followed by no other part with alternatives.
-/

namespace TreeCheck

namespace Pattern

mutual

/-- Nothing in a pattern leaves a choice. -/
def definite : Pattern → Bool
  | .wildcard _ | .binding _ | .literal .. | .range .. => true
  | .tuple _ elements => definiteAll elements
  | .list _ front _ _ => definiteAll front
  | .record _ _ fields _ => definiteFields fields
  | .variant _ _ _ args fields _ => definiteAll args && definiteFields fields
  | .alternatives .. => false
  | .guarded _ inner _ => definite inner

def definiteAll : List Pattern → Bool
  | [] => true
  | p :: rest => definite p && definiteAll rest

def definiteFields : List FieldPattern → Bool
  | [] => true
  | .mk _ p :: rest => definite p && definiteFields rest

end

mutual

/-- A pattern leaves a choice at its top at most. -/
def shallow : Pattern → Bool
  | .alternatives _ choices => shallowEach choices
  | .guarded _ inner _ => shallow inner
  | .wildcard info => definite (.wildcard info)
  | .binding b => definite (.binding b)
  | .literal info value => definite (.literal info value)
  | .range info low high inclusive => definite (.range info low high inclusive)
  | .tuple info elements => definite (.tuple info elements)
  | .list info front isOpen rest => definite (.list info front isOpen rest)
  | .record info name fields rest => definite (.record info name fields rest)
  | .variant info enum tag args fields rest => definite (.variant info enum tag args fields rest)

def shallowEach : List Pattern → Bool
  | [] => true
  | p :: rest => shallow p && shallowEach rest

end

mutual

/-- A part of a pattern that leaves a choice below its top is followed by definite parts only, and of the fields of a
record or variant only one leaves a choice. -/
def orderly : Pattern → Bool
  | .wildcard _ | .binding _ | .literal .. | .range .. => true
  | .tuple _ elements => orderlyAll elements
  | .list _ front _ _ => orderlyAll front
  | .record _ _ fields _ => orderlyFields fields
  | .variant _ _ _ args fields _ => orderlyAll args && orderlyFields fields
  | .alternatives _ choices => orderlyEach choices
  | .guarded _ inner _ => orderly inner

def orderlyEach : List Pattern → Bool
  | [] => true
  | p :: rest => orderly p && orderlyEach rest

def orderlyAll : List Pattern → Bool
  | [] => true
  | p :: rest => orderly p && orderlyAll rest && (shallow p || definiteAll rest)

def orderlyFields : List FieldPattern → Bool
  | [] => true
  | .mk _ p :: rest => orderly p && orderlyFields rest && (definite p || definiteFields rest)

end

end Pattern

namespace Match.Shape

mutual

def definite : Shape → Bool
  | .any _ | .bool _ | .range .. | .string _ | .float _ => true
  | .variant _ args => definiteAll args
  | .list front _ _ => definiteAll front
  | .product args => definiteAll args
  | .target inner => definite inner
  | .choice _ => false
  | .guarded inner => definite inner

def definiteAll : List Shape → Bool
  | [] => true
  | s :: rest => definite s && definiteAll rest

end

mutual

/-- A shape leaves a choice at its top at most. -/
def shallow : Shape → Bool
  | .choice alternatives => shallowEach alternatives
  | .guarded inner => shallow inner
  | .any bind => definite (.any bind)
  | .bool value => definite (.bool value)
  | .variant v args => definite (.variant v args)
  | .range low high => definite (.range low high)
  | .string value => definite (.string value)
  | .float value => definite (.float value)
  | .list front isOpen rest => definite (.list front isOpen rest)
  | .product args => definite (.product args)
  | .target inner => definite (.target inner)

def shallowEach : List Shape → Bool
  | [] => true
  | s :: rest => shallow s && shallowEach rest

end

mutual

/-- A part of a shape that leaves a choice below its top is followed by definite parts only. -/
def orderly : Shape → Bool
  | .any _ | .bool _ | .range .. | .string _ | .float _ => true
  | .variant _ args => orderlyAll args
  | .list front _ _ => orderlyAll front
  | .product args => orderlyAll args
  | .target inner => orderly inner
  | .choice alternatives => orderlyEach alternatives
  | .guarded inner => orderly inner

def orderlyEach : List Shape → Bool
  | [] => true
  | s :: rest => orderly s && orderlyEach rest

def orderlyAll : List Shape → Bool
  | [] => true
  | s :: rest => orderly s && orderlyAll rest && (shallow s || definiteAll rest)

end

variable {s : Shape} {shapes : List Shape}

theorem definiteAll_iff : definiteAll shapes = true ↔ ∀ s ∈ shapes, s.definite = true := by
  induction shapes with
  | nil => simp [definiteAll]
  | cons s rest ih => simp [definiteAll, ih]

theorem orderlyAll_iff : orderlyAll shapes = true ↔ (∀ s ∈ shapes, s.orderly = true) ∧
    shapes.Pairwise fun s t => s.shallow = true ∨ t.definite = true := by
  induction shapes with
  | nil => simp [orderlyAll]
  | cons s rest ih =>
    have after : (∀ t ∈ rest, s.shallow = true ∨ t.definite = true) ↔
        s.shallow = true ∨ definiteAll rest = true := by
      rw [definiteAll_iff]
      by_cases top : s.shallow = true <;> simp [top]
    simp only [orderlyAll, Bool.and_eq_true, Bool.or_eq_true, ih, List.forall_mem_cons, List.pairwise_cons, after]
    tauto

theorem shallow_of_definite : ∀ {s : Shape}, s.definite = true → s.shallow = true
  | .guarded inner, known => by
    simp only [shallow]
    exact shallow_of_definite (s := inner) (by simpa [definite] using known)
  | .choice _, known => by simp [definite] at known
  | .any _, known | .bool _, known | .variant .., known | .range .., known | .string _, known
  | .float _, known | .list .., known | .product _, known | .target _, known => by simpa [shallow] using known

mutual

theorem orderly_of_definite : ∀ (s : Shape), s.definite = true → s.orderly = true
  | .any _, _ | .bool _, _ | .range .., _ | .string _, _ | .float _, _ => by simp [orderly]
  | .variant _ args, known => by
    simp only [orderly]
    exact orderlyAll_of_definiteAll args (by simpa [definite] using known)
  | .list front _ _, known => by
    simp only [orderly]
    exact orderlyAll_of_definiteAll front (by simpa [definite] using known)
  | .product args, known => by
    simp only [orderly]
    exact orderlyAll_of_definiteAll args (by simpa [definite] using known)
  | .target inner, known => by
    simp only [orderly]
    exact orderly_of_definite inner (by simpa [definite] using known)
  | .guarded inner, known => by
    simp only [orderly]
    exact orderly_of_definite inner (by simpa [definite] using known)
  | .choice _, known => by simp [definite] at known

theorem orderlyAll_of_definiteAll : ∀ (shapes : List Shape), definiteAll shapes = true → orderlyAll shapes = true
  | [], _ => by simp [orderlyAll]
  | s :: rest, known => by
    simp only [definiteAll, Bool.and_eq_true] at known
    simp [orderlyAll, orderly_of_definite s known.1, orderlyAll_of_definiteAll rest known.2, known.2]

end

@[simp] theorem definite_behind (count : Nat) (s : Shape) : (behind count s).definite = s.definite := by
  induction count with
  | zero => rfl
  | succ count ih => simpa [behind, definite] using ih

@[simp] theorem orderly_behind (count : Nat) (s : Shape) : (behind count s).orderly = s.orderly := by
  induction count with
  | zero => rfl
  | succ count ih => simpa [behind, orderly] using ih

@[simp] theorem definiteAll_wilds (count : Nat) : definiteAll (wilds count) = true := by
  rw [definiteAll_iff]
  intro s member
  rw [List.eq_of_mem_replicate member]
  rfl

theorem definite_ofLiteral (value : Literal) (t : Ty) : (ofLiteral value t).definite = true := by
  cases value <;> cases t <;> rfl

/-- Filling a list up and cutting it off leave no more choice. -/
theorem definiteAll_fit {args : List Shape} (known : definiteAll args = true) (count : Nat) :
    definiteAll (fit args count) = true := by
  rw [definiteAll_iff] at known ⊢
  intro s member
  rcases List.mem_append.mp member with cut | filled
  · exact known s (List.mem_of_mem_take cut)
  · exact definiteAll_iff.mp (definiteAll_wilds _) s filled

theorem orderlyAll_fit {args : List Shape} (known : orderlyAll args = true) (count : Nat) :
    orderlyAll (fit args count) = true := by
  have filled : ∀ s ∈ wilds (count - args.length), s.definite = true := definiteAll_iff.mp (definiteAll_wilds _)
  rw [orderlyAll_iff] at known ⊢
  constructor
  · intro s member
    rcases List.mem_append.mp member with cut | free
    · exact known.1 s (List.mem_of_mem_take cut)
    · exact orderly_of_definite s (filled s free)
  · have kept := known.2.sublist (List.take_sublist count args)
    refine List.pairwise_append.mpr ⟨kept, ?_, fun s _ t free => .inr (filled t free)⟩
    exact List.pairwise_of_forall_mem_list fun s _ t free => .inr (filled t free)

/-- Shapes in place of a head that leave no choice that it did not leave. -/
theorem orderlyAll_splice {front args back : List Shape} (known : orderlyAll (front ++ s :: back) = true)
    (definiteArgs : s.definite = true → definiteAll args = true)
    (orderlyArgs : s.orderly = true → orderlyAll args = true) (head : s.shallow = true → s.definite = true) :
    orderlyAll (front ++ args ++ back) = true := by
  rw [orderlyAll_iff] at known orderlyArgs ⊢
  obtain ⟨each, pairs⟩ := known
  obtain ⟨before, after, across⟩ := List.pairwise_append.mp pairs
  obtain ⟨here, behind⟩ := List.pairwise_cons.mp after
  obtain ⟨inner, among⟩ := orderlyArgs (each s (by simp))
  have parts (known : s.definite = true) : ∀ a ∈ args, a.definite = true :=
    definiteAll_iff.mp (definiteArgs known)
  constructor
  · intro t member
    simp only [List.mem_append] at member
    rcases member with (inFront | inArgs) | inBack
    · exact each t (by simp [inFront])
    · exact inner t inArgs
    · exact each t (by simp [inBack])
  · rw [List.append_assoc]
    refine List.pairwise_append.mpr ⟨before, List.pairwise_append.mpr ⟨among, behind, ?_⟩, ?_⟩
    · intro a inArgs t inBack
      exact (here t inBack).imp (fun top => shallow_of_definite (parts (head top) a inArgs)) id
    · intro f inFront t member
      rcases List.mem_append.mp member with inArgs | inBack
      · exact (across f inFront s (by simp)).imp_right fun known => parts known t inArgs
      · exact across f inFront t (by simp [inBack])

mutual

/-- The alternatives of a shape whose choice is at its top leave none. -/
theorem definite_heads : ∀ (s : Shape), s.shallow = true → ∀ h ∈ s.heads, h.2.definite = true
  | .choice alternatives, known => by
    simp only [heads]
    exact definite_headsAll alternatives (by simpa [shallow] using known)
  | .guarded inner, known => by
    simp only [heads, List.mem_map]
    rintro _ ⟨h, member, rfl⟩
    exact definite_heads inner (by simpa [shallow] using known) h member
  | .any _, known | .bool _, known | .variant .., known | .range .., known | .string _, known
  | .float _, known | .list .., known | .product _, known | .target _, known => by
    simpa [heads, shallow] using known

theorem definite_headsAll : ∀ (shapes : List Shape), shallowEach shapes = true →
    ∀ h ∈ headsAll shapes, h.2.definite = true
  | [], _ => by simp [headsAll]
  | s :: rest, known => by
    simp only [shallowEach, Bool.and_eq_true] at known
    intro h member
    rcases List.mem_append.mp (by simpa [headsAll] using member) with first | later
    · exact definite_heads s known.1 h first
    · exact definite_headsAll rest known.2 h later

end

mutual

theorem orderly_heads : ∀ (s : Shape), s.orderly = true → ∀ h ∈ s.heads, h.2.orderly = true
  | .choice alternatives, known => by
    simp only [heads]
    exact orderly_headsAll alternatives (by simpa [orderly] using known)
  | .guarded inner, known => by
    simp only [heads, List.mem_map]
    rintro _ ⟨h, member, rfl⟩
    exact orderly_heads inner (by simpa [orderly] using known) h member
  | .any _, known | .bool _, known | .variant .., known | .range .., known | .string _, known
  | .float _, known | .list .., known | .product _, known | .target _, known => by
    simpa [heads] using known

theorem orderly_headsAll : ∀ (shapes : List Shape), orderlyEach shapes = true →
    ∀ h ∈ headsAll shapes, h.2.orderly = true
  | [], _ => by simp [headsAll]
  | s :: rest, known => by
    simp only [orderlyEach, Bool.and_eq_true] at known
    intro h member
    rcases List.mem_append.mp (by simpa [headsAll] using member) with first | later
    · exact orderly_heads s known.1 h first
    · exact orderly_headsAll rest known.2 h later

end

theorem length_heads : ∀ {s : Shape}, s.definite = true → s.heads.length = 1
  | .guarded inner, known => by
    simp only [heads, List.length_map]
    exact length_heads (s := inner) (by simpa [definite] using known)
  | .choice _, known => by simp [definite] at known
  | .any _, _ | .bool _, _ | .variant .., _ | .range .., _ | .string _, _
  | .float _, _ | .list .., _ | .product _, _ | .target _, _ => by simp [heads]

theorem length_spread (known : definiteAll shapes = true) : (spread shapes).length = 1 := by
  induction shapes with
  | nil => rfl
  | cons s rest ih =>
    simp only [definiteAll, Bool.and_eq_true] at known
    simp [spread, List.length_flatMap, length_heads known.1, ih known.2]

theorem definiteAll_spread (known : definiteAll shapes = true) : ∀ a ∈ spread shapes, definiteAll a.2 = true := by
  induction shapes with
  | nil => simp [spread, definiteAll]
  | cons s rest ih =>
    simp only [definiteAll, Bool.and_eq_true] at known
    simp only [spread, List.mem_flatMap, List.mem_map]
    rintro _ ⟨head, inHeads, tail, inRest, rfl⟩
    simp [definiteAll, definite_heads s (shallow_of_definite known.1) head inHeads, ih known.2 tail inRest]

/-- Rows of alternatives are orderly where the row they come from is. -/
theorem orderlyAll_spread (known : orderlyAll shapes = true) : ∀ a ∈ spread shapes, orderlyAll a.2 = true := by
  induction shapes with
  | nil => simp [spread, orderlyAll]
  | cons s rest ih =>
    simp only [orderlyAll, Bool.and_eq_true, Bool.or_eq_true] at known
    obtain ⟨⟨first, later⟩, apart⟩ := known
    simp only [spread, List.mem_flatMap, List.mem_map]
    rintro _ ⟨head, inHeads, tail, inRest, rfl⟩
    simp only [orderlyAll, Bool.and_eq_true, Bool.or_eq_true]
    refine ⟨⟨orderly_heads s first head inHeads, ih later tail inRest⟩, ?_⟩
    exact apart.imp (fun top => shallow_of_definite (definite_heads s top head inHeads))
      fun sure => definiteAll_spread sure tail inRest

mutual

/-- Reading a pattern against a type adds no choice. -/
theorem definite_ofPattern (decls : Decls) : ∀ (p : Pattern) (t : Ty), p.definite = true →
    (ofPattern decls p t).definite = true
  | .wildcard _, _, _ | .binding _, _, _ => by simp [ofPattern, wild, definite]
  | .alternatives .., _, known => by simp [Pattern.definite] at known
  | .guarded _ inner _, t, known => by
    simp only [ofPattern, definite]
    exact definite_ofPattern decls inner t (by simpa [Pattern.definite] using known)
  | .literal _ value, t, _ => by simp [ofPattern, definite_ofLiteral]
  | .range .., t, _ => by
    simp only [ofPattern, definite_behind]
    split <;> rfl
  | .tuple _ elements, t, known => by
    simp only [ofPattern, definite_behind]
    split
    · rfl
    · exact definiteAll_ofAll decls elements _ (by simpa [Pattern.definite] using known)
    · rfl
  | .record _ _ fields _, t, known => by
    simp only [ofPattern, definite_behind]
    split
    · exact definiteAll_ofFields decls fields _ _ (by simpa [Pattern.definite] using known) (definiteAll_wilds _)
    · rfl
  | .variant _ _ tag args fields _, t, known => by
    simp only [Pattern.definite, Bool.and_eq_true] at known
    simp only [ofPattern, definite_behind]
    split
    · split
      · rfl
      · split
        · rfl
        · split
          · exact definiteAll_ofFields decls fields _ _ known.2 (definiteAll_wilds _)
          · exact definiteAll_ofAll decls args _ known.1
    · rfl
  | .list _ front isOpen rest, t, known => by
    simp only [ofPattern, definite_behind]
    split
    · exact definiteAll_ofEach decls front _ (by simpa [Pattern.definite] using known)
    · rfl

theorem definiteAll_ofEach (decls : Decls) : ∀ (ps : List Pattern) (t : Ty), Pattern.definiteAll ps = true →
    definiteAll (ofEach decls ps t) = true
  | [], _, _ => by simp [ofEach, definiteAll]
  | p :: rest, t, known => by
    simp only [Pattern.definiteAll, Bool.and_eq_true] at known
    simp [ofEach, definiteAll, definite_ofPattern decls p t known.1, definiteAll_ofEach decls rest t known.2]

theorem definiteAll_ofAll (decls : Decls) : ∀ (ps : List Pattern) (types : List Ty),
    Pattern.definiteAll ps = true → definiteAll (ofAll decls ps types) = true
  | [], types, _ => by simp [ofAll]
  | _ :: _, [], _ => by simp [ofAll, definiteAll]
  | p :: rest, t :: types, known => by
    simp only [Pattern.definiteAll, Bool.and_eq_true] at known
    simp [ofAll, definiteAll, definite_ofPattern decls p t known.1, definiteAll_ofAll decls rest types known.2]

theorem definiteAll_ofFields (decls : Decls) : ∀ (fields : List FieldPattern) (declared : List Field)
    (shapes : List Shape), Pattern.definiteFields fields = true → definiteAll shapes = true →
    definiteAll (ofFields decls fields declared shapes) = true
  | [], _, _, _, free => by simpa [ofFields] using free
  | .mk name p :: rest, declared, shapes, known, free => by
    simp only [Pattern.definiteFields, Bool.and_eq_true] at known
    simp only [ofFields]
    refine definiteAll_ofFields decls rest declared _ known.2 (definiteAll_iff.mpr ?_)
    simp only [List.mem_map, Prod.exists]
    rintro _ ⟨f, old, member, rfl⟩
    split
    · exact definite_ofPattern decls p f.type known.1
    · exact definiteAll_iff.mp free old (List.of_mem_zip member).2

end

mutual

theorem shallow_ofPattern (decls : Decls) : ∀ (p : Pattern) (t : Ty), p.shallow = true →
    (ofPattern decls p t).shallow = true
  | .alternatives _ choices, t, known => by
    simp only [ofPattern, shallow]
    exact shallowEach_ofEach decls choices t (by simpa [Pattern.shallow] using known)
  | .guarded _ inner _, t, known => by
    simp only [ofPattern, shallow]
    exact shallow_ofPattern decls inner t (by simpa [Pattern.shallow] using known)
  | .wildcard _, t, known | .binding _, t, known | .literal .., t, known | .range .., t, known
  | .tuple .., t, known | .record .., t, known | .variant .., t, known | .list .., t, known =>
    shallow_of_definite (definite_ofPattern decls _ t (by simpa [Pattern.shallow] using known))

theorem shallowEach_ofEach (decls : Decls) : ∀ (ps : List Pattern) (t : Ty), Pattern.shallowEach ps = true →
    shallowEach (ofEach decls ps t) = true
  | [], _, _ => by simp [ofEach, shallowEach]
  | p :: rest, t, known => by
    simp only [Pattern.shallowEach, Bool.and_eq_true] at known
    simp [ofEach, shallowEach, shallow_ofPattern decls p t known.1, shallowEach_ofEach decls rest t known.2]

end

end Match.Shape

end TreeCheck
