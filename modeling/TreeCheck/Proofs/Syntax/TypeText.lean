import Mathlib
import TreeCheck.Proofs.Syntax.TypeGrammar
import TreeCheck.Proofs.Text.Quotation

/-!
Written types are read back from their spelling. A spelling is one way to write a type, with a space behind each comma,
behind `mut` and around an arrow; a result that was omitted comes back as the empty tuple.
-/

namespace TreeCheck

namespace TypeForm

variable {Name Other : Type}

mutual

/-- The type with every omitted result written as the empty tuple. -/
def complete : TypeForm Name → TypeForm Name
  | .named name args => .named name (completeAll args)
  | .ref mutable target => .ref mutable target.complete
  | .array element => .array element.complete
  | .tuple elements => .tuple (completeAll elements)
  | .function params none => .function (completeAll params) (some (.tuple []))
  | .function params (some result) => .function (completeAll params) (some result.complete)

def completeAll : List (TypeForm Name) → List (TypeForm Name)
  | [] => []
  | t :: rest => t.complete :: completeAll rest

end

/-- The word that the spelling of a type begins with, if it begins with one. -/
def word : TypeForm Octets → List UInt8
  | .named name _ => name.bytes
  | .function .. => TypeExpr.Token.fn
  | _ => []

mutual

/-- The names of a type are words, and no shared reference is to what begins with the word `mut`. -/
def Legal : TypeForm Octets → Prop
  | .named name args =>
    name.bytes ≠ [] ∧ (∀ byte ∈ name.bytes, TypeExpr.isNameByte byte = true) ∧ LegalAll args
  | .ref false target => target.word ≠ TypeExpr.Token.mutable ∧ target.Legal
  | .ref true target => target.Legal
  | .array element => element.Legal
  | .tuple elements => LegalAll elements
  | .function params none => LegalAll params
  | .function params (some result) => LegalAll params ∧ result.Legal

def LegalAll : List (TypeForm Octets) → Prop
  | [] => True
  | t :: rest => t.Legal ∧ LegalAll rest

end

theorem word_complete (t : TypeForm Octets) : t.complete.word = t.word := by
  cases t with
  | function params result => cases result <;> rfl
  | _ => rfl

/-! ### Spellings -/

theorem bytes_append (a b : Octets) : (a ++ b).bytes = a.bytes ++ b.bytes := rfl

theorem ofText_append (a b : String) : Octets.ofText (a ++ b) = Octets.ofText a ++ Octets.ofText b :=
  congrArg Octets.mk (Text.bytes_append a b)

theorem append_assoc (a b c : Octets) : a ++ b ++ c = a ++ (b ++ c) :=
  congrArg Octets.mk (List.append_assoc a.bytes b.bytes c.bytes)

mutual

theorem octets_complete : ∀ t : TypeForm Octets, t.complete.octets = t.octets
  | .named name [] => rfl
  | .named name (arg :: args) => by
    have inner := spellAll_complete (arg :: args)
    rw [completeAll] at inner
    rw [complete, completeAll, octets, octets, spell, spell, inner]
  | .ref true target | .ref false target => by
    have inner := octets_complete target
    rw [octets, octets] at inner
    rw [complete, octets, octets, spell, spell, inner]
  | .array element => by
    have inner := octets_complete element
    rw [octets, octets] at inner
    rw [complete, octets, octets, spell, spell, inner]
  | .tuple elements => by rw [complete, octets, octets, spell, spell, spellAll_complete elements]
  | .function params none => by
    have unit : Octets.ofText ") -> ()" = Octets.ofText ") -> " ++ spell id Octets.ofText (.tuple []) := by
      have text : ") -> ()" = ") -> " ++ ("(" ++ "" ++ ")") := rfl
      rw [text, ofText_append, ofText_append, ofText_append]
      rfl
    simp only [complete, octets, spell, spellAll_complete params, unit, append_assoc]
  | .function params (some result) => by
    have inner := octets_complete result
    rw [octets, octets] at inner
    rw [complete, octets, octets, spell, spell, spellAll_complete params, inner]

theorem spellAll_complete : ∀ types : List (TypeForm Octets),
    spellAll id Octets.ofText (completeAll types) = spellAll id Octets.ofText types
  | [] => rfl
  | [t] => octets_complete t
  | t :: next :: rest => by
    have inner := spellAll_complete (next :: rest)
    have first := octets_complete t
    rw [octets, octets] at first
    simp only [completeAll] at inner
    simp only [completeAll, spellAll, first, inner]

end

mutual

theorem bytes_text : ∀ t : TypeForm String, Text.bytes t.text = (t.map Octets.ofText).octets.bytes
  | .named name [] => rfl
  | .named name (arg :: args) => by
    have inner := bytes_spellAll (arg :: args)
    rw [mapAll] at inner
    simp only [text, map, mapAll, octets, spell, bytes_append, Text.bytes_append, inner]
    rfl
  | .ref true target | .ref false target => by
    have inner := bytes_text target
    rw [text, octets] at inner
    simp only [text, map, octets, spell, bytes_append, Text.bytes_append, inner]
    rfl
  | .array element => by
    have inner := bytes_text element
    rw [text, octets] at inner
    simp only [text, map, octets, spell, bytes_append, Text.bytes_append, inner]
    rfl
  | .tuple elements => by
    simp only [text, map, octets, spell, bytes_append, Text.bytes_append, bytes_spellAll elements]
    rfl
  | .function params none => by
    simp only [text, map, octets, spell, bytes_append, Text.bytes_append, bytes_spellAll params]
    rfl
  | .function params (some result) => by
    have inner := bytes_text result
    rw [text, octets] at inner
    simp only [text, map, octets, spell, bytes_append, Text.bytes_append, bytes_spellAll params, inner]
    rfl

theorem bytes_spellAll : ∀ types : List (TypeForm String),
    Text.bytes (spellAll id id types) = (spellAll id Octets.ofText (mapAll Octets.ofText types)).bytes
  | [] => rfl
  | [t] => bytes_text t
  | t :: next :: rest => by
    have inner := bytes_spellAll (next :: rest)
    have first := bytes_text t
    rw [text, octets] at first
    simp only [mapAll] at inner
    simp only [mapAll, spellAll, bytes_append, Text.bytes_append, first, inner]
    rfl

end

mutual

theorem map_back {rename : Name → Other} {back : Other → Name} (inverse : ∀ name, back (rename name) = name) :
    ∀ t : TypeForm Name, (t.map rename).map back = t
  | .named name args => by rw [map, map, inverse name, mapAll_back inverse args]
  | .ref mutable target => by rw [map, map, map_back inverse target]
  | .array element => by rw [map, map, map_back inverse element]
  | .tuple elements => by rw [map, map, mapAll_back inverse elements]
  | .function params none => by rw [map, map, mapAll_back inverse params]
  | .function params (some result) => by rw [map, map, mapAll_back inverse params, map_back inverse result]

theorem mapAll_back {rename : Name → Other} {back : Other → Name} (inverse : ∀ name, back (rename name) = name) :
    ∀ types : List (TypeForm Name), mapAll back (mapAll rename types) = types
  | [] => rfl
  | t :: rest => by rw [mapAll, mapAll, map_back inverse t, mapAll_back inverse rest]

end

mutual

theorem complete_map (rename : Name → Other) : ∀ t : TypeForm Name, (t.map rename).complete = t.complete.map rename
  | .named name args => by rw [map, complete, complete, map, completeAll_mapAll rename args]
  | .ref mutable target => by rw [map, complete, complete, map, complete_map rename target]
  | .array element => by rw [map, complete, complete, map, complete_map rename element]
  | .tuple elements => by rw [map, complete, complete, map, completeAll_mapAll rename elements]
  | .function params none => by rw [map, complete, complete, map, completeAll_mapAll rename params, map, mapAll]
  | .function params (some result) => by
    rw [map, complete, complete, map, completeAll_mapAll rename params, complete_map rename result]

theorem completeAll_mapAll (rename : Name → Other) : ∀ types : List (TypeForm Name),
    completeAll (mapAll rename types) = mapAll rename (completeAll types)
  | [] => rfl
  | t :: rest => by rw [mapAll, completeAll, completeAll, mapAll, complete_map rename t, completeAll_mapAll rename rest]

end

end TypeForm

namespace TypeExpr

/-! ### The way a spelling writes a type -/

mutual

/-- The derivation of a spelling, behind spaces. -/
def Derivation.of (before : Nat) : TypeForm Octets → Derivation
  | .named name [] => .named before name.bytes
  | .named name (arg :: args) => .applied before name.bytes 0 (.some (Derivation.of 0 arg) (Others.of args)) 0
  | .ref false target => .shared before (Derivation.of 0 target)
  | .ref true target => .exclusive before 0 (Derivation.of 1 target)
  | .array element => .array before (Derivation.of 0 element) 0
  | .tuple elements => .tuple before (Items.of elements) 0
  | .function params none => .returning before 0 (Items.of params) 0 1 (.tuple 1 .none 0)
  | .function params (some result) => .returning before 0 (Items.of params) 0 1 (Derivation.of 1 result)

def Items.of : List (TypeForm Octets) → Items
  | [] => .none
  | t :: rest => .some (Derivation.of 0 t) (Others.of rest)

def Others.of : List (TypeForm Octets) → Others
  | [] => .done
  | t :: rest => .next 0 (Derivation.of 1 t) (Others.of rest)

end

mutual

theorem Derivation.type_of : ∀ (t : TypeForm Octets) (before : Nat), (Derivation.of before t).type = t.complete
  | .named name [], before => rfl
  | .named name (arg :: args), before => by
    rw [Derivation.of, Derivation.type, Items.types, Derivation.type_of arg, Others.types_of args]
    rfl
  | .ref true target, before | .ref false target, before => by
    rw [Derivation.of, Derivation.type, Derivation.type_of target]
    rfl
  | .array element, before => by
    rw [Derivation.of, Derivation.type, Derivation.type_of element]
    rfl
  | .tuple elements, before => by
    rw [Derivation.of, Derivation.type, Items.types_of elements]
    rfl
  | .function params none, before => by
    rw [Derivation.of, Derivation.type, Items.types_of params]
    rfl
  | .function params (some result), before => by
    rw [Derivation.of, Derivation.type, Items.types_of params, Derivation.type_of result]
    rfl

theorem Items.types_of : ∀ types : List (TypeForm Octets), (Items.of types).types = TypeForm.completeAll types
  | [] => rfl
  | t :: rest => by
    rw [Items.of, Items.types, Derivation.type_of t, Others.types_of rest]
    rfl

theorem Others.types_of : ∀ types : List (TypeForm Octets), (Others.of types).types = TypeForm.completeAll types
  | [] => rfl
  | t :: rest => by
    rw [Others.of, Others.types, Derivation.type_of t, Others.types_of rest]
    rfl

end

theorem marks : (Octets.ofText "<").bytes = [0x3c] ∧ (Octets.ofText ">").bytes = [0x3e] ∧
    (Octets.ofText "&").bytes = [0x26] ∧ (Octets.ofText "&mut ").bytes = [0x26, 0x6d, 0x75, 0x74, 0x20] ∧
    (Octets.ofText "[").bytes = [0x5b] ∧ (Octets.ofText "]").bytes = [0x5d] ∧
    (Octets.ofText "(").bytes = [0x28] ∧ (Octets.ofText ")").bytes = [0x29] ∧
    (Octets.ofText "fn(").bytes = [0x66, 0x6e, 0x28] ∧
    (Octets.ofText ") -> ").bytes = [0x29, 0x20, 0x2d, 0x3e, 0x20] ∧
    (Octets.ofText ") -> ()").bytes = [0x29, 0x20, 0x2d, 0x3e, 0x20, 0x28, 0x29] ∧
    (Octets.ofText ", ").bytes = [0x2c, 0x20] ∧ (Octets.ofText "").bytes = [] := by
  simp only [Octets.ofText, Text.bytes_eq]
  decide +kernel

mutual

theorem Derivation.bytes_of : ∀ (t : TypeForm Octets) (before : Nat),
    (Derivation.of before t).bytes = spaced before t.octets.bytes
  | .named name [], before => rfl
  | .named name (arg :: args), before => by
    have inner := Others.bytes_of args arg
    simp only [Derivation.of, Derivation.bytes, Items.bytes, Derivation.bytes_of arg, TypeForm.octets, TypeForm.spell,
      TypeForm.bytes_append, marks, inner]
    simp [spaced, Token.openAngle, Token.closeAngle]
  | .ref true target, before | .ref false target, before => by
    simp only [Derivation.of, Derivation.bytes, Derivation.bytes_of target, TypeForm.octets, TypeForm.spell,
      TypeForm.bytes_append, marks]
    simp [spaced, Token.ampersand, Token.mutable]
  | .array element, before => by
    simp only [Derivation.of, Derivation.bytes, Derivation.bytes_of element, TypeForm.octets, TypeForm.spell,
      TypeForm.bytes_append, marks]
    simp [spaced, Token.openBracket, Token.closeBracket]
  | .tuple elements, before => by
    simp only [Derivation.of, Derivation.bytes, Items.bytes_of elements, TypeForm.octets, TypeForm.spell,
      TypeForm.bytes_append, marks]
    simp [spaced, Token.openParen, Token.closeParen]
  | .function params none, before => by
    simp only [Derivation.of, Derivation.bytes, Items.bytes, Items.bytes_of params, TypeForm.octets, TypeForm.spell,
      TypeForm.bytes_append, marks]
    simp [spaced, Token.fn, Token.openParen, Token.closeParen, Token.arrow]
  | .function params (some result), before => by
    simp only [Derivation.of, Derivation.bytes, Items.bytes_of params, Derivation.bytes_of result, TypeForm.octets,
      TypeForm.spell, TypeForm.bytes_append, marks]
    simp [spaced, Token.fn, Token.openParen, Token.closeParen, Token.arrow]

theorem Items.bytes_of : ∀ types : List (TypeForm Octets),
    (Items.of types).bytes = (TypeForm.spellAll id Octets.ofText types).bytes
  | [] => marks.2.2.2.2.2.2.2.2.2.2.2.2.symm
  | t :: rest => by
    rw [Items.of, Items.bytes, Others.bytes_of rest t, Derivation.bytes_of t]
    rfl

theorem Others.bytes_of : ∀ (types : List (TypeForm Octets)) (first : TypeForm Octets),
    (TypeForm.spellAll id Octets.ofText (first :: types)).bytes = first.octets.bytes ++ (Others.of types).bytes
  | [], first => (List.append_nil _).symm
  | t :: rest, first => by
    simp only [TypeForm.spellAll, TypeForm.bytes_append, Others.bytes_of rest t, Others.of, Others.bytes,
      Derivation.bytes_of t, marks]
    simp [spaced, Token.comma, TypeForm.octets]

end

theorem Derivation.nextWord_bytes {d : Derivation} {rest : List UInt8} (lawful : d.Lawful rest) :
    nextWord (d.bytes ++ rest) = d.type.word := by
  have mark {byte : UInt8} (solid : byte ≠ 0x20) (other : isNameByte byte = false) (before : Nat) (more : List UInt8) :
      nextWord (spaced before [byte] ++ more) = [] := by
    rw [nextWord, spaced_append, skipSpaces_spaced (by rintro b ⟨⟩; exact solid)]
    simp [other]
  cases d with
  | shared | exclusive | array | tuple =>
    rw [Derivation.bytes, List.append_assoc]
    exact mark (by decide) (by decide) _ _
  | function before left | returning before left =>
    simp only [Derivation.bytes, List.append_assoc]
    exact nextWord_spaced (fn_run left _) before
  | named before name => exact nextWord_spaced lawful before
  | applied before name =>
    simp only [Derivation.bytes, List.append_assoc]
    exact nextWord_spaced lawful.1 before

theorem Others.stops_of (types : List (TypeForm Octets)) {rest : List UInt8} (stops : Stops rest) :
    Stops ((Others.of types).bytes ++ rest) := by
  cases types with
  | nil => exact stops
  | cons t types =>
    rw [Others.of, Others.bytes, List.append_assoc]
    exact stops_spaced 0 (by decide) [] _

mutual

/-- The way a spelling writes a type keeps to the grammar. -/
theorem Derivation.lawful_of : ∀ (t : TypeForm Octets) (before : Nat) {rest : List UInt8}, t.Legal → Stops rest →
    (Derivation.of before t).Lawful rest
  | .named name [], before, rest, legal, stops => ⟨legal.1, legal.2.1, stops⟩
  | .named name (arg :: args), before, rest, legal, stops =>
    ⟨⟨legal.1, legal.2.1, stops_spaced 0 (by decide) [] _⟩,
      Derivation.lawful_of arg 0 legal.2.2.1 (Others.stops_of args (stops_spaced 0 (by decide) [] rest)),
      Others.lawful_of args legal.2.2.2 (stops_spaced 0 (by decide) [] rest)⟩
  | .ref true target, before, rest, legal, stops => by
    refine ⟨?_, Derivation.lawful_of target 1 legal stops⟩
    rw [Derivation.bytes_of]
    rintro byte ⟨⟩
    decide
  | .ref false target, before, rest, legal, stops => by
    have inner := Derivation.lawful_of target 0 legal.2 stops
    refine ⟨?_, inner⟩
    rw [Derivation.nextWord_bytes inner, Derivation.type_of, TypeForm.word_complete]
    exact legal.1
  | .array element, before, rest, legal, stops =>
    Derivation.lawful_of element 0 legal (stops_spaced 0 (by decide) [] rest)
  | .tuple elements, before, rest, legal, stops => Items.lawful_of elements legal (stops_spaced 0 (by decide) [] rest)
  | .function params none, before, rest, legal, stops =>
    ⟨Items.lawful_of params legal (stops_spaced 0 (by decide) [] _), trivial⟩
  | .function params (some result), before, rest, legal, stops =>
    ⟨Items.lawful_of params legal.1 (stops_spaced 0 (by decide) [] _), Derivation.lawful_of result 1 legal.2 stops⟩

theorem Items.lawful_of : ∀ (types : List (TypeForm Octets)) {rest : List UInt8}, TypeForm.LegalAll types →
    Stops rest → (Items.of types).Lawful rest
  | [], _, _, _ => trivial
  | t :: types, _, legal, stops =>
    ⟨Derivation.lawful_of t 0 legal.1 (Others.stops_of types stops), Others.lawful_of types legal.2 stops⟩

theorem Others.lawful_of : ∀ (types : List (TypeForm Octets)) {rest : List UInt8}, TypeForm.LegalAll types →
    Stops rest → (Others.of types).Lawful rest
  | [], _, _, _ => trivial
  | t :: types, _, legal, stops =>
    ⟨Derivation.lawful_of t 1 legal.1 (Others.stops_of types stops), Others.lawful_of types legal.2 stops⟩

end

mutual

/-- What the grammar derives can be spelled. -/
theorem Derivation.legal : ∀ (d : Derivation) {rest : List UInt8}, d.Lawful rest → d.type.Legal
  | .shared _ target, _, lawful => ⟨Derivation.nextWord_bytes lawful.2 ▸ lawful.1, target.legal lawful.2⟩
  | .exclusive _ _ target, _, lawful => target.legal lawful.2
  | .array _ element _, _, lawful => element.legal lawful
  | .tuple _ elements _, _, lawful => elements.legal lawful
  | .function _ _ params _, _, lawful => params.legal lawful
  | .returning _ _ params _ _ result, _, lawful => ⟨params.legal lawful.1, result.legal lawful.2⟩
  | .named .., _, lawful => ⟨lawful.filled, lawful.own, trivial⟩
  | .applied _ _ _ args _, _, lawful => ⟨lawful.1.filled, lawful.1.own, args.legal lawful.2⟩

theorem Items.legal : ∀ (items : Items) {rest : List UInt8}, items.Lawful rest → TypeForm.LegalAll items.types
  | .none, _, _ => trivial
  | .some first others, _, lawful => ⟨first.legal lawful.1, others.legal lawful.2⟩

theorem Others.legal : ∀ (others : Others) {rest : List UInt8}, others.Lawful rest → TypeForm.LegalAll others.types
  | .done, _, _ | .trailing _, _, _ => trivial
  | .next _ item others, _, lawful => ⟨item.legal lawful.1, others.legal lawful.2⟩

end

/-! ### Spellings are read back -/

theorem ofBytes_octets {t : TypeForm Octets} (legal : t.Legal) : ofBytes t.octets.bytes = .ok t.complete := by
  have derives : (Derivation.of 0 t).Derives t.octets.bytes :=
    ⟨0, by rw [Derivation.bytes_of]; exact (List.append_nil _).symm,
      Derivation.lawful_of t 0 legal (by rintro byte ⟨⟩)⟩
  rw [derives.ofBytes, Derivation.type_of]

/-- The spelling of a type that was read is read as that type, with every omitted result written as the empty tuple;
so it is spelled like the first one. -/
theorem ofBytes_stable (source : List UInt8) (t : TypeForm Octets) (read : ofBytes source = .ok t) :
    ofBytes t.octets.bytes = .ok t.complete ∧ t.complete.octets = t.octets := by
  obtain ⟨d, ⟨n, -, lawful⟩, rfl⟩ := exists_derives read
  exact ⟨ofBytes_octets (d.legal lawful), d.type.octets_complete⟩

/-- Spaces and commas that are left out, an exclusive reference to a type named `mut`, and an omitted result. -/
theorem ofBytes_stable_loose :
    let t : TypeForm Octets := .function [.ref true (.named (Octets.ofText "mut") []),
      .array (.tuple [.ref false (.named (Octets.ofText "mutable") [])])] none
    ofBytes (Text.bytes "fn (& mut mut,[ (&mutable ,)],)") = .ok t ∧
      ofBytes t.octets.bytes = .ok t.complete ∧ t.complete.octets = t.octets ∧
      t.octets = Octets.ofText "fn(&mut mut, [(&mutable)]) -> ()" := by
  intro t
  have read : ofBytes (Text.bytes "fn (& mut mut,[ (&mutable ,)],)") = .ok t := by simp only [t]; cbv
  obtain ⟨again, alike⟩ := ofBytes_stable _ t read
  exact ⟨read, again, alike, by simp only [t]; cbv⟩

/-! ### Names that are texts -/

/-- A text that is read as a name wherever a type may stand. -/
structure IsName (name : String) : Prop where
  filled : name ≠ ""
  bytes : ∀ byte ∈ Text.bytes name, isNameByte byte = true
  free : name ≠ "mut"

instance (name : String) : Decidable (IsName name) :=
  decidable_of_iff (name ≠ "" ∧ (Text.bytes name).all isNameByte = true ∧ name ≠ "mut")
    ⟨fun ⟨filled, bytes, free⟩ => ⟨filled, List.all_eq_true.mp bytes, free⟩,
      fun name => ⟨name.filled, List.all_eq_true.mpr name.bytes, name.free⟩⟩

theorem bytes_inj {a b : String} (same : Text.bytes a = Text.bytes b) : a = b := by
  rw [← Text.ofBytes_bytes a, same, Text.ofBytes_bytes]

mutual

def Named : TypeExpr → Prop
  | .named name args => IsName name ∧ NamedAll args
  | .ref _ target => Named target
  | .array element => Named element
  | .tuple elements => NamedAll elements
  | .function params none => NamedAll params
  | .function params (some result) => NamedAll params ∧ Named result

def NamedAll : List TypeExpr → Prop
  | [] => True
  | t :: rest => Named t ∧ NamedAll rest

end

theorem Named.word_ne {t : TypeExpr} (named : Named t) : (t.map Octets.ofText).word ≠ Token.mutable := by
  cases t with
  | named name args =>
    intro same
    have word : Text.bytes "mut" = Token.mutable := by rw [Text.bytes_eq]; rfl
    exact named.1.free (bytes_inj (same.trans word.symm))
  | function params result => cases result <;> (intro same; cases same)
  | _ => intro same; cases same

mutual

theorem Named.legal : ∀ {t : TypeExpr}, Named t → (t.map Octets.ofText).Legal
  | .named name args, named =>
    ⟨fun none => named.1.filled (bytes_inj (none.trans (by rw [Text.bytes_eq]; rfl))), named.1.bytes,
      NamedAll.legal named.2⟩
  | .ref true target, named => @Named.legal target named
  | .ref false target, named => ⟨Named.word_ne named, @Named.legal target named⟩
  | .array element, named => Named.legal (t := element) named
  | .tuple elements, named => @NamedAll.legal elements named
  | .function params none, named => @NamedAll.legal params named
  | .function params (some result), named => ⟨NamedAll.legal named.1, Named.legal named.2⟩

theorem NamedAll.legal : ∀ {types : List TypeExpr}, NamedAll types →
    TypeForm.LegalAll (TypeForm.mapAll Octets.ofText types)
  | [], _ => trivial
  | _ :: _, named => ⟨Named.legal named.1, NamedAll.legal named.2⟩

end

/-- A whole text is read as the type that it spells. -/
theorem ofText_text {t : TypeExpr} (named : Named t) : ofText t.text = .ok t.complete := by
  rw [ofText, t.bytes_text, ofBytes_octets named.legal, TypeForm.complete_map]
  have back (name : String) : (Octets.ofText name).text = name := Text.ofBytes_bytes name
  exact congrArg Except.ok (TypeForm.map_back back t.complete)

end TypeExpr

end TreeCheck
