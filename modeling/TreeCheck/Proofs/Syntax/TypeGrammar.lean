import Mathlib.Data.List.TakeWhile
import TreeCheck.Proofs.Failing
import TreeCheck.Syntax.TypeReader

/-!
The grammar of type syntax. A derivation says how a type is written out, down to the spaces before its tokens. The
reader accepts the bytes that have a derivation, it gives the type that is derived, and no bytes have two derivations.
-/

namespace TreeCheck.TypeExpr

/-! ### Derivations -/

def spaced (spaces : Nat) (token : List UInt8) : List UInt8 := List.replicate spaces 0x20 ++ token

/-- The run of name bytes that the input goes on with behind its spaces. -/
def nextWord (input : List UInt8) : List UInt8 := (skipSpaces input).takeWhile isNameByte

/-- No name byte comes next. -/
def Stops (rest : List UInt8) : Prop := ∀ byte ∈ rest.head?, isNameByte byte = false

/-- A run of name bytes that ends where the rest begins. -/
structure Run (word rest : List UInt8) : Prop where
  filled : word ≠ []
  own : ∀ byte ∈ word, isNameByte byte = true
  stops : Stops rest

mutual

/-- How a type is written. The numbers count the spaces before a token, in the order of the tokens. -/
inductive Derivation where
  /-- `type = '&' type` -/
  | shared (before : Nat) (target : Derivation)
  /-- `type = '&' 'mut' type` -/
  | exclusive (before word : Nat) (target : Derivation)
  /-- `type = '[' type ']'` -/
  | array (before : Nat) (element : Derivation) (close : Nat)
  /-- `type = '(' list ')'` -/
  | tuple (before : Nat) (elements : Items) (close : Nat)
  /-- `type = 'fn' '(' list ')'` -/
  | function (before left : Nat) (params : Items) (right : Nat)
  /-- `type = 'fn' '(' list ')' '->' type` -/
  | returning (before left : Nat) (params : Items) (right arrow : Nat) (result : Derivation)
  /-- `type = ident` -/
  | named (before : Nat) (name : List UInt8)
  /-- `type = ident '<' list '>'` -/
  | applied (before : Nat) (name : List UInt8) (left : Nat) (args : Items) (right : Nat)

/-- `list = empty | type (',' type)* ','?` -/
inductive Items where
  | none
  | some (first : Derivation) (others : Others)

/-- `(',' type)* ','?` -/
inductive Others where
  | done
  | trailing (comma : Nat)
  | next (comma : Nat) (item : Derivation) (others : Others)

end

mutual

/-- What is written. -/
def Derivation.bytes : Derivation → List UInt8
  | .shared before target => spaced before Token.ampersand ++ target.bytes
  | .exclusive before word target => spaced before Token.ampersand ++ (spaced word Token.mutable ++ target.bytes)
  | .array before element close =>
    spaced before Token.openBracket ++ (element.bytes ++ spaced close Token.closeBracket)
  | .tuple before elements close => spaced before Token.openParen ++ (elements.bytes ++ spaced close Token.closeParen)
  | .function before left params right =>
    spaced before Token.fn ++ (spaced left Token.openParen ++ (params.bytes ++ spaced right Token.closeParen))
  | .returning before left params right arrow result =>
    spaced before Token.fn ++ (spaced left Token.openParen ++ (params.bytes ++ (spaced right Token.closeParen ++
      (spaced arrow Token.arrow ++ result.bytes))))
  | .named before name => spaced before name
  | .applied before name left args right =>
    spaced before name ++ (spaced left Token.openAngle ++ (args.bytes ++ spaced right Token.closeAngle))

def Items.bytes : Items → List UInt8
  | .none => []
  | .some first others => first.bytes ++ others.bytes

def Others.bytes : Others → List UInt8
  | .done => []
  | .trailing comma => spaced comma Token.comma
  | .next comma item others => spaced comma Token.comma ++ (item.bytes ++ others.bytes)

end

mutual

def Derivation.type : Derivation → TypeForm Octets
  | .shared _ target => .ref false target.type
  | .exclusive _ _ target => .ref true target.type
  | .array _ element _ => .array element.type
  | .tuple _ elements _ => .tuple elements.types
  | .function _ _ params _ => .function params.types none
  | .returning _ _ params _ _ result => .function params.types (some result.type)
  | .named _ name => .named ⟨name⟩ []
  | .applied _ name _ args _ => .named ⟨name⟩ args.types

def Items.types : Items → List (TypeForm Octets)
  | .none => []
  | .some first others => first.type :: others.types

def Others.types : Others → List (TypeForm Octets)
  | .done | .trailing _ => []
  | .next _ item others => item.type :: others.types

end

mutual

/-- The side conditions of the grammar, before the bytes that follow. A shared reference is not to what begins with
the word `mut`, that word is not the beginning of a longer one in an exclusive reference, and a name takes all the
name bytes there are. -/
def Derivation.Lawful : Derivation → List UInt8 → Prop
  | .shared _ target, rest => nextWord (target.bytes ++ rest) ≠ Token.mutable ∧ target.Lawful rest
  | .exclusive _ _ target, rest => Stops (target.bytes ++ rest) ∧ target.Lawful rest
  | .array _ element close, rest => element.Lawful (spaced close Token.closeBracket ++ rest)
  | .tuple _ elements close, rest => elements.Lawful (spaced close Token.closeParen ++ rest)
  | .function _ _ params right, rest => params.Lawful (spaced right Token.closeParen ++ rest)
  | .returning _ _ params right arrow result, rest =>
    params.Lawful (spaced right Token.closeParen ++ (spaced arrow Token.arrow ++ (result.bytes ++ rest))) ∧
      result.Lawful rest
  | .named _ name, rest => Run name rest
  | .applied _ name left args right, rest =>
    Run name (spaced left Token.openAngle ++ (args.bytes ++ (spaced right Token.closeAngle ++ rest))) ∧
      args.Lawful (spaced right Token.closeAngle ++ rest)

def Items.Lawful : Items → List UInt8 → Prop
  | .none, _ => True
  | .some first others, rest => first.Lawful (others.bytes ++ rest) ∧ others.Lawful rest

def Others.Lawful : Others → List UInt8 → Prop
  | .done, _ | .trailing _, _ => True
  | .next _ item others, rest => item.Lawful (others.bytes ++ rest) ∧ others.Lawful rest

end

/-- The bytes are written as the derivation says, with spaces at the end. -/
def Derivation.Derives (d : Derivation) (source : List UInt8) : Prop :=
  ∃ spaces, source = d.bytes ++ spaced spaces [] ∧ d.Lawful (spaced spaces [])

/-! ### Tokens -/

section

variable {token other byte : UInt8} {more word rest input : List UInt8} {n : Nat}

/-- The input goes on with nothing that would be read as part of a type before it. -/
def Ends (rest : List UInt8) : Prop := ∀ byte ∈ (skipSpaces rest).head?, byte ∈ [0x2c, 0x29, 0x5d, 0x3e]

def Opens (byte : UInt8) : Prop := byte ∈ [0x26, 0x5b, 0x28] ∨ isNameByte byte = true

section
-- The equations of these definitions are made here once, so that no proof below waits while another makes them.
attribute [local simp] Derivation.bytes Items.bytes Others.bytes Derivation.type accept acceptMut afterToken expect
  nextWord readItems readList readType skipSpaces spaced Ends
end

theorem nameByte_ne (own : isNameByte byte = true) (mark : isNameByte token = false) : token ≠ byte := by
  rintro rfl
  cases own.symm.trans mark

theorem spaced_append (n : Nat) (word rest : List UInt8) : spaced n word ++ rest = spaced n (word ++ rest) := by
  rw [spaced, spaced, List.append_assoc]

theorem skipSpaces_spaced (solid : ∀ byte ∈ input.head?, byte ≠ 0x20) : skipSpaces (spaced n input) = input := by
  induction n with
  | zero =>
    cases input with
    | nil => rfl
    | cons byte rest => simp [spaced, skipSpaces, solid byte rfl]
  | succ n ih =>
    have more : spaced (n + 1) input = 0x20 :: spaced n input := by rw [spaced, List.replicate_succ]; rfl
    rw [more, skipSpaces, List.dropWhile_cons_of_pos rfl]
    exact ih

theorem exists_spaced (input : List UInt8) : ∃ n, input = spaced n (skipSpaces input) := by
  induction input with
  | nil => exact ⟨0, rfl⟩
  | cons byte rest ih =>
    by_cases space : byte = 0x20
    · obtain ⟨n, same⟩ := ih
      refine ⟨n + 1, ?_⟩
      have skipped : skipSpaces (byte :: rest) = skipSpaces rest := by simp [skipSpaces, space]
      rw [skipped, spaced, List.replicate_succ, List.cons_append, ← spaced, ← same, space]
    · exact ⟨0, by simp [spaced, skipSpaces, space]⟩

theorem spaced_cancel {n n' : Nat} {input input' : List UInt8} (solid : ∀ byte ∈ input.head?, byte ≠ 0x20)
    (solid' : ∀ byte ∈ input'.head?, byte ≠ 0x20) (same : spaced n input = spaced n' input') :
    n = n' ∧ input = input' := by
  obtain rfl : input = input' := by rw [← skipSpaces_spaced solid, same, skipSpaces_spaced solid']
  refine ⟨?_, rfl⟩
  have counted := congrArg List.length same
  simp only [spaced, List.length_append, List.length_replicate] at counted
  omega

theorem afterToken_append (token rest : List UInt8) : afterToken token (token ++ rest) = some rest := by
  induction token with
  | nil => rfl
  | cons t token ih => rw [List.cons_append, afterToken, if_pos (beq_self_eq_true t), ih]

theorem eq_append_of_afterToken {token : List UInt8} (found : afterToken token input = some rest) :
    input = token ++ rest := by
  induction token generalizing input with
  | nil => exact Option.some.inj found
  | cons t token ih =>
    cases input with
    | nil => cases found
    | cons byte input =>
      rw [afterToken] at found
      split at found
      · rename_i same
        rw [ih found, beq_iff_eq.mp same, List.cons_append]
      · cases found

theorem accept_spaced (n : Nat) (solid : token ≠ 0x20) (more rest : List UInt8) :
    accept (token :: more) (spaced n (token :: more) ++ rest) = some rest := by
  rw [accept, spaced_append, skipSpaces_spaced (by rintro byte ⟨⟩; exact solid), afterToken_append]

theorem accept_spaced_other (n : Nat) (solid : byte ≠ 0x20) (apart : token ≠ byte) (more word rest : List UInt8) :
    accept (token :: more) (spaced n (byte :: word) ++ rest) = none := by
  rw [accept, spaced_append, skipSpaces_spaced (by rintro byte ⟨⟩; exact solid), List.cons_append, afterToken,
    if_neg (by simpa using apart)]

theorem eq_spaced_of_accept {token : List UInt8} (found : accept token input = some rest) :
    ∃ n, input = spaced n token ++ rest := by
  obtain ⟨n, same⟩ := exists_spaced input
  exact ⟨n, by rw [spaced_append, ← eq_append_of_afterToken found, ← same]⟩

theorem Ends.accept (ends : Ends rest) (other : token ∈ [0x26, 0x5b, 0x28, 0x3c, 0x2d]) (more : List UInt8) :
    accept (token :: more) rest = none := by
  have apart : ∀ byte ∈ ([0x2c, 0x29, 0x5d, 0x3e] : List UInt8),
      ∀ token ∈ ([0x26, 0x5b, 0x28, 0x3c, 0x2d] : List UInt8), ¬(token == byte) = true := by
    simp only [List.forall_mem_cons, List.not_mem_nil, false_implies, implies_true, and_true]
    decide
  rw [TypeExpr.accept]
  cases own : skipSpaces rest with
  | nil => rfl
  | cons byte tail => rw [afterToken, if_neg (apart byte (ends byte (own ▸ rfl)) token other)]

theorem ends_spaced (n : Nat) (mark : token ∈ [0x2c, 0x29, 0x5d, 0x3e]) (rest : List UInt8) :
    Ends (spaced n [token] ++ rest) := by
  have solid : token ≠ 0x20 := by rintro rfl; exact absurd mark (by decide)
  rw [Ends, spaced_append, skipSpaces_spaced (by rintro byte ⟨⟩; exact solid)]
  rintro byte ⟨⟩
  exact mark

theorem ends_nil (n : Nat) : Ends (spaced n []) := by
  rw [Ends, skipSpaces_spaced (by rintro byte ⟨⟩)]
  rintro byte ⟨⟩

theorem stops_spaced (n : Nat) (other : isNameByte token = false) (more rest : List UInt8) :
    Stops (spaced n (token :: more) ++ rest) := by
  cases n with
  | zero => rintro byte ⟨⟩; exact other
  | succ n => rintro byte ⟨⟩; decide

theorem nextWord_spaced (run : Run word rest) (n : Nat) : nextWord (spaced n word ++ rest) = word := by
  obtain ⟨byte, tail, rfl⟩ := List.exists_cons_of_ne_nil run.filled
  have solid : byte ≠ 0x20 := (nameByte_ne (run.own byte List.mem_cons_self) (by decide)).symm
  rw [nextWord, spaced_append, skipSpaces_spaced (by rintro byte ⟨⟩; exact solid),
    List.takeWhile_append_of_pos run.own]
  cases rest with
  | nil => simp
  | cons byte rest => simp [run.stops byte rfl]

theorem exists_nextWord (input : List UInt8) : ∃ n rest, input = spaced n (nextWord input) ++ rest ∧ Stops rest := by
  obtain ⟨n, same⟩ := exists_spaced input
  refine ⟨n, (skipSpaces input).dropWhile isNameByte, ?_, fun byte first => ?_⟩
  · rw [spaced_append, nextWord, List.takeWhile_append_dropWhile, ← same]
  · have other := List.head?_dropWhile_not isNameByte (skipSpaces input)
    rw [Option.mem_def.mp first] at other
    simpa using other

theorem mutable_named : ∀ byte ∈ Token.mutable, isNameByte byte = true := by
  simp only [Token.mutable, List.forall_mem_cons, List.not_mem_nil, false_implies, implies_true, and_true]
  decide

theorem fn_named : ∀ byte ∈ Token.fn, isNameByte byte = true := by
  simp only [Token.fn, List.forall_mem_cons, List.not_mem_nil, false_implies, implies_true, and_true]
  decide

theorem fn_run (n : Nat) (rest : List UInt8) : Run Token.fn (spaced n Token.openParen ++ rest) :=
  ⟨by decide, fn_named, stops_spaced n (by decide) [] rest⟩

/-- The word `mut` is read where it stands alone. -/
theorem acceptMut_spaced (n : Nat) (stops : Stops rest) : acceptMut (spaced n Token.mutable ++ rest) = (true, rest) := by
  have found : accept Token.mutable (spaced n Token.mutable ++ rest) = some rest := accept_spaced n (by decide) _ _
  rw [acceptMut, found]
  cases rest with
  | nil => rfl
  | cons byte rest => simp [stops byte rfl]

theorem acceptMut_other (other : nextWord input ≠ Token.mutable) : acceptMut input = (false, input) := by
  rw [acceptMut]
  cases found : accept Token.mutable input with
  | none => rfl
  | some rest =>
    obtain ⟨n, rfl⟩ := eq_spaced_of_accept found
    have alone : ¬Stops rest := fun stops => other (nextWord_spaced ⟨by decide, mutable_named, stops⟩ n)
    cases rest with
    | nil => exact absurd (by rintro byte ⟨⟩) alone
    | cons byte rest =>
      cases longer : isNameByte byte with
      | false => exact absurd (by rintro _ ⟨⟩; exact longer) alone
      | true => simp [longer]

/-- What begins with a word is read as a function type or as a name with its arguments. -/
theorem readType_word (fuel : Nat) (run : Run word rest) (n : Nat) : readType (fuel + 1) (spaced n word ++ rest) =
      match if word == Token.fn then accept Token.openParen rest else none with
      | some rest => do
        let (params, rest) ← readList fuel Token.closeParen rest
        match accept Token.arrow rest with
        | some rest => do
          let (result, rest) ← readType fuel rest
          return (.function params (some result), rest)
        | none => return (.function params none, rest)
      | none =>
        match accept Token.openAngle rest with
        | some rest => do
          let (args, rest) ← readList fuel Token.closeAngle rest
          return (.named ⟨word⟩ args, rest)
        | none => return (.named ⟨word⟩ [], rest) := by
  have next := nextWord_spaced run n
  obtain ⟨byte, tail, rfl⟩ := List.exists_cons_of_ne_nil run.filled
  have first := run.own byte List.mem_cons_self
  have solid : byte ≠ 0x20 := (nameByte_ne first (by decide)).symm
  have no {token : UInt8} (other : isNameByte token = false) : accept [token] (spaced n (byte :: tail) ++ rest) = none :=
    accept_spaced_other n solid (nameByte_ne first other) _ _ _
  have skipped : skipSpaces (spaced n (byte :: tail) ++ rest) = byte :: tail ++ rest := by
    rw [spaced_append, skipSpaces_spaced (by rintro byte ⟨⟩; exact solid)]
  have dropped : (byte :: tail ++ rest).dropWhile isNameByte = rest := by
    rw [List.dropWhile_append_of_pos run.own]
    cases rest with
    | nil => rfl
    | cons b rest => simp [run.stops b rfl]
  rw [nextWord, skipped] at next
  rw [readType, Token.ampersand, Token.openBracket, Token.openParen, no (by decide), no (by decide), no (by decide)]
  simp only [skipped, next, dropped]
  rfl

end

/-! ### What is derived is read -/

theorem Derivation.opens {d : Derivation} {rest : List UInt8} (lawful : d.Lawful rest) :
    ∃ n byte more, d.bytes = spaced n (byte :: more) ∧ Opens byte := by
  have mark {byte : UInt8} (own : byte ∈ [0x26, 0x5b, 0x28]) : Opens byte := .inl own
  have word {name rest : List UInt8} (run : Run name rest) (n : Nat) (more : List UInt8) :
      ∃ n' byte more', spaced n name ++ more = spaced n' (byte :: more') ∧ Opens byte := by
    obtain ⟨byte, tail, rfl⟩ := List.exists_cons_of_ne_nil run.filled
    exact ⟨n, byte, _, spaced_append .., .inr (run.own byte List.mem_cons_self)⟩
  cases d with
  | shared | exclusive | array | tuple => exact ⟨_, _, _, spaced_append .., mark (by decide)⟩
  | function | returning => exact ⟨_, _, _, spaced_append .., .inr (by decide)⟩
  | named before name => simpa [bytes] using word lawful before []
  | applied before name => exact word lawful.1 before _

theorem Opens.ne {token byte : UInt8} (opens : Opens byte) (other : token ∈ [0x20, 0x29, 0x3e]) : token ≠ byte := by
  rintro rfl
  rcases opens with mark | own
  · revert mark other
    simp only [List.mem_cons, List.not_mem_nil, or_false]
    rintro (rfl | rfl | rfl) <;> decide
  · revert own other
    simp only [List.mem_cons, List.not_mem_nil, or_false]
    rintro (rfl | rfl | rfl) <;> decide

theorem closes {token : UInt8} (closed : token ∈ [0x29, 0x3e]) :
    token ≠ 0x20 ∧ token ∈ [0x2c, 0x29, 0x5d, 0x3e] ∧ token ∈ [0x20, 0x29, 0x3e] ∧ 0x2c ≠ token := by
  have each : ∀ token ∈ ([0x29, 0x3e] : List UInt8),
      token ≠ 0x20 ∧ token ∈ [0x2c, 0x29, 0x5d, 0x3e] ∧ token ∈ [0x20, 0x29, 0x3e] ∧ 0x2c ≠ token := by
    simp only [List.forall_mem_cons, List.not_mem_nil, false_implies, implies_true, and_true]
    decide
  exact each token closed

theorem length_spaced (n : Nat) (word : List UInt8) : (spaced n word).length = n + word.length := by
  rw [spaced, List.length_append, List.length_replicate]

theorem Others.ends {token : UInt8} (others : Others) (closed : token ∈ [0x29, 0x3e]) (n : Nat) (rest : List UInt8) :
    Ends (others.bytes ++ (spaced n [token] ++ rest)) := by
  cases others with
  | done => exact ends_spaced n (closes closed).2.1 rest
  | trailing comma => exact ends_spaced comma (by decide) _
  | next comma item others =>
    rw [bytes, List.append_assoc]
    exact ends_spaced comma (by decide) _

theorem readList_closed {token : UInt8} (closed : token ∈ [0x29, 0x3e]) (fuel n : Nat) (rest : List UInt8) :
    readList (fuel + 1) [token] (spaced n [token] ++ rest) = .ok ([], rest) := by
  rw [readList, accept_spaced n (closes closed).1]

theorem readList_opens {d : Derivation} {token : UInt8} {rest : List UInt8} (lawful : d.Lawful rest)
    (closed : token ∈ [0x29, 0x3e]) (fuel : Nat) :
    readList (fuel + 1) [token] (d.bytes ++ rest) = readItems fuel [token] (d.bytes ++ rest) := by
  obtain ⟨before, byte, more, begins, opens⟩ := Derivation.opens lawful
  have open' : accept [token] (d.bytes ++ rest) = none := by
    rw [begins]
    exact accept_spaced_other before (opens.ne (by decide)).symm (opens.ne (closes closed).2.2.1) _ _ _
  rw [readList, open']

mutual

theorem Derivation.read : ∀ (d : Derivation) (fuel : Nat) (rest : List UInt8), 3 * d.bytes.length ≤ fuel →
    d.Lawful rest → Ends rest → readType fuel (d.bytes ++ rest) = .ok (d.type, rest)
  | .shared before target, fuel, rest, enough, lawful, ends => by
    simp only [Derivation.bytes, List.length_append, length_spaced, Token.ampersand, List.length_cons] at enough
    obtain ⟨fuel, rfl⟩ : ∃ less, fuel = less + 1 := ⟨fuel - 1, by omega⟩
    have inner := target.read fuel rest (by omega) lawful.2 ends
    rw [Derivation.bytes, List.append_assoc, readType, Token.ampersand, accept_spaced _ (by decide)]
    simp only [acceptMut_other lawful.1, inner]
    rfl
  | .exclusive before word target, fuel, rest, enough, lawful, ends => by
    simp only [Derivation.bytes, List.length_append, length_spaced, Token.ampersand, List.length_cons] at enough
    obtain ⟨fuel, rfl⟩ : ∃ less, fuel = less + 1 := ⟨fuel - 1, by omega⟩
    have inner := target.read fuel rest (by omega) lawful.2 ends
    rw [Derivation.bytes, List.append_assoc, List.append_assoc, readType, Token.ampersand, accept_spaced _ (by decide)]
    simp only [acceptMut_spaced word lawful.1, inner]
    rfl
  | .array before element close, fuel, rest, enough, lawful, ends => by
    simp only [Derivation.bytes, List.length_append, length_spaced, Token.openBracket, List.length_cons] at enough
    obtain ⟨fuel, rfl⟩ : ∃ less, fuel = less + 1 := ⟨fuel - 1, by omega⟩
    have inner := element.read fuel (spaced close Token.closeBracket ++ rest) (by omega) lawful
      (ends_spaced close (by decide) rest)
    have closed : expect Token.closeBracket (spaced close Token.closeBracket ++ rest) = .ok rest := by
      rw [expect, Token.closeBracket, accept_spaced close (by decide)]
    rw [Derivation.bytes, List.append_assoc, List.append_assoc, readType, Token.ampersand, Token.openBracket,
      accept_spaced_other before (by decide) (by decide), accept_spaced before (by decide)]
    simp only [inner, bind, Except.bind, closed]
    rfl
  | .tuple before elements close, fuel, rest, enough, lawful, ends => by
    simp only [Derivation.bytes, List.length_append, length_spaced, Token.openParen, List.length_cons] at enough
    obtain ⟨fuel, rfl⟩ : ∃ less, fuel = less + 1 := ⟨fuel - 1, by omega⟩
    have inner := elements.read fuel 0x29 close rest (by decide) (by omega) lawful
    rw [Derivation.bytes, List.append_assoc, List.append_assoc, readType, Token.ampersand, Token.openBracket,
      Token.openParen,
      accept_spaced_other before (by decide) (by decide), accept_spaced_other before (by decide) (by decide),
      accept_spaced before (by decide)]
    simp only [Token.closeParen, inner]
    rfl
  | .function before left params right, fuel, rest, enough, lawful, ends => by
    simp only [Derivation.bytes, List.length_append, length_spaced, Token.openParen, List.length_cons] at enough
    obtain ⟨fuel, rfl⟩ : ∃ less, fuel = less + 1 := ⟨fuel - 1, by omega⟩
    have inner := params.read fuel 0x29 right rest (by decide) (by omega) lawful
    have unpointed : accept Token.arrow rest = none := ends.accept (by decide) _
    rw [Derivation.bytes, List.append_assoc, List.append_assoc, List.append_assoc,
      readType_word fuel (fn_run left _), if_pos (beq_self_eq_true _), Token.openParen,
      accept_spaced left (by decide)]
    simp only [Token.closeParen, inner, bind, Except.bind, unpointed]
    rfl
  | .returning before left params right arrow result, fuel, rest, enough, lawful, ends => by
    simp only [Derivation.bytes, List.length_append, length_spaced, Token.openParen, List.length_cons] at enough
    obtain ⟨fuel, rfl⟩ : ∃ less, fuel = less + 1 := ⟨fuel - 1, by omega⟩
    have inner := params.read fuel 0x29 right (spaced arrow Token.arrow ++ (result.bytes ++ rest)) (by decide)
      (by omega) lawful.1
    have last := result.read fuel rest (by omega) lawful.2 ends
    have pointed : accept Token.arrow (spaced arrow Token.arrow ++ (result.bytes ++ rest)) =
        some (result.bytes ++ rest) := accept_spaced arrow (by decide) _ _
    simp only [Derivation.bytes, List.append_assoc]
    rw [readType_word fuel (fn_run left _), if_pos (beq_self_eq_true _), Token.openParen,
      accept_spaced left (by decide)]
    simp only [Token.closeParen, inner, bind, Except.bind, pointed, last]
    rfl
  | .named before name, fuel, rest, enough, lawful, ends => by
    have filled := List.length_pos_iff.mpr lawful.filled
    simp only [Derivation.bytes, length_spaced] at enough
    obtain ⟨fuel, rfl⟩ : ∃ less, fuel = less + 1 := ⟨fuel - 1, by omega⟩
    rw [Derivation.bytes, readType_word fuel lawful, Token.openParen, Token.openAngle, ends.accept (by decide),
      ends.accept (by decide), ite_self]
    rfl
  | .applied before name left args right, fuel, rest, enough, lawful, ends => by
    have filled := List.length_pos_iff.mpr lawful.1.filled
    simp only [Derivation.bytes, List.length_append, length_spaced, Token.openAngle, List.length_cons] at enough
    obtain ⟨fuel, rfl⟩ : ∃ less, fuel = less + 1 := ⟨fuel - 1, by omega⟩
    have inner := args.read fuel 0x3e right rest (by decide) (by omega) lawful.2
    simp only [Derivation.bytes, List.append_assoc]
    rw [readType_word fuel lawful.1, Token.openParen, Token.openAngle,
      accept_spaced_other left (by decide) (by decide), accept_spaced left (by decide), ite_self]
    simp only [Token.closeAngle, inner]
    rfl

theorem Items.read : ∀ (items : Items) (fuel : Nat) (token : UInt8) (n : Nat) (rest : List UInt8),
    token ∈ [0x29, 0x3e] → 3 * items.bytes.length + 2 ≤ fuel → items.Lawful (spaced n [token] ++ rest) →
    readList fuel [token] (items.bytes ++ (spaced n [token] ++ rest)) = .ok (items.types, rest)
  | .none, fuel, token, n, rest, closed, enough, lawful => by
    obtain ⟨fuel, rfl⟩ : ∃ less, fuel = less + 1 := ⟨fuel - 1, by omega⟩
    exact readList_closed closed fuel n rest
  | .some first others, fuel, token, n, rest, closed, enough, lawful => by
    have filled : first.bytes.length ≠ 0 := by
      obtain ⟨before, byte, more, begins, -⟩ := Derivation.opens lawful.1
      rw [begins, length_spaced, List.length_cons]
      omega
    simp only [Items.bytes, List.length_append] at enough
    obtain ⟨fuel, rfl⟩ : ∃ less, fuel = less + 2 := ⟨fuel - 2, by omega⟩
    have inner := first.read fuel _ (by omega) lawful.1 (others.ends closed n rest)
    rw [Items.bytes, List.append_assoc, readList_opens lawful.1 closed]
    exact others.read fuel token n rest closed (by omega) lawful.2 inner

theorem Others.read : ∀ (others : Others) {first : TypeForm Octets} {input : List UInt8} (fuel : Nat) (token : UInt8)
    (n : Nat) (rest : List UInt8), token ∈ [0x29, 0x3e] → 3 * others.bytes.length + 2 ≤ fuel →
    others.Lawful (spaced n [token] ++ rest) →
    readType fuel input = .ok (first, others.bytes ++ (spaced n [token] ++ rest)) →
    readItems (fuel + 1) [token] input = .ok (first :: others.types, rest)
  | .done, first, input, fuel, token, n, rest, closed, enough, lawful, inner => by
    obtain ⟨solid, -, -, comma⟩ := closes closed
    rw [readItems, inner]
    simp only [Others.bytes, List.nil_append, bind, Except.bind, Token.comma, accept_spaced_other n solid comma,
      expect, accept_spaced n solid]
    rfl
  | .trailing comma, first, input, fuel, token, n, rest, closed, enough, lawful, inner => by
    obtain ⟨fuel, rfl⟩ : ∃ less, fuel = less + 1 := ⟨fuel - 1, by omega⟩
    have passed (rest : List UInt8) : accept Token.comma (spaced comma Token.comma ++ rest) = some rest :=
      accept_spaced comma (by decide) _ _
    rw [readItems, inner]
    simp only [Others.bytes, bind, Except.bind, passed, readList_closed closed]
    rfl
  | .next comma item others, first, input, fuel, token, n, rest, closed, enough, lawful, inner => by
    simp only [Others.bytes, List.length_append, length_spaced, Token.comma, List.length_cons] at enough
    obtain ⟨fuel, rfl⟩ : ∃ less, fuel = less + 2 := ⟨fuel - 2, by omega⟩
    have later := others.read fuel token n rest closed (by omega) lawful.2
      (item.read fuel _ (by omega) lawful.1 (others.ends closed n rest))
    have passed (rest : List UInt8) : accept Token.comma (spaced comma Token.comma ++ rest) = some rest :=
      accept_spaced comma (by decide) _ _
    rw [readItems, inner]
    simp only [Others.bytes, List.append_assoc, bind, Except.bind, passed, readList_opens lawful.1 closed, later]
    rfl

end

/-! ### What is read is derived -/

/-- What is read with some fuel has a derivation. -/
structure Derived (fuel : Nat) : Prop where
  type : ∀ {input rest t}, readType fuel input = .ok (t, rest) →
    ∃ d : Derivation, input = d.bytes ++ rest ∧ d.type = t ∧ d.Lawful rest
  list : ∀ {closing input rest types}, readList fuel closing input = .ok (types, rest) →
    ∃ (items : Items) (n : Nat), input = items.bytes ++ (spaced n closing ++ rest) ∧ items.types = types ∧
      items.Lawful (spaced n closing ++ rest)
  items : ∀ {closing input rest types}, readItems fuel closing input = .ok (types, rest) →
    ∃ (first : Derivation) (others : Others) (n : Nat),
      input = first.bytes ++ (others.bytes ++ (spaced n closing ++ rest)) ∧ first.type :: others.types = types ∧
      first.Lawful (others.bytes ++ (spaced n closing ++ rest)) ∧ others.Lawful (spaced n closing ++ rest)

theorem expect_ok {token input rest : List UInt8} (done : expect token input = .ok rest) :
    ∃ n, input = spaced n token ++ rest := by
  rw [expect] at done
  cases found : accept token input with
  | none => rw [found] at done; cases done
  | some rest =>
    rw [found] at done
    cases done
    exact eq_spaced_of_accept found

namespace Derived

variable {fuel : Nat} {input rest closing word : List UInt8} {t : TypeForm Octets} {types : List (TypeForm Octets)}

/-- A reference, behind its mark. -/
theorem reference (below : Derived fuel) (before : Nat) (done : (do
      let (target, rest) ← readType fuel (acceptMut input).2
      return (TypeForm.ref (acceptMut input).1 target, rest)) = .ok (t, rest)) :
    ∃ d : Derivation, spaced before Token.ampersand ++ input = d.bytes ++ rest ∧ d.type = t ∧ d.Lawful rest := by
  obtain ⟨⟨target, _⟩, inner, done⟩ := bind_ok.mp done
  cases done
  by_cases marked : nextWord input = Token.mutable
  · obtain ⟨word, behind, same, stops⟩ := exists_nextWord input
    rw [marked] at same
    subst same
    rw [acceptMut_spaced word stops] at inner ⊢
    obtain ⟨d, rfl, rfl, lawful⟩ := below.type inner
    exact ⟨.exclusive before word d, by simp only [Derivation.bytes, List.append_assoc], rfl, stops, lawful⟩
  · rw [acceptMut_other marked] at inner ⊢
    obtain ⟨d, rfl, rfl, lawful⟩ := below.type inner
    exact ⟨.shared before d, by rw [Derivation.bytes, List.append_assoc], rfl, marked, lawful⟩

theorem wording (below : Derived fuel) (run : Run word input) (n : Nat)
    (done : readType (fuel + 1) (spaced n word ++ input) = .ok (t, rest)) :
    ∃ d : Derivation, spaced n word ++ input = d.bytes ++ rest ∧ d.type = t ∧ d.Lawful rest := by
  rw [readType_word fuel run] at done
  cases called : if word == Token.fn then accept Token.openParen input else none with
  | some start =>
    rw [called] at done
    split at called
    · rename_i same
      obtain rfl := beq_iff_eq.mp same
      obtain ⟨left, rfl⟩ := eq_spaced_of_accept called
      obtain ⟨⟨_, behind⟩, listed, done⟩ := bind_ok.mp done
      obtain ⟨params, right, rfl, rfl, lawful⟩ := below.list listed
      cases pointed : accept Token.arrow behind with
      | none =>
        simp only [pointed] at done
        cases done
        exact ⟨.function n left params right, by simp only [Derivation.bytes, List.append_assoc], rfl, lawful⟩
      | some next =>
        obtain ⟨arrow, rfl⟩ := eq_spaced_of_accept pointed
        simp only [pointed] at done
        obtain ⟨⟨_, _⟩, last, done⟩ := bind_ok.mp done
        obtain ⟨result, rfl, rfl, ends⟩ := below.type last
        cases done
        exact ⟨.returning n left params right arrow result, by simp only [Derivation.bytes, List.append_assoc],
          rfl, lawful, ends⟩
    · cases called
  | none =>
    rw [called] at done
    cases opened : accept Token.openAngle input with
    | none =>
      simp only [opened] at done
      cases done
      exact ⟨.named n word, rfl, rfl, run⟩
    | some start =>
      obtain ⟨left, rfl⟩ := eq_spaced_of_accept opened
      simp only [opened] at done
      obtain ⟨⟨_, _⟩, listed, done⟩ := bind_ok.mp done
      obtain ⟨args, right, rfl, rfl, lawful⟩ := below.list listed
      cases done
      exact ⟨.applied n word left args right, by simp only [Derivation.bytes, List.append_assoc], rfl, run, lawful⟩

theorem readType (below : Derived fuel) (done : TypeExpr.readType (fuel + 1) input = .ok (t, rest)) :
    ∃ d : Derivation, input = d.bytes ++ rest ∧ d.type = t ∧ d.Lawful rest := by
  obtain ⟨n, behind, same, stops⟩ := exists_nextWord input
  by_cases word : nextWord input = []
  · rw [TypeExpr.readType] at done
    cases referred : accept Token.ampersand input with
    | some start =>
      obtain ⟨before, rfl⟩ := eq_spaced_of_accept referred
      simp only [referred] at done
      exact below.reference before done
    | none =>
    cases bracketed : accept Token.openBracket input with
    | some start =>
      obtain ⟨before, rfl⟩ := eq_spaced_of_accept bracketed
      simp only [referred, bracketed] at done
      obtain ⟨⟨_, _⟩, inner, done⟩ := bind_ok.mp done
      obtain ⟨_, closed, done⟩ := bind_ok.mp done
      cases done
      obtain ⟨element, rfl, rfl, lawful⟩ := below.type inner
      obtain ⟨close, rfl⟩ := expect_ok closed
      exact ⟨.array before element close, by simp only [Derivation.bytes, List.append_assoc], rfl, lawful⟩
    | none =>
    cases enclosed : accept Token.openParen input with
    | some start =>
      obtain ⟨before, rfl⟩ := eq_spaced_of_accept enclosed
      simp only [referred, bracketed, enclosed] at done
      obtain ⟨⟨_, _⟩, listed, done⟩ := bind_ok.mp done
      cases done
      obtain ⟨elements, close, rfl, rfl, lawful⟩ := below.list listed
      exact ⟨.tuple before elements close, by simp only [Derivation.bytes, List.append_assoc], rfl, lawful⟩
    | none =>
      rw [nextWord] at word
      simp only [referred, bracketed, enclosed, word, List.isEmpty_nil, if_true] at done
      cases done
  · have run : Run (nextWord input) behind := ⟨word, fun _ member => List.mem_takeWhile_imp member, stops⟩
    rw [same] at done ⊢
    exact below.wording run n done

theorem readList (below : Derived fuel) (done : TypeExpr.readList (fuel + 1) closing input = .ok (types, rest)) :
    ∃ (items : Items) (n : Nat), input = items.bytes ++ (spaced n closing ++ rest) ∧ items.types = types ∧
      items.Lawful (spaced n closing ++ rest) := by
  rw [TypeExpr.readList] at done
  cases closed : accept closing input with
  | some behind =>
    rw [closed] at done
    cases done
    obtain ⟨n, rfl⟩ := eq_spaced_of_accept closed
    exact ⟨.none, n, rfl, rfl, trivial⟩
  | none =>
    rw [closed] at done
    obtain ⟨first, others, n, rfl, rfl, lawful⟩ := below.items done
    exact ⟨.some first others, n, by rw [Items.bytes, List.append_assoc], rfl, lawful⟩

theorem readItems (below : Derived fuel) (done : TypeExpr.readItems (fuel + 1) closing input = .ok (types, rest)) :
    ∃ (first : Derivation) (others : Others) (n : Nat),
      input = first.bytes ++ (others.bytes ++ (spaced n closing ++ rest)) ∧ first.type :: others.types = types ∧
      first.Lawful (others.bytes ++ (spaced n closing ++ rest)) ∧ others.Lawful (spaced n closing ++ rest) := by
  rw [TypeExpr.readItems] at done
  obtain ⟨⟨_, behind⟩, inner, done⟩ := bind_ok.mp done
  obtain ⟨first, rfl, rfl, lawful⟩ := below.type inner
  cases comma : accept Token.comma behind with
  | none =>
    simp only [comma] at done
    obtain ⟨_, closed, done⟩ := bind_ok.mp done
    cases done
    obtain ⟨n, rfl⟩ := expect_ok closed
    exact ⟨first, .done, n, rfl, rfl, lawful, trivial⟩
  | some next =>
    obtain ⟨k, rfl⟩ := eq_spaced_of_accept comma
    simp only [comma] at done
    obtain ⟨⟨_, _⟩, listed, done⟩ := bind_ok.mp done
    cases done
    obtain ⟨items, n, rfl, rfl, later⟩ := below.list listed
    cases items with
    | none => exact ⟨first, .trailing k, n, rfl, rfl, lawful, trivial⟩
    | some item others =>
      refine ⟨first, .next k item others, n, ?_, rfl, ?_, later⟩
      · simp only [Others.bytes, Items.bytes, List.append_assoc]
      · simpa only [Others.bytes, Items.bytes, List.append_assoc] using lawful

end Derived

theorem derived (fuel : Nat) : Derived fuel := by
  induction fuel with
  | zero => exact ⟨nofun, nofun, nofun⟩
  | succ fuel ih => exact ⟨ih.readType, ih.readList, ih.readItems⟩

/-! ### One derivation -/

section

variable {rest rest' more more' token : List UInt8} {byte byte' : UInt8} {n n' : Nat}

theorem token_cancel (head : token.head? = some byte) (solid : byte ≠ 0x20)
    (same : spaced n token ++ rest = spaced n' token ++ rest') : n = n' ∧ rest = rest' := by
  have own (rest : List UInt8) : ∀ b ∈ (token ++ rest).head?, b ≠ 0x20 := by
    rw [List.head?_append, head]
    rintro b ⟨⟩
    exact solid
  rw [spaced_append, spaced_append] at same
  obtain ⟨count, same⟩ := spaced_cancel (own rest) (own rest') same
  exact ⟨count, List.append_cancel_left same⟩

theorem token_apart (solid : byte ≠ 0x20) (solid' : byte' ≠ 0x20) (apart : byte ≠ byte') :
    spaced n (byte :: more) ++ rest ≠ spaced n' (byte' :: more') ++ rest' := by
  intro same
  rw [spaced_append, spaced_append] at same
  obtain ⟨-, same⟩ := spaced_cancel (by rintro b ⟨⟩; exact solid) (by rintro b ⟨⟩; exact solid') same
  exact apart (List.cons.inj same).1

theorem word_cancel {word word' : List UInt8} (run : Run word rest) (run' : Run word' rest')
    (same : spaced n word ++ rest = spaced n' word' ++ rest') : n = n' ∧ word = word' ∧ rest = rest' := by
  obtain rfl : word = word' := by rw [← nextWord_spaced run n, same, nextWord_spaced run' n']
  obtain ⟨byte, tail, rfl⟩ := List.exists_cons_of_ne_nil run.filled
  have solid : byte ≠ 0x20 := (nameByte_ne (run.own byte List.mem_cons_self) (by decide)).symm
  obtain ⟨count, same⟩ := token_cancel rfl solid same
  exact ⟨count, rfl, same⟩

/-- Where a type ends, no list of arguments follows. -/
theorem ends_apart (ends : Ends rest) : rest ≠ spaced n Token.openAngle ++ more := by
  rintro rfl
  rw [Ends, spaced_append, skipSpaces_spaced (by rintro b ⟨⟩; decide)] at ends
  exact absurd (ends 0x3c rfl) (by decide)

theorem Derivation.same_type {d d' : Derivation} (same : d.bytes ++ rest = d'.bytes ++ rest') (lawful : d.Lawful rest)
    (lawful' : d'.Lawful rest') (ends : Ends rest) (ends' : Ends rest') : d.type = d'.type ∧ rest = rest' := by
  have one := d.read (3 * d.bytes.length + 3 * d'.bytes.length) rest (by omega) lawful ends
  have two := d'.read (3 * d.bytes.length + 3 * d'.bytes.length) rest' (by omega) lawful' ends'
  rw [same, two] at one
  obtain ⟨type, behind⟩ := Prod.mk.inj (Except.ok.inj one)
  exact ⟨type.symm, behind.symm⟩

end

mutual

theorem Derivation.unique : ∀ (d d' : Derivation) {rest rest' : List UInt8}, d.bytes ++ rest = d'.bytes ++ rest' →
    d.Lawful rest → d'.Lawful rest' → Ends rest → Ends rest' → d = d' ∧ rest = rest'
  | .shared before target, d', rest, rest', same, lawful, lawful', ends, ends' => by
    have alike := (Derivation.same_type same lawful lawful' ends ends').1
    cases d' with
    | shared before' target' =>
      simp only [Derivation.bytes, List.append_assoc] at same
      obtain ⟨rfl, behind⟩ := token_cancel rfl (by decide) same
      obtain ⟨rfl, inside⟩ := target.unique target' behind lawful.2 lawful'.2 ends ends'
      exact ⟨rfl, inside⟩
    | _ => simp [Derivation.type] at alike
  | .exclusive before word target, d', rest, rest', same, lawful, lawful', ends, ends' => by
    have alike := (Derivation.same_type same lawful lawful' ends ends').1
    cases d' with
    | exclusive before' word' target' =>
      simp only [Derivation.bytes, List.append_assoc] at same
      obtain ⟨rfl, behind⟩ := token_cancel rfl (by decide) same
      obtain ⟨rfl, inside⟩ := token_cancel rfl (by decide) behind
      obtain ⟨rfl, later⟩ := target.unique target' inside lawful.2 lawful'.2 ends ends'
      exact ⟨rfl, later⟩
    | _ => simp [Derivation.type] at alike
  | .array before element close, d', rest, rest', same, lawful, lawful', ends, ends' => by
    have alike := (Derivation.same_type same lawful lawful' ends ends').1
    cases d' with
    | array before' element' close' =>
      simp only [Derivation.bytes, List.append_assoc] at same
      obtain ⟨rfl, behind⟩ := token_cancel rfl (by decide) same
      obtain ⟨rfl, inside⟩ := element.unique element' behind lawful lawful' (ends_spaced close (by decide) rest)
        (ends_spaced close' (by decide) rest')
      obtain ⟨rfl, later⟩ := token_cancel rfl (by decide) inside
      exact ⟨rfl, later⟩
    | _ => simp [Derivation.type] at alike
  | .tuple before elements close, d', rest, rest', same, lawful, lawful', ends, ends' => by
    have alike := (Derivation.same_type same lawful lawful' ends ends').1
    cases d' with
    | tuple before' elements' close' =>
      simp only [Derivation.bytes, List.append_assoc] at same
      obtain ⟨rfl, behind⟩ := token_cancel rfl (by decide) same
      obtain ⟨rfl, rfl, inside⟩ := elements.unique elements' (by decide) behind lawful lawful'
      exact ⟨rfl, inside⟩
    | _ => simp [Derivation.type] at alike
  | .function before left params right, d', rest, rest', same, lawful, lawful', ends, ends' => by
    have alike := (Derivation.same_type same lawful lawful' ends ends').1
    cases d' with
    | function before' left' params' right' =>
      simp only [Derivation.bytes, List.append_assoc] at same
      obtain ⟨rfl, behind⟩ := token_cancel rfl (by decide) same
      obtain ⟨rfl, inside⟩ := token_cancel rfl (by decide) behind
      obtain ⟨rfl, rfl, later⟩ := params.unique params' (by decide) inside lawful lawful'
      exact ⟨rfl, later⟩
    | _ => simp [Derivation.type] at alike
  | .returning before left params right arrow result, d', rest, rest', same, lawful, lawful', ends, ends' => by
    have alike := (Derivation.same_type same lawful lawful' ends ends').1
    cases d' with
    | returning before' left' params' right' arrow' result' =>
      simp only [Derivation.bytes, List.append_assoc] at same
      obtain ⟨rfl, behind⟩ := token_cancel rfl (by decide) same
      obtain ⟨rfl, inside⟩ := token_cancel rfl (by decide) behind
      obtain ⟨rfl, rfl, later⟩ := params.unique params' (by decide) inside lawful.1 lawful'.1
      obtain ⟨rfl, beyond⟩ := token_cancel rfl (by decide) later
      obtain ⟨rfl, last⟩ := result.unique result' beyond lawful.2 lawful'.2 ends ends'
      exact ⟨rfl, last⟩
    | _ => simp [Derivation.type] at alike
  | .named before name, d', rest, rest', same, lawful, lawful', ends, ends' => by
    have alike := (Derivation.same_type same lawful lawful' ends ends').1
    cases d' with
    | named before' name' =>
      obtain ⟨rfl, rfl, behind⟩ := word_cancel lawful lawful' same
      exact ⟨rfl, behind⟩
    | applied before' name' left args right =>
      simp only [Derivation.bytes, List.append_assoc] at same
      exact absurd (word_cancel lawful lawful'.1 same).2.2 (ends_apart ends)
    | _ => simp [Derivation.type] at alike
  | .applied before name left args right, d', rest, rest', same, lawful, lawful', ends, ends' => by
    have alike := (Derivation.same_type same lawful lawful' ends ends').1
    cases d' with
    | named before' name' =>
      simp only [Derivation.bytes, List.append_assoc] at same
      exact absurd (word_cancel lawful.1 lawful' same).2.2.symm (ends_apart ends')
    | applied before' name' left' args' right' =>
      simp only [Derivation.bytes, List.append_assoc] at same
      obtain ⟨rfl, rfl, behind⟩ := word_cancel lawful.1 lawful'.1 same
      obtain ⟨rfl, inside⟩ := token_cancel rfl (by decide) behind
      obtain ⟨rfl, rfl, later⟩ := args.unique args' (by decide) inside lawful.2 lawful'.2
      exact ⟨rfl, later⟩
    | _ => simp [Derivation.type] at alike

theorem Items.unique : ∀ (items items' : Items) {token : UInt8} {n n' : Nat} {rest rest' : List UInt8},
    token ∈ [0x29, 0x3e] →
    items.bytes ++ (spaced n [token] ++ rest) = items'.bytes ++ (spaced n' [token] ++ rest') →
    items.Lawful (spaced n [token] ++ rest) → items'.Lawful (spaced n' [token] ++ rest') →
    items = items' ∧ n = n' ∧ rest = rest'
  | .none, .none, token, n, n', rest, rest', closed, same, lawful, lawful' =>
    ⟨rfl, token_cancel rfl (closes closed).1 same⟩
  | .none, .some first others, token, n, n', rest, rest', closed, same, lawful, lawful' => by
    obtain ⟨before, byte, more, begins, opens⟩ := Derivation.opens lawful'.1
    simp only [Items.bytes, List.nil_append, List.append_assoc, begins] at same
    exact absurd same (token_apart (closes closed).1 (opens.ne (by decide)).symm (opens.ne (closes closed).2.2.1))
  | .some first others, .none, token, n, n', rest, rest', closed, same, lawful, lawful' => by
    obtain ⟨before, byte, more, begins, opens⟩ := Derivation.opens lawful.1
    simp only [Items.bytes, List.nil_append, List.append_assoc, begins] at same
    exact absurd same.symm
      (token_apart (closes closed).1 (opens.ne (by decide)).symm (opens.ne (closes closed).2.2.1))
  | .some first others, .some first' others', token, n, n', rest, rest', closed, same, lawful, lawful' => by
    simp only [Items.bytes, List.append_assoc] at same
    obtain ⟨rfl, behind⟩ := first.unique first' same lawful.1 lawful'.1 (others.ends closed n rest)
      (others'.ends closed n' rest')
    obtain ⟨rfl, inside⟩ := others.unique others' closed behind lawful.2 lawful'.2
    exact ⟨rfl, inside⟩

theorem Others.unique : ∀ (others others' : Others) {token : UInt8} {n n' : Nat} {rest rest' : List UInt8},
    token ∈ [0x29, 0x3e] →
    others.bytes ++ (spaced n [token] ++ rest) = others'.bytes ++ (spaced n' [token] ++ rest') →
    others.Lawful (spaced n [token] ++ rest) → others'.Lawful (spaced n' [token] ++ rest') →
    others = others' ∧ n = n' ∧ rest = rest'
  | .done, others', token, n, n', rest, rest', closed, same, lawful, lawful' => by
    obtain ⟨solid, -, -, comma⟩ := closes closed
    cases others' with
    | done => exact ⟨rfl, token_cancel rfl solid same⟩
    | trailing => exact absurd same (token_apart solid (by decide) comma.symm)
    | next =>
      simp only [Others.bytes, List.nil_append, List.append_assoc] at same
      exact absurd same (token_apart solid (by decide) comma.symm)
  | .trailing k, others', token, n, n', rest, rest', closed, same, lawful, lawful' => by
    obtain ⟨solid, -, -, comma⟩ := closes closed
    cases others' with
    | done => exact absurd same (token_apart (by decide) solid comma)
    | trailing k' =>
      obtain ⟨rfl, behind⟩ := token_cancel rfl (by decide) same
      exact ⟨rfl, token_cancel rfl solid behind⟩
    | next k' item others' =>
      obtain ⟨before, byte, more, begins, opens⟩ := Derivation.opens lawful'.1
      simp only [Others.bytes, List.append_assoc, begins] at same
      obtain ⟨-, behind⟩ := token_cancel rfl (by decide) same
      exact absurd behind (token_apart solid (opens.ne (by decide)).symm (opens.ne (closes closed).2.2.1))
  | .next k item others, others', token, n, n', rest, rest', closed, same, lawful, lawful' => by
    obtain ⟨solid, -, -, comma⟩ := closes closed
    simp only [Others.bytes, List.append_assoc] at same
    cases others' with
    | done =>
      simp only [Others.bytes, List.nil_append] at same
      exact absurd same (token_apart (by decide) solid comma)
    | trailing k' =>
      obtain ⟨before, byte, more, begins, opens⟩ := Derivation.opens lawful.1
      simp only [Others.bytes, begins] at same
      obtain ⟨-, behind⟩ := token_cancel rfl (by decide) same
      exact absurd behind.symm (token_apart solid (opens.ne (by decide)).symm (opens.ne (closes closed).2.2.1))
    | next k' item' others' =>
      simp only [Others.bytes, List.append_assoc] at same
      obtain ⟨rfl, behind⟩ := token_cancel rfl (by decide) same
      obtain ⟨rfl, inside⟩ := item.unique item' behind lawful.1 lawful'.1 (others.ends closed n rest)
        (others'.ends closed n' rest')
      obtain ⟨rfl, later⟩ := others.unique others' closed inside lawful.2 lawful'.2
      exact ⟨rfl, later⟩

end

/-! ### Whole texts -/

theorem Derivation.Derives.ofBytes {d : Derivation} {source : List UInt8} (derives : d.Derives source) :
    ofBytes source = .ok d.type := by
  obtain ⟨n, rfl, lawful⟩ := derives
  have read := d.read (3 * (d.bytes ++ spaced n []).length + 3) (spaced n []) (by simp only [List.length_append]; omega)
    lawful (ends_nil n)
  have blank : skipSpaces (spaced n []) = [] := skipSpaces_spaced (by rintro byte ⟨⟩)
  rw [TypeExpr.ofBytes, read]
  simp only [bind, Except.bind, blank]
  rfl

theorem exists_derives {source : List UInt8} {t : TypeForm Octets} (done : ofBytes source = .ok t) :
    ∃ d : Derivation, d.Derives source ∧ d.type = t := by
  obtain ⟨⟨_, rest⟩, read, done⟩ := bind_ok.mp done
  obtain ⟨d, rfl, rfl, lawful⟩ := (derived _).type read
  obtain ⟨n, same⟩ := exists_spaced rest
  dsimp only at done
  split at done
  · rename_i blank
    cases done
    rw [List.isEmpty_iff.mp blank] at same
    exact ⟨d, ⟨n, congrArg _ same, same ▸ lawful⟩, rfl⟩
  · cases done

/-- The reader accepts exactly what the grammar derives and gives the type that is derived, no source has two
derivations, and any other source is refused with a fault. -/
theorem ofBytes_grammar (source : List UInt8) :
    (∀ t, ofBytes source = .ok t ↔ ∃ d : Derivation, d.Derives source ∧ d.type = t) ∧
      (∀ d d' : Derivation, d.Derives source → d'.Derives source → d = d') ∧
      ((¬∃ d : Derivation, d.Derives source) → ∃ fault, ofBytes source = .error fault) := by
  refine ⟨fun t => ⟨exists_derives, ?_⟩, ?_, fun none => ?_⟩
  · rintro ⟨d, derives, rfl⟩
    exact derives.ofBytes
  · rintro d d' ⟨n, written, lawful⟩ ⟨n', written', lawful'⟩
    exact (d.unique d' (written.symm.trans written') lawful lawful' (ends_nil n) (ends_nil n')).1
  · cases read : ofBytes source with
    | error fault => exact ⟨fault, rfl⟩
    | ok t =>
      obtain ⟨d, derives, -⟩ := exists_derives read
      exact absurd ⟨d, derives⟩ none

end TreeCheck.TypeExpr
