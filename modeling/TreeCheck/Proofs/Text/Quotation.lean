import TreeCheck.Text.Octets

/-!
Quotation can be undone. The units of a byte sequence give back its bytes, those of the bytes of a text are its
characters, each escape ends where its own characters say so, and therefore two byte sequences with one quotation are
the same.
-/

namespace TreeCheck.Text

/-- The bytes of a character by its code. -/
def encode (code : Nat) : List Nat :=
  if code < 0x80 then [code]
  else if code < 0x800 then [0xC0 + code / 64, 0x80 + code % 64]
  else if code < 0x10000 then [0xE0 + code / 4096, 0x80 + code / 64 % 64, 0x80 + code % 64]
  else [0xF0 + code / 262144, 0x80 + code / 4096 % 64, 0x80 + code / 64 % 64, 0x80 + code % 64]

def ByteUnit.bytes : ByteUnit → List Nat
  | .char c => encode c.toNat
  | .stray byte => [byte.toNat]

theorem toNat_ofNat {code : Nat} (valid : code < 0xD800 ∨ (0xE000 ≤ code ∧ code < 0x110000)) :
    (Char.ofNat code).toNat = code := by
  have proper : code.isValidChar := by
    rcases valid with low | high
    · exact Or.inl low
    · exact Or.inr ⟨by omega, high.2⟩
  rw [Char.ofNat, dif_pos proper]
  rfl

theorem continuation_bounds {byte : UInt8} (continued : continuation byte = true) :
    0x80 ≤ byte.toNat ∧ byte.toNat < 0xC0 := by
  simpa [continuation, UInt8.le_iff_toNat_le, UInt8.lt_iff_toNat_lt] using continued

/-- A character at the front is the one whose encoding stands there. -/
theorem leadingChar?_bytes {input : List UInt8} {c : Char} {width : Nat}
    (leading : leadingChar? input = some (c, width)) :
    0 < width ∧ (input.take width).map UInt8.toNat = encode c.toNat := by
  revert leading
  fun_cases leadingChar? input
  case case2 a rest short =>
    rintro ⟨⟩
    have small : a.toNat < 0x80 := by simpa [UInt8.lt_iff_toNat_lt] using short
    rw [toNat_ofNat (by omega)]
    simp [encode, small]
  case case4 a long b rest second first =>
    rintro ⟨⟩
    have bounds := continuation_bounds (by simpa using second)
    simp only [Bool.and_eq_true, decide_eq_true_eq, UInt8.le_iff_toNat_le, UInt8.lt_iff_toNat_lt,
      UInt8.reduceToNat] at first
    have code : 0x80 ≤ a.toNat % 32 * 64 + payload b ∧ a.toNat % 32 * 64 + payload b < 0x800 := by
      simp only [payload]
      omega
    rw [toNat_ofNat (by omega), encode, if_neg (by omega), if_pos (by omega)]
    simp only [payload, List.take_succ_cons, List.take_zero, List.map_cons, List.map_nil]
    refine ⟨by omega, ?_⟩
    congr 1
    · omega
    · congr 1
      omega
  case case7 a long b second other c rest third first code proper =>
    rintro ⟨⟩
    have bounds := continuation_bounds (by simpa using second)
    have bounds' := continuation_bounds (by simpa using third)
    simp only [Bool.and_eq_true, decide_eq_true_eq, UInt8.le_iff_toNat_le, UInt8.lt_iff_toNat_lt,
      UInt8.reduceToNat] at first
    simp only [Bool.or_eq_true, Bool.and_eq_true, decide_eq_true_eq] at proper
    have value : code = (a.toNat % 16 * 64 + b.toNat % 64) * 64 + c.toNat % 64 := rfl
    rw [toNat_ofNat (by omega), encode, if_neg (by omega), if_neg (by omega), if_pos (by omega)]
    simp only [List.take_succ_cons, List.take_zero, List.map_cons, List.map_nil]
    refine ⟨by omega, ?_⟩
    congr 1
    · omega
    · congr 1
      · omega
      · congr 1
        omega
  case case10 a long b second other c third other' d rest fourth code proper =>
    rintro ⟨⟩
    have bounds := continuation_bounds (by simpa using second)
    have bounds' := continuation_bounds (by simpa using third)
    simp only [Bool.or_eq_true, not_or, Bool.not_eq_true', Bool.not_eq_false, decide_eq_true_eq,
      UInt8.le_iff_toNat_le, UInt8.lt_iff_toNat_lt, UInt8.reduceToNat] at fourth
    have bounds'' := continuation_bounds fourth.1.1
    simp only [Bool.or_eq_true, decide_eq_true_eq] at proper
    have value : code =
        ((a.toNat % 8 * 64 + b.toNat % 64) * 64 + c.toNat % 64) * 64 + d.toNat % 64 := rfl
    rw [toNat_ofNat (by omega), encode, if_neg (by omega), if_neg (by omega), if_neg (by omega)]
    simp only [List.take_succ_cons, List.take_zero, List.map_cons, List.map_nil]
    refine ⟨by omega, ?_⟩
    congr 1
    · omega
    · congr 1
      · omega
      · congr 1
        · omega
        · congr 1
          omega
  all_goals
    intro leading
    cases leading

/-- A byte below 0x80 is a character of its own. -/
theorem stray_bound {byte : UInt8} {rest : List UInt8} (none : leadingChar? (byte :: rest) = none) :
    0x80 ≤ byte.toNat := by
  refine Nat.not_lt.mp fun short => ?_
  have small : byte < 0x80 := UInt8.lt_iff_toNat_lt.mpr short
  simp [leadingChar?, small] at none

def ByteUnit.Proper : ByteUnit → Prop
  | .char _ => True
  | .stray byte => 0x80 ≤ byte.toNat

theorem unitsWithin_bytes {bound : Nat} {input : List UInt8} (enough : input.length ≤ bound) :
    (∀ u ∈ unitsWithin bound input, u.Proper) ∧
      (unitsWithin bound input).flatMap ByteUnit.bytes = input.map UInt8.toNat := by
  induction bound generalizing input with
  | zero =>
    obtain rfl : input = [] := List.length_eq_zero_iff.mp (by omega)
    simp [unitsWithin]
  | succ bound ih =>
    cases input with
    | nil => simp [unitsWithin]
    | cons byte rest =>
      simp only [List.length_cons] at enough
      simp only [unitsWithin]
      cases leading : leadingChar? (byte :: rest) with
      | none =>
        obtain ⟨proper, bytes⟩ := ih (show rest.length ≤ bound by omega)
        refine ⟨List.forall_mem_cons.mpr ⟨stray_bound leading, proper⟩, ?_⟩
        simp [ByteUnit.bytes, bytes]
      | some found =>
        obtain ⟨c, width⟩ := found
        obtain ⟨positive, front⟩ := leadingChar?_bytes leading
        have shorter : ((byte :: rest).drop width).length ≤ bound := by
          simp only [List.length_drop, List.length_cons]
          omega
        obtain ⟨proper, bytes⟩ := ih shorter
        refine ⟨List.forall_mem_cons.mpr ⟨trivial, proper⟩, ?_⟩
        rw [List.flatMap_cons, bytes, ByteUnit.bytes, ← front, ← List.map_append,
          List.take_append_drop]

theorem units_bytes (input : List UInt8) :
    (units input).flatMap ByteUnit.bytes = input.map UInt8.toNat :=
  (unitsWithin_bytes (Nat.le_refl _)).2

/-! ### Text and its bytes -/

/-- A byte that continues a character carries six of its bits. -/
theorem exists_continuation (n : Nat) : ∃ byte, UInt8.ofNat (n % 64 + 128) = byte ∧ continuation byte = true ∧
    payload byte = n % 64 := by
  have value : (UInt8.ofNat (n % 64 + 128)).toNat = n % 64 + 128 := UInt8.toNat_ofNat_of_lt' (by show _ < 256; omega)
  refine ⟨_, rfl, ?_, ?_⟩
  · rw [continuation, Bool.and_eq_true, decide_eq_true_eq, decide_eq_true_eq, UInt8.le_iff_toNat_le,
      UInt8.lt_iff_toNat_lt, value]
    exact ⟨Nat.le_add_left 128 _, Nat.add_lt_add_right (Nat.mod_lt n (by decide)) 128⟩
  · rw [payload, value]
    omega

/-- A byte whose number is known, with the bounds on it. -/
theorem exists_byte {n : Nat} (low high : UInt8) (least : low.toNat ≤ n) (most : n < high.toNat) :
    ∃ byte, UInt8.ofNat n = byte ∧ byte.toNat = n ∧ low ≤ byte ∧ byte < high := by
  have value : (UInt8.ofNat n).toNat = n := UInt8.toNat_ofNat_of_lt' (Nat.lt_trans most high.toNat_lt)
  exact ⟨_, rfl, value, by rwa [UInt8.le_iff_toNat_le, value], by rwa [UInt8.lt_iff_toNat_lt, value]⟩

/-- A character stands at the front of its own bytes. -/
theorem leadingChar?_utf8EncodeChar (c : Char) (rest : List UInt8) :
    leadingChar? (String.utf8EncodeChar c ++ rest) = some (c, (String.utf8EncodeChar c).length) := by
  have valid : c.val.toNat < 0xD800 ∨ 0xDFFF < c.val.toNat ∧ c.val.toNat < 0x110000 := c.valid
  have code : Char.ofNat c.val.toNat = c := Char.ofNat_toNat c
  have above {a low : UInt8} (least : low ≤ a) (high : UInt8) (order : high ≤ low) : ¬ a < high :=
    UInt8.not_lt.mpr (UInt8.le_trans order least)
  unfold String.utf8EncodeChar
  generalize c.val.toNat = v at valid code
  obtain ⟨last, atLast, continued, bits⟩ := exists_continuation v
  obtain ⟨third, atThird, continued', bits'⟩ := exists_continuation (v / 64)
  obtain ⟨second, atSecond, continued'', bits''⟩ := exists_continuation (v / 4096)
  dsimp only
  rw [atLast, atThird, atSecond]
  split
  next one =>
    obtain ⟨a, same, lead, -, most⟩ := exists_byte (n := v) 0 0x80 (Nat.zero_le _) (Nat.lt_succ_of_le one)
    simp [same, leadingChar?, most, lead, code]
  next one =>
    split
    next two =>
      obtain ⟨a, same, lead, least, most⟩ := exists_byte (n := v / 64 % 32 + 192) 0xC2 0xE0
        (show 194 ≤ _ by omega) (show _ < 224 by omega)
      have long := above least 0x80 (by decide)
      have value : a.toNat % 32 * 64 + payload last = v := by omega
      simp [same, leadingChar?, long, least, most, continued, value, code]
    next two =>
      split
      next three =>
        obtain ⟨a, same, lead, least, most⟩ := exists_byte (n := v / 4096 % 16 + 224) 0xE0 0xF0
          (show 224 ≤ _ by omega) (show _ < 240 by omega)
        have long := above least 0x80 (by decide)
        have longer := above least 0xE0 (by decide)
        have value : (a.toNat % 16 * 64 + payload third) * 64 + payload last = v := by omega
        simp [same, leadingChar?, long, longer, least, most, continued, continued', value, code]
        omega
      next three =>
        obtain ⟨a, same, lead, least, most⟩ := exists_byte (n := v / 262144 % 8 + 240) 0xF0 0xF5
          (show 240 ≤ _ by omega) (show _ < 245 by omega)
        have long := above least 0x80 (by decide)
        have longer := above least 0xE0 (by decide)
        have longest := above least 0xF0 (by decide)
        have value : ((a.toNat % 8 * 64 + payload second) * 64 + payload third) * 64 + payload last = v := by omega
        simp [same, leadingChar?, long, longer, longest, most, continued, continued', continued'', value, code]
        omega

theorem toList_loop (b : ByteArray) (i : Nat) (front : List UInt8) :
    ByteArray.toList.loop b i front = front.reverse ++ b.data.toList.drop i := by
  fun_induction ByteArray.toList.loop b i front with
  | case1 i front inside ih =>
    have short : i < b.data.toList.length := by simpa using inside
    rw [ih, List.drop_eq_getElem_cons short, List.reverse_cons, List.append_assoc]
    simp [ByteArray.get!, getElem!_def, Array.getElem?_eq_getElem (by simpa using short : i < b.data.size)]
  | case2 i front outside =>
    have long : b.data.toList.length ≤ i := by simpa using outside
    rw [List.drop_eq_nil_of_le long, List.append_nil]

theorem bytes_eq (text : String) : bytes text = text.toList.flatMap String.utf8EncodeChar := by
  rw [bytes, String.toUTF8, ← String.utf8Encode_toList, ByteArray.toList, toList_loop]
  simp [List.utf8Encode]

@[simp] theorem bytes_append (a b : String) : bytes (a ++ b) = bytes a ++ bytes b := by
  simp [bytes_eq]

/-- The units of a text are its characters. -/
theorem unitsWithin_utf8EncodeChar (chars : List Char) {bound : Nat}
    (enough : (chars.flatMap String.utf8EncodeChar).length ≤ bound) :
    unitsWithin bound (chars.flatMap String.utf8EncodeChar) = chars.map .char := by
  induction chars generalizing bound with
  | nil => cases bound <;> rfl
  | cons c chars ih =>
    have positive : 0 < (String.utf8EncodeChar c).length := by
      rw [String.length_utf8EncodeChar]
      exact c.utf8Size_pos
    have leading := leadingChar?_utf8EncodeChar c (chars.flatMap String.utf8EncodeChar)
    rw [List.flatMap_cons, List.length_append] at enough
    obtain ⟨bound, rfl⟩ : ∃ less, bound = less + 1 := ⟨bound - 1, by omega⟩
    have rest := ih (show (chars.flatMap String.utf8EncodeChar).length ≤ bound by omega)
    rw [List.flatMap_cons, List.map_cons, ← rest]
    obtain ⟨byte, more, shape⟩ := List.exists_cons_of_length_pos positive
    rw [shape, List.cons_append] at leading ⊢
    rw [unitsWithin, leading]
    exact congrArg (fun after => .char c :: unitsWithin bound after) List.drop_left

@[simp] theorem ofBytes_bytes (text : String) : ofBytes (bytes text) = text := by
  rw [bytes_eq, ofBytes, units, unitsWithin_utf8EncodeChar _ (Nat.le_refl _), List.map_map]
  exact (congrArg String.ofList (List.map_id _)).trans String.ofList_toList

/-! ### Escapes -/

/-- The value of a hexadecimal digit. -/
def digit (c : Char) : Nat := if c.toNat < 58 then c.toNat - 48 else c.toNat - 87

def unhex (digits : List Char) : Nat := digits.foldl (fun n c => 16 * n + digit c) 0

theorem digit_digitChar : ∀ n < 16, digit n.digitChar = n := by decide

theorem unhex_append (front : List Char) (c : Char) :
    unhex (front ++ [c]) = 16 * unhex front + digit c := by
  simp [unhex]

theorem unhex_toDigits (n : Nat) : unhex (Nat.toDigits 16 n) = n := by
  induction n using Nat.strongRecOn with
  | ind n ih =>
    by_cases small : n < 16
    · rw [Nat.toDigits_of_lt_base small]
      simpa [unhex] using digit_digitChar n small
    · rw [Nat.toDigits_of_base_le (by decide) (by omega), unhex_append, ih (n / 16) (by omega),
        digit_digitChar _ (by omega)]
      omega

theorem unhex_zeros (count : Nat) (digits : List Char) :
    unhex (List.replicate count '0' ++ digits) = unhex digits := by
  have zeros : unhex (List.replicate count '0') = 0 := by
    induction count with
    | zero => rfl
    | succ count ih => rw [List.replicate_succ', unhex_append, ih]; rfl
  simp only [unhex] at zeros ⊢
  rw [List.foldl_append, zeros]

theorem unhex_hex (width n : Nat) : unhex (hex width n).toList = n := by
  rw [hex, String.toList_ofList, unhex_zeros, unhex_toDigits]

theorem length_hex {width n : Nat} (short : (Nat.toDigits 16 n).length ≤ width) :
    (hex width n).toList.length = width := by
  rw [hex, String.toList_ofList, List.length_append, List.length_replicate]
  omega

/-- The character that a letter after a backslash stands for. -/
def named : Char → Char
  | 'a' => '\x07'
  | 'b' => '\x08'
  | 'f' => '\x0c'
  | 'n' => '\n'
  | 'r' => '\r'
  | 't' => '\t'
  | 'v' => '\x0b'
  | c => c

/-- The unit that the characters after a backslash stand for, and what follows it. -/
def unescape? : List Char → Option (ByteUnit × List Char)
  | [] => none
  | 'x' :: rest =>
    let code := unhex (rest.take 2)
    some (if code < 0x80 then .char (Char.ofNat code) else .stray (UInt8.ofNat code), rest.drop 2)
  | 'u' :: rest => some (.char (Char.ofNat (unhex (rest.take 4))), rest.drop 4)
  | 'U' :: rest => some (.char (Char.ofNat (unhex (rest.take 8))), rest.drop 8)
  | c :: rest => some (.char (named c), rest)

/-- The first unit of a quoted text, and what follows it. -/
def unquote? : List Char → Option (ByteUnit × List Char)
  | [] => none
  | c :: rest => if c = '\\' then unescape? rest else some (.char c, rest)

theorem take_hex {width n : Nat} (short : (Nat.toDigits 16 n).length ≤ width) (rest : List Char) :
    unhex (((hex width n).toList ++ rest).take width) = n ∧
      ((hex width n).toList ++ rest).drop width = rest := by
  have length := length_hex short
  constructor
  · rw [List.take_left' length, unhex_hex]
  · exact List.drop_left' length

theorem unquote?_char (c : Char) (rest : List Char) :
    unquote? ((quotedChar c).toList ++ rest) = some (.char c, rest) := by
  have bound : c.toNat < 0x110000 := by
    rcases c.valid with low | high
    · exact Nat.lt_trans low (by decide)
    · exact high.2
  have short (width : Nat) (positive : 0 < width) (small : c.toNat < 16 ^ width) :
      (Nat.toDigits 16 c.toNat).length ≤ width :=
    (Nat.length_toDigits_le_iff (by decide) positive).mpr small
  unfold quotedChar
  split
  case h_10 _ quote slash _ _ _ _ _ _ _ =>
    split
    · simp_all [unquote?]
    · split
      · obtain ⟨value, tail⟩ := take_hex (short 2 (by decide) (by omega)) rest
        simp_all [unquote?, unescape?]
      · split
        · obtain ⟨value, tail⟩ := take_hex (short 4 (by decide) (by omega)) rest
          simp_all [unquote?, unescape?]
        · obtain ⟨value, tail⟩ := take_hex (short 8 (by decide) (by omega)) rest
          simp_all [unquote?, unescape?]
  all_goals rfl

theorem unquote?_quoted {u : ByteUnit} (proper : u.Proper) (rest : List Char) :
    unquote? (u.quoted.toList ++ rest) = some (u, rest) := by
  cases u with
  | char c => exact unquote?_char c rest
  | stray byte =>
    have high : ¬ byte.toNat < 0x80 := Nat.not_lt.mpr proper
    have short : (Nat.toDigits 16 byte.toNat).length ≤ 2 :=
      (Nat.length_toDigits_le_iff (by decide) (by decide)).mpr byte.toNat_lt
    obtain ⟨value, tail⟩ := take_hex short rest
    simp_all [ByteUnit.quoted, unquote?, unescape?]

/-- Units are told apart by their quotations, for each quotation ends by itself. -/
theorem quoted_units_injective {us vs : List ByteUnit} (proper : ∀ u ∈ us, u.Proper)
    (proper' : ∀ v ∈ vs, v.Proper)
    (same : us.flatMap (fun u => u.quoted.toList) = vs.flatMap fun v => v.quoted.toList) : us = vs := by
  induction us generalizing vs with
  | nil =>
    cases vs with
    | nil => rfl
    | cons v vs =>
      have read := congrArg unquote? same
      rw [List.flatMap_cons, unquote?_quoted (proper' v (by simp))] at read
      simp [unquote?] at read
  | cons u us ih =>
    cases vs with
    | nil =>
      have read := congrArg unquote? same
      rw [List.flatMap_cons, unquote?_quoted (proper u (by simp))] at read
      simp [unquote?] at read
    | cons v vs =>
      have read := congrArg unquote? same
      rw [List.flatMap_cons, List.flatMap_cons, unquote?_quoted (proper u (by simp)),
        unquote?_quoted (proper' v (by simp))] at read
      obtain ⟨rfl, rest⟩ := Prod.mk.inj (Option.some.inj read)
      rw [ih (fun u member => proper u (by simp [member])) (fun v member => proper' v (by simp [member]))
        rest]

theorem quoteBytes_injective {a b : List UInt8} (same : quoteBytes a = quoteBytes b) : a = b := by
  have proper (input : List UInt8) : ∀ u ∈ units input, u.Proper :=
    (unitsWithin_bytes (Nat.le_refl _)).1
  have texts := congrArg String.toList same
  simp only [quoteBytes, String.toList_append, String.toList_join, List.flatMap_map] at texts
  have inner := List.append_cancel_left (List.append_cancel_right texts)
  have units := quoted_units_injective (proper a) (proper b) inner
  have bytes := congrArg (List.flatMap ByteUnit.bytes) units
  rw [units_bytes, units_bytes] at bytes
  exact List.map_inj_right (fun x y => UInt8.toNat_inj.mp) |>.mp bytes

end TreeCheck.Text

theorem TreeCheck.Octets.quoted_inj {a b : Octets} : a.quoted = b.quoted ↔ a = b := by
  constructor
  · intro same
    have bytes := Text.quoteBytes_injective same
    cases a
    cases b
    exact congrArg Octets.mk bytes
  · exact congrArg Octets.quoted
