import Mathlib
import TreeCheck.Diagnostic

/-!
What the key of a diagnostic tells. It names the kind by its number; and as far as spans lie in one file, it tells
kind, span and message.
-/

namespace TreeCheck

/-! ### Texts with separators -/

/-- What stands before the first separator, and what stands behind it. -/
theorem parts_eq_of_append {α : Type} {separator : α} {first other rest more : List α} (free : separator ∉ first)
    (free' : separator ∉ other) (same : first ++ separator :: rest = other ++ separator :: more) :
    first = other ∧ rest = more := by
  induction first generalizing other with
  | nil =>
    cases other with
    | nil => exact ⟨rfl, (List.cons.inj same).2⟩
    | cons a tail => exact absurd ((List.cons.inj same).1 ▸ List.mem_cons_self) free'
  | cons a tail ih =>
    cases other with
    | nil => exact absurd ((List.cons.inj same).1 ▸ List.mem_cons_self) free
    | cons b others =>
      obtain ⟨rfl, later⟩ := List.cons.inj same
      obtain ⟨rfl, behind⟩ := ih (fun member => free (List.mem_cons_of_mem _ member))
        (fun member => free' (List.mem_cons_of_mem _ member)) later
      exact ⟨rfl, behind⟩

theorem isDigit_of_mem_repr {n : Nat} {c : Char} (member : c ∈ n.repr.toList) : c.isDigit = true := by
  rw [Nat.toList_repr] at member
  exact Nat.isDigit_of_mem_toDigits (by decide) (by decide) member

/-- A number is written with digits and a sign. -/
theorem notMem_repr {c : Char} (other : c.isDigit = false) (unsigned : c ≠ '-') (n : Int) : c ∉ n.repr.toList := by
  have digits (m : Nat) : c ∉ m.repr.toList := fun member => by simp [isDigit_of_mem_repr member] at other
  cases n with
  | ofNat m => exact digits m
  | negSucc m => simpa [Int.repr, unsigned] using digits (m + 1)

theorem repr_inj {n m : Int} (same : n.repr.toList = m.repr.toList) : n = m :=
  Int.repr_inj.mp (String.toList_inj.mp same)

/-! ### Places -/

attribute [ext] Position Span

/-- A line and a column as they are written. -/
def Position.place (p : Position) : List Char := p.line.repr.toList ++ ':' :: p.column.repr.toList

/-- What a valid span is written as behind its start. -/
def Span.reach (s : Span) : List Char :=
  if s.start = s.stop then []
  else if s.start.line = s.stop.line then '-' :: s.stop.column.repr.toList
  else '-' :: s.stop.place

/-- A file as it is written before a place. -/
def fileMark (file : String) : List Char := if file.isEmpty then [] else (baseName file).toList ++ [':']

/-- The valid spans of one file without known offsets. -/
structure Span.Within (file : String) (s : Span) : Prop where
  valid : s.isValid = true
  file : s.start.file = file
  start : s.start.offset = 0
  stop : s.stop.offset = 0

namespace Span

variable {s t : Span} {file : String}

theorem text_eq (valid : s.isValid = true) :
    s.text.toList = fileMark s.start.file ++ (s.start.place ++ s.reach) := by
  unfold text reach fileMark
  rw [if_neg (by simp [valid])]
  by_cases point : s.start = s.stop
  · rw [if_pos (beq_iff_eq.mpr point), if_pos point, Position.text]
    split <;> simp [Position.place, toString]
  · rw [if_neg (by simpa using point), if_neg point]
    by_cases line : s.start.line = s.stop.line
    · rw [if_pos line, if_pos (beq_iff_eq.mpr line)]
      split <;> simp [Position.place, toString]
    · rw [if_neg line, if_neg (by simpa using line)]
      split <;> simp [Position.place, toString]

namespace Within

/-- Lines and columns are positive, and a span ends in the file in which it starts. -/
theorem bounds (within : s.Within file) : (0 < s.start.line ∧ 0 < s.start.column) ∧
    (0 < s.stop.line ∧ 0 < s.stop.column) ∧ s.stop.file = file := by
  have valid := within.valid
  simp only [isValid, Position.isValid, Bool.and_eq_true, decide_eq_true_eq, beq_iff_eq] at valid
  obtain ⟨⟨⟨start, stop⟩, same⟩, -⟩ := valid
  exact ⟨start.1, stop.1, same.symm.trans within.file⟩

theorem start_eq (within : s.Within file) (within' : t.Within file) (line : s.start.line = t.start.line)
    (column : s.start.column = t.start.column) : s.start = t.start :=
  Position.ext (within.file.trans within'.file.symm) line column (within.start.trans within'.start.symm)

theorem stop_eq (within : s.Within file) (within' : t.Within file) (line : s.stop.line = t.stop.line)
    (column : s.stop.column = t.stop.column) : s.stop = t.stop :=
  Position.ext (within.bounds.2.2.trans within'.bounds.2.2.symm) line column (within.stop.trans within'.stop.symm)

end Within

theorem reach_cases (s : Span) : s.reach = [] ∨ ∃ tail, s.reach = '-' :: tail := by
  unfold reach
  split
  · exact .inl rfl
  · split <;> exact .inr ⟨_, rfl⟩

/-- Digits are followed by something else. -/
theorem digits_inj {n m : Int} (positive : 0 < n) (positive' : 0 < m)
    (same : n.repr.toList ++ s.reach = m.repr.toList ++ t.reach) : n = m ∧ s.reach = t.reach := by
  have leading {n : Int} (positive : 0 < n) (s : Span) :
      (n.repr.toList ++ s.reach).takeWhile Char.isDigit = n.repr.toList := by
    have digits : ∀ c ∈ n.repr.toList, c.isDigit = true := by
      obtain ⟨k, rfl⟩ := Int.eq_ofNat_of_zero_le positive.le
      exact fun c member => isDigit_of_mem_repr member
    have stops : s.reach.takeWhile Char.isDigit = [] := by
      rcases s.reach_cases with none | ⟨tail, some⟩
      · rw [none, List.takeWhile_nil]
      · rw [some, List.takeWhile_cons_of_neg (by decide)]
    rw [List.takeWhile_append_of_pos digits, stops, List.append_nil]
  have number : n = m := repr_inj ((leading positive s).symm.trans ((congrArg _ same).trans (leading positive' t)))
  subst number
  exact ⟨rfl, List.append_cancel_left same⟩

theorem bar_notMem (s : Span) : '|' ∉ s.start.place ++ s.reach := by
  have free (n : Int) : '|' ∉ n.repr.toList := notMem_repr (by decide) (by decide) n
  unfold reach Position.place
  split
  · simp [free]
  · split <;> simp [free]

/-- The spans of one file are told apart by their texts. -/
theorem Within.eq_of_reach (within : s.Within file) (within' : t.Within file)
    (same : s.start.place ++ s.reach = t.start.place ++ t.reach) : s = t := by
  have free (n : Int) : ':' ∉ n.repr.toList := notMem_repr (by decide) (by decide) n
  obtain ⟨start, stop, -⟩ := within.bounds
  obtain ⟨start', stop', -⟩ := within'.bounds
  rw [Position.place, Position.place, List.append_assoc, List.append_assoc] at same
  obtain ⟨line, behind⟩ := parts_eq_of_append (free _) (free _) same
  obtain ⟨column, ends⟩ := digits_inj start.2 start'.2 behind
  have starts := within.start_eq within' (repr_inj line) column
  refine Span.ext starts ?_
  -- an end is left out, written as a column or written with its line
  unfold reach at ends
  split at ends
  next point =>
    split at ends
    next point' => exact point.symm.trans (starts.trans point')
    next => split at ends <;> cases ends
  next =>
    split at ends
    next line =>
      split at ends
      next => cases ends
      next =>
        split at ends
        next line' =>
          have column := repr_inj (List.cons.inj ends).2
          exact within.stop_eq within' (line.symm.trans ((congrArg Position.line starts).trans line')) column
        next =>
          have colon : ':' ∈ s.stop.column.repr.toList := (List.cons.inj ends).2 ▸ by simp [Position.place]
          exact absurd colon (free _)
    next =>
      split at ends
      next => cases ends
      next =>
        split at ends
        next =>
          have colon : ':' ∈ t.stop.column.repr.toList := (List.cons.inj ends).2 ▸ by simp [Position.place]
          exact absurd colon (free _)
        next =>
          obtain ⟨line, column⟩ := parts_eq_of_append (free _) (free _) (List.cons.inj ends).2
          exact within.stop_eq within' (repr_inj line) (repr_inj column)

end Span

/-! ### Keys -/

namespace Diagnostic

variable {d e : Diagnostic} {file : String}

theorem toList_key (d : Diagnostic) : d.key.toList =
    d.kind.number.repr.toList ++ '|' :: (d.span.text.toList ++ '|' :: d.message.toList) := by
  simp [key, toString]

theorem number_eq_of_key (same : d.key = e.key) : d.kind.number = e.kind.number := by
  have free (n : Int) : '|' ∉ n.repr.toList := notMem_repr (by decide) (by decide) n
  have texts := congrArg String.toList same
  rw [toList_key, toList_key] at texts
  exact repr_inj (parts_eq_of_append (free _) (free _) texts).1

theorem span_eq_of_key (within : d.span.Within file) (within' : e.span.Within file) (same : d.key = e.key) :
    d.span = e.span ∧ d.message = e.message := by
  have free (n : Int) : '|' ∉ n.repr.toList := notMem_repr (by decide) (by decide) n
  have texts := congrArg String.toList same
  rw [toList_key, toList_key] at texts
  have behind := (parts_eq_of_append (free _) (free _) texts).2
  rw [Span.text_eq within.valid, Span.text_eq within'.valid, within.file, within'.file,
    List.append_assoc (fileMark file), List.append_assoc (fileMark file)] at behind
  obtain ⟨places, messages⟩ :=
    parts_eq_of_append d.span.bar_notMem e.span.bar_notMem (List.append_cancel_left behind)
  exact ⟨within.eq_of_reach within' places, String.toList_inj.mp messages⟩

end Diagnostic

end TreeCheck
