import Mathlib.Data.List.Basic
import TreeCheck.Ownership.Ledger

/-!
Joins of flows. What a join shows of a variable is what one of the joined paths shows of it, for every
property that a join of two variables has if one of them has it. A loan that is live on one of the paths is
live on the join.
-/

namespace TreeCheck.Ownership

def Joinable (property : VarFlow → Prop) : Prop :=
  ∀ a b, property (Flow.joinVar a b) ↔ property a ∨ property b

theorem joinable_moved : Joinable fun v => v.moved = true := by
  intro a b
  simp [Flow.joinVar]

theorem Origin.mem_union {origin : Origin} {a b : List Origin} :
    origin ∈ Origin.union a b ↔ origin ∈ a ∨ origin ∈ b := by
  simp [Origin.union]

theorem joinable_holds (member : Origin → Prop) :
    Joinable fun v => ∃ origin ∈ v.holds, member origin := by
  intro a b
  simp only [Flow.joinVar, Origin.mem_union]
  constructor
  · rintro ⟨origin, inA | inB, holds⟩
    · exact .inl ⟨origin, inA, holds⟩
    · exact .inr ⟨origin, inB, holds⟩
  · rintro (⟨origin, inA, holds⟩ | ⟨origin, inB, holds⟩)
    · exact ⟨origin, .inl inA, holds⟩
    · exact ⟨origin, .inr inB, holds⟩

namespace Flow

variable {property : VarFlow → Prop} {id : Nat}

/-- Whether a path shows a property of a variable. -/
def Has (property : VarFlow → Prop) (f : Flow) (id : Nat) : Prop :=
  ∃ v, f.vars[id]? = some v ∧ property v

theorem length_joinVars (as bs : List VarFlow) : (joinVars as bs).length = as.length := by
  fun_induction joinVars as bs with
  | case1 a as b bs ih => simp [ih]
  | case2 => rfl

theorem getElem?_joinVars {as bs : List VarFlow} {a b : VarFlow} (inLeft : as[id]? = some a)
    (inRight : bs[id]? = some b) : (joinVars as bs)[id]? = some (joinVar a b) := by
  induction as generalizing bs id with
  | nil => simp at inLeft
  | cons first as ih =>
    cases bs with
    | nil => simp at inRight
    | cons other bs =>
      cases id with
      | zero => simp_all [joinVars]
      | succ id =>
        simp only [joinVars, List.getElem?_cons_succ] at inLeft inRight ⊢
        exact ih inLeft inRight

theorem has_join (joins : Joinable property) {a b : Flow} (inLeft : id < a.vars.length)
    (inRight : id < b.vars.length) :
    (join a b).Has property id ↔ a.Has property id ∨ b.Has property id := by
  obtain ⟨v, left⟩ : ∃ v, a.vars[id]? = some v := ⟨_, List.getElem?_eq_getElem inLeft⟩
  obtain ⟨w, right⟩ : ∃ w, b.vars[id]? = some w := ⟨_, List.getElem?_eq_getElem inRight⟩
  simp [Has, join, getElem?_joinVars left right, left, right, joins v w]

theorem length_foldl_join (f : Flow) (paths : List Flow) :
    (paths.foldl join f).vars.length = f.vars.length := by
  induction paths generalizing f with
  | nil => rfl
  | cons p paths ih => simp [ih, join, length_joinVars]

theorem has_foldl_join (joins : Joinable property) {f : Flow} {paths : List Flow}
    (inside : id < f.vars.length) (present : ∀ p ∈ paths, id < p.vars.length) :
    (paths.foldl join f).Has property id ↔ f.Has property id ∨ ∃ p ∈ paths, p.Has property id := by
  induction paths generalizing f with
  | nil => simp
  | cons p paths ih =>
    have inPath : id < p.vars.length := present p List.mem_cons_self
    have grown : id < (join f p).vars.length := by simpa [join, length_joinVars] using inside
    rw [List.foldl_cons, ih grown fun q member => present q (List.mem_cons_of_mem _ member),
      has_join joins inside inPath]
    simp [or_assoc]

theorem has_restore {current saved : Flow} (inside : id < saved.vars.length) :
    (current.restore saved).Has property id ↔ saved.Has property id := by
  simp [Has, restore, List.getElem?_append_left inside]

theorem length_restore {current saved : Flow} (shorter : saved.vars.length ≤ current.vars.length) :
    (current.restore saved).vars.length = current.vars.length := by
  simp [restore]
  omega

theorem restore_self (f : Flow) : f.restore f = f := by
  simp [restore]

/-- A join of paths of which one goes on shows what one of those that go on shows. -/
theorem has_merge (joins : Joinable property) {current : Flow} {paths : List Flow}
    (present : ∀ p ∈ paths, id < p.vars.length) (reached : ∃ p ∈ paths, p.diverged = false) :
    (current.merge paths).Has property id ↔ ∃ p ∈ paths, p.diverged = false ∧ p.Has property id := by
  obtain ⟨p, member, goesOn⟩ := reached
  have reaching : p ∈ paths.filter fun q => !q.diverged := by simp [member, goesOn]
  have each (q : Flow) : q ∈ (paths.filter fun q => !q.diverged) ↔ q ∈ paths ∧ q.diverged = false := by
    simp
  unfold merge
  cases kept : paths.filter fun q => !q.diverged with
  | nil => simp [kept] at reaching
  | cons first rest =>
    simp only [kept] at each
    have firstPresent : id < first.vars.length := present first ((each first).mp (by simp)).1
    have restPresent : ∀ q ∈ rest, id < q.vars.length := fun q inRest =>
      present q ((each q).mp (by simp [inRest])).1
    have longEnough : id < (current.restore first).vars.length := by
      simp [restore]
      omega
    have folded := has_foldl_join joins longEnough restPresent
    rw [has_restore firstPresent] at folded
    refine (show _ ↔ (rest.foldl join (current.restore first)).Has property id from Iff.rfl).trans
      (folded.trans ?_)
    simp only [← and_assoc, ← each, List.mem_cons, or_and_right, exists_or, exists_eq_left]

theorem diverged_merge (current : Flow) {paths : List Flow} (some : paths ≠ []) :
    (current.merge paths).diverged = paths.all Flow.diverged := by
  unfold merge
  cases kept : paths.filter fun q => !q.diverged with
  | nil =>
    cases paths with
    | nil => exact absurd rfl some
    | cons first rest =>
      have all : ∀ q ∈ first :: rest, q.diverged = true := by
        simpa [List.filter_eq_nil_iff] using kept
      exact (List.all_eq_true.mpr all).symm
  | cons first rest =>
    have member : first ∈ paths.filter fun q => !q.diverged := by simp [kept]
    obtain ⟨inPaths, goesOn⟩ := List.mem_filter.mp member
    refine (List.all_eq_false.mpr ⟨first, inPaths, ?_⟩).symm
    simpa using goesOn

theorem length_merge {current : Flow} {paths : List Flow}
    (shorter : ∀ p ∈ paths, p.vars.length ≤ current.vars.length) :
    (current.merge paths).vars.length = current.vars.length := by
  unfold merge
  cases kept : paths.filter fun q => !q.diverged with
  | nil =>
    cases paths with
    | nil => rfl
    | cons first rest => exact length_restore (shorter first List.mem_cons_self)
  | cons first rest =>
    have member : first ∈ paths.filter fun q => !q.diverged := by simp [kept]
    have inPaths := (List.mem_filter.mp member).1
    simp only [length_foldl_join]
    exact length_restore (shorter first inPaths)

/-! ### Leases -/

variable {a b : List (Nat × Lease)} {loan : Nat} {lease : Lease}

theorem mem_joinLive : (loan, lease) ∈ joinLive a b ↔
    (∃ before, (loan, before) ∈ a ∧ (match b.lookup loan with
      | some other => joinLease before other
      | none => before) = lease) ∨ ((loan, lease) ∈ b ∧ a.lookup loan = none) := by
  simp only [joinLive, (List.mergeSort_perm _ _).mem_iff, List.mem_append, List.mem_map, List.mem_filter,
    Option.isNone_iff_eq_none]
  refine or_congr_left ⟨?_, ?_⟩
  · rintro ⟨⟨other, before⟩, member, same⟩
    split at same <;> cases same <;> rename_i found <;> exact ⟨before, member, by rw [found]⟩
  · rintro ⟨before, member, rfl⟩
    refine ⟨(loan, before), member, ?_⟩
    cases b.lookup loan <;> rfl

theorem exists_joinLive (live : (loan, lease) ∈ a ∨ (loan, lease) ∈ b) :
    ∃ joined, (loan, joined) ∈ joinLive a b := by
  by_cases inLeft : ∃ before, (loan, before) ∈ a
  · obtain ⟨before, member⟩ := inLeft
    exact ⟨_, mem_joinLive.mpr (.inl ⟨before, member, rfl⟩)⟩
  · have absent : a.lookup loan = none := by
      rw [List.lookup_eq_none_iff]
      rintro ⟨other, before⟩ member
      refine bne_iff_ne.mpr ?_
      rintro rfl
      exact inLeft ⟨before, member⟩
    rcases live with member | member
    · exact absurd ⟨lease, member⟩ inLeft
    · exact ⟨lease, mem_joinLive.mpr (.inr ⟨member, absent⟩)⟩

def Shared (property : Lease → Prop) (loan : Nat) (f : Flow) : Prop :=
  ∀ lease, (loan, lease) ∈ f.live → property lease

variable {kept : Lease → Prop}

theorem shared_join (joins : ∀ a b, kept a → kept b → kept (joinLease a b)) {a b : Flow}
    (first : a.Shared kept loan) (next : b.Shared kept loan) : (join a b).Shared kept loan := by
  intro lease live
  rcases mem_joinLive.mp live with ⟨before, member, joined⟩ | ⟨member, -⟩
  · subst joined
    split
    · rename_i other found
      obtain ⟨front, back, same, -⟩ := List.lookup_eq_some_iff.mp found
      exact joins _ _ (first before member) (next other (by simp [same]))
    · exact first before member
  · exact next lease member

theorem shared_foldl_join (joins : ∀ a b, kept a → kept b → kept (joinLease a b)) {f : Flow}
    {paths : List Flow} (start : f.Shared kept loan) (each : ∀ p ∈ paths, p.Shared kept loan) :
    (paths.foldl join f).Shared kept loan := by
  induction paths generalizing f with
  | nil => exact start
  | cons p paths ih =>
    obtain ⟨first, others⟩ := List.forall_mem_cons.mp each
    exact ih (shared_join joins start first) others

theorem live_foldl_join {f : Flow} {paths : List Flow}
    (live : (∃ lease, (loan, lease) ∈ f.live) ∨ ∃ p ∈ paths, ∃ lease, (loan, lease) ∈ p.live) :
    ∃ lease, (loan, lease) ∈ (paths.foldl join f).live := by
  induction paths generalizing f with
  | nil => simpa using live
  | cons p paths ih =>
    refine ih ?_
    rcases live with ⟨lease, member⟩ | ⟨q, inPaths, lease, member⟩
    · exact .inl (exists_joinLive (.inl member))
    · rcases List.mem_cons.mp inPaths with rfl | inRest
      · exact .inl (exists_joinLive (.inr member))
      · exact .inr ⟨q, inRest, lease, member⟩

/-- What all paths that go on share of a loan, their join keeps. -/
theorem shared_merge (current : Flow) (joins : ∀ a b, kept a → kept b → kept (joinLease a b))
    {paths : List Flow} (reached : ∃ p ∈ paths, p.diverged = false)
    (each : ∀ p ∈ paths, p.diverged = false → p.Shared kept loan) :
    (current.merge paths).Shared kept loan := by
  have all : ∀ p ∈ paths.filter fun q => !q.diverged, p.Shared kept loan := by
    intro p member
    obtain ⟨inPaths, goesOn⟩ := List.mem_filter.mp member
    exact each p inPaths (by simpa using goesOn)
  obtain ⟨p, member, goesOn⟩ := reached
  have reaching : p ∈ paths.filter fun q => !q.diverged := by simp [member, goesOn]
  unfold merge
  split
  · rename_i first rest kept
    rw [kept] at all
    obtain ⟨start, others⟩ := List.forall_mem_cons.mp all
    have restored : (current.restore first).Shared _ loan := start
    exact shared_foldl_join joins restored others
  · rename_i none
    simp [none] at reaching

theorem live_merge (current : Flow) {p : Flow} {paths : List Flow} {lease : Lease} (member : p ∈ paths)
    (goesOn : p.diverged = false) (live : (loan, lease) ∈ p.live) :
    ∃ joined, (loan, joined) ∈ (current.merge paths).live := by
  have reaching : p ∈ paths.filter fun q => !q.diverged := by simp [member, goesOn]
  unfold merge
  split
  · rename_i first rest kept
    rw [kept] at reaching
    refine live_foldl_join ?_
    rcases List.mem_cons.mp reaching with rfl | inRest
    · exact .inl ⟨lease, live⟩
    · exact .inr ⟨p, inRest, lease, live⟩
  · rename_i none
    simp [none] at reaching

theorem exists_updateLeases {f : Flow} {change : Nat → Lease → Lease}
    (live : ∃ lease, (loan, lease) ∈ f.live) : ∃ lease, (loan, lease) ∈ (f.updateLeases change).live := by
  obtain ⟨lease, member⟩ := live
  exact ⟨change loan lease, List.mem_map.mpr ⟨_, member, rfl⟩⟩

theorem Shared.updateLeases {f : Flow} {property : Lease → Prop} {change : Nat → Lease → Lease}
    (shared : f.Shared property loan) (each : ∀ lease, property lease → kept (change loan lease)) :
    (f.updateLeases change).Shared kept loan := by
  intro lease live
  obtain ⟨⟨other, before⟩, member, same⟩ := List.mem_map.mp live
  cases same
  exact each before (shared before member)

theorem exists_lease {f : Flow} (live : ∃ lease, (loan, lease) ∈ f.live) :
    ∃ lease, f.lease? loan = some lease ∧ (loan, lease) ∈ f.live := by
  obtain ⟨lease, member⟩ := live
  obtain ⟨⟨other, found⟩, here⟩ : ∃ entry, (f.live.find? fun entry => entry.1 == loan) = some entry :=
    Option.isSome_iff_exists.mp (List.find?_isSome.mpr ⟨_, member, by simp⟩)
  have same : other = loan := by simpa using List.find?_some here
  subst same
  exact ⟨found, by simp [lease?, here], List.mem_of_find?_eq_some here⟩

theorem has_updateVar {property : VarFlow → Prop} {f : Flow} {id i : Nat}
    {change : VarFlow → VarFlow} : (f.updateVar id change).Has property i ↔
      if i = id then f.Has (fun v => property (change v)) i else f.Has property i := by
  unfold Has updateVar
  by_cases same : id = i
  · simp [same]
  · have different : i ≠ id := fun reversed => same reversed.symm
    simp [same, different]

theorem has_append_old {property : VarFlow → Prop} {f : Flow} {v : VarFlow} {id : Nat}
    (inside : id < f.vars.length) :
    ({ f with vars := f.vars ++ [v] } : Flow).Has property id ↔ f.Has property id := by
  simp [Has, List.getElem?_append_left inside]

theorem has_append_new {property : VarFlow → Prop} {f : Flow} {v : VarFlow} :
    ({ f with vars := f.vars ++ [v] } : Flow).Has property f.vars.length ↔ property v := by
  simp [Has]

end Flow

end TreeCheck.Ownership
