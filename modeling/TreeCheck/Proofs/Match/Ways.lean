import Mathlib.Data.Multiset.AddSub
import TreeCheck.Match.Value

/-!
Ways of matching, up to the order of what they bind. Match compilation takes the parts of a value in
another order than trying the patterns does, so two lists of ways are compared by the ways that occur
in them and by their first ones.
-/

namespace TreeCheck.Match

/-- What a way binds, in no order, and whether a guard has still to agree. -/
abbrev Gist : Type := Multiset (String × Value) × Bool

def Gist.join (a b : Gist) : Gist := (a.1 + b.1, a.2 || b.2)

def Way.gist (w : Way) : Gist := (w.env, w.guarded)

/-- Every way of one list with every way of another; those of the first list vary last. -/
def cross (xs ys : List Way) : List Way := xs.flatMap fun a => ys.map a.append

/-- The same ways in the same order. -/
def Level (xs ys : List Way) : Prop := xs.map Way.gist = ys.map Way.gist

/-- The same ways occur, and the first ones are the same. -/
structure Alike (xs ys : List Way) : Prop where
  members : ∀ g, (∃ w ∈ xs, w.gist = g) ↔ ∃ w ∈ ys, w.gist = g
  first : xs.head?.map Way.gist = ys.head?.map Way.gist

theorem Gist.join_comm (a b : Gist) : a.join b = b.join a := by
  simp [Gist.join, Multiset.add_comm, Bool.or_comm]

theorem Way.gist_append (a b : Way) : (a.append b).gist = a.gist.join b.gist := by
  simp [Way.append, Way.gist, Gist.join]

theorem Way.append_assoc (a b c : Way) : (a.append b).append c = a.append (b.append c) := by
  simp [Way.append, Bool.or_assoc]

@[simp] theorem Way.empty_append (a : Way) : Way.append {} a = a := by simp [Way.append]

@[simp] theorem Way.append_empty (a : Way) : a.append {} = a := by simp [Way.append]

@[simp] theorem cross_nil_left (ys : List Way) : cross [] ys = [] := rfl

@[simp] theorem cross_nil_right (xs : List Way) : cross xs [] = [] := by simp [cross]

@[simp] theorem cross_unit_left (ys : List Way) : cross [{}] ys = ys := by
  simp [cross, show Way.append {} = id from funext fun a => Way.empty_append a]

@[simp] theorem cross_unit_right (xs : List Way) : cross xs [{}] = xs := by
  simp [cross, List.flatMap_singleton']

theorem cross_append_left (xs xs' ys : List Way) :
    cross (xs ++ xs') ys = cross xs ys ++ cross xs' ys := by
  simp [cross]

theorem cross_singleton (a : Way) (ys : List Way) : cross [a] ys = ys.map a.append := by
  simp [cross]

theorem cross_flatMap {α : Type} (list : List α) (f : α → List Way) (ys : List Way) :
    cross (list.flatMap f) ys = list.flatMap fun a => cross (f a) ys := by
  simp [cross, List.flatMap_assoc]

theorem cross_assoc (xs ys zs : List Way) : cross (cross xs ys) zs = cross xs (cross ys zs) := by
  simp only [cross, List.flatMap_assoc, List.map_flatMap, List.flatMap_map, List.map_map]
  congr 1
  funext a
  congr 1
  funext b
  congr 1
  funext c
  exact Way.append_assoc a b c

theorem length_cross (xs ys : List Way) : (cross xs ys).length = xs.length * ys.length := by
  simp [cross, List.length_flatMap]

theorem map_cross_gist (xs ys : List Way) : (cross xs ys).map Way.gist =
    (xs.map Way.gist).flatMap fun a => (ys.map Way.gist).map a.join := by
  simp [cross, List.map_flatMap, List.flatMap_map, Function.comp_def, Way.gist_append]

theorem mem_cross {xs ys : List Way} {w : Way} :
    w ∈ cross xs ys ↔ ∃ a ∈ xs, ∃ b ∈ ys, a.append b = w := by
  simp [cross]

theorem cross_eq_nil {xs ys : List Way} : cross xs ys = [] ↔ xs = [] ∨ ys = [] := by
  cases xs <;> cases ys <;> simp [cross]

theorem exists_cross_gist (xs ys : List Way) (g : Gist) :
    (∃ w ∈ cross xs ys, w.gist = g) ↔
      ∃ a b, (∃ w ∈ xs, w.gist = a) ∧ (∃ w ∈ ys, w.gist = b) ∧ Gist.join a b = g := by
  constructor
  · rintro ⟨w, member, rfl⟩
    obtain ⟨a, ha, b, hb, rfl⟩ := mem_cross.mp member
    exact ⟨a.gist, b.gist, ⟨a, ha, rfl⟩, ⟨b, hb, rfl⟩, (Way.gist_append a b).symm⟩
  · rintro ⟨_, _, ⟨a, ha, rfl⟩, ⟨b, hb, rfl⟩, rfl⟩
    exact ⟨a.append b, mem_cross.mpr ⟨a, ha, b, hb, rfl⟩, Way.gist_append a b⟩

theorem head?_cross_gist (xs ys : List Way) :
    (cross xs ys).head?.map Way.gist =
      (xs.head?.map Way.gist).bind fun a => (ys.head?.map Way.gist).map a.join := by
  cases xs with
  | nil => rfl
  | cons a xs =>
    cases ys with
    | nil => simp
    | cons b ys => simp [cross, Way.gist_append]

namespace Alike

theorem refl (xs : List Way) : Alike xs xs := ⟨fun _ => Iff.rfl, rfl⟩

theorem of_eq {xs ys : List Way} (equal : xs = ys) : Alike xs ys := equal ▸ refl xs

theorem symm {xs ys : List Way} (h : Alike xs ys) : Alike ys xs :=
  ⟨fun g => (h.members g).symm, h.first.symm⟩

theorem trans {xs ys zs : List Way} (first : Alike xs ys) (second : Alike ys zs) : Alike xs zs :=
  ⟨fun g => (first.members g).trans (second.members g), first.first.trans second.first⟩

instance : Trans Alike Alike Alike := ⟨trans⟩

theorem append {xs ys xs' ys' : List Way} (left : Alike xs ys) (right : Alike xs' ys') :
    Alike (xs ++ xs') (ys ++ ys') := by
  constructor
  · intro g
    simp only [List.mem_append, or_and_right, exists_or, left.members g, right.members g]
  · have firsts := left.first
    have seconds := right.first
    cases xs <;> cases ys <;> simp_all

theorem cross {xs ys xs' ys' : List Way} (left : Alike xs ys) (right : Alike xs' ys') :
    Alike (Match.cross xs xs') (Match.cross ys ys') := by
  constructor
  · intro g
    simp only [exists_cross_gist, left.members, right.members]
  · rw [head?_cross_gist, head?_cross_gist, left.first, right.first]

theorem cross_comm (xs ys : List Way) : Alike (Match.cross xs ys) (Match.cross ys xs) := by
  constructor
  · intro g
    rw [exists_cross_gist, exists_cross_gist]
    constructor
    · rintro ⟨a, b, ha, hb, rfl⟩
      exact ⟨b, a, hb, ha, Gist.join_comm b a⟩
    · rintro ⟨a, b, ha, hb, rfl⟩
      exact ⟨b, a, hb, ha, Gist.join_comm b a⟩
  · rw [head?_cross_gist, head?_cross_gist]
    cases xs <;> cases ys <;> simp [Gist.join_comm]

theorem cross_left_comm (xs ys zs : List Way) :
    Alike (Match.cross xs (Match.cross ys zs)) (Match.cross ys (Match.cross xs zs)) := by
  rw [← cross_assoc, ← cross_assoc]
  exact (cross_comm xs ys).cross (refl zs)

/-- The ways of the second list may be split up; only their order changes. -/
theorem cross_append_right (xs ys zs : List Way) :
    Alike (Match.cross xs (ys ++ zs)) (Match.cross xs ys ++ Match.cross xs zs) :=
  calc
    Alike (Match.cross xs (ys ++ zs)) (Match.cross (ys ++ zs) xs) := cross_comm _ _
    Alike _ (Match.cross ys xs ++ Match.cross zs xs) := of_eq (cross_append_left ys zs xs)
    Alike _ _ := (cross_comm ys xs).append (cross_comm zs xs)

/-- The ways of a second list may be taken apart one by one. -/
theorem cross_flatMap_right {α : Type} (xs : List Way) (list : List α) (f : α → List Way) :
    Alike (Match.cross xs (list.flatMap f)) (list.flatMap fun a => Match.cross xs (f a)) := by
  induction list with
  | nil => exact Alike.of_eq (by simp)
  | cons a list ih =>
    simp only [List.flatMap_cons]
    exact (Alike.cross_append_right xs (f a) (list.flatMap f)).trans ((Alike.refl _).append ih)

end Alike

namespace Level

theorem refl (xs : List Way) : Level xs xs := rfl

theorem of_eq {xs ys : List Way} (equal : xs = ys) : Level xs ys := equal ▸ refl xs

theorem symm {xs ys : List Way} (level : Level xs ys) : Level ys xs := Eq.symm level

theorem trans {xs ys zs : List Way} (first : Level xs ys) (second : Level ys zs) : Level xs zs :=
  Eq.trans first second

theorem append {xs ys xs' ys' : List Way} (left : Level xs ys) (right : Level xs' ys') :
    Level (xs ++ xs') (ys ++ ys') := by
  simp only [Level, List.map_append] at left right ⊢
  rw [left, right]

theorem cross {xs ys xs' ys' : List Way} (left : Level xs ys) (right : Level xs' ys') :
    Level (Match.cross xs xs') (Match.cross ys ys') := by
  simp only [Level] at left right ⊢
  rw [map_cross_gist, map_cross_gist, left, right]

theorem alike {xs ys : List Way} (level : Level xs ys) : Alike xs ys := by
  constructor
  · intro g
    have same : g ∈ xs.map Way.gist ↔ g ∈ ys.map Way.gist := by rw [level]
    simpa using same
  · simpa using congrArg List.head? level

theorem cross_comm {xs ys : List Way} (few : xs.length ≤ 1 ∨ ys.length ≤ 1) :
    Level (Match.cross xs ys) (Match.cross ys xs) := by
  have single (a : Way) (zs : List Way) : Level (Match.cross [a] zs) (Match.cross zs [a]) := by
    simp only [Level, map_cross_gist]
    simp [List.flatMap_map, Function.comp_def, Gist.join_comm, ← List.map_eq_flatMap]
  have short (zs : List Way) (few : zs.length ≤ 1) : zs = [] ∨ ∃ a, zs = [a] := by
    rcases zs with _ | ⟨a, _ | ⟨b, rest⟩⟩
    · exact .inl rfl
    · exact .inr ⟨a, rfl⟩
    · simp at few
  rcases few with few | few
  · rcases short xs few with rfl | ⟨a, rfl⟩
    · simpa using refl []
    · exact single a ys
  · rcases short ys few with rfl | ⟨a, rfl⟩
    · simpa using refl []
    · exact (single a xs).symm

theorem cross_left_comm {xs ys : List Way} (few : xs.length ≤ 1 ∨ ys.length ≤ 1) (zs : List Way) :
    Level (Match.cross xs (Match.cross ys zs)) (Match.cross ys (Match.cross xs zs)) := by
  rw [← cross_assoc, ← cross_assoc]
  exact (cross_comm few).cross (refl zs)

theorem cross_flatMap_right {α : Type} {xs : List Way} {list : List α} (few : xs.length ≤ 1 ∨ list.length ≤ 1)
    (f : α → List Way) : Level (Match.cross xs (list.flatMap f)) (list.flatMap fun a => Match.cross xs (f a)) := by
  rcases few with few | few
  · rcases xs with _ | ⟨a, _ | ⟨b, rest⟩⟩
    · exact of_eq (by simp)
    · exact of_eq (by simp [cross_singleton, List.map_flatMap])
    · simp at few
  · rcases list with _ | ⟨a, _ | ⟨b, rest⟩⟩
    · exact of_eq (by simp)
    · exact of_eq (by simp)
    · simp at few

end Level

/-- Alike, and in the same order as far as `strict` says. -/
structure Arranged (strict : Prop) (xs ys : List Way) : Prop where
  alike : Alike xs ys
  level : strict → Level xs ys

namespace Arranged

variable {strict : Prop} {xs ys xs' ys' zs : List Way}

theorem of_level (level : Level xs ys) : Arranged strict xs ys := ⟨level.alike, fun _ => level⟩

theorem of_eq (equal : xs = ys) : Arranged strict xs ys := of_level (.of_eq equal)

theorem refl (xs : List Way) : Arranged strict xs xs := of_eq rfl

theorem weaken {strict' : Prop} (arranged : Arranged strict xs ys) (stricter : strict' → strict) :
    Arranged strict' xs ys := ⟨arranged.alike, fun known => arranged.level (stricter known)⟩

theorem symm (arranged : Arranged strict xs ys) : Arranged strict ys xs :=
  ⟨arranged.alike.symm, fun known => (arranged.level known).symm⟩

theorem trans (first : Arranged strict xs ys) (second : Arranged strict ys zs) : Arranged strict xs zs :=
  ⟨first.alike.trans second.alike, fun known => (first.level known).trans (second.level known)⟩

instance : Trans (Arranged strict) (Arranged strict) (Arranged strict) := ⟨trans⟩

theorem append (left : Arranged strict xs ys) (right : Arranged strict xs' ys') :
    Arranged strict (xs ++ xs') (ys ++ ys') :=
  ⟨left.alike.append right.alike, fun known => (left.level known).append (right.level known)⟩

theorem flatMap {α : Type} (list : List α) {f g : α → List Way} (each : ∀ a ∈ list, Arranged strict (f a) (g a)) :
    Arranged strict (list.flatMap f) (list.flatMap g) := by
  induction list with
  | nil => exact refl []
  | cons a list ih =>
    simp only [List.flatMap_cons]
    exact append (each a (by simp)) (ih fun b member => each b (by simp [member]))

theorem cross (left : Arranged strict xs ys) (right : Arranged strict xs' ys') :
    Arranged strict (Match.cross xs xs') (Match.cross ys ys') :=
  ⟨left.alike.cross right.alike, fun known => (left.level known).cross (right.level known)⟩

theorem cross_left_comm (few : strict → xs.length ≤ 1 ∨ ys.length ≤ 1) (zs : List Way) :
    Arranged strict (Match.cross xs (Match.cross ys zs)) (Match.cross ys (Match.cross xs zs)) :=
  ⟨.cross_left_comm xs ys zs, fun known => .cross_left_comm (few known) zs⟩

theorem cross_flatMap_right {α : Type} {list : List α} (few : strict → xs.length ≤ 1 ∨ list.length ≤ 1)
    (f : α → List Way) :
    Arranged strict (Match.cross xs (list.flatMap f)) (list.flatMap fun a => Match.cross xs (f a)) :=
  ⟨.cross_flatMap_right xs list f, fun known => .cross_flatMap_right (few known) f⟩

end Arranged

end TreeCheck.Match
