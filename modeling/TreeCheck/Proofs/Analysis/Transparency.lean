import Mathlib
import TreeCheck.Analysis

/-!
Transparency of the cache. A cache that was filled by analyses only holds what they found, under digests
of their texts; so a run with it reports what a run without it reports, as long as the text of an analysis
determines what it finds. The text of an enum leaves out what its variants hold, and then it does not.
-/

namespace TreeCheck.Analysis

/-- A function to be analysed: the program it is in, its position there, and the options. -/
structure Task where
  program : Program
  position : Nat
  function : FuncDecl
  options : Match.Options

namespace Task

/-- What the fingerprint of an analysis is the digest of. -/
def text (t : Task) : Octets := fingerprintText (environment t.program) t.function t.options

def key (t : Task) : String := Digest.ofBytes t.text.bytes

def outcome (t : Task) : Outcome :=
  analyzeFunction (some t.program.collect.1) t.position t.function t.options

/-- What an analysis finds that is neither stopped nor cut short. -/
def found? (t : Task) : Option (List Diagnostic) :=
  match t.outcome with
  | { fatal := none, report := { aborted := false, diagnostics, .. }, .. } => some diagnostics
  | _ => none

theorem found?_eq_some {t : Task} {ds : List Diagnostic} : t.found? = some ds ↔
    (t.outcome.fatal = none ∧ t.outcome.report.aborted = false) ∧ t.outcome.report.diagnostics = ds := by
  unfold found?
  split
  next seen => simp [seen]
  next other =>
    refine ⟨nofun, fun ⟨⟨goesOn, settled⟩, _⟩ => ?_⟩
    cases seen : t.outcome with
    | mk report fatal log =>
      rw [seen] at goesOn settled
      cases report
      cases goesOn
      cases settled
      exact absurd seen (other _ _ _ _ _ _ _ _)

end Task

/-- The analyses that a run consists of. -/
def tasks (p : Program) (options : Options) : List Task :=
  p.functions.zipIdx.map fun entry => ⟨p, entry.2, entry.1, options.matching⟩

/-- A cache that only holds what some analyses have found. -/
def Faithful (seen : List Task) (cache : Cache) : Prop :=
  ∀ e ∈ cache.entries, ∃ t ∈ seen, t.key = e.key ∧ t.found? = some e.diagnostics

/-- Analyses with one key find the same. -/
def Determined (all : List Task) : Prop :=
  ∀ a ∈ all, ∀ b ∈ all, a.key = b.key → a.found? = b.found?

theorem Faithful.mono {seen more : List Task} {cache : Cache} (faithful : Faithful seen cache)
    (within : seen ⊆ more) : Faithful more cache := by
  intro e member
  obtain ⟨t, inside, same⟩ := faithful e member
  exact ⟨t, within inside, same⟩

/-! ### The store -/

theorem lookup_eq_some {cache : Cache} {key : String} {ds : List Diagnostic}
    (found : cache.lookup key = .ok (some ds)) :
    ∃ e ∈ cache.entries, e.key = key ∧ e.diagnostics = ds := by
  unfold Cache.lookup Cache.ensureOpen at found
  split at found
  · obtain ⟨e, here, shown⟩ := Option.map_eq_some_iff.mp (Except.ok.inj found)
    exact ⟨e, List.mem_of_find?_eq_some here, by simpa using List.find?_some here, shown⟩
  · cases found

theorem mem_of_store {cache after : Cache} {now : Int} {key function : String} {ds : List Diagnostic}
    (stored : cache.store now key function ds = .ok after) {e : Cache.Entry} (member : e ∈ after.entries) :
    e ∈ cache.entries ∨ e.key = key ∧ e.diagnostics = ds := by
  simp only [Cache.store, bind, Except.bind] at stored
  split at stored
  · cases stored
  split at stored
  · cases stored
  split at stored
  · cases stored
  cases stored
  rcases List.mem_append.mp member with old | new
  · exact .inl (List.mem_filter.mp old).1
  · rw [List.mem_singleton.mp new]
    exact .inr ⟨rfl, rfl⟩

/-! ### One function -/

def shown (r : Option FunctionReport) : List Diagnostic := (r.map FunctionReport.diagnostics).getD []

@[simp] theorem shown_some (r : FunctionReport) : shown (some r) = r.diagnostics := rfl

def Task.answer (t : Task) (options : Options) (cache : Option Cache) :
    Option FunctionReport × Option Fatal × Option Cache × List LogLine :=
  analyzeCached t.program.collect.1 (environment t.program) { options with matching := t.options } cache
    t.position t.function

variable {all seen : List Task} {t : Task} {options : Options} {cache : Cache}

/-- Without a cache a function is analysed. -/
theorem Task.answer_none (t : Task) (options : Options) : ∃ log, t.answer options none =
    (some { t.outcome.report with fingerprint := t.key }, t.outcome.fatal, none, log) := by
  simp only [Task.answer, analyzeCached]
  split
  · contradiction
  · exact ⟨_, rfl⟩

/-- With a cache, the store stops the run, or it knows the function, or the function is analysed and may
be stored. -/
theorem Task.answer_some {answer} (answered : t.answer options (some cache) = answer) :
    (answer.2.1.isSome ∧ answer.2.2.1 = some cache) ∨
    (∃ ds, cache.lookup t.key = .ok (some ds) ∧ shown answer.1 = ds ∧ answer.2.2.1 = some cache) ∨
    (shown answer.1 = t.outcome.report.diagnostics ∧ t.outcome.fatal = none ∧
      (answer.2.2.1 = some cache ∨ t.outcome.report.aborted = false ∧
        ∃ after name, cache.store options.now t.key name t.outcome.report.diagnostics = .ok after ∧
          answer.2.2.1 = some after)) := by
  have key : fingerprint (environment t.program) t.function t.options = t.key := rfl
  have outcome : analyzeFunction (some t.program.collect.1) t.position t.function t.options = t.outcome := rfl
  simp only [Task.answer, analyzeCached, key, outcome] at answered
  split at answered
  · exact .inl (answered ▸ ⟨rfl, rfl⟩)
  · split at answered
    next stopped same =>
      cases same
      split at answered
      · exact .inr (.inr (answered ▸ ⟨rfl, stopped, .inl rfl⟩))
      next settled =>
        split at answered
        next after stored =>
          exact .inr (.inr (answered ▸ ⟨rfl, stopped, .inr ⟨by simpa using settled, after, _, stored, rfl⟩⟩))
        · exact .inl (answered ▸ ⟨rfl, rfl⟩)
    next stopped =>
      cases fatal : t.outcome.fatal with
      | none => exact absurd rfl (stopped _ fatal)
      | some _ => exact .inl (answered ▸ ⟨by simp [fatal], rfl⟩)
  next ds found => exact .inr (.inl ⟨ds, found, answered ▸ ⟨rfl, rfl⟩⟩)

/-- With a faithful cache, what does not stop the run finds what the analysis without a cache finds, and the
cache stays faithful. -/
theorem Task.answer_faithful (options : Options) (determined : Determined all) (faithful : Faithful seen cache)
    (within : seen ⊆ all) (asked : t ∈ all) :
    (∃ after, (t.answer options (some cache)).2.2.1 = some after ∧ Faithful (t :: seen) after) ∧
      ((t.answer options (some cache)).2.1 = none →
        t.outcome.fatal = none ∧ shown (t.answer options (some cache)).1 = t.outcome.report.diagnostics) := by
  have wider : Faithful (t :: seen) cache := faithful.mono (List.subset_cons_self _ _)
  rcases Task.answer_some rfl with ⟨stopped, same⟩ | ⟨ds, looked, known, same⟩ | ⟨fresh, goesOn, kept⟩
  · exact ⟨⟨cache, same, wider⟩, fun free => by simp [free] at stopped⟩
  · obtain ⟨e, member, keyed, rfl⟩ := lookup_eq_some looked
    obtain ⟨other, inside, otherKey, found⟩ := faithful e member
    rw [determined other (within inside) t asked (otherKey.trans keyed), Task.found?_eq_some] at found
    exact ⟨⟨cache, same, wider⟩, fun _ => ⟨found.1.1, known.trans found.2.symm⟩⟩
  · refine ⟨?_, fun _ => ⟨goesOn, fresh⟩⟩
    rcases kept with same | ⟨settled, after, name, stored, same⟩
    · exact ⟨cache, same, wider⟩
    · refine ⟨after, same, fun e member => ?_⟩
      rcases mem_of_store stored member with old | ⟨keyed, found⟩
      · exact wider e old
      · exact ⟨t, List.mem_cons_self, keyed.symm, Task.found?_eq_some.mpr ⟨⟨goesOn, settled⟩, found.symm⟩⟩

/-! ### Runs -/

/-- How far a run with the cache and the run without one are: unless the first was stopped, the second was
not either, and their functions have the same diagnostics. -/
structure InStep (seen : List Task) (cached plain : Progress) : Prop where
  kept : ∃ cache, cached.cache = some cache ∧ Faithful seen cache
  uncached : plain.cache = none
  same : cached.fatal = none →
    plain.fatal = none ∧ cached.functions.map shown = plain.functions.map shown

theorem InStep.next {p : Program} {options : Options} {cached plain : Progress} {entry : FuncDecl × Nat}
    (determined : Determined all) (step : InStep seen cached plain) (within : seen ⊆ all)
    (asked : ⟨p, entry.2, entry.1, options.matching⟩ ∈ all) :
    InStep (⟨p, entry.2, entry.1, options.matching⟩ :: seen)
      (cached.next p.collect.1 (environment p) options entry)
      (plain.next p.collect.1 (environment p) options entry) := by
  obtain ⟨⟨cache, cacheSome, faithful⟩, uncached, same⟩ := step
  have answered := fun cache : Option Cache => show
    analyzeCached p.collect.1 (environment p) options cache entry.2 entry.1 =
      (Task.mk p entry.2 entry.1 options.matching).answer options cache from rfl
  simp only [Progress.next, answered]
  generalize Task.mk p entry.2 entry.1 options.matching = task at asked
  have wider : Faithful (task :: seen) cache := faithful.mono (List.subset_cons_self _ _)
  obtain ⟨log, alone⟩ := task.answer_none options
  obtain ⟨kept, found⟩ := Task.answer_faithful options determined faithful within asked
  cases stopped : cached.fatal with
  | some _ =>
    refine ⟨⟨cache, by simpa using cacheSome, wider⟩, ?_, by simp⟩
    rw [uncached, alone]
    split <;> rfl
  | none =>
    obtain ⟨free, functions⟩ := same stopped
    rw [free, cacheSome, uncached, alone]
    refine ⟨by simpa using kept, by simp, fun goesOn => ?_⟩
    obtain ⟨fatal, same⟩ := found (by simpa using goesOn)
    exact ⟨by simpa using fatal, by simpa [functions] using same⟩

/-- The functions of a run one after the other, in step with the run without a cache. -/
theorem InStep.foldl {p : Program} {options : Options} (determined : Determined all)
    {entries : List (FuncDecl × Nat)} {cached plain : Progress} (step : InStep seen cached plain)
    (within : seen ⊆ all) (asked : ∀ entry ∈ entries, ⟨p, entry.2, entry.1, options.matching⟩ ∈ all) :
    ∃ more ⊆ all, InStep more (entries.foldl (Progress.next p.collect.1 (environment p) options) cached)
      (entries.foldl (Progress.next p.collect.1 (environment p) options) plain) := by
  induction entries generalizing seen cached plain with
  | nil => exact ⟨seen, within, step⟩
  | cons entry rest ih =>
    have now := asked entry List.mem_cons_self
    exact ih (step.next determined within now) (List.cons_subset.mpr ⟨now, within⟩)
      fun other inside => asked other (List.mem_cons_of_mem _ inside)

/-- A run before its first function. -/
def started (p : Program) (options : Options) (cache : Option Cache) : Progress where
  fatal := if options.cancelled && !p.functions.isEmpty then some .cancelled else none
  cache := cache
  log := [⟨.debug, s!"collected {p.items.length} declarations with {p.collect.2.length} diagnostics"⟩]

/-- A run after its last function. -/
def finished (p : Program) (options : Options) (cache : Option Cache) : Progress :=
  p.functions.zipIdx.foldl (Progress.next p.collect.1 (environment p) options) (started p options cache)

theorem run_fatal (p : Program) (options : Options) (cache : Option Cache) :
    (run p options cache).fatal = (finished p options cache).fatal := rfl

theorem run_cache (p : Program) (options : Options) (cache : Option Cache) :
    (run p options cache).cache = (finished p options cache).cache := rfl

theorem run_diagnostics (p : Program) (options : Options) (cache : Option Cache) :
    (run p options cache).report.diagnostics =
      (((finished p options cache).functions.map shown).foldl Bag.addAll (Bag.addAll {} p.collect.2)).items := by
  simp only [run, List.foldl_map]
  congr 2
  funext bag r
  cases r with
  | none => rfl
  | some r => rfl

theorem run_single (p : Program) {f : FuncDecl} (only : p.functions = [f]) (sound : p.collect.2 = [])
    (cache : Option Cache) : let answer := (Task.mk p 0 f {}).answer {} cache
    (run p {} cache).fatal = answer.2.1 ∧ (run p {} cache).cache = answer.2.2.1 ∧
      (run p {} cache).report.diagnostics = (Bag.addAll {} (shown answer.1)).items := by
  have done : finished p {} cache =
      Progress.next p.collect.1 (environment p) {} (started p {} cache) (f, 0) := by
    simp [finished, only]
  have answered : analyzeCached p.collect.1 (environment p) {} cache 0 f =
      (Task.mk p 0 f {}).answer {} cache := rfl
  rw [run_fatal, run_cache, run_diagnostics, done, sound]
  simp [Progress.next, started, answered, Bag.addAll]

end TreeCheck.Analysis
