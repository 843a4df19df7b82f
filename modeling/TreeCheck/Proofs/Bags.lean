import Mathlib
import TreeCheck.Proofs.Diagnostics
import TreeCheck.Proofs.Keys

/-!
Several bags that are filled by calls, also from each other. A bag then holds what was added to it, the first of each
finding, and shows it in an order of its own: by start, then by kind, then by arrival.
-/

namespace TreeCheck

/-! ### The order of places and kinds -/

/-- Positions come by file, line and column. -/
def Position.rank (p : Position) : String ×ₗ Int ×ₗ Int := toLex (p.file, toLex (p.line, p.column))

namespace Diagnostic

/-- Diagnostics come by the start of the span, then by the kind. -/
def rank (d : Diagnostic) : (String ×ₗ Int ×ₗ Int) ×ₗ Int := toLex (d.span.start.rank, d.kind.number)

theorem order_eq (d e : Diagnostic) : d.order e = compare d.rank e.rank := rfl

theorem sort_eq (ds : List Diagnostic) : sort ds = ds.mergeSort fun d e => d.rank ≤ e.rank := by
  have le (d e : Diagnostic) : (d.order e != .gt) = decide (d.rank ≤ e.rank) := by
    rw [order_eq, Bool.eq_iff_iff, bne_iff_ne, decide_eq_true_iff]
    exact compare_le_iff_le
  simp only [sort, le]

theorem sort_ranked (ds : List Diagnostic) : (sort ds).Pairwise fun d e => d.rank ≤ e.rank := by
  have ordered := List.pairwise_mergeSort' (Order.Preimage rank (· ≤ ·)) ds
  rw [sort_eq]
  exact ordered

theorem sort_sort (ds : List Diagnostic) : sort (sort ds) = sort ds := by
  rw [sort_eq (sort ds)]
  exact List.mergeSort_of_pairwise ((sort_ranked ds).imp decide_eq_true)

/-- Two members of a list stand in it in one order or the other. -/
theorem pair_sublist_or {ds : List Diagnostic} {d e : Diagnostic} (member : d ∈ ds) (member' : e ∈ ds)
    (other : d ≠ e) : [d, e].Sublist ds ∨ [e, d].Sublist ds := by
  let Either (d e : Diagnostic) : Prop := [d, e].Sublist ds ∨ [e, d].Sublist ds
  have both : ds.Pairwise Either := List.pairwise_iff_forall_sublist.mpr .inl
  have symmetric : Std.Symm Either := ⟨fun _ _ => Or.symm⟩
  exact both.forall member member' other

/-- Of diagnostics with one rank the earlier stays before the later. -/
theorem sort_stable {R : Diagnostic → Diagnostic → Prop} {ds : List Diagnostic} (apart : ds.Nodup)
    (ordered : ds.Pairwise R) :
    (sort ds).Pairwise fun d e => d.rank < e.rank ∨ d.rank = e.rank ∧ R d e := by
  have perm : (sort ds).Perm ds := List.mergeSort_perm _ _
  have apart' : (sort ds).Nodup := perm.nodup_iff.mpr apart
  rw [List.pairwise_iff_forall_sublist]
  intro d e pair
  have ranked : d.rank ≤ e.rank := List.pairwise_iff_forall_sublist.mp (sort_ranked ds) pair
  have other : d ≠ e := List.pairwise_iff_forall_sublist.mp apart' pair
  refine ranked.lt_or_eq.imp_right fun tie => ⟨tie, ?_⟩
  have member : d ∈ ds := perm.mem_iff.mp (pair.subset List.mem_cons_self)
  have member' : e ∈ ds := perm.mem_iff.mp (pair.subset (List.mem_cons_of_mem _ List.mem_cons_self))
  rcases pair_sublist_or member member' other with earlier | later
  · exact List.pairwise_iff_forall_sublist.mp ordered earlier
  · -- sorting would have left these two as they were
    have back : [e, d].Sublist (sort ds) := by
      rw [sort_eq]
      refine List.pair_sublist_mergeSort ?_ ?_ (decide_eq_true tie.ge) later
      · exact fun a b c first next => decide_eq_true ((of_decide_eq_true first).trans (of_decide_eq_true next))
      · exact fun a b => by simpa using le_total a.rank b.rank
    have swapped := (apart'.perm_iff_eq_of_sublist pair back).mp (.swap _ _ _)
    exact absurd (List.cons.inj swapped).1 other

/-- What is reported, whatever else is said about it. -/
def finding (d : Diagnostic) : Int × Span × String := (d.kind.number, d.span, d.message)

theorem finding_beq {file : String} {d e : Diagnostic} (within : d.span.Within file) (within' : e.span.Within file) :
    (d.finding == e.finding) = (d.key == e.key) := by
  rw [Bool.eq_iff_iff, beq_iff_eq, beq_iff_eq]
  constructor
  · intro same
    obtain ⟨kind, rest⟩ := Prod.ext_iff.mp same
    obtain ⟨span, message⟩ := Prod.ext_iff.mp rest
    dsimp only [finding] at kind span message
    rw [key, key, kind, span, message]
  · intro same
    obtain ⟨span, message⟩ := span_eq_of_key within within' same
    rw [finding, finding, number_eq_of_key same, span, message]

end Diagnostic

namespace Bag

open Diagnostic

variable {bag : Bag} {d e : Diagnostic} {ds : List Diagnostic}

/-! ### One bag -/

theorem addAll_concat (bag : Bag) (ds : List Diagnostic) (d : Diagnostic) :
    bag.addAll (ds ++ [d]) = (bag.addAll ds).add d := (addAll_append bag ds [d]).symm

theorem add_of_mem (held : d.key ∈ bag.keys) : bag.add d = bag := by
  have known : bag.holds d = true := by simpa [holds, keys] using held
  rw [add, if_pos known]

theorem add_of_notMem (free : d.key ∉ bag.keys) : (bag.add d).contents = bag.contents ++ [d] := by
  have unknown : ¬bag.holds d = true := by simpa [holds, keys] using free
  rw [add, if_neg unknown]

theorem mem_keys_fresh {key : String} : key ∈ (addAll {} ds).keys ↔ key ∈ ds.map Diagnostic.key := by
  rw [mem_keys_addAll]
  simp [keys]

theorem addAll_contents (bag : Bag) (ds : List Diagnostic) :
    bag.addAll (addAll {} ds).contents = bag.addAll ds := by
  induction ds using List.reverseRecOn with
  | nil => rfl
  | append_singleton ds d ih =>
    rw [addAll_concat, addAll_concat]
    by_cases held : d.key ∈ (addAll {} ds).keys
    · have known : d.key ∈ (bag.addAll ds).keys := mem_keys_addAll.mpr (.inr (mem_keys_fresh.mp held))
      rw [add_of_mem held, add_of_mem known, ih]
    · rw [add_of_notMem held, addAll_concat, ih]

/-- Without repetitions all is kept. -/
theorem contents_of_nodup (apart : (ds.map Diagnostic.key).Nodup) : (addAll {} ds).contents = ds := by
  induction ds using List.reverseRecOn with
  | nil => rfl
  | append_singleton ds d ih =>
    rw [List.map_append, List.map_singleton, List.nodup_append] at apart
    obtain ⟨former, -, new⟩ := apart
    have free : d.key ∉ (addAll {} ds).keys := fun held =>
      new d.key (mem_keys_fresh.mp held) d.key (List.mem_singleton_self _) rfl
    rw [addAll_concat, add_of_notMem free, ih former]

/-- A fresh bag holds the first of all that have one key. -/
theorem filter_contents (ds : List Diagnostic) (key : String) :
    (addAll {} ds).contents.filter (fun e => e.key == key) = (ds.find? fun e => e.key == key).toList := by
  induction ds using List.reverseRecOn with
  | nil => rfl
  | append_singleton ds d ih =>
    rw [addAll_concat, List.find?_append]
    by_cases held : d.key ∈ (addAll {} ds).keys
    · rw [add_of_mem held, ih]
      by_cases same : d.key = key
      · obtain ⟨e, member, known⟩ := List.mem_map.mp (mem_keys_fresh.mp held)
        have found : (ds.find? fun e => e.key == key).isSome := by
          rw [List.find?_isSome]
          exact ⟨e, member, beq_iff_eq.mpr (known.trans same)⟩
        rw [Option.or_of_isSome found]
      · simp [same]
    · rw [add_of_notMem held, List.filter_append, ih]
      by_cases same : d.key = key
      · have missed : (ds.find? fun e => e.key == key) = none := by
          rw [List.find?_eq_none]
          intro e member known
          refine held (mem_keys_fresh.mpr (List.mem_map.mpr ⟨e, member, ?_⟩))
          exact (beq_iff_eq.mp known).trans same.symm
        simp [missed, same]
      · simp [same]

/-- A fresh bag holds its diagnostics in the order of their arrival. -/
theorem contents_arrival (ds : List Diagnostic) :
    (addAll {} ds).contents.Pairwise fun d e => ds.idxOf d < ds.idxOf e := by
  induction ds using List.reverseRecOn with
  | nil => exact .nil
  | append_singleton ds d ih =>
    have member {e : Diagnostic} (inside : e ∈ (addAll {} ds).contents) : e ∈ ds :=
      (mem_of_addAll inside).resolve_left List.not_mem_nil
    have former : (addAll {} ds).contents.Pairwise fun e f => (ds ++ [d]).idxOf e < (ds ++ [d]).idxOf f := by
      refine ih.imp_of_mem fun inside inside' earlier => ?_
      rwa [List.idxOf_append_of_mem (member inside), List.idxOf_append_of_mem (member inside')]
    rw [addAll_concat]
    by_cases held : d.key ∈ (addAll {} ds).keys
    · rwa [add_of_mem held]
    · have new : d ∉ ds := fun old => held (mem_keys_fresh.mpr (List.mem_map_of_mem old))
      rw [add_of_notMem held]
      refine List.pairwise_append.mpr ⟨former, List.pairwise_singleton _ _, fun e inside f last => ?_⟩
      rw [List.mem_singleton.mp last, List.idxOf_append_of_mem (member inside), List.idxOf_append_of_notMem new]
      have bound := List.idxOf_lt_length_of_mem (member inside)
      omega

theorem items_addAll_items (apart : bag.keys.Nodup) : (addAll {} bag.items).items = bag.items := by
  have apart' : (bag.items.map Diagnostic.key).Nodup := (bag.items_perm.map Diagnostic.key).nodup_iff.mpr apart
  rw [items, contents_of_nodup apart']
  exact sort_sort _

/-! ### Calls -/

/-- A call that puts diagnostics into one of several bags. -/
inductive Call where
  | add (bag : Nat) (d : Diagnostic)
  | addAll (bag : Nat) (ds : List Diagnostic)
  /-- The other bag may be missing. -/
  | merge (bag : Nat) (other : Option Nat)

def Call.run (bags : Nat → Bag) : Call → Nat → Bag
  | .add i d => Function.update bags i ((bags i).add d)
  | .addAll i ds => Function.update bags i ((bags i).addAll ds)
  | .merge _ none => bags
  | .merge i (some j) => Function.update bags i ((bags i).merge (bags j))

/-- What a call adds to the diagnostics that were added to the bags; merging adds all that was added to the other. -/
def Call.log (added : Nat → List Diagnostic) : Call → Nat → List Diagnostic
  | .add i d => Function.update added i (added i ++ [d])
  | .addAll i ds => Function.update added i (added i ++ ds)
  | .merge _ none => added
  | .merge i (some j) => Function.update added i (added i ++ added j)

/-- The bags after calls, all of them empty before. -/
def filled (calls : List Call) : Nat → Bag := calls.foldl Call.run fun _ => {}

def added (calls : List Call) : Nat → List Diagnostic := calls.foldl Call.log fun _ => []

/-- Each call fills the bags as if all that it adds were added to fresh ones. -/
theorem run_fresh (added : Nat → List Diagnostic) (call : Call) :
    call.run (fun i => addAll {} (added i)) = fun i => addAll {} (call.log added i) := by
  funext i
  cases call with
  | add j d =>
    by_cases here : i = j
    · subst here
      simp [Call.run, Call.log, addAll_concat]
    · simp [Call.run, Call.log, here]
  | addAll j ds =>
    by_cases here : i = j
    · subst here
      simp [Call.run, Call.log, addAll_append]
    · simp [Call.run, Call.log, here]
  | merge j other =>
    cases other with
    | none => rfl
    | some k =>
      by_cases here : i = j
      · subst here
        simp [Call.run, Call.log, merge, addAll_contents, addAll_append]
      · simp [Call.run, Call.log, here]

theorem filled_eq (calls : List Call) (i : Nat) : filled calls i = addAll {} (added calls i) := by
  have run (logs : Nat → List Diagnostic) :
      calls.foldl Call.run (fun i => addAll {} (logs i)) = fun i => addAll {} (calls.foldl Call.log logs i) := by
    induction calls generalizing logs with
    | nil => rfl
    | cons call calls ih => rw [List.foldl_cons, run_fresh, ih, List.foldl_cons]
  exact congrFun (run fun _ => []) i

/-! ### What the items are -/

/-- The items that are due for the diagnostics added: each finding once, as it was first reported; by rank, and in the
order of arrival where ranks are equal. -/
structure Canonical (added items : List Diagnostic) : Prop where
  first : ∀ d ∈ added, ∃ e, added.find? (fun e => e.finding == d.finding) = some e ∧
    items.filter (fun e => e.finding == d.finding) = [e]
  only : ∀ d ∈ items, d ∈ added
  sorted : items.Pairwise fun d e =>
    d.rank < e.rank ∨ d.rank = e.rank ∧ added.idxOf d < added.idxOf e

theorem keys_fresh_nodup (ds : List Diagnostic) : (addAll {} ds).keys.Nodup := Grows.nodup ⟨ds, rfl⟩ List.nodup_nil

theorem mem_of_mem_items (member : d ∈ (addAll {} ds).items) : d ∈ ds :=
  (mem_of_addAll ((items_perm _).mem_iff.mp member)).resolve_left List.not_mem_nil

theorem filter_items (member : d ∈ ds) : ∃ e, ds.find? (fun e => e.key == d.key) = some e ∧
    (addAll {} ds).items.filter (fun e => e.key == d.key) = [e] := by
  obtain ⟨e, found⟩ : ∃ e, ds.find? (fun e => e.key == d.key) = some e := by
    rw [← Option.isSome_iff_exists, List.find?_isSome]
    exact ⟨d, member, beq_self_eq_true _⟩
  refine ⟨e, found, List.perm_singleton.mp ?_⟩
  have held := filter_contents ds d.key
  rw [found, Option.toList_some] at held
  exact held ▸ (items_perm _).filter _

/-- Whatever calls fill bags with diagnostics from one file, also with what other bags hold: no finding is lost or
repeated, the first report of it is kept, and a fresh bag that is given the items of another shows the same items. -/
theorem items_canonical {file : String} (calls : List Call) (i : Nat)
    (within : ∀ d ∈ added calls i, d.span.Within file) :
    Canonical (added calls i) (filled calls i).items ∧
      (addAll {} (filled calls i).items).items = (filled calls i).items := by
  rw [filled_eq]
  refine ⟨⟨?_, fun d => mem_of_mem_items, ?_⟩, items_addAll_items (keys_fresh_nodup _)⟩
  · intro d member
    have same {es : List Diagnostic} (inside : ∀ e ∈ es, e ∈ added calls i) :
        ∀ e ∈ es, (e.finding == d.finding) = (e.key == d.key) := fun e held =>
      finding_beq (within e (inside e held)) (within d member)
    rw [List.find?_congr (same fun _ => id), List.filter_congr (same fun _ => mem_of_mem_items)]
    exact filter_items member
  · exact sort_stable (List.Nodup.of_map _ (keys_fresh_nodup _)) (contents_arrival _)

/-- A report that comes twice, a tie, a bag merged into another and a missing one. -/
theorem items_canonical_merged :
    let moved : Diagnostic := ⟨.useAfterMove, .point "src/main.tc" 7 3, "moved", [], "", "", ""⟩
    let borrowed : Diagnostic := { moved with message := "borrowed" }
    let early : Diagnostic := { moved with span := .point "src/main.tc" 2 9 }
    let calls : List Call := [.add 0 moved, .addAll 1 [borrowed, { moved with hint := "clone it" }, early],
      .merge 0 (some 1), .merge 0 none]
    (∀ d ∈ added calls 0, d.span.Within "src/main.tc") ∧
      Canonical (added calls 0) (filled calls 0).items ∧
      (addAll {} (filled calls 0).items).items = (filled calls 0).items := by
  intro moved borrowed early calls
  have log : added calls 0 = [moved, borrowed, { moved with hint := "clone it" }, early] := rfl
  have within : ∀ d ∈ added calls 0, d.span.Within "src/main.tc" := by
    have here : moved.span.Within "src/main.tc" := ⟨by decide, rfl, rfl, rfl⟩
    have before : early.span.Within "src/main.tc" := ⟨by decide, rfl, rfl, rfl⟩
    intro d member
    rw [log] at member
    simp only [List.mem_cons, List.not_mem_nil, or_false] at member
    rcases member with rfl | rfl | rfl | rfl
    · exact here
    · exact here
    · exact here
    · exact before
  exact ⟨within, items_canonical calls 0 within⟩

end Bag

end TreeCheck
