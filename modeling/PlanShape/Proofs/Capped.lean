import Mathlib
import PlanShape.Proofs.Totals

/-!
Counters after a run of events, from any start. Every counter holds what it held before and the
total of what the events add, up to the largest count, and a key of the histogram holds what it
held before and one for every tree of its size. The order of the events leaves no trace.
-/
namespace PlanShape

/-- The size of the tree on a path. -/
def Path.size? : Path → Option Nat
  | .tree bucket => some bucket
  | .empty | .fallback _ => none

/-- The size of the tree that an event announces. -/
def Event.size? : Event → Option Nat
  | .compiled _ path => path.size?
  | .deduplicated _ _ | .treeBuilt _ => none

/-- The sizes of the trees that events announce, in order. -/
def treeSizes (events : List Event) : List Nat := events.filterMap Event.size?

theorem treeSizes_append (es es' : List Event) :
    treeSizes (es ++ es') = treeSizes es ++ treeSizes es' :=
  List.filterMap_append

namespace Histogram

def keys (h : Histogram) : List Nat := h.entries.map (·.1)

theorem ascending_keys (h : Histogram) : h.keys.Pairwise (· < ·) :=
  List.pairwise_map.2 h.ascending

theorem mem_keys_iff {h : Histogram} {k : Nat} : k ∈ h.keys ↔ h.entries.lookup k ≠ none := by
  constructor
  · intro hk hnone
    obtain ⟨e, he, rfl⟩ := List.mem_map.1 hk
    simpa using List.lookup_eq_none_iff.1 hnone e he
  · intro hsome
    by_contra hk
    apply hsome
    rw [List.lookup_eq_none_iff]
    intro e he
    have hne : k ≠ e.1 := fun heq => hk (heq ▸ List.mem_map_of_mem he)
    exact bne_iff_ne.2 hne

theorem lookup_of_mem {es : List (Nat × Nat)} (h : es.Pairwise fun a b => a.1 < b.1)
    {e : Nat × Nat} (he : e ∈ es) : es.lookup e.1 = some e.2 := by
  induction es with
  | nil => cases he
  | cons a rest ih =>
    obtain ⟨hfirst, hrest⟩ := List.pairwise_cons.1 h
    rcases List.mem_cons.1 he with rfl | he
    · exact List.lookup_cons_self
    · have hne : e.1 ≠ a.1 := Nat.ne_of_gt (hfirst e he)
      rw [List.lookup_cons, beq_false_of_ne hne]
      exact ih hrest he

theorem count_of_mem {h : Histogram} {e : Nat × Nat} (he : e ∈ h.entries) : h.count e.1 = e.2 := by
  rw [count, lookup_of_mem h.ascending he]
  rfl

theorem Fits.count_le {h : Histogram} (hh : h.Fits) (k : Nat) : h.count k ≤ maxCount := by
  by_cases hk : k ∈ h.keys
  · obtain ⟨e, he, rfl⟩ := List.mem_map.1 hk
    rw [count_of_mem he]
    exact (hh e he).2
  · have hnone : h.entries.lookup k = none := by_contra fun hl => hk (mem_keys_iff.2 hl)
    rw [count, hnone]
    exact Nat.zero_le _

theorem entries_eq_map_keys (h : Histogram) : h.entries = h.keys.map fun k => (k, h.count k) := by
  have hentry : ∀ e ∈ h.entries, (e.1, h.count e.1) = id e := by
    intro e he
    rw [count_of_mem he]
    rfl
  rw [keys, List.map_map, Function.comp_def, List.map_congr_left hentry, List.map_id]

/-- A histogram is known by its keys and by the number of each key. -/
theorem eq_of_counts {h h' : Histogram} (hkeys : ∀ k, k ∈ h.keys ↔ k ∈ h'.keys)
    (hcounts : ∀ k, h.count k = h'.count k) : h = h' := by
  have hsame : h.keys = h'.keys := h.ascending_keys.eq_of_mem_iff h'.ascending_keys hkeys
  ext1
  rw [entries_eq_map_keys, entries_eq_map_keys, hsame]
  simp only [hcounts]

theorem mem_keys_bump {h : Histogram} {k j : Nat} : j ∈ (h.bump k).keys ↔ j = k ∨ j ∈ h.keys := by
  rw [mem_keys_iff, mem_keys_iff, bump, insert, lookup_insertEntry]
  split <;> simp [*]

end Histogram

namespace Counters

variable {c : Counters}

theorem tally_recordAll {t : Tally} (h : c.tally = t.capped) (es : List Event) :
    (c.recordAll es).tally = (t + totals es).capped := by
  induction es generalizing c t with
  | nil => exact h
  | cons e es ih =>
    rw [totals_cons, ← add_assoc]
    exact ih (tally_record_capped h e)

theorem mem_keys_record {e : Event} {k : Nat} :
    k ∈ (c.record e).buckets.keys ↔ k ∈ c.buckets.keys ∨ e.size? = some k := by
  cases e with
  | deduplicated | treeBuilt => simp [record, Event.size?]
  | compiled m path =>
    cases path with
    | empty | fallback n => simp [record, recordBucket, Event.size?, Path.size?]
    | tree bucket =>
      simp only [record, recordBucket, Event.size?, Path.size?, Histogram.mem_keys_bump,
        Option.some.injEq]
      rw [or_comm, eq_comm]

theorem mem_keys_recordAll {es : List Event} {k : Nat} :
    k ∈ (c.recordAll es).buckets.keys ↔ k ∈ c.buckets.keys ∨ k ∈ treeSizes es := by
  induction es generalizing c with
  | nil => simp [recordAll, treeSizes]
  | cons e es ih =>
    have hrest := ih (c := c.record e)
    rw [mem_keys_record, or_assoc] at hrest
    refine hrest.trans (or_congr_right ?_)
    cases hs : e.size? <;> simp [treeSizes, hs, eq_comm]

theorem count_record {e : Event} {k : Nat} (h : c.buckets.count k ≤ maxCount) :
    (c.record e).buckets.count k =
      min (c.buckets.count k + if e.size? = some k then 1 else 0) maxCount := by
  cases e with
  | deduplicated | treeBuilt => simp [record, Event.size?, h]
  | compiled m path =>
    cases path with
    | empty | fallback n => simp [record, recordBucket, Event.size?, Path.size?, h]
    | tree bucket =>
      simp only [record, recordBucket, Event.size?, Path.size?, Histogram.bump,
        Histogram.count_insert, Option.some.injEq]
      by_cases hk : k = bucket
      · rw [if_pos hk, if_pos hk.symm, hk]
        rfl
      · rw [if_neg hk, if_neg (Ne.symm hk)]
        exact (Nat.min_eq_left h).symm

theorem count_recordAll {es : List Event} {k : Nat} (h : c.buckets.count k ≤ maxCount) :
    (c.recordAll es).buckets.count k =
      min (c.buckets.count k + (treeSizes es).count k) maxCount := by
  induction es generalizing c with
  | nil => exact (Nat.min_eq_left h).symm
  | cons e es ih =>
    have hstep := count_record (e := e) h
    have hsizes : (treeSizes (e :: es)).count k =
        (if e.size? = some k then 1 else 0) + (treeSizes es).count k := by
      cases hs : e.size? <;> simp [treeSizes, hs, List.count_cons, Nat.add_comm]
    have hrest := ih (c := c.record e) (hstep ▸ Nat.min_le_right _ _)
    rw [hstep] at hrest
    rw [hsizes]
    refine hrest.trans ?_
    omega

/-- Events leave the same counters in every order. -/
theorem recordAll_perm (ht : c.tally.Fits) (hb : c.buckets.Fits) {es es' : List Event}
    (h : es.Perm es') : c.recordAll es = c.recordAll es' := by
  have hstart : c.tally = c.tally.capped := (Tally.capped_of_fits ht).symm
  have htotals : totals es = totals es' := (h.map Event.amounts).sum_eq
  have hsizes : (treeSizes es).Perm (treeSizes es') := h.filterMap Event.size?
  have htally : (c.recordAll es).tally = (c.recordAll es').tally := by
    rw [tally_recordAll hstart, tally_recordAll hstart, htotals]
  have hbuckets : (c.recordAll es).buckets = (c.recordAll es').buckets := by
    apply Histogram.eq_of_counts
    · intro k
      rw [mem_keys_recordAll, mem_keys_recordAll, hsizes.mem_iff]
    · intro k
      rw [count_recordAll (hb.count_le k), count_recordAll (hb.count_le k), hsizes.count_eq]
  exact congrArg₂ Counters.mk htally hbuckets

end Counters

end PlanShape
