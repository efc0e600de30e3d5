import Mathlib
import PlanShape.Metrics.Document

/-!
Counters as totals. Counting stops at the largest count; as long as no total goes beyond it, every
counter holds the sum of what the events add to it, and the histogram holds one for every tree that
was announced at its size.
-/
namespace PlanShape

attribute [ext] Tally

namespace Tally

instance : Zero Tally := ⟨.zero⟩

instance : Add Tally where
  add a b :=
    { includedCalls := a.includedCalls + b.includedCalls
      excludedCalls := a.excludedCalls + b.excludedCalls
      emptySets := a.emptySets + b.emptySets
      treePaths := a.treePaths + b.treePaths
      fallbackPaths := a.fallbackPaths + b.fallbackPaths
      valuesIn := a.valuesIn + b.valuesIn
      valuesUnique := a.valuesUnique + b.valuesUnique
      treesBuilt := a.treesBuilt + b.treesBuilt
      leavesBuilt := a.leavesBuilt + b.leavesBuilt }

section
variable (a b : Tally)

@[simp] theorem includedCalls_add : (a + b).includedCalls = a.includedCalls + b.includedCalls := rfl
@[simp] theorem excludedCalls_add : (a + b).excludedCalls = a.excludedCalls + b.excludedCalls := rfl
@[simp] theorem emptySets_add : (a + b).emptySets = a.emptySets + b.emptySets := rfl
@[simp] theorem treePaths_add : (a + b).treePaths = a.treePaths + b.treePaths := rfl
@[simp] theorem fallbackPaths_add : (a + b).fallbackPaths = a.fallbackPaths + b.fallbackPaths := rfl
@[simp] theorem valuesIn_add : (a + b).valuesIn = a.valuesIn + b.valuesIn := rfl
@[simp] theorem valuesUnique_add : (a + b).valuesUnique = a.valuesUnique + b.valuesUnique := rfl
@[simp] theorem treesBuilt_add : (a + b).treesBuilt = a.treesBuilt + b.treesBuilt := rfl
@[simp] theorem leavesBuilt_add : (a + b).leavesBuilt = a.leavesBuilt + b.leavesBuilt := rfl

end

instance : AddCommMonoid Tally where
  add_assoc a b c := by ext <;> exact Nat.add_assoc ..
  zero_add a := by ext <;> exact Nat.zero_add _
  add_zero a := rfl
  add_comm a b := by ext <;> exact Nat.add_comm ..
  nsmul := nsmulRec

/-- No total is beyond the largest count. -/
def Fits (t : Tally) : Prop := ∀ n ∈ t.toCounts, n ≤ maxCount

theorem fits_iff {t : Tally} :
    t.Fits ↔ (t.includedCalls ≤ maxCount ∧ t.excludedCalls ≤ maxCount) ∧
      (t.emptySets ≤ maxCount ∧ t.treePaths ≤ maxCount ∧ t.fallbackPaths ≤ maxCount) ∧
      (t.valuesIn ≤ maxCount ∧ t.valuesUnique ≤ maxCount) ∧
      t.treesBuilt ≤ maxCount ∧ t.leavesBuilt ≤ maxCount := by
  simp [Fits, toCounts, and_assoc]

theorem Fits.left {a b : Tally} (h : (a + b).Fits) : a.Fits := by
  simp only [fits_iff, includedCalls_add, excludedCalls_add, emptySets_add, treePaths_add,
    fallbackPaths_add, valuesIn_add, valuesUnique_add, treesBuilt_add, leavesBuilt_add] at h ⊢
  omega

end Tally

/-- What an event adds to the counters. -/
def Event.amounts : Event → Tally
  | .deduplicated input unique => { Tally.zero with valuesIn := input, valuesUnique := unique }
  | .treeBuilt leaves => { Tally.zero with treesBuilt := 1, leavesBuilt := leaves }
  | .compiled m path =>
    { Tally.zero with
      includedCalls := if m = .included then 1 else 0
      excludedCalls := if m = .excluded then 1 else 0
      emptySets := match path with
        | .empty => 1
        | .tree _ | .fallback _ => 0
      treePaths := match path with
        | .tree _ => 1
        | .empty | .fallback _ => 0
      fallbackPaths := match path with
        | .fallback _ => 1
        | .empty | .tree _ => 0 }

/-- The sums of what events add, without an upper end. -/
def totals (events : List Event) : Tally := (events.map Event.amounts).sum

@[simp] theorem totals_nil : totals [] = 0 := rfl

@[simp] theorem totals_cons (e : Event) (es : List Event) :
    totals (e :: es) = e.amounts + totals es := rfl

theorem totals_append (es es' : List Event) : totals (es ++ es') = totals es + totals es' := by
  simp [totals]

theorem addCapped_of_le {a b : Nat} (h : a + b ≤ maxCount) : addCapped a b = a + b :=
  Nat.min_eq_left h

/-- What has been cut off once would be cut off later. -/
theorem addCapped_min (a b : Nat) : addCapped (min a maxCount) b = min (a + b) maxCount := by
  unfold addCapped
  omega

namespace Tally

/-- Every total, or the largest count in its place. -/
def capped (t : Tally) : Tally where
  includedCalls := min t.includedCalls maxCount
  excludedCalls := min t.excludedCalls maxCount
  emptySets := min t.emptySets maxCount
  treePaths := min t.treePaths maxCount
  fallbackPaths := min t.fallbackPaths maxCount
  valuesIn := min t.valuesIn maxCount
  valuesUnique := min t.valuesUnique maxCount
  treesBuilt := min t.treesBuilt maxCount
  leavesBuilt := min t.leavesBuilt maxCount

theorem capped_of_fits {t : Tally} (h : t.Fits) : t.capped = t := by
  obtain ⟨⟨hin, hex⟩, ⟨hempty, htree, hfallback⟩, ⟨hvalues, hunique⟩, htrees, hleaves⟩ :=
    fits_iff.1 h
  ext <;> exact Nat.min_eq_left (by assumption)

end Tally

namespace Counters

/-- Counters that hold totals, as far as they can, hold them after one more event. -/
theorem tally_record_capped {c : Counters} {t : Tally} (h : c.tally = t.capped) (e : Event) :
    (c.record e).tally = (t + e.amounts).capped := by
  obtain ⟨tally, buckets⟩ := c
  obtain rfl : tally = t.capped := h
  cases e with
  | deduplicated input unique =>
    exact Tally.ext rfl rfl rfl rfl rfl (addCapped_min _ _) (addCapped_min _ _) rfl rfl
  | treeBuilt leaves =>
    exact Tally.ext rfl rfl rfl rfl rfl rfl rfl (addCapped_min _ _) (addCapped_min _ _)
  | compiled m path =>
    cases m with
    | included =>
      have hcall := addCapped_min t.includedCalls 1
      cases path with
      | empty => exact Tally.ext hcall rfl (addCapped_min _ _) rfl rfl rfl rfl rfl rfl
      | tree bucket => exact Tally.ext hcall rfl rfl (addCapped_min _ _) rfl rfl rfl rfl rfl
      | fallback n => exact Tally.ext hcall rfl rfl rfl (addCapped_min _ _) rfl rfl rfl rfl
    | excluded =>
      have hcall := addCapped_min t.excludedCalls 1
      cases path with
      | empty => exact Tally.ext rfl hcall (addCapped_min _ _) rfl rfl rfl rfl rfl rfl
      | tree bucket => exact Tally.ext rfl hcall rfl (addCapped_min _ _) rfl rfl rfl rfl rfl
      | fallback n => exact Tally.ext rfl hcall rfl rfl (addCapped_min _ _) rfl rfl rfl rfl

/-- A counter that does not reach the end counts exactly. -/
theorem tally_record {c : Counters} {e : Event} (h : (c.tally + e.amounts).Fits) :
    (c.record e).tally = c.tally + e.amounts := by
  have hstart : c.tally = c.tally.capped := (Tally.capped_of_fits h.left).symm
  exact (tally_record_capped hstart e).trans (Tally.capped_of_fits h)

end Counters

namespace Histogram

/-- No key and no number is beyond the largest count. -/
def Fits (h : Histogram) : Prop := ∀ e ∈ h.entries, e.1 ≤ maxCount ∧ e.2 ≤ maxCount

/-- The sum over all entries of their number times a weight of their key. -/
def weigh (g : Nat → Nat) (h : Histogram) : Nat := (h.entries.map fun e => g e.1 * e.2).sum

theorem lookup_eq_none_of_lt {k : Nat} {es : List (Nat × Nat)} (h : ∀ e ∈ es, k < e.1) :
    es.lookup k = none := by
  rw [List.lookup_eq_none_iff]
  intro e he
  have := h e he
  simp
  omega

theorem sum_insertEntry (g : Nat → Nat) (k v : Nat) {es : List (Nat × Nat)}
    (h : es.Pairwise fun a b => a.1 < b.1) :
    ((insertEntry k v es).map fun e => g e.1 * e.2).sum + g k * (es.lookup k).getD 0 =
      (es.map fun e => g e.1 * e.2).sum + g k * v := by
  induction es with
  | nil => simp [insertEntry]
  | cons a rest ih =>
    obtain ⟨k', v'⟩ := a
    obtain ⟨hfirst, hrest⟩ := List.pairwise_cons.1 h
    simp only [insertEntry]
    split
    · next hlt =>
      have hnew : ((k', v') :: rest).lookup k = none := by
        apply lookup_eq_none_of_lt
        intro e he
        rcases List.mem_cons.1 he with rfl | he
        · exact hlt
        · exact Nat.lt_trans hlt (hfirst e he)
      simp [hnew]
      omega
    · next hle =>
      split
      · next heq =>
        subst heq
        simp
        omega
      · next hne =>
        have hskip : ((k', v') :: rest).lookup k = rest.lookup k := by
          rw [List.lookup_cons, beq_false_of_ne hne]
        have hsum := ih hrest
        simp only [List.map_cons, List.sum_cons, hskip]
        omega

theorem weigh_insert (g : Nat → Nat) (h : Histogram) (k v : Nat) :
    (h.insert k v).weigh g + g k * h.count k = h.weigh g + g k * v :=
  sum_insertEntry g k v h.ascending

theorem count_le_weigh (h : Histogram) (k : Nat) : h.count k ≤ h.weigh fun _ => 1 := by
  have := h.weigh_insert (fun _ => 1) k 0
  omega

theorem weigh_bump (g : Nat → Nat) {h : Histogram} {k : Nat} (hk : h.count k + 1 ≤ maxCount) :
    (h.bump k).weigh g = h.weigh g + g k := by
  have hi := h.weigh_insert g k (h.count k + 1)
  rw [bump, addCapped_of_le hk]
  rw [Nat.mul_add, Nat.mul_one] at hi
  omega

/-- A key stands in the histogram only if it has been counted. -/
def Stored (h : Histogram) : Prop := ∀ e ∈ h.entries, e.2 ≠ 0

theorem Stored.bump {h : Histogram} (hs : h.Stored) (k : Nat) : (h.bump k).Stored := by
  intro e he
  rcases mem_insertEntry he with rfl | he
  · simp [addCapped, maxCount]
  · exact hs e he

theorem Stored.size_le {h : Histogram} (hs : h.Stored) : h.size ≤ h.weigh fun _ => 1 := by
  simp only [weigh, Nat.one_mul, size]
  have hone : ∀ n ∈ h.entries.map (·.2), 1 ≤ n := by
    intro n hn
    obtain ⟨e, he, rfl⟩ := List.mem_map.1 hn
    exact Nat.one_le_iff_ne_zero.2 (hs e he)
  have := List.length_le_sum_of_one_le _ hone
  rwa [List.length_map] at this

end Histogram

/-- The weight of the size of a tree, if the event announces one. -/
def Event.announced (g : Nat → Nat) : Event → Nat
  | .compiled _ (.tree bucket) => g bucket
  | .compiled _ .empty | .compiled _ (.fallback _) | .deduplicated _ _ | .treeBuilt _ => 0

/-- The weights of all sizes of trees that events announce. -/
def announced (g : Nat → Nat) (events : List Event) : Nat := (events.map (Event.announced g)).sum

@[simp] theorem announced_nil (g : Nat → Nat) : announced g [] = 0 := rfl

@[simp] theorem announced_cons (g : Nat → Nat) (e : Event) (es : List Event) :
    announced g (e :: es) = e.announced g + announced g es := rfl

theorem announced_append (g : Nat → Nat) (es es' : List Event) :
    announced g (es ++ es') = announced g es + announced g es' := by
  simp [announced]

/-- A tree is announced by its path. -/
theorem treePaths_totals (es : List Event) : (totals es).treePaths = announced (fun _ => 1) es := by
  induction es with
  | nil => rfl
  | cons e es ih =>
    rw [totals_cons, Tally.treePaths_add, ih, announced_cons]
    congr 1
    cases e with
    | deduplicated | treeBuilt => rfl
    | compiled m path => cases path <;> rfl

namespace Counters

/-- The counters hold the totals of the events. -/
structure Exact (c : Counters) (events : List Event) : Prop where
  tally : c.tally = totals events
  weigh : ∀ g, c.buckets.weigh g = announced g events
  stored : c.buckets.Stored

theorem Exact.weigh_recordBucket {c : Counters} {es : List Event} (h : c.Exact es) {m : Membership}
    {path : Path} (hfits : (totals (es ++ [.compiled m path])).Fits) (g : Nat → Nat) :
    (recordBucket path c.buckets).weigh g =
      announced g es + (Event.compiled m path).announced g := by
  cases path with
  | empty | fallback n => exact h.weigh g
  | tree bucket =>
    have hcount : c.buckets.count bucket ≤ announced (fun _ => 1) es :=
      (c.buckets.count_le_weigh bucket).trans_eq (h.weigh _)
    have htrees := (Tally.fits_iff.1 hfits).2.1.2.1
    rw [treePaths_totals, announced_append] at htrees
    simp only [announced_cons, announced_nil, Event.announced] at htrees
    rw [recordBucket, Histogram.weigh_bump g (by omega), h.weigh g]
    rfl

theorem Exact.record {c : Counters} {es : List Event} {e : Event} (h : c.Exact es)
    (hfits : (totals (es ++ [e])).Fits) : (c.record e).Exact (es ++ [e]) := by
  have htally : (c.record e).tally = totals (es ++ [e]) := by
    rw [totals_append, totals_cons, totals_nil, add_zero] at hfits ⊢
    rw [← h.tally] at hfits ⊢
    exact tally_record hfits
  refine ⟨htally, ?_, ?_⟩
  · intro g
    rw [announced_append]
    cases e with
    | deduplicated | treeBuilt => exact h.weigh g
    | compiled m path => exact h.weigh_recordBucket hfits g
  · cases e with
    | deduplicated | treeBuilt => exact h.stored
    | compiled m path =>
      cases path with
      | empty | fallback => exact h.stored
      | tree bucket => exact h.stored.bump bucket

/-- Up to the largest count nothing is lost. -/
theorem exact_recordAll {es : List Event} (hfits : (totals es).Fits) :
    (zero.recordAll es).Exact es := by
  induction es using List.reverseRecOn with
  | nil => exact ⟨rfl, fun g => rfl, by simp [recordAll, zero, Histogram.empty, Histogram.Stored]⟩
  | append_singleton es e ih =>
    have hprefix : (totals es).Fits := by
      rw [totals_append] at hfits
      exact hfits.left
    rw [recordAll, List.foldl_append]
    exact (ih hprefix).record hfits

end Counters

end PlanShape
