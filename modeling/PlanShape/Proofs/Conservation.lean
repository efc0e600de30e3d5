import PlanShape.Proofs.Programs
import PlanShape.Proofs.Reports
import PlanShape.Proofs.Totals

/-!
What the counters of a thread agree on. Single events break the balance of the counters and whole
calls restore it: the events of a call are in balance, balance is kept when calls follow each other,
and the counters hold the totals of the calls that they have counted since the last reset.
-/
namespace PlanShape

/-- Events in balance, apart from so many trees that were joined directly. -/
structure Balance (events : List Event) (joined : Nat) : Prop where
  calls : (totals events).includedCalls + (totals events).excludedCalls =
    (totals events).emptySets + (totals events).treePaths + (totals events).fallbackPaths
  values : (totals events).valuesUnique ≤ (totals events).valuesIn
  trees : (totals events).treesBuilt = (totals events).treePaths + joined
  leaves : announced id events + joined ≤ (totals events).leavesBuilt
  exact : joined = 0 → (totals events).leavesBuilt = announced id events

namespace Balance

theorem nil : Balance [] 0 := ⟨rfl, Nat.le_refl _, rfl, Nat.le_refl _, fun _ => rfl⟩

theorem append {es es' : List Event} {j j' : Nat} (h : Balance es j) (h' : Balance es' j') :
    Balance (es ++ es') (j + j') := by
  obtain ⟨hc, hv, ht, hl, he⟩ := h
  obtain ⟨hc', hv', ht', hl', he'⟩ := h'
  constructor
  · simp only [totals_append, Tally.includedCalls_add, Tally.excludedCalls_add,
      Tally.emptySets_add, Tally.treePaths_add, Tally.fallbackPaths_add]
    omega
  · simp only [totals_append, Tally.valuesUnique_add, Tally.valuesIn_add]
    omega
  · simp only [totals_append, Tally.treesBuilt_add, Tally.treePaths_add]
    omega
  · simp only [totals_append, announced_append, Tally.leavesBuilt_add]
    omega
  · intro h0
    rw [totals_append, announced_append, Tally.leavesBuilt_add, he (by omega), he' (by omega)]

theorem deduplicated {input unique : Nat} (h : unique ≤ input) :
    Balance [.deduplicated input unique] 0 :=
  ⟨rfl, h, rfl, Nat.le_refl _, fun _ => rfl⟩

/-- A path other than a tree is one call and one path. -/
theorem compiled (m : Membership) {path : Path} (h : ∀ bucket, path ≠ .tree bucket) :
    Balance [.compiled m path] 0 := by
  cases path with
  | tree bucket => exact absurd rfl (h bucket)
  | empty | fallback => cases m <;> exact ⟨rfl, Nat.le_refl _, rfl, Nat.le_refl _, fun _ => rfl⟩

/-- A tree on a path has been built with as many leaves as it announces. -/
theorem tree (m : Membership) (bucket : Nat) :
    Balance [.treeBuilt bucket, .compiled m (.tree bucket)] 0 := by
  have hleaves : announced id [.treeBuilt bucket, .compiled m (.tree bucket)] = bucket :=
    Nat.zero_add bucket
  cases m <;> exact ⟨rfl, Nat.le_refl _, rfl, hleaves.le, fun _ => hleaves.symm⟩

/-- A tree that was joined directly has a leaf. -/
theorem joined {leaves : Nat} (h : 0 < leaves) : Balance [.treeBuilt leaves] 1 :=
  ⟨rfl, Nat.le_refl _, rfl, h, by simp⟩

end Balance

namespace Metered.Call

/-- A direct call that built a tree. -/
def joins : {ε α : Type} → Call ε α → Bool
  | _, _, .combine leaves => (Predicate.anyOf leaves).outcome.isOk
  | _, _, _ => false

end Metered.Call

theorem Filter.balance_compile {ρ κ : Type} [BEq κ] [Hashable κ] [EquivBEq κ] [LawfulHashable κ]
    (f : Filter) (m : Membership) (field : Field ρ κ) (values : List κ) :
    Balance (f.compile m field values).events 0 := by
  have hle := Balance.deduplicated (distinct_sublist values).length_le
  by_cases hnil : distinct values = []
  · rw [compile_of_nil f m field hnil]
    exact (Balance.deduplicated (Nat.zero_le _)).append (.compiled m (by simp))
  by_cases hmany : f.threshold < (distinct values).length
  · rw [compile_of_threshold_lt m field hmany]
    exact hle.append (.compiled m (by simp))
  by_cases hp : f.policy (distinct values).length < (distinct values).length
  · rw [compile_of_undersized m field hnil (Nat.not_lt.1 hmany) hp]
    exact hle
  · obtain ⟨p, hc⟩ := compile_of_tree m field hnil (Nat.not_lt.1 hmany) (Nat.not_lt.1 hp)
    rw [hc]
    exact hle.append (.tree m _)

theorem Predicate.balance_anyOf {ρ κ : Type} (leaves : List (Predicate ρ κ)) :
    Balance (anyOf leaves).events (anyOf leaves).outcome.isOk.toNat := by
  by_cases h : leaves = []
  · subst h
    exact .nil
  · obtain ⟨t, -, ht⟩ := anyOf_of_ne_nil h
    rw [ht]
    exact .joined (List.length_pos_iff.2 h)

namespace Deed

def joins : Deed → Bool
  | call _ c => c.joins
  | reset => false

theorem balance (d : Deed) : Balance d.events d.joins.toNat := by
  cases d with
  | reset => exact .nil
  | call receiver c =>
    cases c with
    | compile f m field values => exact f.balance_compile m field values
    | combine leaves => exact Predicate.balance_anyOf leaves
    | announce values => exact .deduplicated (distinct_sublist values).length_le

theorem balance_flatMap (ds : List Deed) : Balance (ds.flatMap events) (ds.countP joins) := by
  induction ds with
  | nil => exact .nil
  | cons d ds ih =>
    have hcount : (d :: ds).countP joins = d.joins.toNat + ds.countP joins := by
      cases h : d.joins <;> simp [h, Nat.add_comm]
    rw [List.flatMap_cons, hcount]
    exact d.balance.append ih

/-- What the counters hold after one more deed, as calls. -/
def keep (kept : List Deed) : Deed → List Deed
  | call none c => kept ++ [call none c]
  | call (some _) _ => kept
  | reset => []

/-- The calls that the counters have counted since the last reset. -/
def counted (ds : List Deed) : List Deed := ds.foldl keep []

theorem foldl_count (ds : List Deed) :
    ds.foldl count .zero = Counters.zero.recordAll ((counted ds).flatMap events) := by
  induction ds using List.reverseRecOn with
  | nil => rfl
  | append_singleton ds d ih =>
    have hcounted : counted (ds ++ [d]) = keep (counted ds) d := by simp [counted]
    rw [List.foldl_append, ih, hcounted]
    cases d with
    | reset => rfl
    | call receiver c =>
      cases receiver with
      | none => simp [count, keep, Counters.recordAll, events]
      | some s => rfl

end Deed

/-- The agreement of a report with itself and with the calls that were counted: every call took one
path, every tree path is in the histogram, and every tree path built its tree. The last two hold
with equality exactly if no tree was joined directly. -/
structure Report.Conserved (r : Report) (calls : List Deed) : Prop where
  calls_eq : r.counters.tally.includedCalls + r.counters.tally.excludedCalls =
    r.counters.tally.emptySets + r.counters.tally.treePaths + r.counters.tally.fallbackPaths
  buckets_eq : (r.counters.buckets.entries.map (·.2)).sum = r.counters.tally.treePaths
  stored : ∀ e ∈ r.counters.buckets.entries, e.2 ≠ 0
  shapes_eq : r.distinctShapes = r.counters.buckets.entries.length
  shapes_le : r.distinctShapes ≤ r.counters.tally.treePaths
  values_le : r.counters.tally.valuesUnique ≤ r.counters.tally.valuesIn
  trees_le : r.counters.tally.treePaths ≤ r.counters.tally.treesBuilt
  leaves_le : (r.counters.buckets.entries.map fun e => e.1 * e.2).sum ≤
    r.counters.tally.leavesBuilt
  trees_eq_iff : r.counters.tally.treePaths = r.counters.tally.treesBuilt ↔
    ∀ d ∈ calls, d.joins = false
  leaves_eq_iff : (r.counters.buckets.entries.map fun e => e.1 * e.2).sum =
    r.counters.tally.leavesBuilt ↔ ∀ d ∈ calls, d.joins = false

/-- Counters that hold the totals of some calls agree with themselves and with the calls. -/
theorem Counters.Exact.conserved {c : Counters} {calls : List Deed}
    (h : c.Exact (calls.flatMap Deed.events)) : c.report.Conserved calls := by
  obtain ⟨htally, hweigh, hstored⟩ := h
  obtain ⟨hcalls, hvalues, htrees, hleaves, hexact⟩ := Deed.balance_flatMap calls
  rw [← htally] at hcalls hvalues htrees hleaves hexact
  rw [← hweigh id] at hleaves hexact
  have hpaths : (c.buckets.weigh fun _ => 1) = c.tally.treePaths := by
    rw [hweigh, htally, treePaths_totals]
  have hsum : (c.buckets.entries.map (·.2)).sum = c.buckets.weigh fun _ => 1 := by
    simp [Histogram.weigh]
  have hdirect : (∀ d ∈ calls, d.joins = false) ↔ calls.countP Deed.joins = 0 := by
    simp [List.countP_eq_zero]
  have htreesEq : c.tally.treePaths = c.tally.treesBuilt ↔ ∀ d ∈ calls, d.joins = false := by
    rw [hdirect]
    omega
  have hleavesEq : c.buckets.weigh id = c.tally.leavesBuilt ↔ ∀ d ∈ calls, d.joins = false := by
    rw [hdirect]
    omega
  have htreesLe : c.tally.treePaths ≤ c.tally.treesBuilt := htrees ▸ Nat.le_add_right ..
  have hleavesLe : c.buckets.weigh id ≤ c.tally.leavesBuilt := Nat.le_of_add_right_le hleaves
  exact ⟨hcalls, hsum.trans hpaths, hstored, rfl, hstored.size_le.trans_eq hpaths, hvalues,
    htreesLe, hleavesLe, htreesEq, hleavesEq⟩

/-- An observer that keeps what it is told has in the end one report for each deed: that of the
counters after the deeds so far. -/
theorem World.notes_foldl_advance (ds : List Deed) (t : Thread) :
    (ds.foldl (advance fun report seen => seen ++ [report]) ⟨t, []⟩).app =
      (List.range ds.length).map fun n =>
        ((ds.take (n + 1)).foldl Deed.count t.counters).report := by
  induction ds using List.reverseRecOn with
  | nil => rfl
  | append_singleton ds d ih =>
    let before := ds.foldl (advance fun report seen => seen ++ [report]) ⟨t, []⟩
    have hlast : ((ds ++ [d]).foldl Deed.count t.counters).report =
        (d.apply before.thread).report := by
      rw [thread_foldl_advance, List.foldl_append]
      rfl
    have hbefore : ∀ n ∈ List.range ds.length,
        ((ds.take (n + 1)).foldl Deed.count t.counters).report =
          (((ds ++ [d]).take (n + 1)).foldl Deed.count t.counters).report := by
      intro n hn
      rw [List.take_append_of_le_length (List.mem_range.1 hn)]
    rw [List.foldl_append, List.length_append, List.length_singleton, List.range_succ,
      List.map_append, List.map_singleton, ← List.map_congr_left hbefore, ← ih,
      List.take_of_length_le (by simp), hlast]
    rfl

theorem Program.reports_eq {π α : Type} (p : Program π α) {scopes : List SinkId} {t : Thread}
    (h : t.active = scopes.head?) :
    p.reports t = (List.range (p.deeds scopes).length).map fun n =>
      (((p.deeds scopes).take (n + 1)).foldl Deed.count t.counters).report := by
  have hstart : (World.mk t ([] : List Report)).thread.active = scopes.head? := h
  rw [reports, p.observed_eq _ hstart]
  exact World.notes_foldl_advance (p.deeds scopes) t

/-- A program that starts with counters at zero, inside any scopes, gives a report after every call
and every reset, inside its scopes and outside of them. Each of these reports is conserved, if the
totals since the last reset are counts. -/
theorem Program.counters_conserved {π α : Type} (p : Program π α) {scopes : List SinkId}
    {t : Thread} (h : t.active = scopes.head?) (hz : t.counters = .zero) :
    (p.reports t).length = (p.deeds scopes).length ∧
    ∀ n report, (p.reports t)[n]? = some report →
      (totals ((Deed.counted ((p.deeds scopes).take (n + 1))).flatMap Deed.events)).Fits →
      report.Conserved (Deed.counted ((p.deeds scopes).take (n + 1))) := by
  rw [p.reports_eq h, hz]
  refine ⟨by simp, ?_⟩
  intro n report hr hfits
  obtain ⟨-, rfl⟩ : n < (p.deeds scopes).length ∧
      (((p.deeds scopes).take (n + 1)).foldl Deed.count .zero).report = report := by
    simpa [List.getElem?_eq_some_iff] using hr
  rw [Deed.foldl_count]
  exact (Counters.exact_recordAll hfits).conserved

/-- One tree for a sink, one that is joined directly, and one that is compiled. -/
def Program.threeTrees : Program Unit (Except Failure (Predicate Nat Nat)) :=
  .andThen (.scope 0 (.call (.combine (List.replicate 3 (.always : Predicate Nat Nat))))) fun _ =>
  .andThen (.call (.combine (List.replicate 2 (.always : Predicate Nat Nat)))) fun _ =>
  .call (.ofNumbers ⟨4, .constant 4⟩ .included [7, 7])

theorem Program.counters_conserved_three_trees :
    Thread.fresh.active = ([] : List SinkId).head? ∧ Thread.fresh.counters = .zero ∧
    ∃ report, (threeTrees.reports .fresh)[2]? = some report ∧
      (totals ((Deed.counted ((threeTrees.deeds []).take 3)).flatMap Deed.events)).Fits ∧
      report.Conserved (Deed.counted ((threeTrees.deeds []).take 3)) := by
  have hactive : Thread.fresh.active = ([] : List SinkId).head? := rfl
  have hcounted : Deed.counted ((threeTrees.deeds []).take 3) =
      [.call none (.combine (List.replicate 2 (.always : Predicate Nat Nat))),
        .call none (.ofNumbers ⟨4, .constant 4⟩ .included [7, 7])] := rfl
  have hd : distinct [7, 7] = [7] := by simp [distinct, distinctFrom]
  have hone : (distinct [7, 7]).length = 1 := by rw [hd]; rfl
  have hfew : (distinct [7, 7]).length ≤ (⟨4, .constant 4⟩ : Filter).threshold := by simp [hone]
  have hheld : (distinct [7, 7]).length ≤
      (⟨4, .constant 4⟩ : Filter).policy (distinct [7, 7]).length := by
    simp [hone, SizePolicy.constant]
  have hcompile : (Metered.Call.ofNumbers ⟨4, .constant 4⟩ .included [7, 7]).traced.events =
      [.deduplicated 2 1, .treeBuilt 4, .compiled .included (.tree 4)] := by
    obtain ⟨p, hp⟩ := Filter.compile_of_tree .included (⟨"k", id⟩ : Field Nat Nat)
      (List.ne_nil_of_length_pos (by omega)) hfew hheld
    rw [Metered.Call.ofNumbers, Metered.Call.traced, hp, hone]
    rfl
  have hevents : (Deed.counted ((threeTrees.deeds []).take 3)).flatMap Deed.events =
      [.treeBuilt 2, .deduplicated 2 1, .treeBuilt 4, .compiled .included (.tree 4)] := by
    rw [hcounted]
    simp [Deed.events, Metered.Call.events_combine, hcompile]
  have hfits :
      (totals ((Deed.counted ((threeTrees.deeds []).take 3)).flatMap Deed.events)).Fits := by
    rw [hevents, Tally.fits_iff]
    decide
  obtain ⟨hlength, hconserved⟩ := threeTrees.counters_conserved hactive rfl
  have hthree : 2 < (threeTrees.reports .fresh).length := by
    rw [hlength]
    decide
  have hreport := List.getElem?_eq_getElem hthree
  exact ⟨hactive, rfl, _, hreport, hfits, hconserved 2 _ hreport hfits⟩

end PlanShape
