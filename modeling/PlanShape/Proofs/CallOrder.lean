import Mathlib
import PlanShape.Proofs.Capped
import PlanShape.Proofs.Reports
import PlanShape.Proofs.Scoping

/-!
Calls in any order. What a call adds to the counters depends on the call alone: the counts of its
candidates, and if it succeeds its kind and its path. The counters after calls that follow each
other hold the sums of what the calls add, up to the largest count, and a sum does not depend on
the order of the calls.
-/
namespace PlanShape

variable {ρ κ : Type}

/-- What is announced on a path. -/
def Path.events (m : Membership) : Path → List Event
  | .empty => [.compiled m .empty]
  | .tree bucket => [.treeBuilt bucket, .compiled m (.tree bucket)]
  | .fallback n => [.compiled m (.fallback n)]

namespace Filter

section
variable [BEq κ] [Hashable κ] [EquivBEq κ] [LawfulHashable κ]

/-- The path on which a call succeeds, if it does. -/
def pathTaken? (f : Filter) (m : Membership) (field : Field ρ κ) (values : List κ) : Option Path :=
  (f.compile m field values).outcome.toOption.map fun _ => f.path (distinct values).length

theorem events_compile (f : Filter) (m : Membership) (field : Field ρ κ) (values : List κ) :
    (f.compile m field values).events =
      .deduplicated values.length (distinct values).length ::
        (f.pathTaken? m field values).toList.flatMap (Path.events m) := by
  by_cases hnil : distinct values = []
  · simp [pathTaken?, compile_of_nil f m field hnil, hnil, path_zero, Path.events, Except.toOption]
  by_cases hmany : f.threshold < (distinct values).length
  · simp [pathTaken?, compile_of_threshold_lt m field hmany, path_of_lt hmany, Path.events,
      Except.toOption]
  have hfew := Nat.not_lt.1 hmany
  by_cases hp : f.policy (distinct values).length < (distinct values).length
  · simp [pathTaken?, compile_of_undersized m field hnil hfew hp, Except.toOption]
  · obtain ⟨p, hc⟩ := compile_of_tree m field hnil hfew (Nat.not_lt.1 hp)
    have hpath := path_of_le (List.length_pos_iff.2 hnil) hfew
    simp [pathTaken?, hc, hpath, Path.events, Except.toOption]

end

end Filter

/-- What the counts of candidates add. -/
def Tally.ofCandidates (input unique : Nat) : Tally :=
  { Tally.zero with valuesIn := input, valuesUnique := unique }

/-- What a tree adds. -/
def Tally.ofTree (leaves : Nat) : Tally :=
  { Tally.zero with treesBuilt := 1, leavesBuilt := leaves }

/-- What a successful call of a kind adds. -/
def Membership.contribution : Membership → Tally
  | .included => { Tally.zero with includedCalls := 1 }
  | .excluded => { Tally.zero with excludedCalls := 1 }

/-- What a successful call on a path adds. -/
def Path.contribution : Path → Tally
  | .empty => { Tally.zero with emptySets := 1 }
  | .tree bucket => { Tally.ofTree bucket with treePaths := 1 }
  | .fallback _ => { Tally.zero with fallbackPaths := 1 }

theorem Path.totals_events (m : Membership) (path : Path) :
    totals (path.events m) = m.contribution + path.contribution := by
  cases path with
  | empty | fallback n => cases m <;> rfl
  | tree bucket =>
    have hleaves := (Nat.zero_add bucket).symm
    cases m <;> exact Tally.ext rfl rfl rfl rfl rfl rfl rfl rfl hleaves

namespace Metered

namespace Call

/-- The path on which a call succeeds, if it compiles and does. -/
def path? : {ε α : Type} → Call ε α → Option Path
  | _, _, @compile _ _ _ _ _ _ f m field values => f.pathTaken? m field values
  | _, _, .combine _ | _, _, @announce _ _ _ _ _ _ => none

/-- What a call adds to the counters. One that fails over its padding has counted its candidates,
and a direct call without leaves adds nothing. -/
def contribution : {ε α : Type} → Call ε α → Tally
  | _, _, @compile _ _ _ _ _ _ f m field values =>
    .ofCandidates values.length (distinct values).length +
      match f.pathTaken? m field values with
      | some path => m.contribution + path.contribution
      | none => 0
  | _, _, .combine leaves => if leaves = [] then 0 else .ofTree leaves.length
  | _, _, @announce _ _ _ _ _ values => .ofCandidates values.length (distinct values).length

variable {ε α : Type}

theorem totals_events (c : Call ε α) : totals c.traced.events = c.contribution := by
  cases c with
  | compile f m field values =>
    rw [traced, f.events_compile, totals_cons, contribution]
    cases f.pathTaken? m field values with
    | none => rfl
    | some path =>
      simp only [Option.toList_some, List.flatMap_singleton, path.totals_events m]
      rfl
  | combine leaves =>
    by_cases h : leaves = []
    · subst h
      rfl
    · rw [events_combine h, contribution, if_neg h]
      rfl
  | announce values => rfl

theorem treeSizes_events (c : Call ε α) :
    treeSizes c.traced.events = (c.path?.bind Path.size?).toList := by
  cases c with
  | compile f m field values =>
    rw [traced, f.events_compile, path?]
    cases f.pathTaken? m field values with
    | none => rfl
    | some path => cases path <;> rfl
  | combine leaves =>
    by_cases h : leaves = []
    · subst h
      rfl
    · rw [events_combine h]
      rfl
  | announce values => rfl

end Call

end Metered

/-- A call, whatever it returns. -/
structure AnyCall : Type 1 where
  {ε α : Type}
  call : Metered.Call ε α

namespace AnyCall

def events (c : AnyCall) : List Event := c.call.traced.events

def contribution (c : AnyCall) : Tally := c.call.contribution

/-- The call took the path of a tree with so many leaves. -/
def Grows (k : Nat) (c : AnyCall) : Prop := c.call.path? = some (.tree k)

instance (k : Nat) (c : AnyCall) : Decidable (c.Grows k) :=
  inferInstanceAs (Decidable (c.call.path? = some (.tree k)))

theorem totals_flatMap_events (cs : List AnyCall) :
    totals (cs.flatMap events) = (cs.map contribution).sum := by
  induction cs with
  | nil => rfl
  | cons c cs ih =>
    rw [List.flatMap_cons, totals_append, ih, List.map_cons, List.sum_cons]
    exact congrArg (· + _) c.call.totals_events

theorem count_treeSizes_events (c : AnyCall) (k : Nat) :
    (treeSizes c.events).count k = if c.Grows k then 1 else 0 := by
  have hgrows : c.Grows k ↔ c.call.path? = some (.tree k) := Iff.rfl
  rw [events, Metered.Call.treeSizes_events]
  simp only [hgrows]
  cases c.call.path? with
  | none => rfl
  | some path =>
    cases path with
    | empty | fallback n => rfl
    | tree bucket => simp [Path.size?, List.count_singleton]

theorem count_treeSizes (cs : List AnyCall) (k : Nat) :
    (treeSizes (cs.flatMap events)).count k = cs.countP fun c => c.Grows k := by
  induction cs with
  | nil => rfl
  | cons c cs ih =>
    rw [List.flatMap_cons, treeSizes_append, List.count_append, ih, count_treeSizes_events,
      List.countP_cons, Nat.add_comm]
    simp only [decide_eq_true_eq]

theorem mem_treeSizes {cs : List AnyCall} {k : Nat} :
    k ∈ treeSizes (cs.flatMap events) ↔ ∃ c ∈ cs, c.Grows k := by
  rw [← List.count_pos_iff, count_treeSizes, List.countP_pos_iff]
  simp

end AnyCall

variable {π σ : Type}

/-- Make calls one after the other, whatever they return. -/
def Program.inTurn : List AnyCall → Program π Unit
  | [] => .done ()
  | c :: cs => .andThen (.call c.call) fun _ => inTurn cs

theorem Program.counters_inTurn {cs : List AnyCall} {w : World σ} (h : w.thread.active = none) :
    ((inTurn cs : Program π Unit).run w).2.thread.counters =
      w.thread.counters.recordAll (cs.flatMap AnyCall.events) := by
  have hdeeds : (inTurn cs : Program π Unit).deeds [] =
      cs.map fun c => Deed.call none c.call := by
    induction cs with
    | nil => rfl
    | cons c cs ih => simp [inTurn, deeds, outcome, ih]
  have hactive : w.thread.active = ([] : List SinkId).head? := h
  rw [run_eq _ hactive, hdeeds, World.thread_foldl_advance, List.foldl_map]
  exact List.foldl_flatMap.symm

/-- Calls are made one after the other while no sink is active, from any counters that have not
gone beyond the largest count. The report at the end is the same in every order of the calls. Each
counter holds what it held and what the calls add, and each key what it held and one for every call
that took the path of a tree of its size, up to the largest count. There are no other keys. -/
theorem Program.counters_forget_order {cs ds : List AnyCall} (h : cs.Perm ds) {w : World σ}
    (hnone : w.thread.active = none) (ht : w.thread.counters.tally.Fits)
    (hb : w.thread.counters.buckets.Fits) :
    ∃ report : Report,
      ((inTurn cs : Program π Unit).run w).2.thread.report = report ∧
      ((inTurn ds : Program π Unit).run w).2.thread.report = report ∧
      report.counters.tally =
        (w.thread.counters.tally + (cs.map AnyCall.contribution).sum).capped ∧
      (∀ k, report.counters.buckets.count k =
        min (w.thread.counters.buckets.count k + cs.countP fun c => c.Grows k) maxCount) ∧
      (∀ k, k ∈ report.counters.buckets.keys ↔
        k ∈ w.thread.counters.buckets.keys ∨ ∃ c ∈ cs, c.Grows k) ∧
      report.distinctShapes = report.counters.buckets.keys.length := by
  have hstart : w.thread.counters.tally = w.thread.counters.tally.capped :=
    (Tally.capped_of_fits ht).symm
  have hevents : (ds.flatMap AnyCall.events).Perm (cs.flatMap AnyCall.events) :=
    (h.flatMap_right AnyCall.events).symm
  refine ⟨(w.thread.counters.recordAll (cs.flatMap AnyCall.events)).report, ?_, ?_, ?_, ?_, ?_, ?_⟩
  · rw [Thread.report, counters_inTurn hnone]
  · rw [Thread.report, counters_inTurn hnone, Counters.recordAll_perm ht hb hevents]
  · rw [Counters.report, Counters.tally_recordAll hstart, AnyCall.totals_flatMap_events]
  · intro k
    rw [Counters.report, Counters.count_recordAll (hb.count_le k), AnyCall.count_treeSizes]
  · intro k
    rw [Counters.report, Counters.mem_keys_recordAll, AnyCall.mem_treeSizes]
  · rw [Counters.report, Histogram.keys, List.length_map]
    rfl

/-- A tree of four leaves for one value, which is given twice. -/
def AnyCall.fourLeaves : AnyCall := ⟨.ofNumbers ⟨4, .constant 4⟩ .included [7, 7]⟩

/-- A direct call with two leaves. -/
def AnyCall.twoLeaves : AnyCall := ⟨.combine (List.replicate 2 (.always : Predicate Nat Nat))⟩

/-- A size of one for two values. -/
def AnyCall.undersized : AnyCall := ⟨.ofNumbers ⟨2, .half⟩ .excluded [3, 1, 3]⟩

theorem AnyCall.path?_fourLeaves : fourLeaves.call.path? = some (.tree 4) := by
  have hone : distinct [7, 7] = [7] := by simp [distinct, distinctFrom]
  simp only [fourLeaves, Metered.Call.ofNumbers, Metered.Call.path?, Filter.pathTaken?,
    Filter.compile, Candidates.ofList, hone]
  cbv

theorem AnyCall.path?_undersized : undersized.call.path? = none := by
  have htwo : distinct [3, 1, 3] = [3, 1] := by simp [distinct, distinctFrom]
  rw [undersized, Metered.Call.ofNumbers, Metered.Call.path?, Filter.pathTaken?,
    Filter.compile_of_undersized]
  · rfl
  all_goals simp [htwo, SizePolicy.half]

/-- A counter at the end, and a key that has been counted twice. -/
def World.nearEnd : World Unit where
  thread :=
    { Thread.fresh with
      counters :=
        ⟨{ Tally.zero with valuesIn := maxCount, treePaths := 2 }, Histogram.empty.insert 4 2⟩ }
  app := ()

theorem Program.counters_forget_order_near_end :
    ([.fourLeaves, .twoLeaves, .undersized] : List AnyCall).Perm
      [.undersized, .fourLeaves, .twoLeaves] ∧
    World.nearEnd.thread.active = none ∧ World.nearEnd.thread.counters.tally.Fits ∧
    World.nearEnd.thread.counters.buckets.Fits ∧
    ∃ report : Report,
      ((inTurn [.fourLeaves, .twoLeaves, .undersized] : Program Unit Unit).run
        .nearEnd).2.thread.report = report ∧
      ((inTurn [.undersized, .fourLeaves, .twoLeaves] : Program Unit Unit).run
        .nearEnd).2.thread.report = report ∧
      report.counters.tally = ⟨1, 0, 0, 3, 0, maxCount, 3, 2, 6⟩ ∧
      report.counters.buckets.count 4 = 3 := by
  have hperm : ([.fourLeaves, .twoLeaves, .undersized] : List AnyCall).Perm
      [.undersized, .fourLeaves, .twoLeaves] :=
    List.perm_append_singleton AnyCall.undersized [AnyCall.fourLeaves, AnyCall.twoLeaves]
  have htally : World.nearEnd.thread.counters.tally.Fits := by
    rw [Tally.fits_iff]
    decide
  have hbuckets : World.nearEnd.thread.counters.buckets.Fits := by
    unfold Histogram.Fits
    decide
  have hone : distinct [7, 7] = [7] := by simp [distinct, distinctFrom]
  have htwo : distinct [3, 1, 3] = [3, 1] := by simp [distinct, distinctFrom]
  have hfour : (⟨4, .constant 4⟩ : Filter).pathTaken? .included (⟨"k", id⟩ : Field Nat Nat) [7, 7] =
      some (.tree 4) := AnyCall.path?_fourLeaves
  have hnone : (⟨2, .half⟩ : Filter).pathTaken? .excluded (⟨"k", id⟩ : Field Nat Nat) [3, 1, 3] =
      none := AnyCall.path?_undersized
  have hsum : (([.fourLeaves, .twoLeaves, .undersized] : List AnyCall).map
      AnyCall.contribution).sum = ⟨1, 0, 0, 1, 0, 5, 3, 2, 6⟩ := by
    simp only [List.map_cons, List.map_nil, AnyCall.contribution, AnyCall.fourLeaves,
      AnyCall.twoLeaves, AnyCall.undersized, Metered.Call.ofNumbers, Metered.Call.contribution,
      hfour, hnone, hone, htwo]
    decide
  have hgrown : ([.fourLeaves, .twoLeaves, .undersized] : List AnyCall).countP
      (fun c => c.Grows 4) = 1 := by
    have hdirect : AnyCall.twoLeaves.call.path? = none := rfl
    simp only [List.countP_cons, List.countP_nil, AnyCall.Grows, AnyCall.path?_fourLeaves,
      AnyCall.path?_undersized, hdirect]
    decide
  obtain ⟨report, hcs, hds, hcounters, hcount, -, -⟩ :=
    counters_forget_order (π := Unit) hperm rfl htally hbuckets
  refine ⟨hperm, rfl, htally, hbuckets, report, hcs, hds, ?_, ?_⟩
  · rw [hcounters, hsum]
    decide
  · rw [hcount, hgrown]
    decide

end PlanShape
