import PlanShape.Proofs.Compile
import PlanShape.Proofs.Rounding

/-!
What compiled predicates look like. The positive form is the constant that holds nowhere, a native
list of the values, or a disjunction of equality leaves: the values in the order in which they are
first seen, then copies of the first one, on as few levels as their number allows. The negative form
is the positive one under a single negation.
-/
namespace PlanShape

/-- Disjunctions of equality leaves of one field, and nothing else. -/
inductive Predicate.AsksOnly {ρ κ : Type} (field : Field ρ κ) : Predicate ρ κ → Prop where
  | equals (v : κ) : AsksOnly field (.equals field v)
  | disj {l r : Predicate ρ κ} (left : AsksOnly field l) (right : AsksOnly field r) :
    AsksOnly field (.disj l r)

variable {ρ κ : Type}

namespace Predicate

theorem AsksOnly.literals_eq {field : Field ρ κ} {t : Predicate ρ κ} (h : t.AsksOnly field) :
    t.literals = t.equalities.map (·.2) := by
  induction h with
  | equals v => rfl
  | disj left right ihl ihr => rw [literals, ihl, ihr, equalities, List.map_append]

theorem Balanced.asksOnly {field : Field ρ κ} {ps : List (Predicate ρ κ)} {t : Predicate ρ κ}
    (h : Balanced ps t) (hp : ∀ p ∈ ps, AsksOnly field p) : AsksOnly field t := by
  induction h with
  | single p => exact hp p (List.mem_singleton_self p)
  | join left right halves ihl ihr =>
    exact .disj (ihl fun p h => hp p (List.mem_append_left _ h))
      (ihr fun p h => hp p (List.mem_append_right _ h))

/-- What a balanced disjunction over the equality leaves of some values looks like. -/
theorem Balanced.of_equals {field : Field ρ κ} {vs : List κ} {t : Predicate ρ κ}
    (h : Balanced (vs.map (.equals field)) t) :
    t.AsksOnly field ∧ t.leaves = vs.map (fun v => (field.name, v)) ∧
      t.leafCount = vs.length ∧ t.depth = Nat.clog 2 vs.length := by
  have hleaves : t.leaves = vs.map fun v => (field.name, v) := by
    rw [h.leaves_eq, List.flatMap_map, List.map_eq_flatMap]
    simp [equalities]
  have hasks : t.AsksOnly field := by
    apply h.asksOnly
    intro p hp
    obtain ⟨v, -, rfl⟩ := List.mem_map.1 hp
    exact .equals v
  have hdepth : t.depth = Nat.clog 2 (vs.map (equals field)).length + 0 := by
    apply h.depth_eq
    intro p hp
    obtain ⟨v, -, rfl⟩ := List.mem_map.1 hp
    rfl
  rw [List.length_map] at hdepth
  exact ⟨hasks, hleaves, by rw [leafCount, hleaves, List.length_map], hdepth⟩

theorem Balanced.literals_of_equals {field : Field ρ κ} {vs : List κ} {t : Predicate ρ κ}
    (h : Balanced (vs.map (.equals field)) t) : t.literals = vs := by
  obtain ⟨hasks, hleaves, -, -⟩ := h.of_equals
  rw [hasks.literals_eq, ← leaves_eq_equalities, hleaves, List.map_map]
  exact List.map_id _

end Predicate

/-- The values of a set as they stand on a path: all of them once in a native list, and in a tree
with the copies that fill them up. -/
def Candidates.literalsOn [BEq κ] (c : Candidates κ) : Path → List κ
  | .empty => []
  | .tree bucket => c.padded bucket
  | .fallback _ => c.values

namespace Filter

theorem orient_included (path : Path) (p : Predicate ρ κ) : orient .included path p = p := rfl

variable [BEq κ]

theorem Builds.literals_orient {f : Filter} {field : Field ρ κ} {c : Candidates κ} {path : Path}
    {q : Predicate ρ κ} (h : Builds f field c path q) (m : Membership) :
    (orient m path q).literals = c.literalsOn path := by
  cases h with
  | empty nil | fallback many => cases m <;> rfl
  | tree nonempty few held joined => cases m <;> exact joined.literals_of_equals

theorem orient_excluded {f : Filter} {field : Field ρ κ} {c : Candidates κ} {path : Path}
    {q : Predicate ρ κ} (h : Builds f field c path q) :
    orient .excluded path q = if c.values = [] then .always else .neg q := by
  cases h with
  | empty nil => rw [if_pos nil]; rfl
  | fallback many =>
    have hne : c.values ≠ [] := by
      intro hnil
      simp [Candidates.size, hnil] at many
    rw [if_neg hne]
    rfl
  | tree nonempty few held joined => rw [if_neg nonempty]; rfl

section
variable [Hashable κ] [EquivBEq κ] [LawfulHashable κ]

/-- The negative form is made of the positive one, and fails with it. -/
theorem outcome_excluded (f : Filter) (field : Field ρ κ) (values : List κ) :
    (f.compile .excluded field values).outcome =
      (f.compile .included field values).outcome.map fun q =>
        if distinct values = [] then .always else .neg q := by
  obtain ⟨path, q, events, lines, hb, hs, -⟩ | ⟨-, -, -, hs⟩ :=
    select_cases f field (.ofList values)
  · rw [compile_of_select_ok .excluded hs, compile_of_select_ok .included hs, orient_included,
      orient_excluded hb]
    rfl
  · rw [compile_of_select_error .excluded hs, compile_of_select_error .included hs]
    rfl

/-- Let `u` be the values at their first places. For no value the positive form is the constant that
holds nowhere, and for more values than the threshold it is the native list of `u`. Else it is a
disjunction of the equality leaves of `u`, with copies of the first of them up to the size that the
policy names, and is no deeper than so many leaves must be. The negative form has one negation, at
the root. -/
theorem compiled_structure (f : Filter) (field : Field ρ κ) {values u : List κ}
    (hu : values.eraseDups = u) :
    (u = [] → (f.compile .included field values).outcome = .ok .never) ∧
    (f.threshold < u.length →
      (f.compile .included field values).outcome = .ok (.member field u)) ∧
    (∀ t first, (f.compile .included field values).outcome = .ok t → u.length ≤ f.threshold →
      u.head? = some first →
      t.AsksOnly field ∧
      t.leaves = (u ++ List.replicate (f.policy u.length - u.length) first).map
        (fun v => (field.name, v)) ∧
      t.leafCount = f.policy u.length ∧ t.depth = Nat.clog 2 (f.policy u.length)) ∧
    (f.compile .excluded field values).outcome =
      (f.compile .included field values).outcome.map fun q =>
        if u = [] then .always else .neg q := by
  obtain rfl : distinct values = u := (distinct_eq_eraseDups values).trans hu
  refine ⟨?_, ?_, ?_, outcome_excluded f field values⟩
  · intro hnil
    rw [compile_of_select_ok .included (select_of_nil f field (c := .ofList values) hnil),
      orient_included]
  · intro hmany
    rw [compile_of_select_ok .included
      (select_of_threshold_lt field (c := .ofList values) hmany), orient_included]
    rfl
  · intro t first ht hfew hfirst
    have hpos : 1 ≤ (distinct values).length := by
      apply List.length_pos_iff.2
      intro hnil
      simp [hnil] at hfirst
    obtain ⟨q, joined, hlength, rfl⟩ := tree_of_compile ht hpos hfew
    have hq := joined.of_equals
    rw [hlength, Candidates.padded_eq hfirst] at hq
    exact hq

/-- Three different values, as many as the threshold allows, rise to four leaves on two levels; with
threshold zero they stay a list, and no value at all gives a constant. -/
theorem compiled_structure_three_values :
    (∃ t : Predicate Nat Nat,
      ((⟨3, (WellKnown.ofList []).policy⟩ : Filter).compile .included ⟨"k", id⟩
        [3, 1, 3, 4]).outcome = .ok t ∧
      t.leaves = [("k", 3), ("k", 1), ("k", 4), ("k", 3)] ∧ t.depth = 2 ∧
      ((⟨3, (WellKnown.ofList []).policy⟩ : Filter).compile .excluded ⟨"k", id⟩
        [3, 1, 3, 4]).outcome = .ok (.neg t)) ∧
    ((⟨0, .exact⟩ : Filter).compile .included (⟨"k", id⟩ : Field Nat Nat)
      [3, 1, 3, 4]).outcome = .ok (.member ⟨"k", id⟩ [3, 1, 4]) ∧
    ((⟨0, .exact⟩ : Filter).compile .included (⟨"k", id⟩ : Field Nat Nat) []).outcome =
      .ok .never := by
  have hu : [3, 1, 3, 4].eraseDups = [3, 1, 4] := by decide
  have hsize : (WellKnown.ofList []).policy 3 = 4 := by cbv
  obtain ⟨t, ht⟩ := compile_ok (f := ⟨3, (WellKnown.ofList []).policy⟩) (WellKnown.le_sizeFor [])
    .included (⟨"k", id⟩ : Field Nat Nat) [3, 1, 3, 4]
  obtain ⟨-, -, htree, hneg⟩ :=
    compiled_structure ⟨3, (WellKnown.ofList []).policy⟩ (⟨"k", id⟩ : Field Nat Nat) hu
  obtain ⟨-, hleaves, -, hdepth⟩ := htree t 3 ht (by decide) rfl
  refine ⟨⟨t, ht, ?_, ?_, ?_⟩, ?_, ?_⟩
  · simpa [hsize] using hleaves
  · rw [hdepth]
    change Nat.clog 2 ((WellKnown.ofList []).policy 3) = 2
    rw [hsize]
    decide
  · rw [hneg, ht]
    rfl
  · exact (compiled_structure ⟨0, .exact⟩ (⟨"k", id⟩ : Field Nat Nat) hu).2.1 (by decide)
  · exact (compiled_structure ⟨0, .exact⟩ (⟨"k", id⟩ : Field Nat Nat) rfl).1 rfl

end

end Filter

end PlanShape
