import Mathlib
import PlanShape.Filter.Selection
import PlanShape.Proofs.Compile

/-!
Disjunctions mean any of their predicates, and compiled predicates mean membership. Whichever path a
filter takes, the positive form holds on the records whose field value is a candidate, and the
negative form on all others. Filters differ in the predicates that they build, and not in the
records that these select.
-/
namespace PlanShape

namespace Predicate

variable {ρ κ : Type}

theorem Balanced.leafCount_eq {ps : List (Predicate ρ κ)} {t : Predicate ρ κ}
    (h : Balanced ps t) : t.leafCount = (ps.map leafCount).sum := by
  rw [leafCount, h.leaves_eq, List.length_flatMap]
  rfl

/-- Joining predicates asks for any of them. A list that is not empty has a disjunction, which holds
on the records on which one of its predicates holds, and whose leaves are those of its predicates,
one list after the other. If equality of keys is symmetric, a disjunction of equality leaves of one
field holds on the same records as the native list of their values. -/
theorem anyOf_asks_for_any [BEq κ] :
    (∀ ps : List (Predicate ρ κ), ps ≠ [] → ∃ t, (anyOf ps).outcome = .ok t ∧
      (∀ r, t.holds r = true ↔ ∃ p ∈ ps, p.holds r = true) ∧
      t.leaves = ps.flatMap leaves ∧ t.leafCount = (ps.map leafCount).sum) ∧
    ((∀ a b : κ, (a == b) = (b == a)) → ∀ (field : Field ρ κ) (vs : List κ), vs ≠ [] →
      ∃ t, (anyOf (vs.map (.equals field))).outcome = .ok t ∧
        ∀ r, t.holds r = (member field vs).holds r) := by
  constructor
  · intro ps h
    obtain ⟨t, hb, ha⟩ := anyOf_of_ne_nil h
    exact ⟨t, congrArg Traced.outcome ha, hb.holds_iff, hb.leaves_eq, hb.leafCount_eq⟩
  · intro hsymm field vs h
    have hleaves : vs.map (Predicate.equals field) ≠ [] := by simpa using h
    obtain ⟨t, hb, ha⟩ := anyOf_of_ne_nil hleaves
    exact ⟨t, congrArg Traced.outcome ha, hb.holds_eq_member hsymm⟩

/-- A negation, a disjunction that ends in a native list, and a constant: three leaves are left, and
on the record `1` only the disjunction can hold. Three leaves with a repeated value are a list. -/
theorem anyOf_asks_for_any_mixed :
    (∃ t : Predicate Nat Nat,
      (anyOf [.neg (.equals ⟨"k", id⟩ 1),
        .disj (.equals ⟨"m", id⟩ 2) (.disj (.equals ⟨"k", id⟩ 3) (.member ⟨"k", id⟩ [1])),
        .never]).outcome = .ok t ∧
      t.holds 1 = true ∧ t.leaves = [("k", 1), ("m", 2), ("k", 3)] ∧ t.leafCount = 3) ∧
    ∃ t : Predicate Nat Nat,
      (anyOf [.equals ⟨"k", id⟩ 4, .equals ⟨"k", id⟩ 5, .equals ⟨"k", id⟩ 4]).outcome = .ok t ∧
      t.holds 5 = true ∧ t.holds 6 = false := by
  obtain ⟨hany, hlist⟩ := anyOf_asks_for_any (ρ := Nat) (κ := Nat)
  constructor
  · obtain ⟨t, ht, hholds, hleaves, hcount⟩ := hany _ (List.cons_ne_nil (.neg (.equals ⟨"k", id⟩ 1))
      [.disj (.equals ⟨"m", id⟩ 2) (.disj (.equals ⟨"k", id⟩ 3) (.member ⟨"k", id⟩ [1])), .never])
    refine ⟨t, ht, ?_, ?_, ?_⟩
    · rw [hholds]
      exact ⟨_, List.mem_cons_of_mem _ List.mem_cons_self, by decide⟩
    · simpa [equalities] using hleaves
    · simpa [leafCount, equalities] using hcount
  · obtain ⟨t, ht, hholds⟩ := hlist (fun _ _ => BEq.comm) ⟨"k", id⟩ [4, 5, 4] (List.cons_ne_nil _ _)
    exact ⟨t, ht, (hholds 5).trans (by decide), (hholds 6).trans (by decide)⟩

end Predicate

namespace Filter

variable {ρ κ : Type} [BEq κ]

/-- A tree over padded values asks for the values and nothing else. -/
theorem holds_tree_eq [EquivBEq κ] {field : Field ρ κ} {c : Candidates κ} {size : Nat}
    {t : Predicate ρ κ} (h : Predicate.Balanced ((c.padded size).map (.equals field)) t) (r : ρ) :
    t.holds r = c.values.contains (field.read r) := by
  rw [h.holds_eq_member fun _ _ => BEq.comm, Predicate.holds_member, List.any_beq',
    Candidates.contains_padded]

/-- The negative form is the complement of the positive one on the empty path too. -/
theorem holds_orient_iff {f : Filter} {field : Field ρ κ} {c : Candidates κ} {path : Path}
    {q : Predicate ρ κ} (h : Builds f field c path q) (m : Membership) (r : ρ) :
    (orient m path q).holds r = true ↔ (q.holds r = true ↔ m = .included) := by
  cases m with
  | included => simp [orient]
  | excluded =>
    have hneg (q : Predicate ρ κ) : (Predicate.neg q).holds r = true ↔
        (q.holds r = true ↔ Membership.excluded = .included) := by
      simp only [Predicate.holds_neg]
      cases q.holds r <;> simp
    cases h with
    | empty => simp [orient]
    | fallback | tree => exact hneg _

section
variable [Hashable κ] [EquivBEq κ] [LawfulHashable κ]

theorem Builds.holds_eq {f : Filter} {field : Field ρ κ} {values : List κ} {path : Path}
    {q : Predicate ρ κ} (h : Builds f field (.ofList values) path q) (r : ρ) :
    q.holds r = values.contains (field.read r) := by
  rw [← contains_distinct, ← Candidates.values_ofList]
  cases h with
  | empty nil => rw [nil]; rfl
  | fallback many => exact List.any_beq'
  | tree nonempty few held joined => exact holds_tree_eq joined r

theorem holds_compile_iff {f : Filter} {m : Membership} {field : Field ρ κ} {values : List κ}
    {p : Predicate ρ κ} (h : (f.compile m field values).outcome = .ok p) (r : ρ) :
    p.holds r = true ↔ (values.contains (field.read r) = true ↔ m = .included) := by
  obtain ⟨q, hb, rfl, -⟩ := builds_of_compile h
  rw [holds_orient_iff hb, hb.holds_eq]

/-- Success means for the positive form that the values contain what the field reads, by any
equality of keys that is an equivalence, and for the negative form that they do not. So all filters
that succeed on the same values select the same records of every source. -/
theorem compile_decides_membership (field : Field ρ κ) (values : List κ) :
    (∀ (f : Filter) (p : Predicate ρ κ), (f.compile .included field values).outcome = .ok p →
      ∀ r, p.holds r = values.contains (field.read r)) ∧
    (∀ (f : Filter) (p : Predicate ρ κ), (f.compile .excluded field values).outcome = .ok p →
      ∀ r, p.holds r = !values.contains (field.read r)) ∧
    ∀ (f g : Filter) (m : Membership) (p q : Predicate ρ κ),
      (f.compile m field values).outcome = .ok p → (g.compile m field values).outcome = .ok q →
      ∀ source : List ρ, (Selection.mk source p).rows = (Selection.mk source q).rows := by
  refine ⟨?_, ?_, ?_⟩
  · intro f p h r
    rw [Bool.eq_iff_iff, holds_compile_iff h]
    simp
  · intro f p h r
    rw [Bool.eq_iff_iff, holds_compile_iff h]
    simp
  · intro f g m p q hp hq source
    apply List.filter_congr
    intro r _
    rw [Bool.eq_iff_iff, holds_compile_iff hp, holds_compile_iff hq]

/-- A repeated value, once over a padded tree and once over a native list. -/
theorem compile_decides_membership_tree_and_list :
    ∃ p q : Predicate Nat Nat,
      ((⟨4, .multipleOf 4⟩ : Filter).compile .excluded ⟨"k", id⟩ [3, 1, 3]).outcome = .ok p ∧
      ((⟨0, .exact⟩ : Filter).compile .excluded ⟨"k", id⟩ [3, 1, 3]).outcome = .ok q ∧
      p.holds 2 = true ∧
      (Selection.mk [0, 1, 2, 3] p).rows = (Selection.mk [0, 1, 2, 3] q).rows := by
  have hd : distinct [3, 1, 3] = [3, 1] := by simp [distinct, distinctFrom]
  have hp : ((⟨4, .multipleOf 4⟩ : Filter).compile .excluded (⟨"k", id⟩ : Field Nat Nat)
      [3, 1, 3]).outcome = .ok (.neg (.disj (.disj (.equals ⟨"k", id⟩ 3) (.equals ⟨"k", id⟩ 1))
        (.disj (.equals ⟨"k", id⟩ 3) (.equals ⟨"k", id⟩ 3)))) := by
    simp only [compile, Candidates.ofList, hd]
    cbv
  have hq : ((⟨0, .exact⟩ : Filter).compile .excluded (⟨"k", id⟩ : Field Nat Nat)
      [3, 1, 3]).outcome = .ok (.neg (.member ⟨"k", id⟩ [3, 1])) := by
    simp only [compile, Candidates.ofList, hd]
    cbv
  have h := compile_decides_membership (⟨"k", id⟩ : Field Nat Nat) [3, 1, 3]
  exact ⟨_, _, hp, hq, (h.2.1 _ _ hp 2).trans (by decide), h.2.2 _ _ _ _ _ hp hq _⟩

end

end Filter

end PlanShape
