import Mathlib
import PlanShape.Proofs.Failures

/-!
Well-known sizes in canonical form. Dropping equal neighbours leaves no repetition in a list that
has been sorted before, and a strictly ascending list is known by its elements. So order and
repetitions of the listed sizes are forgotten by the policy, and by every filter that is made from
them, though not by the settings.
-/
namespace PlanShape

/-- In an ascending list equal elements are neighbours. -/
theorem pairwise_lt_dropRepeats {xs : List Nat} (h : xs.Pairwise (· ≤ ·)) :
    (dropRepeats xs).Pairwise (· < ·) := by
  fun_induction dropRepeats xs with
  | case1 => exact .nil
  | case2 x => exact List.pairwise_singleton _ x
  | case3 y rest ih => exact ih h.of_cons
  | case4 x y rest hne ih =>
    obtain ⟨hfirst, hrest⟩ := List.pairwise_cons.1 h
    refine List.pairwise_cons.2 ⟨?_, ih hrest⟩
    intro z hz
    have hxy : x ≤ y := hfirst y List.mem_cons_self
    have hyz : y ≤ z := by
      rcases List.mem_cons.1 (mem_dropRepeats.1 hz) with rfl | hz
      · exact Nat.le_refl z
      · exact List.rel_of_pairwise_cons hrest hz
    omega

namespace WellKnown

theorem pairwise_lt_sizes (sizes : List Nat) : (ofList sizes).sizes.Pairwise (· < ·) := by
  apply pairwise_lt_dropRepeats
  exact List.pairwise_mergeSort' (· ≤ ·) sizes

theorem mem_sizes {sizes : List Nat} {n : Nat} : n ∈ (ofList sizes).sizes ↔ n ∈ sizes := by
  rw [ofList, mem_dropRepeats, List.mem_mergeSort]

theorem ofList_eq_iff {as bs : List Nat} : ofList as = ofList bs ↔ ∀ n, n ∈ as ↔ n ∈ bs := by
  constructor
  · intro h n
    rw [← mem_sizes, h, mem_sizes]
  · intro h
    have hsizes : (ofList as).sizes = (ofList bs).sizes := by
      apply (pairwise_lt_sizes as).eq_of_mem_iff (pairwise_lt_sizes bs)
      intro n
      rw [mem_sizes, mem_sizes]
      exact h n
    exact congrArg WellKnown.mk hsizes

end WellKnown

/-- Valid settings over the same sizes lead to one filter. -/
theorem Filter.ofSettings_congr {c d : Settings} (ht : c.threshold = d.threshold)
    (hs : ∀ n, n ∈ c.sizes ↔ n ∈ d.sizes) (h : c.validate = .ok ()) :
    ∃ f, ofSettings c = .ok f ∧ ofSettings d = .ok f := by
  have hd : d.validate = .ok () := by
    rw [Settings.validate_eq_ok] at h ⊢
    rwa [← ht]
  refine ⟨_, ofSettings_of_valid h, ?_⟩
  rw [ofSettings_of_valid hd, ht, WellKnown.ofList_eq_iff.2 hs]

/-- A policy is the set of its listed sizes, held in ascending order. Two lists of the same numbers
give one policy, which rounds every count alike; settings that list them in another order or more
often differ, and compile every candidate list to the same result. -/
theorem WellKnown.listed_sizes_count_as_set (as bs : List Nat) :
    (ofList as = ofList bs ↔ ∀ n, n ∈ as ↔ n ∈ bs) ∧
    (ofList as).sizes.Pairwise (· < ·) ∧
    (∀ n, n ∈ (ofList as).sizes ↔ n ∈ as) ∧
    (∀ n, (ofList as).isWellKnown n = true ↔ n ∈ as) ∧
    ((∀ n, n ∈ as ↔ n ∈ bs) →
      (∀ n, (ofList as).sizeFor n = (ofList bs).sizeFor n) ∧
      ∀ threshold, (⟨threshold, as⟩ : Settings).validate = .ok () →
        (as ≠ bs → (⟨threshold, as⟩ : Settings) ≠ ⟨threshold, bs⟩) ∧
        ∃ f g, Filter.ofSettings ⟨threshold, as⟩ = .ok f ∧
          Filter.ofSettings ⟨threshold, bs⟩ = .ok g ∧
          ∀ {ρ κ : Type} [BEq κ] [Hashable κ] [EquivBEq κ] [LawfulHashable κ] (m : Membership)
            (field : Field ρ κ) (values : List κ),
            f.compile m field values = g.compile m field values) := by
  refine ⟨ofList_eq_iff, pairwise_lt_sizes as, fun n => mem_sizes, fun n => isWellKnown_ofList, ?_⟩
  intro hset
  constructor
  · intro n
    rw [ofList_eq_iff.2 hset]
  · intro threshold hvalid
    constructor
    · intro hne heq
      exact hne (congrArg Settings.sizes heq)
    · let c : Settings := ⟨threshold, as⟩
      let d : Settings := ⟨threshold, bs⟩
      have hthreshold : c.threshold = d.threshold := rfl
      obtain ⟨f, hf, hg⟩ := Filter.ofSettings_congr hthreshold hset hvalid
      exact ⟨f, f, hf, hg, fun m field values => rfl⟩

/-- Seven and three, the one listed twice and not side by side. -/
theorem WellKnown.listed_sizes_count_as_set_three_entries :
    ofList [7, 3, 7] = ofList [3, 7] ∧ (ofList [7, 3, 7]).isWellKnown 7 = true ∧
    (ofList [7, 3, 7]).sizeFor 3 = (ofList [3, 7]).sizeFor 3 ∧
    (⟨4, [7, 3, 7]⟩ : Settings) ≠ ⟨4, [3, 7]⟩ ∧
    ∃ f g, Filter.ofSettings ⟨4, [7, 3, 7]⟩ = .ok f ∧ Filter.ofSettings ⟨4, [3, 7]⟩ = .ok g ∧
      f.compile .excluded (⟨"k", id⟩ : Field Nat Nat) [5, 1, 2] =
        g.compile .excluded ⟨"k", id⟩ [5, 1, 2] := by
  have hset : ∀ n, n ∈ [7, 3, 7] ↔ n ∈ [3, 7] := by simp [or_comm]
  have hvalid : (⟨4, [7, 3, 7]⟩ : Settings).validate = .ok () := rfl
  obtain ⟨hone, -, -, hlisted, hsame⟩ := listed_sizes_count_as_set [7, 3, 7] [3, 7]
  obtain ⟨hround, hsettings⟩ := hsame hset
  obtain ⟨hdiffer, f, g, hf, hg, hcompile⟩ := hsettings 4 hvalid
  exact ⟨hone.2 hset, (hlisted 7).2 (by decide), hround 3, hdiffer (by decide), f, g, hf, hg,
    hcompile .excluded ⟨"k", id⟩ [5, 1, 2]⟩

end PlanShape
