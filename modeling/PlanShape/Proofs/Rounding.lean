import Mathlib
import PlanShape.Padding.WellKnown

/-!
Rounding to well-known sizes. A listed count stays as it is and any other one becomes the least
power of two that holds it, as long as a machine word can hold that power. No count is made smaller.
-/
namespace PlanShape

theorem mem_dropRepeats {xs : List Nat} {n : Nat} : n ∈ dropRepeats xs ↔ n ∈ xs := by
  fun_induction dropRepeats xs with
  | case1 => rfl
  | case2 x => rfl
  | case3 y rest ih => simp [ih]
  | case4 x y rest h ih => rw [List.mem_cons, ih, List.mem_cons (a := n) (b := x)]

namespace WellKnown

theorem isWellKnown_ofList {sizes : List Nat} {n : Nat} :
    (ofList sizes).isWellKnown n = true ↔ n ∈ sizes := by
  rw [isWellKnown, List.contains_iff_mem, ofList, mem_dropRepeats, List.mem_mergeSort]

/-- The exponent is found between two neighbouring powers. -/
theorem clog_eq_succ {n k : Nat} (hlow : 2 ^ k < n) (hhigh : n ≤ 2 ^ (k + 1)) :
    Nat.clog 2 n = k + 1 := by
  apply Nat.le_antisymm
  · exact Nat.clog_le_of_le_pow hhigh
  · exact (Nat.lt_clog_iff_pow_lt (by decide)).2 hlow

theorem ceilLog2_eq_clog (n : Nat) : ceilLog2 n = Nat.clog 2 n := by
  by_cases hn : n ≤ 1
  · rw [ceilLog2, if_pos hn, Nat.clog_of_right_le_one hn]
  · rw [ceilLog2, if_neg hn]
    have hpos : n - 1 ≠ 0 := by omega
    have hlow : 2 ^ Nat.log2 (n - 1) ≤ n - 1 := Nat.log2_self_le hpos
    have hhigh : n - 1 < 2 ^ (Nat.log2 (n - 1) + 1) := Nat.lt_log2_self
    exact (clog_eq_succ (by omega) (by omega)).symm

theorem sizeFor_of_mem {sizes : List Nat} {n : Nat} (h : n ∈ sizes) :
    (ofList sizes).sizeFor n = n := by
  rw [sizeFor, if_pos (isWellKnown_ofList.2 h)]

/-- A count that is not listed is raised to a power of two, unless that is no count any more. -/
theorem sizeFor_of_not_mem {sizes : List Nat} {n : Nat} (h : n ∉ sizes) :
    (ofList sizes).sizeFor n =
      if 2 ^ Nat.clog 2 (max n 1) ≤ maxCount then 2 ^ Nat.clog 2 (max n 1) else n := by
  rw [sizeFor, if_neg (fun hw => h (isWellKnown_ofList.1 hw)), ceilLog2_eq_clog]
  rfl

/-- The powers of two that are counts end with the one that has the highest of the 64 bits set. -/
theorem two_pow_clog_le_maxCount_iff {n : Nat} : 2 ^ Nat.clog 2 n ≤ maxCount ↔ n ≤ 2 ^ 63 := by
  constructor
  · intro h
    by_contra hn
    have hexp : 63 < Nat.clog 2 n := (Nat.lt_clog_iff_pow_lt (by decide)).2 (by omega)
    have hpow : 2 ^ 64 ≤ 2 ^ Nat.clog 2 n := Nat.pow_le_pow_right (by decide) hexp
    exact absurd (Nat.le_trans hpow h) (by decide)
  · intro hn
    have hpow : 2 ^ Nat.clog 2 n ≤ 2 ^ 63 :=
      Nat.pow_le_pow_right (by decide) (Nat.clog_le_of_le_pow hn)
    exact Nat.le_trans hpow (by decide)

theorem sizeFor_of_le {sizes : List Nat} {n : Nat} (h : n ∉ sizes) (hn : n ≤ 2 ^ 63) :
    (ofList sizes).sizeFor n = 2 ^ Nat.clog 2 (max n 1) := by
  rw [sizeFor_of_not_mem h, if_pos (two_pow_clog_le_maxCount_iff.2 (by omega))]

/-- Above the last power of two nothing is rounded, whether it is listed or not. -/
theorem sizeFor_of_lt {sizes : List Nat} {n : Nat} (hn : 2 ^ 63 < n) :
    (ofList sizes).sizeFor n = n := by
  by_cases h : n ∈ sizes
  · exact sizeFor_of_mem h
  · have hmax : ¬max n 1 ≤ 2 ^ 63 := by omega
    rw [sizeFor_of_not_mem h, if_neg (fun hp => hmax (two_pow_clog_le_maxCount_iff.1 hp))]

theorem isLeast_two_pow_clog (n : Nat) :
    IsLeast {p | (∃ k, p = 2 ^ k) ∧ n ≤ p} (2 ^ Nat.clog 2 n) := by
  constructor
  · exact ⟨⟨_, rfl⟩, Nat.le_pow_clog (by decide) n⟩
  · rintro p ⟨⟨k, rfl⟩, hk⟩
    exact Nat.pow_le_pow_right (by decide) (Nat.clog_le_of_le_pow hk)

theorem sizeFor_two_pow (sizes : List Nat) (k : Nat) :
    (ofList sizes).sizeFor (2 ^ k) = 2 ^ k := by
  by_cases h : 2 ^ k ∈ sizes
  · exact sizeFor_of_mem h
  · obtain hk | hk := Nat.lt_or_ge (2 ^ 63) (2 ^ k)
    · exact sizeFor_of_lt hk
    · rw [sizeFor_of_le h hk, Nat.max_eq_left Nat.one_le_two_pow, Nat.clog_pow 2 k (by decide)]

/-- The counts that stay as they are. -/
theorem sizeFor_eq_self_iff {sizes : List Nat} {n : Nat} :
    (ofList sizes).sizeFor n = n ↔ n ∈ sizes ∨ (∃ k, n = 2 ^ k) ∨ 2 ^ 63 < n := by
  constructor
  · intro h
    by_cases hm : n ∈ sizes
    · exact .inl hm
    · obtain hn | hn := Nat.lt_or_ge (2 ^ 63) n
      · exact .inr (.inr hn)
      · rw [sizeFor_of_le hm hn] at h
        exact .inr (.inl ⟨_, h.symm⟩)
  · rintro (hm | ⟨k, rfl⟩ | hn)
    · exact sizeFor_of_mem hm
    · exact sizeFor_two_pow sizes k
    · exact sizeFor_of_lt hn

/-- Rounding what has been rounded changes nothing. -/
theorem sizeFor_sizeFor (sizes : List Nat) (n : Nat) :
    (ofList sizes).sizeFor ((ofList sizes).sizeFor n) = (ofList sizes).sizeFor n := by
  by_cases hself : (ofList sizes).sizeFor n = n
  · rw [hself, hself]
  · have hround : ¬(n ∈ sizes ∨ (∃ k, n = 2 ^ k) ∨ 2 ^ 63 < n) :=
      fun h => hself (sizeFor_eq_self_iff.2 h)
    push Not at hround
    rw [sizeFor_of_le hround.1 hround.2.2, sizeFor_two_pow]

theorem sizeFor_le_maxCount {sizes : List Nat} {n : Nat} (h : n ≤ maxCount) :
    (ofList sizes).sizeFor n ≤ maxCount := by
  by_cases hm : n ∈ sizes
  · rw [sizeFor_of_mem hm]
    exact h
  · rw [sizeFor_of_not_mem hm]
    split
    · assumption
    · exact h

/-- Listed counts may stand in the way, all others are rounded in their order. -/
theorem sizeFor_mono {sizes : List Nat} {m n : Nat} (h : m ≤ n) (hm : m ∉ sizes)
    (hn : n ∉ sizes) : (ofList sizes).sizeFor m ≤ (ofList sizes).sizeFor n := by
  obtain hbig | hbig := Nat.lt_or_ge (2 ^ 63) n
  · rw [sizeFor_of_lt hbig]
    obtain hsmall | hsmall := Nat.lt_or_ge (2 ^ 63) m
    · rw [sizeFor_of_lt hsmall]
      exact h
    · have hpow : 2 ^ Nat.clog 2 (max m 1) ≤ 2 ^ 63 :=
        (isLeast_two_pow_clog (max m 1)).2 ⟨⟨63, rfl⟩, by omega⟩
      rw [sizeFor_of_le hm hsmall]
      omega
  · rw [sizeFor_of_le hm (by omega), sizeFor_of_le hn hbig]
    exact Nat.pow_le_pow_right (by decide) (Nat.clog_mono_right 2 (by omega))

theorem le_sizeFor (sizes : List Nat) (n : Nat) : n ≤ (ofList sizes).sizeFor n := by
  by_cases h : n ∈ sizes
  · rw [sizeFor_of_mem h]
  · rw [sizeFor_of_not_mem h]
    split
    · have hp : max n 1 ≤ 2 ^ Nat.clog 2 (max n 1) := Nat.le_pow_clog (by decide) _
      omega
    · exact Nat.le_refl n

/-- Rounding adds fewer places than there are values. -/
theorem sizeFor_lt_two_mul (sizes : List Nat) {n : Nat} (h : 1 ≤ n) :
    (ofList sizes).sizeFor n < 2 * n := by
  by_cases hm : n ∈ sizes
  · rw [sizeFor_of_mem hm]
    omega
  · rw [sizeFor_of_not_mem hm, Nat.max_eq_left h]
    split
    · obtain rfl | hn : n = 1 ∨ 1 < n := by omega
      · decide
      · have hlow : 2 ^ (Nat.clog 2 n).pred < n := Nat.pow_pred_clog_lt_self (by decide) hn
        have hpos : 0 < Nat.clog 2 n := Nat.clog_pos (by decide) hn
        have hstep : 2 ^ Nat.clog 2 n = 2 * 2 ^ (Nat.clog 2 n).pred := by
          rw [← Nat.pow_succ', Nat.succ_pred_eq_of_pos hpos]
        omega
    · omega

/-- Rounding of all 64-bit counts. A listed count stays; any other becomes the least power of two
that holds it and at least one value, up to the last power of two that is a count, and stays above
it. So the result is a count that holds all values, with fewer places to spare than there are
values. It stays when it is rounded again, which tells the results from the other counts, and counts
that are not listed keep their order. -/
theorem sizeFor_rounds_up (sizes : List Nat) :
    (∀ n, n < 2 ^ 64 →
      (n ∈ sizes → (ofList sizes).sizeFor n = n) ∧
      (n ∉ sizes → n ≤ 2 ^ 63 →
        IsLeast {p | (∃ k, p = 2 ^ k) ∧ max n 1 ≤ p} ((ofList sizes).sizeFor n)) ∧
      (n ∉ sizes → 2 ^ 63 < n → (ofList sizes).sizeFor n = n) ∧
      (ofList sizes).sizeFor n < 2 ^ 64 ∧
      n ≤ (ofList sizes).sizeFor n ∧ (1 ≤ n → (ofList sizes).sizeFor n < 2 * n) ∧
      (ofList sizes).sizeFor ((ofList sizes).sizeFor n) = (ofList sizes).sizeFor n ∧
      ((ofList sizes).sizeFor n = n ↔ n ∈ sizes ∨ (∃ k, n = 2 ^ k) ∨ 2 ^ 63 < n)) ∧
    ∀ m n, m ≤ n → n < 2 ^ 64 → m ∉ sizes → n ∉ sizes →
      (ofList sizes).sizeFor m ≤ (ofList sizes).sizeFor n := by
  have hmax : maxCount + 1 = 2 ^ 64 := by decide
  constructor
  · intro n hn
    have hcount : (ofList sizes).sizeFor n ≤ maxCount := sizeFor_le_maxCount (by omega)
    refine ⟨sizeFor_of_mem, ?_, ?_, by omega, le_sizeFor sizes n, sizeFor_lt_two_mul sizes,
      sizeFor_sizeFor sizes n, sizeFor_eq_self_iff⟩
    · intro hm hle
      rw [sizeFor_of_le hm hle]
      exact isLeast_two_pow_clog (max n 1)
    · intro _ hlt
      exact sizeFor_of_lt hlt
  · intro m n h _ hm hn
    exact sizeFor_mono h hm hn

/-- Zero stays where it is listed, and so do the last power of two and the count behind it. Five is
rounded although the power that it leads to is listed. -/
theorem sizeFor_rounds_up_edges :
    (ofList [8, 2 ^ 64 - 1, 0, 8]).sizeFor 0 = 0 ∧
    IsLeast {p | (∃ k, p = 2 ^ k) ∧ max 5 1 ≤ p} ((ofList [8, 2 ^ 64 - 1, 0, 8]).sizeFor 5) ∧
    (ofList [8, 2 ^ 64 - 1, 0, 8]).sizeFor 5 < 2 * 5 ∧
    (ofList [8, 2 ^ 64 - 1, 0, 8]).sizeFor (2 ^ 63) = 2 ^ 63 ∧
    (ofList [8, 2 ^ 64 - 1, 0, 8]).sizeFor (2 ^ 63 + 1) = 2 ^ 63 + 1 ∧
    (ofList [8, 2 ^ 64 - 1, 0, 8]).sizeFor 5 ≤
      (ofList [8, 2 ^ 64 - 1, 0, 8]).sizeFor (2 ^ 63 - 1) := by
  obtain ⟨hall, hmono⟩ := sizeFor_rounds_up [8, 2 ^ 64 - 1, 0, 8]
  obtain ⟨-, hleast, -, -, -, hdouble, -, -⟩ := hall 5 (by decide)
  obtain ⟨-, -, -, -, -, -, -, hfixed⟩ := hall (2 ^ 63) (by decide)
  exact ⟨(hall 0 (by decide)).1 (by decide), hleast (by decide) (by decide), hdouble (by decide),
    hfixed.2 (.inr (.inl ⟨63, rfl⟩)), (hall (2 ^ 63 + 1) (by decide)).2.2.1 (by decide) (by decide),
    hmono 5 (2 ^ 63 - 1) (by decide) (by decide) (by decide) (by decide)⟩

/-- The default sizes are in ascending order already. -/
theorem standard_eq_ofList : standard = ofList defaultSizes := by
  have hsorted : defaultSizes.mergeSort = defaultSizes := List.mergeSort_of_pairwise (by decide)
  rw [ofList, hsorted]
  rfl

/-- The powers of two up to the first that is at least `n`, and the listed sizes up to `n`. -/
def sizesUpTo (sizes : List Nat) (n : Nat) : Finset Nat :=
  (Finset.range (Nat.clog 2 n + 1)).image (2 ^ ·) ∪ {s ∈ sizes.toFinset | 1 ≤ s ∧ s ≤ n}

/-- Rounding leads only to powers of two and to listed sizes. -/
theorem sizeFor_mem_sizesUpTo {sizes : List Nat} {k n : Nat} (hk : 1 ≤ k) (hn : k ≤ n)
    (hmax : n < 2 ^ 32) : (ofList sizes).sizeFor k ∈ sizesUpTo sizes n := by
  by_cases h : k ∈ sizes
  · rw [sizeFor_of_mem h, sizesUpTo, Finset.mem_union]
    right
    simp [h, hk, hn]
  · have hlog : Nat.clog 2 k ≤ Nat.clog 2 n := Nat.clog_mono_right 2 hn
    rw [sizeFor_of_le h (by omega), Nat.max_eq_left hk, sizesUpTo, Finset.mem_union]
    left
    exact Finset.mem_image.2 ⟨_, Finset.mem_range.2 (by omega), rfl⟩

theorem card_sizesUpTo_le (sizes : List Nat) (n : Nat) :
    (sizesUpTo sizes n).card ≤
      Nat.clog 2 n + 1 + {s ∈ sizes.toFinset | 1 ≤ s ∧ s ≤ n}.card := by
  have hpowers : ((Finset.range (Nat.clog 2 n + 1)).image (2 ^ ·)).card ≤ Nat.clog 2 n + 1 := by
    have h := Finset.card_image_le (s := Finset.range (Nat.clog 2 n + 1)) (f := (2 ^ ·))
    rwa [Finset.card_range] at h
  have hunion := Finset.card_union_le ((Finset.range (Nat.clog 2 n + 1)).image (2 ^ ·))
    {s ∈ sizes.toFinset | 1 ≤ s ∧ s ≤ n}
  rw [sizesUpTo]
  omega

end WellKnown

end PlanShape
