import PlanShape.Proofs.Words
import PlanShape.Toml.Number
import PlanShape.Toml.Token

/-!
The texts of counts in TOML documents. However a count is spelled, its text is one word for the
scanner; and the decimal form of a number is read as that number.
-/
namespace PlanShape

namespace Toml

theorem isWordChar_of_isSome_value? {c : Char} (h : (Digit.value? c).isSome = true) :
    isWordChar c = true := by
  have halpha : c.isAlphanum = true := by
    unfold Digit.value? at h
    split at h
    · next hdigit => simp [Char.isAlphanum, hdigit]
    · split at h
      · next hlower =>
        have hle : c ≤ 'z' := Nat.le_trans (m := 'f'.toNat) hlower.2 (by decide)
        have hletter : c.isLower = true :=
          Bool.and_eq_true_iff.2 ⟨decide_eq_true hlower.1, decide_eq_true hle⟩
        exact Bool.or_eq_true_iff.2 (.inl (Bool.or_eq_true_iff.2 (.inr hletter)))
      · split at h
        · next hupper =>
          have hle : c ≤ 'Z' := Nat.le_trans (m := 'F'.toNat) hupper.2 (by decide)
          have hletter : c.isUpper = true := decide_eq_true ⟨hupper.1, hle⟩
          exact Bool.or_eq_true_iff.2 (.inl (Bool.or_eq_true_iff.2 (.inl hletter)))
        · cases h
  simp [isWordChar, halpha]

/-- Nothing but underscores is left out. -/
theorem mem_of_ungroup? {cs ds : List Char} (h : ungroup? cs = some ds) :
    cs ≠ [] ∧ ∀ c ∈ cs, c = '_' ∨ c ∈ ds := by
  fun_induction ungroup? cs generalizing ds with
  | case1 => cases h
  | case2 | case4 | case6 => cases h
  | case3 => cases h; simp
  | case5 c rest hc ih =>
    obtain ⟨ds', hds, rfl⟩ := Option.map_eq_some_iff.1 h
    have hrest := (ih hds).2
    refine ⟨List.cons_ne_nil _ _, ?_⟩
    rw [List.forall_mem_cons, List.forall_mem_cons]
    exact ⟨.inr List.mem_cons_self, .inl rfl,
      fun d hd => (hrest d hd).imp_right (List.mem_cons_of_mem c)⟩
  | case7 c rest hnil _ hc ih =>
    obtain ⟨ds', hds, rfl⟩ := Option.map_eq_some_iff.1 h
    have hrest := (ih hds).2
    refine ⟨List.cons_ne_nil _ _, ?_⟩
    rw [List.forall_mem_cons]
    exact ⟨.inr List.mem_cons_self, fun d hd => (hrest d hd).imp_right (List.mem_cons_of_mem c)⟩

/-- A text that is read as a sequence of characters. -/
def IsWord (cs : List Char) : Prop := cs ≠ [] ∧ ∀ c ∈ cs, isWordChar c = true

theorem isWord_cons {c : Char} {cs : List Char} (hc : isWordChar c = true) (hcs : IsWord cs) :
    IsWord (c :: cs) := ⟨List.cons_ne_nil c cs, List.forall_mem_cons.2 ⟨hc, hcs.2⟩⟩

theorem isWord_of_ungroup? {cs ds : List Char} (h : ungroup? cs = some ds)
    (hds : ∀ d ∈ ds, isWordChar d = true) : IsWord cs := by
  obtain ⟨hne, hmem⟩ := mem_of_ungroup? h
  refine ⟨hne, fun c hc => ?_⟩
  obtain rfl | hd := hmem c hc
  · decide
  · exact hds c hd

theorem isWord_of_radix? {base n : Nat} {cs : List Char} (h : radix? base cs = some n) :
    IsWord cs := by
  obtain ⟨ds, hds, h⟩ := Option.bind_eq_some_iff.1 h
  have hall := (Option.ite_none_right_eq_some.1 h).1
  refine isWord_of_ungroup? hds fun d hd => isWordChar_of_isSome_value? ?_
  exact Option.isSome_of_any (List.all_eq_true.1 hall d hd)

theorem isWord_of_decimal? {n : Nat} {cs : List Char} (h : decimal? cs = some n) : IsWord cs := by
  obtain ⟨ds, hds, h⟩ := Option.bind_eq_some_iff.1 h
  refine isWord_of_ungroup? hds fun d hd => scanner.isWordChar_of_isDigit ?_
  exact Decimal.isDigit_of_read? h hd

/-- The text of a count is one word. -/
theorem isWord_of_count? {cs : List Char} {n : Nat} (h : count? cs = some n) : IsWord cs := by
  have hn := (Option.filter_eq_some_iff.1 h).1
  unfold natural? at hn
  split at hn
  · exact isWord_cons (by decide) (isWord_cons (by decide) (isWord_of_radix? hn))
  · exact isWord_cons (by decide) (isWord_cons (by decide) (isWord_of_radix? hn))
  · exact isWord_cons (by decide) (isWord_cons (by decide) (isWord_of_radix? hn))
  · exact isWord_cons (by decide) (isWord_of_decimal? hn)
  · exact isWord_cons (by decide) (isWord_of_decimal? (Option.filter_eq_some_iff.1 hn).1)
  · exact isWord_of_decimal? hn

/-- There is nothing to leave out where no underscore is. -/
theorem ungroup?_of_not_mem {cs : List Char} (hne : cs ≠ []) (h : '_' ∉ cs) :
    ungroup? cs = some cs := by
  fun_induction ungroup? cs with
  | case1 => exact absurd rfl hne
  | case2 | case4 | case6 => exact absurd List.mem_cons_self h
  | case3 => rfl
  | case5 c rest hc ih => exact absurd (List.mem_cons_of_mem c List.mem_cons_self) h
  | case7 c rest hnil _ hc ih =>
    rw [ih hnil fun hm => h (List.mem_cons_of_mem c hm), Option.map_some]

/-- Digits are neither a sign nor the mark of another base. -/
theorem natural?_of_digits {cs : List Char} (h : ∀ c ∈ cs, c.isDigit = true) :
    natural? cs = decimal? cs := by
  have hdigit (c : Char) (hc : c.isDigit = false) : c ∉ cs := by
    intro hm
    rw [h c hm] at hc
    cases hc
  fun_cases natural? cs with
  | case1 rest => exact absurd (by simp) (hdigit 'x' (by decide))
  | case2 rest => exact absurd (by simp) (hdigit 'o' (by decide))
  | case3 rest => exact absurd (by simp) (hdigit 'b' (by decide))
  | case4 rest => exact absurd (by simp) (hdigit '+' (by decide))
  | case5 rest => exact absurd (by simp) (hdigit '-' (by decide))
  | case6 => rfl

/-- A written number is read as that number, if it is a count. -/
theorem count?_write {n : Nat} (h : n ≤ maxCount) : count? (Decimal.write n) = some n := by
  have hdigits : ∀ c ∈ Decimal.write n, c.isDigit = true :=
    fun _ hc => Decimal.isDigit_of_mem_write hc
  have hgroup : '_' ∉ Decimal.write n := fun hm => absurd (hdigits _ hm) (by decide)
  have hread : natural? (Decimal.write n) = some n := by
    rw [natural?_of_digits hdigits, decimal?, ungroup?_of_not_mem (Decimal.write_ne_nil n) hgroup]
    exact Decimal.read?_write n
  rw [count?, hread]
  simp [h]

end Toml

end PlanShape
