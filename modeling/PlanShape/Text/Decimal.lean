/-!
Decimal numbers in their only written form: no sign, no leading zeros, at least one digit.
What is written for a number is read back as that number.
-/
namespace PlanShape

namespace Decimal

/-- The digits of a number, highest first. -/
def write (n : Nat) : List Char := Nat.toDigits 10 n

/-- The number that a list of digits stands for; zero is the only one that starts with a zero. -/
def read? : List Char → Option Nat
  | [] => none
  | c :: cs =>
    if (c :: cs).all Char.isDigit && (c != '0' || cs.isEmpty) then
      some (Nat.ofDigitChars 10 (c :: cs) 0)
    else none

theorem toList_toString (n : Nat) : (toString n).toList = write n := by
  simp [write, Nat.repr_eq_ofList_toDigits]

theorem isDigit_of_mem_write {n : Nat} {c : Char} (h : c ∈ write n) : c.isDigit :=
  Nat.isDigit_of_mem_toDigits (by decide) (by decide) h

theorem isDigit_of_read? {cs : List Char} {n : Nat} (h : read? cs = some n) {c : Char}
    (hc : c ∈ cs) : c.isDigit := by
  cases cs with
  | nil => cases h
  | cons d cs =>
    have hall := (Bool.and_eq_true_iff.1 (Option.ite_none_right_eq_some.1 h).1).1
    exact List.all_eq_true.1 hall c hc

theorem write_zero : write 0 = ['0'] := rfl

theorem write_ne_nil (n : Nat) : write n ≠ [] := Nat.toDigits_ne_nil

/-- A number above zero does not start with a zero. -/
theorem head?_write_ne_zero (n : Nat) (h : 0 < n) : (write n).head? ≠ some '0' := by
  unfold write
  induction n using Nat.strongRecOn with
  | _ n ih =>
    by_cases hn : n < 10
    · rw [Nat.toDigits_of_lt_base hn]
      simp only [List.head?_cons, ne_eq, Option.some.injEq, Nat.digitChar_eq_zero]
      omega
    · rw [Nat.toDigits_of_base_le (by decide) (by omega)]
      have hi := ih (n / 10) (by omega) (by omega)
      cases hd : Nat.toDigits 10 (n / 10) with
      | nil => simp at hd
      | cons c cs => simpa [hd] using hi

@[simp] theorem read?_write (n : Nat) : read? (write n) = some n := by
  have hvalue : Nat.ofDigitChars 10 (write n) 0 = n :=
    Nat.ofDigitChars_toDigits (by decide) (by decide)
  have hdigits : (write n).all Char.isDigit = true :=
    List.all_eq_true.2 fun _ h => isDigit_of_mem_write h
  cases hw : write n with
  | nil => exact absurd hw (write_ne_nil n)
  | cons c cs =>
    rw [hw] at hvalue hdigits
    have hzero : (c != '0' || cs.isEmpty) = true := by
      by_cases hn : n = 0
      · subst hn
        rw [write_zero] at hw
        obtain ⟨-, rfl⟩ := List.cons.inj hw
        simp
      · have hhead := head?_write_ne_zero n (by omega)
        rw [hw] at hhead
        simpa using Or.inl fun h => hhead (by simp [h])
    simp only [read?, hdigits, hzero, Bool.and_self, if_true, hvalue]

end Decimal

end PlanShape
