/-!
Digits of numbers in bases up to sixteen, with letters of either case.
-/
namespace PlanShape

namespace Digit

/-- The number that a digit stands for. -/
def value? (c : Char) : Option Nat :=
  if c.isDigit then some (c.toNat - '0'.toNat)
  else if 'a' ≤ c ∧ c ≤ 'f' then some (c.toNat - 'a'.toNat + 10)
  else if 'A' ≤ c ∧ c ≤ 'F' then some (c.toNat - 'A'.toNat + 10)
  else none

end Digit

end PlanShape
