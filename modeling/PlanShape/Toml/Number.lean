import PlanShape.Padding.Policy
import PlanShape.Text.Decimal
import PlanShape.Text.Digit

/-!
Integers of TOML documents. They are decimal, or hexadecimal, octal or binary behind a mark;
underscores may stand between two digits. Only counts are read, which are not negative.
-/
namespace PlanShape

namespace Toml

/-- Digits without the underscores that stand between two of them. -/
def ungroup? : List Char → Option (List Char)
  | [] => none
  | [c] => if c = '_' then none else some [c]
  | c :: '_' :: rest => if c = '_' then none else (ungroup? rest).map (c :: ·)
  | c :: rest => if c = '_' then none else (ungroup? rest).map (c :: ·)

/-- The number that digits in a base stand for; leading zeros are allowed. -/
def radix? (base : Nat) (cs : List Char) : Option Nat := do
  let digits ← ungroup? cs
  if digits.all fun c => (Digit.value? c).any (· < base) then
    some (digits.foldl (fun n c => base * n + (Digit.value? c).getD 0) 0)
  else none

/-- A decimal number without leading zeros. -/
def decimal? (cs : List Char) : Option Nat := do Decimal.read? (← ungroup? cs)

/-- An integer that is not negative. -/
def natural? : List Char → Option Nat
  | '0' :: 'x' :: cs => radix? 16 cs
  | '0' :: 'o' :: cs => radix? 8 cs
  | '0' :: 'b' :: cs => radix? 2 cs
  | '+' :: cs => decimal? cs
  | '-' :: cs => (decimal? cs).filter (· = 0)
  | cs => decimal? cs

/-- A count. -/
def count? (cs : List Char) : Option Nat := (natural? cs).filter (· ≤ maxCount)

end Toml

end PlanShape
