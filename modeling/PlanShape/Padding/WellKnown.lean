import PlanShape.Padding.Policy

/-!
Well-known sizes. Counts in a given list are kept as they are; every other count is raised
to a power of two, so that few different sizes occur. The list is kept in ascending order
without repetitions.
-/
namespace PlanShape

/-- Drop every element that equals the one before it. -/
def dropRepeats : List Nat → List Nat
  | [] => []
  | [x] => [x]
  | x :: y :: rest => if x = y then dropRepeats (y :: rest) else x :: dropRepeats (y :: rest)

structure WellKnown where
  sizes : List Nat
  deriving DecidableEq, Repr

namespace WellKnown

/-- The sizes of a list in any order, with repetitions allowed. -/
def ofList (sizes : List Nat) : WellKnown := ⟨dropRepeats sizes.mergeSort⟩

/-- The sizes that are kept when nothing else is asked for. -/
def defaultSizes : List Nat := [0, 50, 51, 100, 101]

/-- The policy over the default sizes. -/
def standard : WellKnown := ⟨defaultSizes⟩

def isWellKnown (w : WellKnown) (n : Nat) : Bool := w.sizes.contains n

/-- Exponent of the least power of two that is at least `n`. -/
def ceilLog2 (n : Nat) : Nat := if n ≤ 1 then 0 else Nat.log2 (n - 1) + 1

/-- Listed counts stay; others rise to a power of two as long as that is a count. -/
def sizeFor (w : WellKnown) (n : Nat) : Nat :=
  if w.isWellKnown n then n
  else
    let p := Nat.pow 2 (ceilLog2 (max n 1))
    if p ≤ maxCount then p else n

def policy (w : WellKnown) : SizePolicy := w.sizeFor

end WellKnown

end PlanShape
