/-!
Size policies. A policy names, for every count of values, the size to which a set of that
many values is padded. Sizes are counts that a machine word of 64 bits can hold.
-/
namespace PlanShape

/-- The largest count, all 64 bits set. -/
def maxCount : Nat := 0xffff_ffff_ffff_ffff

abbrev SizePolicy := Nat → Nat

namespace SizePolicy

/-- No padding. -/
def exact : SizePolicy := id

/-- One size for every count. -/
def constant (size : Nat) : SizePolicy := fun _ => size

/-- The least multiple of `k` that holds every value. -/
def multipleOf (k : Nat) : SizePolicy := fun n => min ((n + (k - 1)) / k * k) maxCount

/-- A fixed number of extra places. -/
def plus (k : Nat) : SizePolicy := fun n => min (n + k) maxCount

/-- A fixed number of places too few. -/
def minus (k : Nat) : SizePolicy := fun n => n - k

/-- Half of the places, rounded down. -/
def half : SizePolicy := fun n => n / 2

end SizePolicy

end PlanShape
