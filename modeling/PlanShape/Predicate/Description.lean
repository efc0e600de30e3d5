import PlanShape.Predicate.Leaves
import PlanShape.Signature
import PlanShape.Text.Inspect

/-!
A summary of a predicate: its root, its size, its leaves, its signature and, where they are asked
for, its text and its native value list.
-/
namespace PlanShape

structure Description (κ : Type) where
  head : Predicate.Head
  constant : Bool
  depth : Nat
  leafCount : Nat
  leaves : List (String × κ)
  signature : Signature
  text : Option String
  listed : Option (String × List κ)

namespace Predicate

variable {ρ κ : Type}

/-- Field and values of a native membership test, which may stand under one negation. -/
def listed? : Predicate ρ κ → Option (String × List κ)
  | .member f vs | .neg (.member f vs) => some (f.name, vs)
  | _ => none

/-- The summary of a predicate, with its text if a layout is given. -/
def describe [Inspect κ] (digest : Digest) (layout : Option Layout) (p : Predicate ρ κ) :
    Description κ where
  head := p.head
  constant := p.isConstant
  depth := p.depth
  leafCount := p.leafCount
  leaves := p.leaves
  signature := p.signature digest
  text := layout.map fun l => inspect l p
  listed := p.listed?

end Predicate

end PlanShape
