import PlanShape.Filter.Basic
import PlanShape.Signature

/-!
A census of shapes: the signatures of the predicates that a filter compiles for candidate lists
of different lengths.
-/
namespace PlanShape

namespace Filter

/-- The signature for each of the given lengths, from candidates that depend on the length. -/
def census {ρ κ : Type} [BEq κ] [Hashable κ] [EquivBEq κ] [LawfulHashable κ] (digest : Digest)
    (f : Filter) (m : Membership) (field : Field ρ κ) (candidates : Nat → List κ) :
    List Nat → Traced Failure (List (Nat × Signature))
  | [] => pure []
  | n :: ns => do
    let p ← f.compile m field (candidates n)
    let rest ← census digest f m field candidates ns
    return (n, p.signature digest) :: rest

end Filter

namespace Census

/-- Each signature with the first length that has it. -/
def firstSeen (entries : List (Nat × Signature)) : List (Nat × Signature) :=
  entries.eraseDupsBy fun a b => a.2 = b.2

/-- How many lengths have each signature, by ascending signature. -/
def counts (entries : List (Nat × Signature)) : List Nat :=
  let signatures := entries.map (·.2)
  (signatures.eraseDups.mergeSort fun a b => (compare a b).isLE).map fun s => signatures.count s

end Census

end PlanShape
