import PlanShape.Predicate.Basic
import PlanShape.Trace

/-!
Balanced disjunctions. A list of predicates is split at its middle again and again, so that
every predicate stands as few levels below the root as their number allows, and their order
is kept. The predicates wait in slots, and each one is taken out of its slot when it is used.
-/
namespace PlanShape

inductive DisjunctionError where
  | empty
  deriving DecidableEq, Repr

namespace Predicate

variable {ρ κ : Type}

abbrev Slots (ρ κ : Type) := Array (Option (Predicate ρ κ))

/-- Take the predicate out of a slot, and fail on a slot that holds none. -/
def takeSlot (i : Nat) (slots : Slots ρ κ) : Except DisjunctionError (Predicate ρ κ) × Slots ρ κ :=
  match slots[i]? with
  | some (some p) => (.ok p, slots.setIfInBounds i none)
  | _ => (.error .empty, slots)

/-- The balanced disjunction of the slots from `lo` up to but without `hi`, and the slots
after its predicates have been taken. -/
def takeRange (lo hi : Nat) (slots : Slots ρ κ) :
    Except DisjunctionError (Predicate ρ κ) × Slots ρ κ :=
  if hi - lo = 1 then takeSlot lo slots
  else if hi ≤ lo then (.error .empty, slots)
  else
    let mid := lo + (hi - lo) / 2
    match takeRange lo mid slots with
    | (.error e, slots) => (.error e, slots)
    | (.ok left, slots) =>
      match takeRange mid hi slots with
      | (.error e, slots) => (.error e, slots)
      | (.ok right, slots) => (.ok (.disj left right), slots)
  termination_by hi - lo

/-- The balanced disjunction of a list; there is none for the empty list. -/
def anyOf (ps : List (Predicate ρ κ)) : Traced DisjunctionError (Predicate ρ κ) :=
  if ps.isEmpty then Traced.fail .empty
  else do
    let slots : Slots ρ κ := (ps.map some).toArray
    Traced.emit (.treeBuilt slots.size)
    ⟨(takeRange 0 slots.size slots).1, [], []⟩

end Predicate

end PlanShape
