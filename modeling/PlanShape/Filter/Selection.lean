import PlanShape.Filter.Basic

/-!
A source of records paired with a predicate: the records on which the predicate holds, and
their positions, both in source order. The records are either looked at where they are or moved
out of the source.
-/
namespace PlanShape

structure Selection (ρ κ : Type) where
  source : List ρ
  predicate : Predicate ρ κ

namespace Selection

variable {ρ κ : Type} [BEq κ]

/-- The records that satisfy the predicate. -/
def rows (s : Selection ρ κ) : List ρ := s.source.filter s.predicate.holds

/-- Positions in the source of the records that satisfy the predicate. -/
def positions (s : Selection ρ κ) : List Nat :=
  (s.source.zipIdx.filter fun (r, _) => s.predicate.holds r).map (·.2)

/-- The records that satisfy the predicate, moved from the source into a new array one by one. -/
def intoRows (s : Selection ρ κ) : List ρ :=
  (s.source.foldl (fun kept r => if s.predicate.holds r then kept.push r else kept) #[]).toList

end Selection

/-- A source with the predicate for candidate values, and everything that is reported on the way. -/
def Filter.attach {ρ κ : Type} [BEq κ] [Hashable κ] [EquivBEq κ] [LawfulHashable κ] (f : Filter)
    (m : Membership) (source : List ρ) (field : Field ρ κ) (values : List κ) :
    Traced Failure (Selection ρ κ) := do
  return ⟨source, ← f.compile m field values⟩

end PlanShape
