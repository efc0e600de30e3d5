import PlanShape.Value

/-!
Fields and rows. A field is a name together with a way to read a key from a record.
Fields are compared by name alone, so two accessors under one name count as one field.
-/
namespace PlanShape

structure Field (ρ κ : Type) where
  name : String
  read : ρ → κ

namespace Field

variable {ρ κ : Type}

instance : BEq (Field ρ κ) := ⟨fun f g => f.name == g.name⟩

instance : Hashable (Field ρ κ) := ⟨fun f => hash f.name⟩

theorem beq_iff {f g : Field ρ κ} : (f == g) = true ↔ f.name = g.name := by
  change (f.name == g.name) = true ↔ _
  exact beq_iff_eq

instance : EquivBEq (Field ρ κ) where
  rfl := beq_iff.2 rfl
  symm h := beq_iff.2 (beq_iff.1 h).symm
  trans h h' := beq_iff.2 ((beq_iff.1 h).trans (beq_iff.1 h'))

instance : LawfulHashable (Field ρ κ) where
  hash_eq f g h := by
    change hash f.name = hash g.name
    rw [beq_iff.1 h]

/-- How many different fields a pair holds. -/
def distinctCount (f g : Field ρ κ) : Nat := if f == g then 1 else 2

end Field

/-- A record addressed by position. -/
structure Row where
  slots : List Value
  deriving DecidableEq, Repr, Inhabited

/-- Reading past the end of a row gives null. -/
def Row.get (r : Row) (i : Nat) : Value := r.slots.getD i .null

/-- The field that reads one slot of a row. -/
def Field.slot (name : String) (i : Nat) : Field Row Value := ⟨name, fun r => r.get i⟩

end PlanShape
