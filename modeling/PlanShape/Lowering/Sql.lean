import PlanShape.Lowering.Backend

/-!
SQL text with numbered binds. Every literal value becomes a bind, numbered from one in the
order in which the values are met, and the text holds the numbers only.
-/
namespace PlanShape

namespace Sql

inductive LoweringError where
  | tooManyBinds (count : Nat)
  | refused (call : Nat)
  deriving DecidableEq, Repr

def LoweringError.message : LoweringError → String
  | .tooManyBinds count => s!"too many binds: {count}"
  | .refused call => s!"refused call {call}"

/-- The text of the bind with a number. -/
def placeholder (n : Nat) : String := s!"${n}"

/-- The letter under which a callback is noted. -/
def callLetter : Predicate.Head → Char
  | .always => 't'
  | .never => 'f'
  | .equals => 'e'
  | .disj => 'o'
  | .neg => 'n'
  | .member => 'i'

variable {ρ κ : Type}

/-- Text over the binds made so far; lists longer than the limit are rejected. -/
def backend (maxBinds : Option Nat) : Backend (Array κ) LoweringError String ρ κ where
  always := pure "TRUE"
  never := pure "FALSE"
  equals f v := do
    modify fun binds => binds.push v
    return f.name ++ " = " ++ placeholder (← get).size
  disj l r := pure ("(" ++ l ++ " OR " ++ r ++ ")")
  neg p := pure ("NOT " ++ p)
  member f vs := do
    if maxBinds.any (· < vs.length) then throw (.tooManyBinds vs.length)
    let first := (← get).size + 1
    modify fun (binds : Array κ) => binds ++ vs
    let places := (List.range' first vs.length).map placeholder
    return f.name ++ " IN (" ++ String.intercalate ", " places ++ ")"

theorem size_append_values (binds : Array κ) (vs : List κ) :
    (binds ++ vs).size = binds.size + vs.length := by
  rw [← Array.length_toList, Array.toList_appendList, List.length_append, Array.length_toList]

theorem equals_apply (maxBinds : Option Nat) (f : Field ρ κ) (v : κ) (binds : Array κ) :
    (backend maxBinds).equals f v binds =
      (.ok (f.name ++ " = " ++ placeholder (binds.size + 1)), binds.push v) := by
  rw [← Array.size_push v]
  rfl

theorem member_apply (maxBinds : Option Nat) (f : Field ρ κ) (vs : List κ) (binds : Array κ) :
    (backend maxBinds).member f vs binds =
      if maxBinds.any (· < vs.length) then (.error (.tooManyBinds vs.length), binds)
      else (.ok (f.name ++ " IN (" ++ String.intercalate ", "
        ((List.range' (binds.size + 1) vs.length).map placeholder) ++ ")"), binds ++ vs) := by
  simp only [backend]
  split
  · rfl
  · rfl

end Sql

/-- The text of a predicate with its binds, or why there is none, and the callbacks made. -/
def Predicate.toSql {ρ κ : Type} (maxBinds refuseAt : Option Nat) (p : Predicate ρ κ) :
    Except Sql.LoweringError String × Audited (Array κ) :=
  p.lower ((Sql.backend maxBinds).audited refuseAt Sql.LoweringError.refused) ⟨#[], #[]⟩

end PlanShape
