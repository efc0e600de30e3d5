import PlanShape.Predicate.Basic

/-!
Lowering of predicates into a backend. A backend has one callback for each constructor, and
operands are lowered before the node above them, the left one first. The first callback that
fails ends the walk.
-/
namespace PlanShape

/-- A step of a backend: it may change the state and may fail. -/
abbrev Action (σ ε α : Type) := ExceptT ε (StateM σ) α

section
variable {σ ε α β : Type} {x : Action σ ε α} {f : α → Action σ ε β} {s s' : σ}

theorem Action.bind_ok {a : α} (h : x s = (.ok a, s')) : (x >>= f) s = f a s' := by
  simp only [bind, ExceptT.bind, ExceptT.mk, StateT.bind, ExceptT.bindCont]
  rw [h]

theorem Action.bind_error {e : ε} (h : x s = (.error e, s')) : (x >>= f) s = (.error e, s') := by
  simp only [bind, ExceptT.bind, ExceptT.mk, StateT.bind, ExceptT.bindCont]
  rw [h]
  rfl

end

structure Backend (σ ε ω ρ κ : Type) where
  always : Action σ ε ω
  never : Action σ ε ω
  equals : Field ρ κ → κ → Action σ ε ω
  disj : ω → ω → Action σ ε ω
  neg : ω → Action σ ε ω
  member : Field ρ κ → List κ → Action σ ε ω

variable {σ ε ω ρ κ : Type}

/-- Lower a predicate from the leaves up. -/
def Predicate.lower (b : Backend σ ε ω ρ κ) : Predicate ρ κ → Action σ ε ω
  | .always => b.always
  | .never => b.never
  | .equals f v => b.equals f v
  | .disj p q => do
    let left ← p.lower b
    let right ← q.lower b
    b.disj left right
  | .neg p => do
    let inner ← p.lower b
    b.neg inner
  | .member f vs => b.member f vs

/-- A backend state together with the callbacks that were made. -/
structure Audited (σ : Type) where
  state : σ
  calls : Array Predicate.Head

namespace Audited

/-- Note a callback, then refuse it if it is the one to be refused, or else make it. -/
def call (refuseAt : Option Nat) (refusal : Nat → ε) (h : Predicate.Head) (act : Action σ ε ω) :
    Action (Audited σ) ε ω := fun s =>
  let calls := s.calls.push h
  if refuseAt = some calls.size then (.error (refusal calls.size), ⟨s.state, calls⟩)
  else
    let (result, state) := act s.state
    (result, ⟨state, calls⟩)

end Audited

/-- The backend that notes every callback and refuses one of them. -/
def Backend.audited (refuseAt : Option Nat) (refusal : Nat → ε) (b : Backend σ ε ω ρ κ) :
    Backend (Audited σ) ε ω ρ κ where
  always := Audited.call refuseAt refusal .always b.always
  never := Audited.call refuseAt refusal .never b.never
  equals f v := Audited.call refuseAt refusal .equals (b.equals f v)
  disj l r := Audited.call refuseAt refusal .disj (b.disj l r)
  neg p := Audited.call refuseAt refusal .neg (b.neg p)
  member f vs := Audited.call refuseAt refusal .member (b.member f vs)

end PlanShape
