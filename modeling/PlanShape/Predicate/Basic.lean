import PlanShape.Field

/-!
Membership predicates: two constants, equality leaves, binary disjunction, negation and
a native membership test. Equality of predicates is structural, with fields compared by
name. Truth on a record is given by `holds`.
-/
namespace PlanShape

inductive Predicate (ρ κ : Type) where
  | always
  | never
  | equals (field : Field ρ κ) (value : κ)
  | disj (left right : Predicate ρ κ)
  | neg (inner : Predicate ρ κ)
  | member (field : Field ρ κ) (values : List κ)

namespace Predicate

variable {ρ κ : Type}

instance : Inhabited (Predicate ρ κ) := ⟨.always⟩

/-- The root constructor, without what stands below it. -/
inductive Head where
  | always | never | equals | disj | neg | member
  deriving DecidableEq, Repr

def head : Predicate ρ κ → Head
  | .always => .always
  | .never => .never
  | .equals .. => .equals
  | .disj .. => .disj
  | .neg _ => .neg
  | .member .. => .member

def isConstant : Predicate ρ κ → Bool
  | .always | .never => true
  | _ => false

/-- Structural comparison, with fields compared by name. -/
def same [BEq κ] : Predicate ρ κ → Predicate ρ κ → Bool
  | .always, .always => true
  | .never, .never => true
  | .equals f v, .equals g w => f == g && v == w
  | .disj l r, .disj l' r' => same l l' && same r r'
  | .neg p, .neg q => same p q
  | .member f vs, .member g ws => f == g && vs == ws
  | _, _ => false

instance [BEq κ] : BEq (Predicate ρ κ) := ⟨same⟩

/-- Truth of a predicate on one record. -/
def holds [BEq κ] : Predicate ρ κ → ρ → Bool
  | .always, _ => true
  | .never, _ => false
  | .equals f v, r => f.read r == v
  | .disj p q, r => p.holds r || q.holds r
  | .neg p, r => !p.holds r
  | .member f vs, r => vs.any (· == f.read r)

section
variable [BEq κ] (r : ρ)

@[simp] theorem holds_always : (always : Predicate ρ κ).holds r = true := rfl
@[simp] theorem holds_never : (never : Predicate ρ κ).holds r = false := rfl
@[simp] theorem holds_equals (f : Field ρ κ) (v : κ) :
    (equals f v).holds r = (f.read r == v) := rfl
@[simp] theorem holds_disj (p q : Predicate ρ κ) :
    (disj p q).holds r = (p.holds r || q.holds r) := rfl
@[simp] theorem holds_neg (p : Predicate ρ κ) : (neg p).holds r = !p.holds r := rfl
@[simp] theorem holds_member (f : Field ρ κ) (vs : List κ) :
    (member f vs).holds r = vs.any (· == f.read r) := rfl

end

/-- A chain that nests every further disjunction on its left. -/
def leftChain : Predicate ρ κ → List (Predicate ρ κ) → Predicate ρ κ
  | p, [] => p
  | p, q :: qs => leftChain (.disj p q) qs

/-- A chain that nests every further disjunction on its right. -/
def rightChain : Predicate ρ κ → List (Predicate ρ κ) → Predicate ρ κ
  | p, [] => p
  | p, q :: qs => .disj p (rightChain q qs)

/-- The given number of negations around a predicate. -/
def negTimes : Nat → Predicate ρ κ → Predicate ρ κ
  | 0, p => p
  | n + 1, p => .neg (negTimes n p)

end Predicate

end PlanShape
