import PlanShape.Predicate.Basic

/-!
Equality leaves and depth. The leaves are visited from left to right by a cursor that
holds the predicates still to be searched, next one first; `equalities` lists the leaves by
recursion on the predicate, and both agree.
-/
namespace PlanShape

namespace Predicate

variable {ρ κ : Type}

/-- Disjunctions above the deepest leaf; a negation adds no level. -/
def depth : Predicate ρ κ → Nat
  | .always | .never | .equals .. | .member .. => 0
  | .disj p q => 1 + max p.depth q.depth
  | .neg p => p.depth

/-- Number of constructors. -/
def nodeCount : Predicate ρ κ → Nat
  | .always | .never | .equals .. | .member .. => 1
  | .disj p q => p.nodeCount + q.nodeCount + 1
  | .neg p => p.nodeCount + 1

/-- Name and value of every equality leaf, from left to right. -/
def equalities : Predicate ρ κ → List (String × κ)
  | .equals f v => [(f.name, v)]
  | .disj p q => p.equalities ++ q.equalities
  | .neg p => p.equalities
  | .always | .never | .member .. => []

/-- Every literal value, from left to right: those of leaves and those of membership tests. -/
def literals : Predicate ρ κ → List κ
  | .equals _ v => [v]
  | .disj p q => p.literals ++ q.literals
  | .neg p => p.literals
  | .member _ vs => vs
  | .always | .never => []

/-- A place in the walk over the leaves: the predicates still to be searched. -/
structure Cursor (ρ κ : Type) where
  pending : List (Predicate ρ κ)

namespace Cursor

/-- Constructors not yet visited. -/
def weight (c : Cursor ρ κ) : Nat := c.pending.foldr (fun p n => p.nodeCount + n) 0

/-- The next leaf and the place behind it, or nothing once all leaves are visited. -/
def next? : Cursor ρ κ → Option ((String × κ) × Cursor ρ κ)
  | ⟨[]⟩ => none
  | ⟨.equals f v :: rest⟩ => some ((f.name, v), ⟨rest⟩)
  | ⟨.disj p q :: rest⟩ => next? ⟨p :: q :: rest⟩
  | ⟨.neg p :: rest⟩ => next? ⟨p :: rest⟩
  | ⟨.always :: rest⟩ | ⟨.never :: rest⟩ | ⟨.member _ _ :: rest⟩ => next? ⟨rest⟩
  termination_by c => c.weight
  decreasing_by all_goals simp [weight, nodeCount] <;> omega

theorem weight_lt_of_next? {c d : Cursor ρ κ} {leaf : String × κ}
    (h : c.next? = some (leaf, d)) : d.weight < c.weight := by
  fun_induction next? c with
  | case1 => simp at h
  | case2 f v rest =>
    obtain ⟨-, rfl⟩ := Prod.mk.inj (Option.some.inj h)
    simp [weight, nodeCount]
  | case3 p q rest ih => have := ih h; simp [weight, nodeCount] at this ⊢; omega
  | case4 p rest ih => have := ih h; simp [weight, nodeCount] at this ⊢; omega
  | case5 rest ih => have := ih h; simp [weight, nodeCount] at this ⊢; omega
  | case6 rest ih => have := ih h; simp [weight, nodeCount] at this ⊢; omega
  | case7 f vs rest ih => have := ih h; simp [weight, nodeCount] at this ⊢; omega

/-- The equality leaves of the pending predicates, by recursion on each of them. -/
def equalities (c : Cursor ρ κ) : List (String × κ) := c.pending.flatMap Predicate.equalities

theorem equalities_of_next? (c : Cursor ρ κ) :
    c.equalities = match c.next? with
      | none => []
      | some (leaf, d) => leaf :: d.equalities := by
  fun_induction next? c with
  | case1 => rfl
  | case2 f v rest => simp [equalities, Predicate.equalities]
  | case3 p q rest ih => rw [← ih]; simp [equalities, Predicate.equalities]
  | case4 p rest ih => rw [← ih]; simp [equalities, Predicate.equalities]
  | case5 rest ih => rw [← ih]; simp [equalities, Predicate.equalities]
  | case6 rest ih => rw [← ih]; simp [equalities, Predicate.equalities]
  | case7 f vs rest ih => rw [← ih]; simp [equalities, Predicate.equalities]

/-- All leaves from this place on. -/
def toList (c : Cursor ρ κ) : List (String × κ) :=
  match _h : c.next? with
  | none => []
  | some (leaf, d) => leaf :: d.toList
  termination_by c.weight
  decreasing_by exact weight_lt_of_next? (by assumption)

@[simp] theorem toList_eq_equalities (c : Cursor ρ κ) : c.toList = c.equalities := by
  fun_induction toList c with
  | case1 c h => rw [equalities_of_next?, h]
  | case2 c leaf d h ih => rw [equalities_of_next? c, h, ih]

end Cursor

/-- The start of the walk over the leaves. -/
def cursor (p : Predicate ρ κ) : Cursor ρ κ := ⟨[p]⟩

/-- The equality leaves in the order of the walk. -/
def leaves (p : Predicate ρ κ) : List (String × κ) := p.cursor.toList

/-- The walk visits the leaves that the recursion lists. -/
@[simp] theorem leaves_eq_equalities (p : Predicate ρ κ) : p.leaves = p.equalities := by
  simp [leaves, cursor, Cursor.equalities]

def leafCount (p : Predicate ρ κ) : Nat := p.leaves.length

@[simp] theorem leafCount_neg (p : Predicate ρ κ) : (neg p).leafCount = p.leafCount := by
  simp [leafCount, equalities]

@[simp] theorem leafCount_disj (p q : Predicate ρ κ) :
    (disj p q).leafCount = p.leafCount + q.leafCount := by
  simp [leafCount, equalities]

end Predicate

end PlanShape
