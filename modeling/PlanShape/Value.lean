/-!
Candidate values: null, booleans, integers, text and nested lists. Two values are
equal only when they have the same kind and the same content, and equality is decidable.
-/
namespace PlanShape

inductive Value where
  | null
  | bool (b : Bool)
  | int (n : Int)
  | text (s : String)
  | list (items : List Value)
  deriving Inhabited, Repr, Hashable

namespace Value

mutual

/-- Structural comparison: values of different kinds never compare equal. -/
def same : Value → Value → Bool
  | .null, .null => true
  | .bool a, .bool b => a == b
  | .int a, .int b => a == b
  | .text a, .text b => a == b
  | .list as, .list bs => sameAll as bs
  | _, _ => false

/-- Position by position comparison of two lists of values. -/
def sameAll : List Value → List Value → Bool
  | [], [] => true
  | a :: as, b :: bs => same a b && sameAll as bs
  | _, _ => false

end

mutual

theorem eq_of_same : ∀ {a b : Value}, same a b = true → a = b
  | .null, b, h => by cases b <;> simp_all [same]
  | .bool _, b, h => by cases b <;> simp_all [same]
  | .int _, b, h => by cases b <;> simp_all [same]
  | .text _, b, h => by cases b <;> simp_all [same]
  | .list _, .list _, h => by
    simp only [same] at h
    exact congrArg _ (eq_of_sameAll h)
  | .list _, .null, h | .list _, .bool _, h | .list _, .int _, h | .list _, .text _, h => by
    simp [same] at h

theorem eq_of_sameAll : ∀ {as bs : List Value}, sameAll as bs = true → as = bs
  | [], [], _ => rfl
  | a :: as, b :: bs, h => by
    simp only [sameAll, Bool.and_eq_true] at h
    rw [eq_of_same h.1, eq_of_sameAll h.2]
  | [], _ :: _, h | _ :: _, [], h => by simp [sameAll] at h

end

mutual

theorem same_refl : ∀ a : Value, same a a = true
  | .null => rfl
  | .bool _ | .int _ | .text _ => by simp [same]
  | .list as => by simp [same, sameAll_refl as]

theorem sameAll_refl : ∀ as : List Value, sameAll as as = true
  | [] => rfl
  | a :: as => by simp [sameAll, same_refl a, sameAll_refl as]

end

theorem same_iff {a b : Value} : same a b = true ↔ a = b :=
  ⟨eq_of_same, fun h => h ▸ same_refl a⟩

instance : DecidableEq Value := fun a b => decidable_of_iff (same a b = true) same_iff

end Value

end PlanShape
