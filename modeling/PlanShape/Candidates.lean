import Std.Data.HashSet.Lemmas

/-!
Candidate sets: the values of a list without later repetitions, in the order in which they
are first seen. A repetition is a value that is equal to an earlier one, without being the same
value if equality of keys is coarser than that.
-/
namespace PlanShape

/-- Values of which no two are equal. -/
@[ext] structure Candidates (κ : Type) [BEq κ] where
  values : List κ
  nodup : values.Pairwise fun x y => (x == y) = false

namespace Candidates

variable {κ : Type} [BEq κ]

def size (c : Candidates κ) : Nat := c.values.length

def isEmpty (c : Candidates κ) : Bool := c.values.isEmpty

def first? (c : Candidates κ) : Option κ := c.values.head?

end Candidates

section
variable {κ : Type} [BEq κ] [Hashable κ]

/-- The values of a list that are neither in `seen` nor repetitions of earlier values. -/
def distinctFrom (seen : Std.HashSet κ) : List κ → List κ
  | [] => []
  | x :: xs =>
    if seen.contains x then distinctFrom seen xs else x :: distinctFrom (seen.insert x) xs

/-- The values of a list at their first places. -/
def distinct (xs : List κ) : List κ := distinctFrom ∅ xs

theorem distinctFrom_sublist (seen : Std.HashSet κ) (xs : List κ) :
    (distinctFrom seen xs).Sublist xs := by
  induction xs generalizing seen with
  | nil => exact List.Sublist.slnil
  | cons x xs ih =>
    rw [distinctFrom]
    split
    · exact (ih seen).cons x
    · exact (ih (seen.insert x)).cons_cons x

theorem distinct_sublist (xs : List κ) : (distinct xs).Sublist xs := distinctFrom_sublist ∅ xs

variable [EquivBEq κ] [LawfulHashable κ]

theorem contains_distinctFrom {seen : Std.HashSet κ} {xs : List κ} {y : κ} :
    (distinctFrom seen xs).contains y = (xs.contains y && !seen.contains y) := by
  induction xs generalizing seen with
  | nil => rfl
  | cons x xs ih =>
    rw [distinctFrom, List.contains_cons]
    cases hxy : y == x with
    | true =>
      -- what is asked for is the first value, so `seen` tells whether it is left out
      have hsame : seen.contains y = seen.contains x := Std.HashSet.contains_congr hxy
      rw [hsame]
      split
      · next h => rw [ih, hsame, h, Bool.not_true, Bool.and_false, Bool.and_false]
      · next h => simp [hxy, h]
    | false =>
      have hyx : (x == y) = false := BEq.symm_false hxy
      split
      · next h => rw [ih, Bool.false_or]
      · next h =>
        rw [List.contains_cons, hxy, ih, Std.HashSet.contains_insert, hyx, Bool.false_or,
          Bool.false_or, Bool.false_or]

theorem not_contains_of_mem_distinctFrom {seen : Std.HashSet κ} {xs : List κ} {y : κ}
    (h : y ∈ distinctFrom seen xs) : seen.contains y = false := by
  have hy : (distinctFrom seen xs).contains y = true := List.elem_eq_true_of_mem h
  rw [contains_distinctFrom, Bool.and_eq_true, Bool.not_eq_true'] at hy
  exact hy.2

theorem nodup_distinctFrom (seen : Std.HashSet κ) (xs : List κ) :
    (distinctFrom seen xs).Pairwise fun x y => (x == y) = false := by
  induction xs generalizing seen with
  | nil => exact List.Pairwise.nil
  | cons x xs ih =>
    rw [distinctFrom]
    split
    · exact ih seen
    · refine List.pairwise_cons.2 ⟨?_, ih _⟩
      intro y hy
      have hnew := not_contains_of_mem_distinctFrom hy
      rw [Std.HashSet.contains_insert, Bool.or_eq_false_iff] at hnew
      exact hnew.1

/-- Nothing is dropped from a list of new values without repetitions. -/
theorem distinctFrom_of_nodup {seen : Std.HashSet κ} {xs : List κ}
    (h : xs.Pairwise fun x y => (x == y) = false) (hs : ∀ x ∈ xs, seen.contains x = false) :
    distinctFrom seen xs = xs := by
  induction xs generalizing seen with
  | nil => rfl
  | cons x xs ih =>
    obtain ⟨hx, hxs⟩ := List.pairwise_cons.1 h
    have hrest : ∀ y ∈ xs, (seen.insert x).contains y = false := by
      intro y hy
      rw [Std.HashSet.contains_insert, hx y hy, hs y (List.mem_cons_of_mem x hy), Bool.or_self]
    have hnew : ¬seen.contains x = true := by
      rw [hs x List.mem_cons_self]
      exact Bool.false_ne_true
    rw [distinctFrom, if_neg hnew, ih hxs hrest]

theorem distinct_of_nodup {xs : List κ} (h : xs.Pairwise fun x y => (x == y) = false) :
    distinct xs = xs :=
  distinctFrom_of_nodup h fun _ _ => Std.HashSet.contains_empty

@[simp] theorem contains_distinct (xs : List κ) (y : κ) :
    (distinct xs).contains y = xs.contains y := by
  rw [distinct, contains_distinctFrom, Std.HashSet.contains_empty, Bool.not_false, Bool.and_true]

/-- The set of values already seen does the work of a filter. -/
theorem distinctFrom_eq_eraseDups {seen : Std.HashSet κ} {xs : List κ} :
    distinctFrom seen xs = (xs.filter fun x => !seen.contains x).eraseDups := by
  induction xs generalizing seen with
  | nil => rfl
  | cons x xs ih =>
    have hmem (y : κ) : (!(seen.insert x).contains y) = (!y == x && !seen.contains y) := by
      rw [Std.HashSet.contains_insert, Bool.not_or, BEq.comm (a := x)]
    cases hx : seen.contains x with
    | true => simp only [distinctFrom, hx, if_true, ih, List.filter_cons, Bool.not_true,
        Bool.false_eq_true, if_false]
    | false => simp only [distinctFrom, hx, Bool.false_eq_true, if_false, ih, List.filter_cons,
        Bool.not_false, if_true, List.eraseDups_cons, List.filter_filter, hmem]

theorem distinct_eq_eraseDups (xs : List κ) : distinct xs = xs.eraseDups := by
  have hall : xs.filter (fun x => !(∅ : Std.HashSet κ).contains x) = xs := by simp
  rw [distinct, distinctFrom_eq_eraseDups, hall]

namespace Candidates

/-- The first occurrences of the values of a list. -/
def ofList (xs : List κ) : Candidates κ := ⟨distinct xs, nodup_distinctFrom _ _⟩

@[simp] theorem values_ofList (xs : List κ) : (ofList xs).values = distinct xs := rfl

end Candidates

end

end PlanShape
