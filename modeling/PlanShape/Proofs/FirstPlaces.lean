import Mathlib.Data.List.Induction
import Mathlib.Data.List.Nodup
import PlanShape.Candidates
import PlanShape.Field

/-!
What is kept when repetitions are dropped. Values that come by one at a time are kept if a hash set
does not hold them yet, and at every moment that set and the kept values have the same elements.
So a second list adds what the first one lacks, and by induction on the last value the kept values
are those at the positions that hold a value for the first time.
-/
namespace PlanShape

/-- Values on their way into a candidate set: those kept so far, in order, and a hash set that tells
whether a value is among them. -/
structure Collecting (κ : Type) [BEq κ] [Hashable κ] where
  seen : Std.HashSet κ
  kept : Array κ
  agree : ∀ x, seen.contains x = kept.contains x
  nodup : kept.toList.Pairwise fun x y => (x == y) = false

section
variable {κ : Type} [BEq κ] [Hashable κ] [EquivBEq κ] [LawfulHashable κ]

namespace Collecting

def start : Collecting κ := ⟨∅, #[], by simp, by simp⟩

/-- A value that has been seen is passed over, and a new one is kept behind the others. -/
def add (c : Collecting κ) (x : κ) : Collecting κ :=
  if new : c.seen.contains x = false then
    { seen := c.seen.insert x
      kept := c.kept.push x
      agree := by
        intro y
        rw [Std.HashSet.contains_insert, Array.contains_push, c.agree y, Bool.or_comm, BEq.comm]
      nodup := by
        rw [Array.toList_push, List.pairwise_append]
        refine ⟨c.nodup, List.pairwise_singleton _ x, ?_⟩
        intro y hy z hz
        obtain rfl := List.mem_singleton.1 hz
        -- a kept value equal to `z` would have been seen
        apply Bool.eq_false_iff.2
        intro hyz
        have hseen : c.kept.toList.contains z = true :=
          (List.contains_congr hyz).symm.trans (List.elem_eq_true_of_mem hy)
        rw [Array.contains_toList, ← c.agree, new] at hseen
        cases hseen }
  else c

def candidates (c : Collecting κ) : Candidates κ := ⟨c.kept.toList, c.nodup⟩

theorem add_of_seen {c : Collecting κ} {x : κ} (h : c.seen.contains x = true) : c.add x = c := by
  rw [add, dif_neg (by simp [h])]

theorem seen_add_of_new {c : Collecting κ} {x : κ} (h : c.seen.contains x = false) :
    (c.add x).seen = c.seen.insert x := by
  rw [add, dif_pos h]

theorem kept_add_of_new {c : Collecting κ} {x : κ} (h : c.seen.contains x = false) :
    (c.add x).kept = c.kept.push x := by
  rw [add, dif_pos h]

/-- From any state on, the values are kept that had not been seen when they came by. -/
theorem kept_foldl_add (c : Collecting κ) (xs : List κ) :
    (xs.foldl add c).kept.toList = c.kept.toList ++ distinctFrom c.seen xs := by
  induction xs generalizing c with
  | nil => simp [distinctFrom]
  | cons x xs ih =>
    rw [List.foldl_cons, ih, distinctFrom]
    cases hx : c.seen.contains x with
    | true => rw [add_of_seen hx, if_pos rfl]
    | false =>
      rw [seen_add_of_new hx, kept_add_of_new hx, Array.toList_push, List.append_assoc,
        List.singleton_append, if_neg Bool.false_ne_true]

/-- Set and kept values agree in the end too, so what has been seen then is what was seen before and
what came by. -/
theorem contains_seen_foldl_add (c : Collecting κ) (xs : List κ) (y : κ) :
    (xs.foldl add c).seen.contains y = (c.seen.contains y || xs.contains y) := by
  rw [agree, ← Array.contains_toList, kept_foldl_add, List.contains_append, Array.contains_toList,
    ← c.agree, contains_distinctFrom]
  cases c.seen.contains y <;> simp

end Collecting

/-- The candidates of a source that yields its values one by one. -/
def Candidates.collect (xs : List κ) : Candidates κ := (xs.foldl Collecting.add .start).candidates

theorem Candidates.values_collect (xs : List κ) : (collect xs).values = distinct xs :=
  Collecting.kept_foldl_add .start xs

/-- The more has been seen before, the fewer values are left, and the others stay as they are. -/
theorem distinctFrom_eq_filter {s t : Std.HashSet κ}
    (h : ∀ x, s.contains x = true → t.contains x = true) (xs : List κ) :
    distinctFrom t xs = (distinctFrom s xs).filter fun y => !t.contains y := by
  induction xs generalizing s t with
  | nil => rfl
  | cons x xs ih =>
    cases hs : s.contains x with
    | true =>
      rw [distinctFrom, if_pos (h x hs), distinctFrom, if_pos hs]
      exact ih h
    | false =>
      have hnew : ¬s.contains x = true := Bool.eq_false_iff.1 hs
      cases ht : t.contains x with
      | true =>
        have hle : ∀ y, (s.insert x).contains y = true → t.contains y = true := by
          intro y hy
          rw [Std.HashSet.contains_insert, Bool.or_eq_true] at hy
          rcases hy with hxy | hy
          · rwa [← Std.HashSet.contains_congr hxy]
          · exact h y hy
        rw [distinctFrom, if_pos ht, distinctFrom, if_neg hnew,
          List.filter_cons_of_neg (by simpa using ht)]
        exact ih hle
      | false =>
        have hle : ∀ y, (s.insert x).contains y = true → (t.insert x).contains y = true := by
          intro y hy
          rw [Std.HashSet.contains_insert, Bool.or_eq_true] at hy ⊢
          exact hy.imp_right (h y)
        -- `x` itself does not come again, so on what follows the two sets decide alike
        have hsame : (distinctFrom (s.insert x) xs).filter (fun y => !(t.insert x).contains y) =
            (distinctFrom (s.insert x) xs).filter fun y => !t.contains y := by
          apply List.filter_congr
          intro y hy
          have hne := not_contains_of_mem_distinctFrom hy
          rw [Std.HashSet.contains_insert, Bool.or_eq_false_iff] at hne
          rw [Std.HashSet.contains_insert, hne.1, Bool.false_or]
        rw [distinctFrom, if_neg (Bool.eq_false_iff.1 ht), distinctFrom, if_neg hnew,
          List.filter_cons_of_pos (by simpa using ht), ih hle, hsame]

/-- Behind a first list, a second one adds those of its values that the first one does not have. -/
theorem distinct_append (xs ys : List κ) :
    distinct (xs ++ ys) = distinct xs ++ (distinct ys).filter fun y => !xs.contains y := by
  have hseen (y : κ) : (xs.foldl Collecting.add .start).seen.contains y = xs.contains y := by
    rw [Collecting.contains_seen_foldl_add]
    simp [Collecting.start]
  calc distinct (xs ++ ys)
      = ((xs ++ ys).foldl Collecting.add .start).kept.toList :=
        (Candidates.values_collect (xs ++ ys)).symm
    _ = (Candidates.collect xs).values ++
          distinctFrom (xs.foldl Collecting.add .start).seen ys := by
        rw [List.foldl_append, Collecting.kept_foldl_add]
        rfl
    _ = distinct xs ++ (distinct ys).filter fun y => !xs.contains y := by
        rw [Candidates.values_collect, distinctFrom_eq_filter (s := ∅) (by simp)]
        simp only [hseen, distinct]

/-- Behind the values of a set, values that it has are repetitions. -/
theorem Candidates.distinct_values_append (c : Candidates κ) {ys : List κ}
    (h : ∀ y ∈ ys, y ∈ c.values) : distinct (c.values ++ ys) = c.values := by
  have hnone : (distinct ys).filter (fun y => !c.values.contains y) = [] := by
    rw [List.filter_eq_nil_iff]
    intro y hy
    simpa using List.elem_eq_true_of_mem (h y ((distinct_sublist ys).mem hy))
  rw [distinct_append, hnone, List.append_nil, distinct_of_nodup c.nodup]

theorem distinct_concat (xs : List κ) (x : κ) :
    distinct (xs ++ [x]) = distinct xs ++ if xs.contains x then [] else [x] := by
  rw [distinct_append, distinct_of_nodup (List.pairwise_singleton _ x)]
  cases hx : xs.contains x <;> simp [hx]

end

/-- No earlier position holds a value equal to the one at this position. -/
def IsFirst {κ : Type} [BEq κ] (xs : List κ) (i : Nat) : Prop :=
  ∀ j < i, (xs[j]? == xs[i]?) = false

section
variable {κ : Type} [BEq κ]

/-- What stands behind a position does not matter to it. -/
theorem isFirst_append_iff {xs : List κ} {i : Nat} (h : i < xs.length) (ys : List κ) :
    IsFirst (xs ++ ys) i ↔ IsFirst xs i := by
  have hget (j : Nat) (hj : j ≤ i) : (xs ++ ys)[j]? = xs[j]? :=
    List.getElem?_append_left (by omega)
  rw [IsFirst, IsFirst, hget i (Nat.le_refl i)]
  apply forall₂_congr
  intro j hj
  rw [hget j (Nat.le_of_lt hj)]

instance (xs : List κ) : DecidablePred (IsFirst xs) :=
  fun i => inferInstanceAs (Decidable (∀ j < i, (xs[j]? == xs[i]?) = false))

/-- The positions that hold a value for the first time. -/
def firstPlaces (xs : List κ) : List Nat := (List.range xs.length).filter (IsFirst xs ·)

variable [EquivBEq κ]

theorem isFirst_length_iff (xs : List κ) (x : κ) :
    IsFirst (xs ++ [x]) xs.length ↔ xs.contains x = false := by
  rw [IsFirst, List.getElem?_concat_length, ← List.any_beq', List.any_eq_false]
  constructor
  · intro hfirst y hy
    obtain ⟨j, hlt, rfl⟩ := List.mem_iff_getElem.1 hy
    have hj := hfirst j hlt
    rw [List.getElem?_append_left hlt, List.getElem?_eq_getElem hlt] at hj
    exact Bool.eq_false_iff.1 hj
  · intro hnone j hlt
    rw [List.getElem?_append_left hlt, List.getElem?_eq_getElem hlt]
    exact Bool.eq_false_iff.2 (hnone _ (List.getElem_mem hlt))

theorem firstPlaces_concat (xs : List κ) (x : κ) :
    firstPlaces (xs ++ [x]) = firstPlaces xs ++ if xs.contains x then [] else [xs.length] := by
  have hold : (List.range xs.length).filter (IsFirst (xs ++ [x]) ·) = firstPlaces xs := by
    apply List.filter_congr
    intro i hi
    rw [decide_eq_decide]
    exact isFirst_append_iff (List.mem_range.1 hi) [x]
  rw [firstPlaces, List.length_append, List.length_singleton, List.range_succ, List.filter_append,
    hold]
  congr 1
  cases hx : xs.contains x <;> simp [isFirst_length_iff, hx]

/-- What a list contains stands in it where it stands in every longer list. -/
theorem idxOf_append_of_contains {xs : List κ} {y : κ} (h : xs.contains y = true) (ys : List κ) :
    (xs ++ ys).idxOf y = xs.idxOf y ∧ xs.idxOf y < xs.length := by
  have hlt : xs.findIdx (· == y) < xs.length := by
    rw [List.findIdx_lt_length, ← List.any_eq_true, List.any_beq']
    exact h
  exact ⟨List.findIdx_append.trans (if_pos hlt), hlt⟩

/-- A value that a list does not contain stands behind it. -/
theorem idxOf_concat_of_not_contains {xs : List κ} {x : κ} (h : xs.contains x = false) :
    (xs ++ [x]).idxOf x = xs.length := by
  have hnone : xs.findIdx (· == x) = xs.length := by
    rw [← List.any_beq', List.any_eq_false] at h
    exact List.findIdx_eq_length_of_false fun y hy => Bool.eq_false_iff.2 (h y hy)
  change (xs ++ [x]).findIdx (· == x) = xs.length
  rw [List.findIdx_append, hnone, if_neg (Nat.lt_irrefl _), List.findIdx_singleton, if_pos BEq.rfl,
    Nat.zero_add]

variable [Hashable κ] [LawfulHashable κ]

theorem distinct_eq_at_firstPlaces (xs : List κ) :
    distinct xs = (firstPlaces xs).filterMap fun i => xs[i]? := by
  induction xs using List.reverseRecOn with
  | nil => rfl
  | append_singleton xs x ih =>
    have hold : (firstPlaces xs).filterMap (fun i => (xs ++ [x])[i]?) = distinct xs := by
      rw [ih]
      apply List.filterMap_congr
      intro i hi
      exact List.getElem?_append_left (List.mem_range.1 (List.mem_filter.1 hi).1)
    rw [distinct_concat, firstPlaces_concat, List.filterMap_append, hold]
    split <;> simp

/-- Values are kept in the order of their first positions. -/
theorem pairwise_idxOf_distinct (xs : List κ) :
    (distinct xs).Pairwise fun x y => xs.idxOf x < xs.idxOf y := by
  induction xs using List.reverseRecOn with
  | nil => exact List.Pairwise.nil
  | append_singleton xs x ih =>
    have hold (y : κ) (hy : y ∈ distinct xs) :
        (xs ++ [x]).idxOf y = xs.idxOf y ∧ xs.idxOf y < xs.length :=
      idxOf_append_of_contains (List.elem_eq_true_of_mem ((distinct_sublist xs).mem hy)) [x]
    rw [distinct_concat, List.pairwise_append]
    refine ⟨?_, by split <;> simp, ?_⟩
    · apply ih.imp_of_mem
      intro y z hy hz hlt
      rw [(hold y hy).1, (hold z hz).1]
      exact hlt
    · intro y hy z hz
      split at hz
      next => cases hz
      next hnew =>
        obtain rfl := List.mem_singleton.1 hz
        rw [(hold y hy).1, idxOf_concat_of_not_contains (Bool.eq_false_iff.2 hnew)]
        exact (hold y hy).2

/-- Of a list the values at its first places are kept, which are the positions whose value is equal
to none at an earlier position. So nothing is repeated, no element is lost or added, and values
follow each other as they are first seen. A second pass drops nothing, and behind a first list a
second one adds the values that the first one lacks. Values that come by one at a time give the same
candidates. -/
theorem distinct_keeps_first_places (xs : List κ) :
    distinct xs = (firstPlaces xs).filterMap (fun i => xs[i]?) ∧
    (distinct xs).Pairwise (fun x y => (x == y) = false) ∧
    (distinct xs).Sublist xs ∧ (∀ x, (distinct xs).contains x = xs.contains x) ∧
    (distinct xs).Pairwise (fun x y => xs.idxOf x < xs.idxOf y) ∧
    distinct (distinct xs) = distinct xs ∧
    (∀ ys, distinct (xs ++ ys) = distinct xs ++ (distinct ys).filter fun y => !xs.contains y) ∧
    Candidates.collect xs = Candidates.ofList xs := by
  have hnodup := nodup_distinctFrom ∅ xs
  refine ⟨distinct_eq_at_firstPlaces xs, hnodup, distinct_sublist xs, contains_distinct xs,
    pairwise_idxOf_distinct xs, distinct_of_nodup hnodup, distinct_append xs, ?_⟩
  exact Candidates.ext (Candidates.values_collect xs)

/-- Keys that are fields themselves, and equal if their names are. The first field of each name is
kept with its own way to read. -/
theorem distinct_keeps_first_places_by_name :
    let xs : List (Field Row Value) :=
      [.slot "b" 0, .slot "d" 1, .slot "b" 2, .slot "a" 3, .slot "d" 4]
    distinct xs = [.slot "b" 0, .slot "d" 1, .slot "a" 3] ∧
      (distinct xs).contains (.slot "d" 5) = true ∧ distinct (distinct xs) = distinct xs ∧
      distinct (xs ++ [.slot "a" 6, .slot "c" 7]) = distinct xs ++ [.slot "c" 7] := by
  intro xs
  obtain ⟨hplaces, -, -, hcontains, -, hagain, happend, -⟩ := distinct_keeps_first_places xs
  have hfirst : firstPlaces xs = [0, 1, 3] := by decide
  have hnew : distinct [Field.slot "a" 6, .slot "c" 7] = [.slot "a" 6, .slot "c" 7] :=
    distinct_of_nodup (by decide)
  rw [hfirst] at hplaces
  refine ⟨hplaces, (hcontains _).trans rfl, hagain, ?_⟩
  rw [happend, hnew]
  rfl

end

end PlanShape
