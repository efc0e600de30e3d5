import PlanShape.Proofs.Compile
import PlanShape.Proofs.FirstPlaces

/-!
Padding under every policy. An empty set stays empty, a size that cannot hold the values is refused,
and under every other answer the values come first and copies of the first one fill the rest. What
a list of that form has as elements, and what is left of it without repetitions, follows from the
form alone.
-/
namespace PlanShape

namespace Candidates

variable {κ : Type} [BEq κ]

/-- The values of the set in front, and copies of its first value behind them up to a size. -/
structure FilledTo (c : Candidates κ) (size : Nat) (padded : List κ) : Prop where
  length : padded.length = size
  front : padded.take c.size = c.values
  behind : ∀ x ∈ padded.drop c.size, c.first? = some x

theorem filledTo_padded {c : Candidates κ} {size : Nat} (h : c.values ≠ []) (hs : c.size ≤ size) :
    c.FilledTo size (c.padded size) := by
  obtain ⟨first, rest, hv, -⟩ := exists_cons h
  have hfirst : c.values.head? = some first := by rw [hv, List.head?_cons]
  have hpadded := padded_eq hfirst size
  constructor
  · exact length_padded h hs
  · rw [hpadded, Candidates.size, List.take_left]
  · intro x hx
    rw [hpadded, Candidates.size, List.drop_left] at hx
    obtain ⟨-, rfl⟩ := List.mem_replicate.1 hx
    exact hfirst

/-- Behind the values there are values again. -/
theorem FilledTo.exists_append {c : Candidates κ} {size : Nat} {padded : List κ}
    (h : c.FilledTo size padded) :
    ∃ copies, padded = c.values ++ copies ∧ ∀ x ∈ copies, x ∈ c.values := by
  refine ⟨padded.drop c.size, ?_, fun x hx => List.mem_of_head? (h.behind x hx)⟩
  calc padded = padded.take c.size ++ padded.drop c.size := (List.take_append_drop _ _).symm
    _ = c.values ++ padded.drop c.size := by rw [h.front]

theorem FilledTo.mem_iff {c : Candidates κ} {size : Nat} {padded : List κ}
    (h : c.FilledTo size padded) (x : κ) : x ∈ padded ↔ x ∈ c.values := by
  obtain ⟨copies, rfl, hcopies⟩ := h.exists_append
  rw [List.mem_append]
  exact ⟨fun hx => hx.elim id (hcopies x), .inl⟩

/-- Every way in which padding can end. -/
theorem padTo_cases (policy : SizePolicy) (c : Candidates κ) :
    (c.size = 0 ∧ (c.padTo policy).outcome = .ok []) ∨
    (1 ≤ c.size ∧ policy c.size < c.size ∧
      (c.padTo policy).outcome = .error (.undersized c.size (policy c.size))) ∨
    (1 ≤ c.size ∧ c.size ≤ policy c.size ∧ ∃ padded,
      (c.padTo policy).outcome = .ok padded ∧ c.FilledTo (policy c.size) padded) := by
  by_cases h : c.values = []
  · left
    exact ⟨congrArg List.length h, by simp [padTo, h]⟩
  have hpos := size_pos h
  by_cases hp : policy c.size < c.size
  · right; left
    exact ⟨hpos, hp, by rw [padTo_of_lt h hp]; rfl⟩
  · right; right
    have hle := Nat.not_lt.1 hp
    exact ⟨hpos, hle, _, by rw [padTo_of_le h hle], filledTo_padded h hle⟩

/-- No value is lost and none is added, whatever the policy is. -/
theorem mem_of_padTo_ok {policy : SizePolicy} {c : Candidates κ} {padded : List κ}
    (h : (c.padTo policy).outcome = .ok padded) (x : κ) : x ∈ padded ↔ x ∈ c.values := by
  obtain ⟨hzero, hok⟩ | ⟨-, -, herror⟩ | ⟨-, -, padded', hok, hfilled⟩ := padTo_cases policy c
  · obtain rfl : [] = padded := Except.ok.inj (hok.symm.trans h)
    rw [List.length_eq_zero_iff.1 hzero]
  · rw [herror] at h
    cases h
  · obtain rfl : padded' = padded := Except.ok.inj (hok.symm.trans h)
    exact hfilled.mem_iff x

section
variable [Hashable κ] [EquivBEq κ] [LawfulHashable κ]

theorem FilledTo.ofList_eq {c : Candidates κ} {size : Nat} {padded : List κ}
    (h : c.FilledTo size padded) : ofList padded = c := by
  obtain ⟨copies, rfl, hcopies⟩ := h.exists_append
  apply Candidates.ext
  rw [values_ofList]
  exact c.distinct_values_append hcopies

/-- A policy may answer what it likes. The empty set stays empty, and a set of `n` values is refused
exactly if the answer is less than `n`. Else the result has the length that was asked for, with the
values in front and copies of the first one behind them, so that its elements are those of the set
and dropping repetitions leads back to it. Padded candidates of a list contain what the list
contains. -/
theorem padTo_fills_up (policy : SizePolicy) :
    (∀ c : Candidates κ, c.size = 0 → (c.padTo policy).outcome = .ok []) ∧
    (∀ (c : Candidates κ) e, (c.padTo policy).outcome = .error e ↔
      1 ≤ c.size ∧ policy c.size < c.size ∧ e = .undersized c.size (policy c.size)) ∧
    (∀ c : Candidates κ, 1 ≤ c.size → c.size ≤ policy c.size → ∃ padded,
      (c.padTo policy).outcome = .ok padded ∧ c.FilledTo (policy c.size) padded ∧
      (∀ x, x ∈ padded ↔ x ∈ c.values) ∧ ofList padded = c) ∧
    ∀ (xs padded : List κ), ((ofList xs).padTo policy).outcome = .ok padded →
      ∀ x, padded.contains x = xs.contains x := by
  refine ⟨?_, ?_, ?_, ?_⟩
  · intro c hzero
    obtain ⟨-, hok⟩ | ⟨hpos, -⟩ | ⟨hpos, -⟩ := padTo_cases policy c
    · exact hok
    · omega
    · omega
  · intro c e
    obtain ⟨hzero, hok⟩ | ⟨hpos, hlt, herror⟩ | ⟨-, hle, padded, hok, -⟩ := padTo_cases policy c
    · simp [hok, hzero]
    · simp [herror, hpos, hlt, eq_comm]
    · simp [hok, Nat.not_lt.2 hle]
  · intro c hpos hle
    obtain ⟨hzero, -⟩ | ⟨-, hlt, -⟩ | ⟨-, -, padded, hok, hfilled⟩ := padTo_cases policy c
    · omega
    · omega
    · exact ⟨padded, hok, hfilled, hfilled.mem_iff, hfilled.ofList_eq⟩
  · intro xs padded hpadded x
    rw [← contains_distinct xs, ← values_ofList]
    exact contains_eq_of_mem_iff (mem_of_padTo_ok hpadded) x

/-- Two values under a policy that always answers five, under one that halves, and none at all. -/
theorem padTo_fills_up_two_values :
    (∃ padded, ((ofList [3, 1, 3]).padTo (.constant 5)).outcome = .ok padded ∧
      padded.length = 5 ∧ padded.take 2 = [3, 1] ∧ (∀ x ∈ padded.drop 2, x = 3) ∧
      ofList padded = ofList [3, 1, 3] ∧ ∀ x, padded.contains x = [3, 1, 3].contains x) ∧
    ((ofList [3, 1, 3]).padTo .half).outcome = .error (.undersized 2 1) ∧
    ((ofList ([] : List Nat)).padTo (.constant 5)).outcome = .ok [] := by
  have hvalues : (ofList [3, 1, 3]).values = [3, 1] := by simp [distinct, distinctFrom]
  have hsize : (ofList [3, 1, 3]).size = 2 := congrArg List.length hvalues
  refine ⟨?_, ?_, ?_⟩
  · obtain ⟨-, -, hfills, hlist⟩ := padTo_fills_up (κ := Nat) (.constant 5)
    obtain ⟨padded, hok, hfilled, -, hback⟩ :=
      hfills (ofList [3, 1, 3]) (by omega) (by rw [hsize]; decide)
    have hfront := hfilled.front
    have hbehind := hfilled.behind
    rw [hsize, hvalues] at hfront
    rw [hsize, first?, hvalues] at hbehind
    exact ⟨padded, hok, hfilled.length, hfront, fun x hx => (Option.some.inj (hbehind x hx)).symm,
      hback, hlist _ _ hok⟩
  · obtain ⟨-, herror, -, -⟩ := padTo_fills_up (κ := Nat) .half
    apply (herror _ _).2
    rw [hsize]
    decide
  · exact (padTo_fills_up (.constant 5)).1 _ rfl

end

end Candidates

end PlanShape
