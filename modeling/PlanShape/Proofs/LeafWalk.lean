import PlanShape.Predicate.Leaves

/-!
The walk over the equality leaves, call by call. A call searches the stack of pending predicates
from its top until it meets a leaf. Every turn of a search leaves one constructor less to be
visited, so that searches end, and what the calls to come will answer can be read off the stack at
any time.
-/
namespace PlanShape

namespace Predicate

variable {ρ κ : Type}

/-- Number of equality leaves. -/
def equalityCount : Predicate ρ κ → Nat
  | .equals .. => 1
  | .disj p q => p.equalityCount + q.equalityCount
  | .neg p => p.equalityCount
  | .always | .never | .member .. => 0

theorem length_equalities (p : Predicate ρ κ) : p.equalities.length = p.equalityCount := by
  induction p with
  | always | never | equals | member => rfl
  | disj p q ihp ihq => rw [equalities, List.length_append, ihp, ihq, equalityCount]
  | neg p ih => exact ih

namespace Cursor

/-- One turn of a search. The predicate on top gives way to its operands, the left one above the
right one; it is found if it is a leaf, and passed over if it has no operands. -/
def turn : Cursor ρ κ → List (String × κ) × Cursor ρ κ
  | ⟨[]⟩ => ([], ⟨[]⟩)
  | ⟨.equals f v :: rest⟩ => ([(f.name, v)], ⟨rest⟩)
  | ⟨.disj p q :: rest⟩ => ([], ⟨p :: q :: rest⟩)
  | ⟨.neg p :: rest⟩ => ([], ⟨p :: rest⟩)
  | ⟨.always :: rest⟩ | ⟨.never :: rest⟩ | ⟨.member _ _ :: rest⟩ => ([], ⟨rest⟩)

/-- What so many turns find, and what they leave. -/
def turns : Nat → Cursor ρ κ → List (String × κ) × Cursor ρ κ
  | 0, c => ([], c)
  | n + 1, c => (c.turn.1 ++ (turns n c.turn.2).1, (turns n c.turn.2).2)

/-- One call: the next leaf if there is one, and the stack behind it. A search that meets no leaf
has taken everything off the stack. -/
def call (c : Cursor ρ κ) : Option (String × κ) × Cursor ρ κ :=
  match c.next? with
  | some (leaf, d) => (some leaf, d)
  | none => (none, ⟨[]⟩)

/-- What so many calls answer, and what they leave. -/
def calls : Nat → Cursor ρ κ → List (Option (String × κ)) × Cursor ρ κ
  | 0, c => ([], c)
  | n + 1, c => (c.call.1 :: (calls n c.call.2).1, (calls n c.call.2).2)

/-- A search ends on the empty stack or with a leaf, or else it goes on after a turn. -/
theorem next?_cases (c : Cursor ρ κ) :
    (c.next? = none ∧ c.pending = []) ∨
    (∃ leaf d, c.next? = some (leaf, d) ∧ c.turn = ([leaf], d) ∧ c.weight = d.weight + 1) ∨
    ∃ d, c.next? = d.next? ∧ c.turn = ([], d) ∧ c.weight = d.weight + 1 := by
  obtain ⟨pending⟩ := c
  cases pending with
  | nil =>
    left
    simp [next?]
  | cons p rest =>
    right
    cases p with
    | equals f v =>
      left
      exact ⟨_, _, by rw [next?], rfl, by simp [weight, nodeCount]; omega⟩
    | always | never | disj | neg | member =>
      right
      exact ⟨_, by rw [next?], rfl, by simp [weight, nodeCount]; omega⟩

/-- A turn takes nothing from the leaves still to come but what it finds. -/
theorem equalities_turn (c : Cursor ρ κ) : c.equalities = c.turn.1 ++ c.turn.2.equalities := by
  obtain ⟨pending⟩ := c
  cases pending with
  | nil => rfl
  | cons p rest => cases p <;> simp [turn, equalities, Predicate.equalities]

theorem equalities_turns (n : Nat) (c : Cursor ρ κ) :
    c.equalities = (c.turns n).1 ++ (c.turns n).2.equalities := by
  induction n generalizing c with
  | zero => rfl
  | succ n ih => rw [turns, List.append_assoc, ← ih, ← equalities_turn]

theorem weight_turn (c : Cursor ρ κ) : c.turn.2.weight = c.weight - 1 := by
  obtain ⟨-, hnil⟩ | ⟨leaf, d, -, ht, hw⟩ | ⟨d, -, ht, hw⟩ := next?_cases c
  · obtain rfl : c = ⟨[]⟩ := congrArg Cursor.mk hnil
    rfl
  · rw [ht, hw, Nat.add_sub_cancel]
  · rw [ht, hw, Nat.add_sub_cancel]

theorem weight_turns (n : Nat) (c : Cursor ρ κ) : (c.turns n).2.weight = c.weight - n := by
  induction n generalizing c with
  | zero => rfl
  | succ n ih =>
    rw [turns, ih, weight_turn]
    omega

theorem eq_nil_of_weight {c : Cursor ρ κ} (h : c.weight = 0) : c = ⟨[]⟩ := by
  obtain ⟨-, hnil⟩ | ⟨leaf, d, -, -, hw⟩ | ⟨d, -, -, hw⟩ := next?_cases c
  · exact congrArg Cursor.mk hnil
  · omega
  · omega

/-- As many turns as there are constructors find all leaves and empty the stack. -/
theorem turns_weight (c : Cursor ρ κ) : c.turns c.weight = (c.equalities, ⟨[]⟩) := by
  have hnil : (c.turns c.weight).2 = ⟨[]⟩ := eq_nil_of_weight (by rw [weight_turns, Nat.sub_self])
  have hfound := equalities_turns c.weight c
  rw [hnil] at hfound
  exact Prod.ext (by simpa [equalities] using hfound.symm) hnil

/-- A call is made of finitely many turns, no more than there are constructors on the stack. -/
theorem exists_turns_eq_call (c : Cursor ρ κ) :
    ∃ n, n ≤ c.weight ∧ c.turns n = (c.call.1.toList, c.call.2) := by
  induction hw : c.weight using Nat.strongRecOn generalizing c with
  | ind w ih =>
    obtain ⟨hn, hnil⟩ | ⟨leaf, d, hn, ht, hd⟩ | ⟨d, hn, ht, hd⟩ := next?_cases c
    · obtain rfl : c = ⟨[]⟩ := congrArg Cursor.mk hnil
      exact ⟨0, Nat.zero_le w, by simp [turns, call, hn]⟩
    · exact ⟨1, by omega, by simp [turns, call, hn, ht]⟩
    · obtain ⟨n, hle, hturns⟩ := ih d.weight (by omega) d rfl
      have hcall : c.call = d.call := by rw [call, call, hn]
      exact ⟨n + 1, by omega, by simp [turns, ht, hturns, hcall]⟩

/-- A call takes the first of the leaves that the stack holds. -/
theorem call_eq (c : Cursor ρ κ) :
    c.call.1 = c.equalities.head? ∧ c.call.2.equalities = c.equalities.tail := by
  rw [equalities_of_next? c, call]
  cases c.next? with
  | none => exact ⟨rfl, rfl⟩
  | some found => exact ⟨rfl, rfl⟩

/-- Calls answer the leaves in turn, and nothing once there are no more. -/
theorem answers_calls (n : Nat) (c : Cursor ρ κ) :
    (c.calls n).1 = (List.range n).map (c.equalities[·]?) := by
  induction n generalizing c with
  | zero => rfl
  | succ n ih =>
    obtain ⟨hanswer, hrest⟩ := call_eq c
    rw [calls, ih, hanswer, hrest, List.range_succ_eq_map, List.map_cons, List.map_map,
      List.head?_eq_getElem?]
    simp [Function.comp_def]

theorem equalities_calls (n : Nat) (c : Cursor ρ κ) :
    (c.calls n).2.equalities = c.equalities.drop n := by
  induction n generalizing c with
  | zero => rfl
  | succ n ih => rw [calls, ih, (call_eq c).2, List.drop_tail]

theorem call_of_equalities_nil {c : Cursor ρ κ} (h : c.equalities = []) :
    c.call = (none, ⟨[]⟩) := by
  rw [equalities_of_next? c] at h
  rw [call]
  cases hn : c.next? with
  | none => rfl
  | some found =>
    rw [hn] at h
    cases h

theorem calls_nil (n : Nat) : (calls n (⟨[]⟩ : Cursor ρ κ)).2 = ⟨[]⟩ := by
  induction n with
  | zero => rfl
  | succ n ih => rw [calls, call_of_equalities_nil rfl, ih]

/-- A call that answers nothing leaves the empty stack, and it stays empty. -/
theorem calls_of_length_lt {n : Nat} {c : Cursor ρ κ} (h : c.equalities.length < n) :
    (c.calls n).2 = ⟨[]⟩ := by
  induction n generalizing c with
  | zero => omega
  | succ n ih =>
    rw [calls]
    by_cases hnil : c.equalities = []
    · rw [call_of_equalities_nil hnil]
      exact calls_nil n
    · have hpos := List.length_pos_iff.2 hnil
      apply ih
      rw [(call_eq c).2, List.length_tail]
      omega

end Cursor

/-- The walk over the equality leaves of a predicate. It visits them in the order of the recursion,
in as many turns as there are constructors. After any number of calls the stack holds the leaves
that are still to come, and after a call that answers nothing it stays empty. Whatever a stack
holds, the next call ends after finitely many turns, and all calls to come answer the leaves of the
pending predicates from the top down. -/
theorem leaves_in_order (p : Predicate ρ κ) :
    p.leaves = p.equalities ∧ p.leafCount = p.equalityCount ∧
    p.cursor.turns p.nodeCount = (p.equalities, ⟨[]⟩) ∧
    (∀ n, (p.cursor.calls n).1 = (List.range n).map (p.equalities[·]?) ∧
      (p.cursor.calls n).2.pending.flatMap equalities = p.equalities.drop n ∧
      (p.cursor.calls (p.equalityCount + 1 + n)).2 = ⟨[]⟩) ∧
    ∀ c : Cursor ρ κ,
      (∃ k, k ≤ c.weight ∧ c.turns k = (c.call.1.toList, c.call.2)) ∧
      ∀ m, (c.calls m).1 = (List.range m).map ((c.pending.flatMap equalities)[·]?) := by
  have hcursor : p.cursor.equalities = p.equalities := by simp [cursor, Cursor.equalities]
  refine ⟨leaves_eq_equalities p, ?_, ?_, ?_, ?_⟩
  · rw [leafCount, leaves_eq_equalities, length_equalities]
  · have hweight : p.cursor.weight = p.nodeCount := rfl
    rw [← hweight, Cursor.turns_weight, hcursor]
  · intro n
    refine ⟨by rw [Cursor.answers_calls, hcursor], ?_, ?_⟩
    · rw [← hcursor]
      exact Cursor.equalities_calls n p.cursor
    · apply Cursor.calls_of_length_lt
      rw [hcursor, length_equalities]
      omega
  · intro c
    exact ⟨c.exists_turns_eq_call, fun m => Cursor.answers_calls m c⟩

end Predicate

end PlanShape
