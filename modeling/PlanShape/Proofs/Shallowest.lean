import Mathlib
import PlanShape.Proofs.Disjunction

/-!
No predicate has its leaves on fewer levels than a balanced disjunction. A predicate of depth `d`
has at most `2 ^ d` equality leaves, whatever else it is made of, and balanced disjunctions of
leaves have no more levels than this allows. Chains have one level for each disjunction.
-/
namespace PlanShape

namespace Predicate

variable {ρ κ : Type}

/-- One more level at most doubles the number of leaves. -/
theorem leafCount_le_two_pow_depth (p : Predicate ρ κ) : p.leafCount ≤ 2 ^ p.depth := by
  induction p with
  | always | never | equals | member => simp [leafCount, equalities, depth]
  | neg p ih =>
    rw [leafCount_neg]
    exact ih
  | disj p q ihp ihq =>
    have hp : 2 ^ p.depth ≤ 2 ^ max p.depth q.depth :=
      Nat.pow_le_pow_right (by decide) (Nat.le_max_left _ _)
    have hq : 2 ^ q.depth ≤ 2 ^ max p.depth q.depth :=
      Nat.pow_le_pow_right (by decide) (Nat.le_max_right _ _)
    calc (disj p q).leafCount
        = p.leafCount + q.leafCount := leafCount_disj p q
      _ ≤ 2 ^ max p.depth q.depth + 2 ^ max p.depth q.depth :=
          Nat.add_le_add (ihp.trans hp) (ihq.trans hq)
      _ = 2 ^ (disj p q).depth := by rw [depth, Nat.add_comm 1, Nat.pow_succ, Nat.mul_two]

theorem clog_le_depth {m : Nat} {p : Predicate ρ κ} (h : m ≤ p.leafCount) :
    Nat.clog 2 m ≤ p.depth :=
  Nat.clog_le_of_le_pow (h.trans p.leafCount_le_two_pow_depth)

/-- From four leaves on, halving needs fewer levels than there are disjunctions. -/
theorem clog_two_lt_pred {m : Nat} (h : 4 ≤ m) : Nat.clog 2 m < m - 1 := by
  obtain ⟨k, rfl⟩ := Nat.exists_eq_add_of_le h
  have hpow : k + 1 < 2 ^ (k + 1) := Nat.lt_two_pow_self
  have hroom : 4 + k ≤ 2 ^ (k + 2) := by
    rw [Nat.pow_succ]
    omega
  have hlevels := Nat.clog_le_of_le_pow hroom
  omega

/-- Every further predicate puts one more disjunction above all earlier ones. -/
theorem depth_leftChain (p : Predicate ρ κ) {ps : List (Predicate ρ κ)}
    (h : ∀ q ∈ ps, q.depth = 0) : (leftChain p ps).depth = p.depth + ps.length := by
  induction ps generalizing p with
  | nil => rfl
  | cons q qs ih =>
    have hq : q.depth = 0 := h q List.mem_cons_self
    rw [leftChain, ih (.disj p q) fun r hr => h r (List.mem_cons_of_mem q hr), depth, hq,
      List.length_cons]
    omega

theorem depth_rightChain {p : Predicate ρ κ} {ps : List (Predicate ρ κ)}
    (h : ∀ q ∈ p :: ps, q.depth = 0) : (rightChain p ps).depth = ps.length := by
  induction ps generalizing p with
  | nil => exact h p List.mem_cons_self
  | cons q qs ih =>
    have hp : p.depth = 0 := h p List.mem_cons_self
    rw [rightChain, depth, hp, ih fun r hr => h r (List.mem_cons_of_mem p hr), List.length_cons]
    omega

theorem leaves_leftChain (p : Predicate ρ κ) (ps : List (Predicate ρ κ)) :
    (leftChain p ps).leaves = (p :: ps).flatMap leaves := by
  induction ps generalizing p with
  | nil => simp [leftChain]
  | cons q qs ih =>
    rw [leftChain, ih]
    simp [equalities]

theorem leaves_rightChain (p : Predicate ρ κ) (ps : List (Predicate ρ κ)) :
    (rightChain p ps).leaves = (p :: ps).flatMap leaves := by
  induction ps generalizing p with
  | nil => simp [rightChain]
  | cons q qs ih =>
    rw [leaves_eq_equalities, rightChain, equalities, ← leaves_eq_equalities (rightChain q qs), ih]
    simp

/-- A predicate of depth `d` has at most `2 ^ d` leaves. So no predicate that has as many leaves as
a list of leaves, built in any way and over any records, is less deep than the disjunction of the
list, which always exists. The two chains of the list have the same leaves, and from four leaves on
they are deeper. -/
theorem anyOf_shallowest :
    (∀ p : Predicate ρ κ, p.leafCount ≤ 2 ^ p.depth) ∧
    ∀ (leaf : Predicate ρ κ) (rest : List (Predicate ρ κ)),
      (∀ p ∈ leaf :: rest, ∃ field value, p = .equals field value) →
      ∃ t, (anyOf (leaf :: rest)).outcome = .ok t ∧
        (∀ {ρ' κ' : Type} (q : Predicate ρ' κ'),
          (leaf :: rest).length ≤ q.leafCount → t.depth ≤ q.depth) ∧
        (leftChain leaf rest).leaves = t.leaves ∧ (rightChain leaf rest).leaves = t.leaves ∧
        (4 ≤ (leaf :: rest).length →
          t.depth < (leftChain leaf rest).depth ∧ t.depth < (rightChain leaf rest).depth) := by
  refine ⟨leafCount_le_two_pow_depth, ?_⟩
  intro leaf rest hleaves
  have hflat : ∀ p ∈ leaf :: rest, p.depth = 0 := by
    intro p hp
    obtain ⟨field, value, rfl⟩ := hleaves p hp
    rfl
  obtain ⟨t, hb, ha⟩ := anyOf_of_ne_nil (List.cons_ne_nil leaf rest)
  have hdepth : t.depth = Nat.clog 2 (leaf :: rest).length := hb.depth_eq hflat
  refine ⟨t, congrArg Traced.outcome ha, ?_, (leaves_leftChain leaf rest).trans hb.leaves_eq.symm,
    (leaves_rightChain leaf rest).trans hb.leaves_eq.symm, ?_⟩
  · intro ρ' κ' q hq
    rw [hdepth]
    exact clog_le_depth hq
  · intro hmany
    have hless := clog_two_lt_pred hmany
    rw [← hdepth, List.length_cons, Nat.add_sub_cancel] at hless
    rw [depth_leftChain leaf fun q hq => hflat q (List.mem_cons_of_mem leaf hq),
      depth_rightChain hflat, hflat leaf List.mem_cons_self, Nat.zero_add]
    exact ⟨hless, hless⟩

/-- Five leaves: a negated disjunction of a list and five leaves over other records is as deep as
their disjunction at least, and both chains are deeper. -/
theorem anyOf_shallowest_five_leaves :
    let leaf (n : Nat) : Predicate Nat Nat := .equals ⟨"k", id⟩ n
    let other : Predicate Row Value := .equals (.slot "m" 0) .null
    let q := neg (disj (disj other other) (disj (member (.slot "m" 0) []) (disj other
      (disj other other))))
    ∃ t, (anyOf [leaf 1, leaf 2, leaf 3, leaf 4, leaf 5]).outcome = .ok t ∧ t.depth ≤ q.depth ∧
      t.depth < (leftChain (leaf 1) [leaf 2, leaf 3, leaf 4, leaf 5]).depth ∧
      t.depth < (rightChain (leaf 1) [leaf 2, leaf 3, leaf 4, leaf 5]).depth := by
  intro leaf other q
  have hleaves : ∀ p ∈ [leaf 1, leaf 2, leaf 3, leaf 4, leaf 5],
      ∃ field value, p = .equals field value := by
    intro p hp
    obtain ⟨n, -, rfl⟩ := List.mem_map.1 (show p ∈ [1, 2, 3, 4, 5].map leaf from hp)
    exact ⟨_, n, rfl⟩
  have hq : q.leafCount = 5 := by simp [q, other, leafCount, equalities]
  obtain ⟨t, ht, hshallow, -, -, hchains⟩ := anyOf_shallowest.2 _ _ hleaves
  exact ⟨t, ht, hshallow q hq.ge, hchains (by decide)⟩

end Predicate

end PlanShape
