import Mathlib.Data.Nat.Log
import PlanShape.Predicate.Balanced
import PlanShape.Predicate.Leaves

/-!
What balanced disjunctions are. A relation says which predicates join a list in order with the
halves of every part in balance, and the walk over the slots is shown to build such a predicate
out of exactly the slots of its range. Truth, leaves, depth and shape of the built predicate follow
by induction on the relation.
-/
namespace PlanShape

/-- `Balanced ps t`: the disjunctions of `t` join `ps` in order, and each of them has half of its
predicates, rounded down, on its left. -/
inductive Predicate.Balanced {ρ κ : Type} : List (Predicate ρ κ) → Predicate ρ κ → Prop where
  | single (p : Predicate ρ κ) : Balanced [p] p
  | join {ls rs : List (Predicate ρ κ)} {l r : Predicate ρ κ} (left : Balanced ls l)
    (right : Balanced rs r) (halves : ls.length = (ls.length + rs.length) / 2) :
    Balanced (ls ++ rs) (.disj l r)

namespace Predicate

variable {ρ κ : Type}

theorem Balanced.length_pos {ps : List (Predicate ρ κ)} {t : Predicate ρ κ} (h : Balanced ps t) :
    0 < ps.length := by
  induction h with
  | single p => simp
  | join left right halves ihl ihr => simp only [List.length_append]; omega

/-- The slots of a range of predicates, with other slots before and behind it. -/
def slotsAround (pre : List (Option (Predicate ρ κ))) (ps : List (Predicate ρ κ))
    (post : List (Option (Predicate ρ κ))) : Slots ρ κ := (pre ++ ps.map some ++ post).toArray

/-- The same slots after the predicates of the range have been taken. -/
def slotsTaken (pre : List (Option (Predicate ρ κ))) (n : Nat)
    (post : List (Option (Predicate ρ κ))) : Slots ρ κ :=
  (pre ++ List.replicate n none ++ post).toArray

/-- Behind the first predicates of a range wait the others. -/
theorem slotsAround_append (pre post : List (Option (Predicate ρ κ)))
    (ls rs : List (Predicate ρ κ)) :
    slotsAround pre (ls ++ rs) post = slotsAround pre ls (rs.map some ++ post) := by
  simp [slotsAround]

/-- Slots that have been emptied stand before the next range. -/
theorem slotsTaken_eq_slotsAround (pre post : List (Option (Predicate ρ κ))) (n : Nat)
    (rs : List (Predicate ρ κ)) :
    slotsTaken pre n (rs.map some ++ post) =
      slotsAround (pre ++ List.replicate n none) rs post := by
  simp [slotsAround, slotsTaken]

theorem slotsTaken_append (pre post : List (Option (Predicate ρ κ))) (m n : Nat) :
    slotsTaken (pre ++ List.replicate m none) n post = slotsTaken pre (m + n) post := by
  simp only [slotsTaken, List.append_assoc, ← List.replicate_append_replicate]

theorem takeSlot_filled (pre post : List (Option (Predicate ρ κ))) (p : Predicate ρ κ) :
    takeSlot pre.length (slotsAround pre [p] post) = (.ok p, slotsTaken pre 1 post) := by
  simp [takeSlot, slotsAround, slotsTaken]

/-- Two halves, each of which can be walked, make a range that can be walked. -/
theorem takeRange_halves {lo hi : Nat} {s s₁ s₂ : Slots ρ κ} {l r : Predicate ρ κ}
    (h : 1 < hi - lo) (left : takeRange lo (lo + (hi - lo) / 2) s = (.ok l, s₁))
    (right : takeRange (lo + (hi - lo) / 2) hi s₁ = (.ok r, s₂)) :
    takeRange lo hi s = (.ok (.disj l r), s₂) := by
  rw [takeRange, if_neg (by omega), if_neg (by omega)]
  simp only [left, right]

/-- A walk over filled slots builds a balanced disjunction of what they hold. It empties them and
leaves every other slot as it was, so the two halves of a range do not get in each other's way. -/
theorem takeRange_filled (pre post : List (Option (Predicate ρ κ))) (ps : List (Predicate ρ κ))
    (h : ps ≠ []) : ∃ t, Balanced ps t ∧
      takeRange pre.length (pre.length + ps.length) (slotsAround pre ps post) =
        (.ok t, slotsTaken pre ps.length post) := by
  induction hn : ps.length using Nat.strongRecOn generalizing pre post ps with
  | ind n ih =>
    have hpos : 0 < ps.length := List.length_pos_iff.2 h
    by_cases h1 : n = 1
    · obtain ⟨p, rfl⟩ := List.length_eq_one_iff.1 (hn.trans h1)
      refine ⟨p, .single p, ?_⟩
      subst h1
      rw [takeRange, if_pos (by omega)]
      exact takeSlot_filled pre post p
    · obtain ⟨ls, rs, rfl, hl, hr⟩ : ∃ ls rs, ps = ls ++ rs ∧ ls.length = n / 2 ∧
          rs.length = n - n / 2 :=
        ⟨ps.take (n / 2), ps.drop (n / 2), (List.take_append_drop _ _).symm,
          by rw [List.length_take]; omega, by rw [List.length_drop]; omega⟩
      obtain ⟨l, hbl, hwl⟩ := ih (n / 2) (by omega) pre (rs.map some ++ post) ls
        (List.ne_nil_of_length_pos (by omega)) hl
      obtain ⟨r, hbr, hwr⟩ := ih (n - n / 2) (by omega) (pre ++ List.replicate (n / 2) none) post rs
        (List.ne_nil_of_length_pos (by omega)) hr
      refine ⟨.disj l r, .join hbl hbr (by omega), ?_⟩
      have hmid : (pre ++ List.replicate (n / 2) (none : Option (Predicate ρ κ))).length =
          pre.length + n / 2 := by simp
      have hend : pre.length + n / 2 + (n - n / 2) = pre.length + n := by omega
      have hall : n / 2 + (n - n / 2) = n := by omega
      rw [hmid, hend, ← slotsTaken_eq_slotsAround, slotsTaken_append, hall] at hwr
      have hspan : pre.length + n - pre.length = n := Nat.add_sub_cancel_left ..
      rw [slotsAround_append]
      exact takeRange_halves (by omega) (by rw [hspan]; exact hwl) (by rw [hspan]; exact hwr)

/-- The disjunction of a list that is not empty always exists, and is reported with its length. -/
theorem anyOf_of_ne_nil {ps : List (Predicate ρ κ)} (h : ps ≠ []) :
    ∃ t, Balanced ps t ∧ anyOf ps = ⟨.ok t, [.treeBuilt ps.length], []⟩ := by
  obtain ⟨t, hb, hw⟩ := takeRange_filled [] [] ps h
  simp only [slotsAround, List.length_nil, List.nil_append, List.append_nil, Nat.zero_add] at hw
  refine ⟨t, hb, ?_⟩
  have hs : (ps.map some).toArray.size = ps.length := by simp
  have he : ps.isEmpty = false := by simpa using h
  simp only [anyOf, he, Traced.emit, Traced.bind_ok, hs, hw, Bool.false_eq_true, if_false]
  rfl

theorem Balanced.holds_iff [BEq κ] {ps : List (Predicate ρ κ)} {t : Predicate ρ κ}
    (h : Balanced ps t) (r : ρ) : t.holds r = true ↔ ∃ p ∈ ps, p.holds r = true := by
  induction h with
  | single p => simp
  | join left right halves ihl ihr =>
    simp only [holds_disj, Bool.or_eq_true, ihl, ihr, List.mem_append]
    constructor
    · rintro (⟨p, hp, hr⟩ | ⟨p, hp, hr⟩)
      · exact ⟨p, .inl hp, hr⟩
      · exact ⟨p, .inr hp, hr⟩
    · rintro ⟨p, hp | hp, hr⟩
      · exact .inl ⟨p, hp, hr⟩
      · exact .inr ⟨p, hp, hr⟩

theorem Balanced.leaves_eq {ps : List (Predicate ρ κ)} {t : Predicate ρ κ} (h : Balanced ps t) :
    t.leaves = ps.flatMap leaves := by
  induction h with
  | single p => simp
  | join left right halves ihl ihr =>
    simp only [leaves_eq_equalities] at ihl ihr
    simp [equalities, ihl, ihr]

/-- Equality leaves of one field, joined in balance, are a native list of their values. The two
compare in opposite orders. -/
theorem Balanced.holds_eq_member [BEq κ] (hsymm : ∀ a b : κ, (a == b) = (b == a))
    {field : Field ρ κ} {vs : List κ} {t : Predicate ρ κ}
    (h : Balanced (vs.map (.equals field)) t) (r : ρ) : t.holds r = (member field vs).holds r := by
  rw [Bool.eq_iff_iff, h.holds_iff, holds_member, List.any_eq_true]
  constructor
  · rintro ⟨p, hp, hr⟩
    obtain ⟨v, hv, rfl⟩ := List.mem_map.1 hp
    exact ⟨v, hv, (hsymm v _).trans hr⟩
  · rintro ⟨v, hv, hr⟩
    exact ⟨_, List.mem_map_of_mem hv, (hsymm _ v).trans hr⟩

/-- The larger half of a range has one level less than the range. -/
theorem clog_two_half {n : Nat} (h : 1 < n) : Nat.clog 2 n = Nat.clog 2 (n - n / 2) + 1 := by
  have hhalf : (n + 2 - 1) / 2 = n - n / 2 := by omega
  rw [Nat.clog_of_two_le (by decide) h, hhalf]

/-- Over predicates of one depth, halving adds as few levels as their number allows. -/
theorem Balanced.depth_eq {ps : List (Predicate ρ κ)} {t : Predicate ρ κ} {d : Nat}
    (h : Balanced ps t) (hd : ∀ p ∈ ps, p.depth = d) : t.depth = Nat.clog 2 ps.length + d := by
  induction h with
  | single p =>
    rw [hd p (List.mem_singleton_self p), List.length_singleton, Nat.clog_one_right, Nat.zero_add]
  | @join ls rs l r left right halves ihl ihr =>
    have hl := left.length_pos
    have hr := right.length_pos
    have hright : ls.length + rs.length - (ls.length + rs.length) / 2 = rs.length := by omega
    have hmono : Nat.clog 2 ls.length ≤ Nat.clog 2 rs.length := Nat.clog_mono_right 2 (by omega)
    have hlevel : Nat.clog 2 (ls.length + rs.length) = Nat.clog 2 rs.length + 1 := by
      rw [clog_two_half (by omega), hright]
    rw [depth, ihl fun p hp => hd p (List.mem_append_left _ hp),
      ihr fun p hp => hd p (List.mem_append_right _ hp), List.length_append, hlevel]
    omega

end Predicate

end PlanShape
