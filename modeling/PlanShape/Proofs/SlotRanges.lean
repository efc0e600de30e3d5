import PlanShape.Proofs.Disjunction

/-!
Walks over ranges of slots. `takeRange` answers for every pair of bounds. A walk is more careful: it
only goes on where the bounds are in order and only opens a slot where there is one, and it has to
come to an end. Every range that is not empty and lies inside the slots has such a walk. It opens
the slots of the range one after the other, as far as they are filled, and empties them. As the left
half of a range leaves the right half as it was, the answer is known from the slots of the range
alone.
-/
namespace PlanShape

namespace Predicate

variable {ρ κ : Type}

/-- `Walk lo hi slots opened result slots'`: what becomes of the slots from `lo` up to `hi`, and
which slots are opened, in order. The walk needs `lo ≤ hi` to take a difference of the bounds, and
there is none for `lo = hi`, as its left half is the same range again. -/
inductive Walk : Nat → Nat → Slots ρ κ → List Nat →
    Except DisjunctionError (Predicate ρ κ) → Slots ρ κ → Prop where
  | slot {lo hi : Nat} {slots : Slots ρ κ} (one : hi - lo = 1) (inside : lo < slots.size) :
    Walk lo hi slots [lo] (takeSlot lo slots).1 (takeSlot lo slots).2
  | leftFails {lo hi : Nat} {s s₁ : Slots ρ κ} {is : List Nat} {e : DisjunctionError}
    (order : lo ≤ hi) (several : hi - lo ≠ 1)
    (left : Walk lo (lo + (hi - lo) / 2) s is (.error e) s₁) : Walk lo hi s is (.error e) s₁
  | rightFails {lo hi : Nat} {s s₁ s₂ : Slots ρ κ} {is js : List Nat} {l : Predicate ρ κ}
    {e : DisjunctionError} (order : lo ≤ hi) (several : hi - lo ≠ 1)
    (left : Walk lo (lo + (hi - lo) / 2) s is (.ok l) s₁)
    (right : Walk (lo + (hi - lo) / 2) hi s₁ js (.error e) s₂) :
    Walk lo hi s (is ++ js) (.error e) s₂
  | both {lo hi : Nat} {s s₁ s₂ : Slots ρ κ} {is js : List Nat} {l r : Predicate ρ κ}
    (order : lo ≤ hi) (several : hi - lo ≠ 1)
    (left : Walk lo (lo + (hi - lo) / 2) s is (.ok l) s₁)
    (right : Walk (lo + (hi - lo) / 2) hi s₁ js (.ok r) s₂) :
    Walk lo hi s (is ++ js) (.ok (.disj l r)) s₂

/-- All slots from `lo` up to `hi` hold a predicate. -/
def Filled (lo hi : Nat) (slots : Slots ρ κ) : Prop :=
  ∀ i, lo ≤ i → i < hi → ∃ p, slots[i]? = some (some p)

/-- The slots from `lo` up to `hi` hold nothing any more, and the others are as they were. -/
structure Emptied (lo hi : Nat) (slots slots' : Slots ρ κ) : Prop where
  size : slots'.size = slots.size
  inside : ∀ i, lo ≤ i → i < hi → slots'[i]? = some none
  outside : ∀ i, i < lo ∨ hi ≤ i → slots'[i]? = slots[i]?

/-- How far a walk comes: through the whole range if it is filled, else to the first empty slot. -/
inductive Reached (lo hi : Nat) (slots slots' : Slots ρ κ) (opened : List Nat) :
    Except DisjunctionError (Predicate ρ κ) → Prop where
  | all (t : Predicate ρ κ) (filled : Filled lo hi slots) (emptied : Emptied lo hi slots slots')
    (order : opened = List.range' lo (hi - lo)) : Reached lo hi slots slots' opened (.ok t)
  | gap (k : Nat) (lower : lo ≤ k) (upper : k < hi) (filled : Filled lo k slots)
    (empty : slots[k]? = some none) (emptied : Emptied lo k slots slots')
    (order : opened = List.range' lo (k + 1 - lo)) :
    Reached lo hi slots slots' opened (.error .empty)

theorem takeSlot_of_filled {i : Nat} {slots : Slots ρ κ} {p : Predicate ρ κ}
    (h : slots[i]? = some (some p)) : takeSlot i slots = (.ok p, slots.setIfInBounds i none) := by
  rw [takeSlot, h]

theorem takeSlot_of_empty {i : Nat} {slots : Slots ρ κ} (h : slots[i]? = some none) :
    takeSlot i slots = (.error .empty, slots) := by
  rw [takeSlot, h]

theorem takeSlot_congr {i j : Nat} {s u : Slots ρ κ} (h : u[j]? = s[i]?) :
    (takeSlot j u).1 = (takeSlot i s).1 := by
  rw [takeSlot, takeSlot, h]
  split <;> rfl

theorem emptied_setIfInBounds {i : Nat} {slots : Slots ρ κ} (h : i < slots.size) :
    Emptied i (i + 1) slots (slots.setIfInBounds i none) where
  size := Array.size_setIfInBounds
  inside j hlo hhi := by
    obtain rfl : j = i := by omega
    exact Array.getElem?_setIfInBounds_self_of_lt h
  outside j hj := Array.getElem?_setIfInBounds_ne (by omega)

theorem Emptied.refl (lo : Nat) (slots : Slots ρ κ) : Emptied lo lo slots slots where
  size := rfl
  inside _ hlo hhi := absurd hlo (Nat.not_le.2 hhi)
  outside _ _ := rfl

theorem Emptied.trans {lo mid hi : Nat} {s s₁ s₂ : Slots ρ κ} (h : Emptied lo mid s s₁)
    (h' : Emptied mid hi s₁ s₂) (hlo : lo ≤ mid) (hhi : mid ≤ hi) : Emptied lo hi s s₂ where
  size := h'.size.trans h.size
  inside i hi₁ hi₂ := by
    by_cases hmid : i < mid
    · rw [h'.outside i (.inl hmid)]
      exact h.inside i hi₁ hmid
    · exact h'.inside i (Nat.not_lt.1 hmid) hi₂
  outside i hi' := by
    rw [h'.outside i (by omega), h.outside i (by omega)]

/-- The slots of the second part are as full as before the first part was emptied. -/
theorem Filled.join {lo mid hi : Nat} {s s₁ : Slots ρ κ} (h : Filled lo mid s)
    (he : Emptied lo mid s s₁) (h' : Filled mid hi s₁) : Filled lo hi s := by
  intro i hlo hhi
  by_cases hmid : i < mid
  · exact h i hlo hmid
  · obtain ⟨p, hp⟩ := h' i (Nat.not_lt.1 hmid) hhi
    exact ⟨p, (he.outside i (.inr (Nat.not_lt.1 hmid))).symm.trans hp⟩

theorem range'_append_range' {lo mid hi : Nat} (hlo : lo ≤ mid) (hhi : mid ≤ hi) :
    List.range' lo (mid - lo) ++ List.range' mid (hi - mid) = List.range' lo (hi - lo) := by
  have hmid : mid = lo + (mid - lo) := by omega
  have hlen : mid - lo + (hi - mid) = hi - lo := by omega
  rw [← hlen, ← List.range'_append_1, ← hmid]

namespace Walk

variable {lo hi : Nat} {s s' : Slots ρ κ} {opened : List Nat}
  {result : Except DisjunctionError (Predicate ρ κ)}

/-- Only a range that is not empty can be walked to an end. -/
theorem lt (h : Walk lo hi s opened result s') : lo < hi := by
  induction h with
  | slot one inside => omega
  | leftFails order several left ih => omega
  | rightFails order several left right ihl ihr => omega
  | both order several left right ihl ihr => omega

theorem reached (h : Walk lo hi s opened result s') : Reached lo hi s s' opened result := by
  induction h with
  | @slot lo hi slots one inside =>
    obtain rfl : hi = lo + 1 := by omega
    have hone : lo + 1 - lo = 1 := by omega
    obtain ⟨content, hcontent⟩ : ∃ content, slots[lo]? = some content :=
      ⟨_, Array.getElem?_eq_getElem inside⟩
    cases content with
    | none =>
      rw [takeSlot_of_empty hcontent]
      refine .gap lo (Nat.le_refl lo) (Nat.lt_succ_self lo) ?_ hcontent (.refl lo slots) ?_
      · exact fun i hlo hhi => absurd hlo (Nat.not_le.2 hhi)
      · rw [hone, List.range'_one]
    | some p =>
      rw [takeSlot_of_filled hcontent]
      refine .all p ?_ (emptied_setIfInBounds inside) ?_
      · intro i hlo hhi
        obtain rfl : i = lo := by omega
        exact ⟨p, hcontent⟩
      · rw [hone, List.range'_one]
  | leftFails order several left ih =>
    have hmid := left.lt
    cases ih with
    | gap k lower upper filled empty emptied order =>
      exact .gap k lower (by omega) filled empty emptied order
  | rightFails order several left right ihl ihr =>
    have hmid := left.lt
    cases ihl with
    | all l filled emptied opened =>
      cases ihr with
      | gap k lower upper filled' empty emptied' opened' =>
        -- the slot that is found empty was empty before the left half was walked
        refine .gap k (by omega) upper (filled.join emptied filled') ?_
          (emptied.trans emptied' (by omega) lower) ?_
        · rw [← emptied.outside k (.inr lower)]
          exact empty
        · rw [opened, opened', range'_append_range' (by omega) (by omega)]
  | both order several left right ihl ihr =>
    have hmid := left.lt
    have hmid' := right.lt
    cases ihl with
    | all l filled emptied opened =>
      cases ihr with
      | all r filled' emptied' opened' =>
        refine .all _ (filled.join emptied filled')
          (emptied.trans emptied' (by omega) (by omega)) ?_
        rw [opened, opened', range'_append_range' (by omega) (by omega)]

theorem size_eq (h : Walk lo hi s opened result s') : s'.size = s.size := by
  cases h.reached with
  | all t filled emptied order => exact emptied.size
  | gap k lower upper filled empty emptied order => exact emptied.size

theorem outside (h : Walk lo hi s opened result s') {i : Nat} (hi' : i < lo ∨ hi ≤ i) :
    s'[i]? = s[i]? := by
  cases h.reached with
  | all t filled emptied order => exact emptied.outside i hi'
  | gap k lower upper filled empty emptied order => exact emptied.outside i (by omega)

theorem mem_opened (h : Walk lo hi s opened result s') {i : Nat} (hi' : i ∈ opened) :
    lo ≤ i ∧ i < hi := by
  cases h.reached with
  | all t filled emptied order =>
    rw [order, List.mem_range'_1] at hi'
    omega
  | gap k lower upper filled empty emptied order =>
    rw [order, List.mem_range'_1] at hi'
    omega

/-- A walk is one way to the answer of `takeRange`. -/
theorem takeRange_eq (h : Walk lo hi s opened result s') : takeRange lo hi s = (result, s') := by
  induction h with
  | slot one inside => rw [takeRange, if_pos one]
  | leftFails order several left ih =>
    have hlt := left.lt
    rw [takeRange, if_neg several, if_neg (by omega)]
    simp only [ih]
  | rightFails order several left right ihl ihr =>
    have hlt := left.lt
    rw [takeRange, if_neg several, if_neg (by omega)]
    simp only [ihl, ihr]
  | both order several left right ihl ihr =>
    have hlt := left.lt
    exact takeRange_halves (by omega) ihl ihr

end Walk

/-- A range inside the slots can be walked to an end unless it is empty. -/
theorem exists_walk {lo hi : Nat} {s : Slots ρ κ} (hlt : lo < hi) (hle : hi ≤ s.size) :
    ∃ opened result s', Walk lo hi s opened result s' := by
  induction hn : hi - lo using Nat.strongRecOn generalizing lo hi s with
  | ind n ih =>
    by_cases h1 : hi - lo = 1
    · exact ⟨_, _, _, .slot h1 (by omega)⟩
    · -- neither half is empty, so both are shorter than the range
      have horder : lo ≤ hi := Nat.le_of_lt hlt
      have hltl : lo < lo + (hi - lo) / 2 := by omega
      have hltr : lo + (hi - lo) / 2 < hi := by omega
      obtain ⟨is, result, s₁, left⟩ := ih _ (by omega) hltl (by omega : _ ≤ s.size) rfl
      cases result with
      | error e => exact ⟨_, _, _, .leftFails horder h1 left⟩
      | ok l =>
        have hle₁ : hi ≤ s₁.size := left.size_eq ▸ hle
        obtain ⟨js, result, s₂, right⟩ := ih _ (by omega) hltr hle₁ rfl
        cases result with
        | error e => exact ⟨_, _, _, .rightFails horder h1 left right⟩
        | ok r => exact ⟨_, _, _, .both horder h1 left right⟩

/-- The slots from `lo'` up to `hi'` hold the same as those from `lo` up to `hi`. -/
structure SameRange (lo hi lo' hi' : Nat) (s u : Slots ρ κ) : Prop where
  length : hi' - lo' = hi - lo
  content : ∀ i < hi - lo, u[lo' + i]? = s[lo + i]?

namespace SameRange

variable {lo hi lo' hi' : Nat} {s u : Slots ρ κ}

theorem leftHalf (h : SameRange lo hi lo' hi' s u) :
    SameRange lo (lo + (hi - lo) / 2) lo' (lo' + (hi' - lo') / 2) s u := by
  have hlen := h.length
  exact ⟨by omega, fun i hi => h.content i (by omega)⟩

/-- The right halves are still the same after a walk over each left half. -/
theorem rightHalf {s₁ u₁ : Slots ρ κ} {is js : List Nat}
    {result result' : Except DisjunctionError (Predicate ρ κ)} (h : SameRange lo hi lo' hi' s u)
    (left : Walk lo (lo + (hi - lo) / 2) s is result s₁)
    (left' : Walk lo' (lo' + (hi' - lo') / 2) u js result' u₁) :
    SameRange (lo + (hi - lo) / 2) hi (lo' + (hi' - lo') / 2) hi' s₁ u₁ := by
  have hlen := h.length
  have hlt := left.lt
  refine ⟨by omega, fun i hi' => ?_⟩
  rw [left.outside (.inr (by omega)), left'.outside (.inr (by omega)), hlen, Nat.add_assoc,
    Nat.add_assoc]
  exact h.content _ (by omega)

end SameRange

/-- Slots that hold the same are walked with the same result, wherever they stand. -/
theorem Walk.shift {lo hi lo' hi' : Nat} {s s' u : Slots ρ κ} {opened : List Nat}
    {result : Except DisjunctionError (Predicate ρ κ)} (h : Walk lo hi s opened result s')
    (hsame : SameRange lo hi lo' hi' s u) : ∃ opened' u', Walk lo' hi' u opened' result u' := by
  have hlen := hsame.length
  induction h generalizing lo' hi' u with
  | @slot lo hi s one inside =>
    have hfirst : u[lo']? = s[lo]? := hsame.content 0 (by omega)
    have hinside : lo' < u.size := by
      rw [Array.getElem?_eq_getElem inside] at hfirst
      exact (Array.getElem?_eq_some_iff.1 hfirst).1
    rw [← takeSlot_congr hfirst]
    exact ⟨_, _, .slot (by omega) hinside⟩
  | leftFails order several left ih =>
    have hlt := left.lt
    obtain ⟨is', u₁, left'⟩ := ih hsame.leftHalf hsame.leftHalf.length
    exact ⟨_, _, .leftFails (by omega) (by omega) left'⟩
  | rightFails order several left right ihl ihr =>
    have hlt := left.lt
    obtain ⟨is', u₁, left'⟩ := ihl hsame.leftHalf hsame.leftHalf.length
    have hright := hsame.rightHalf left left'
    obtain ⟨js', u₂, right'⟩ := ihr hright hright.length
    exact ⟨_, _, .rightFails (by omega) (by omega) left' right'⟩
  | both order several left right ihl ihr =>
    have hlt := left.lt
    obtain ⟨is', u₁, left'⟩ := ihl hsame.leftHalf hsame.leftHalf.length
    have hright := hsame.rightHalf left left'
    obtain ⟨js', u₂, right'⟩ := ihr hright hright.length
    exact ⟨_, _, .both (by omega) (by omega) left' right'⟩

/-- A range inside the slots that is not empty has a walk, so the answer for it is found without
taking a difference below zero and without opening any other slot. Slots outside the range stay as
they are. If the range is filled, there is an answer, every slot of the range has been opened once,
from left to right, and all of them are empty afterwards. If one of them is empty before, this is
the error. Slots with the same content give the same answer, in whatever array and at whatever place
they stand. -/
theorem takeRange_consumes_range {lo hi : Nat} {slots : Slots ρ κ} (hlt : lo < hi)
    (hle : hi ≤ slots.size) :
    (∃ opened, Walk lo hi slots opened (takeRange lo hi slots).1 (takeRange lo hi slots).2 ∧
      ∀ i ∈ opened, lo ≤ i ∧ i < hi) ∧
    (∀ i, i < lo ∨ hi ≤ i → (takeRange lo hi slots).2[i]? = slots[i]?) ∧
    ((∀ i, lo ≤ i → i < hi → ∃ p, slots[i]? = some (some p)) →
      ∃ t, (takeRange lo hi slots).1 = .ok t ∧
        Walk lo hi slots (List.range' lo (hi - lo)) (.ok t) (takeRange lo hi slots).2 ∧
        ∀ i, lo ≤ i → i < hi → (takeRange lo hi slots).2[i]? = some none) ∧
    ((∃ i, lo ≤ i ∧ i < hi ∧ slots[i]? = some none) →
      (takeRange lo hi slots).1 = .error .empty) ∧
    ∀ lo' hi' (other : Slots ρ κ), hi' - lo' = hi - lo →
      (∀ i < hi - lo, other[lo' + i]? = slots[lo + i]?) →
        (takeRange lo' hi' other).1 = (takeRange lo hi slots).1 := by
  obtain ⟨opened, result, slots', h⟩ := exists_walk hlt hle
  rw [h.takeRange_eq]
  refine ⟨⟨opened, h, fun i => h.mem_opened⟩, fun i => h.outside, ?_, ?_, ?_⟩
  · intro hfilled
    cases h.reached with
    | all t filled emptied order => exact ⟨t, rfl, order ▸ h, emptied.inside⟩
    | gap k lower upper filled empty emptied order =>
      obtain ⟨p, hp⟩ := hfilled k lower upper
      rw [empty] at hp
      cases hp
  · rintro ⟨i, hlo, hhi, hi'⟩
    cases h.reached with
    | all t filled emptied order =>
      obtain ⟨p, hp⟩ := filled i hlo hhi
      rw [hi'] at hp
      cases hp
    | gap k lower upper filled empty emptied order => rfl
  · intro lo' hi' other hlen hsame
    obtain ⟨opened', other', h'⟩ := h.shift ⟨hlen, hsame⟩
    rw [h'.takeRange_eq]

/-- Three filled slots between an empty one and another filled one, the same three slots with
nothing around them, and a range with a gap. -/
theorem takeRange_consumes_range_three_slots :
    let three : Slots Nat Nat := #[none, some .always, some .never, some .always, some .never]
    let alone : Slots Nat Nat := #[some .always, some .never, some .always]
    (∃ t, (takeRange 1 4 three).1 = .ok t ∧
      Walk 1 4 three [1, 2, 3] (.ok t) (takeRange 1 4 three).2) ∧
    (takeRange 1 4 three).2[2]? = some none ∧ (takeRange 1 4 three).2[4]? = some (some .never) ∧
    (takeRange 0 3 alone).1 = (takeRange 1 4 three).1 ∧
    (takeRange 0 5 three).1 = .error .empty := by
  intro three alone
  have hfilled : ∀ i, 1 ≤ i → i < 4 → ∃ p, three[i]? = some (some p) := by
    intro i hlo hhi
    obtain rfl | rfl | rfl : i = 1 ∨ i = 2 ∨ i = 3 := by omega
    · exact ⟨_, rfl⟩
    · exact ⟨_, rfl⟩
    · exact ⟨_, rfl⟩
  have hsame : ∀ i < 4 - 1, alone[0 + i]? = three[1 + i]? := by
    intro i hi
    obtain rfl | rfl | rfl : i = 0 ∨ i = 1 ∨ i = 2 := by omega
    · rfl
    · rfl
    · rfl
  obtain ⟨-, houtside, hall, -, hshift⟩ :=
    takeRange_consumes_range (by decide : 1 < 4) (by decide : 4 ≤ three.size)
  obtain ⟨-, -, -, hgap, -⟩ :=
    takeRange_consumes_range (by decide : 0 < 5) (by decide : 5 ≤ three.size)
  obtain ⟨t, hok, hwalk, hempty⟩ := hall hfilled
  exact ⟨⟨t, hok, hwalk⟩, hempty 2 (by decide) (by decide), houtside 4 (.inr (by decide)),
    hshift 0 3 alone rfl hsame, hgap ⟨0, by decide, by decide, rfl⟩⟩

end Predicate

end PlanShape
