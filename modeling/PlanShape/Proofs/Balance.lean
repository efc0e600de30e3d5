import PlanShape.Proofs.Disjunction

/-!
Where the predicates of a balanced disjunction stand. The disjunctions that were added form a tree
of their own over the given predicates. As every one of them halves what stands below it, the number
of disjunctions above a predicate lies between the two logarithms of the number of predicates, and
the depth of the whole follows from the places and the depths of the predicates.
-/
namespace PlanShape

/-- The disjunctions that join given predicates, apart from those inside the predicates. -/
inductive Joins (ρ κ : Type) where
  | input (p : Predicate ρ κ)
  | join (left right : Joins ρ κ)

namespace Joins

variable {ρ κ : Type}

/-- The joined predicate. -/
def built : Joins ρ κ → Predicate ρ κ
  | .input p => p
  | .join l r => .disj l.built r.built

/-- The given predicates from left to right. -/
def inputs : Joins ρ κ → List (Predicate ρ κ)
  | .input p => [p]
  | .join l r => l.inputs ++ r.inputs

/-- The number of added disjunctions. -/
def count : Joins ρ κ → Nat
  | .input _ => 0
  | .join l r => l.count + r.count + 1

/-- A given predicate together with the number of added disjunctions above it. -/
inductive Places : Joins ρ κ → Predicate ρ κ → Nat → Prop where
  | input (p : Predicate ρ κ) : Places (.input p) p 0
  | left {l : Joins ρ κ} {p : Predicate ρ κ} {n : Nat} (r : Joins ρ κ) (inside : Places l p n) :
    Places (.join l r) p (n + 1)
  | right {r : Joins ρ κ} {p : Predicate ρ κ} {n : Nat} (l : Joins ρ κ) (inside : Places r p n) :
    Places (.join l r) p (n + 1)

/-- Every added disjunction over `k` predicates has half of them on its left, rounded down, and half
of them on its right, rounded up. -/
def Halved : Joins ρ κ → Prop
  | .input _ => True
  | .join l r =>
    l.inputs.length = (l.inputs.length + r.inputs.length) / 2 ∧
      r.inputs.length = (l.inputs.length + r.inputs.length + 1) / 2 ∧ l.Halved ∧ r.Halved

theorem length_inputs (t : Joins ρ κ) : t.inputs.length = t.count + 1 := by
  induction t with
  | input p => rfl
  | join l r ihl ihr =>
    rw [inputs, count, List.length_append, ihl, ihr]
    omega

/-- Every input has a place. -/
theorem exists_places {t : Joins ρ κ} {p : Predicate ρ κ} (h : p ∈ t.inputs) :
    ∃ n, t.Places p n := by
  induction t with
  | input q =>
    obtain rfl := List.mem_singleton.1 h
    exact ⟨0, .input p⟩
  | join l r ihl ihr =>
    rcases List.mem_append.1 h with h | h
    · obtain ⟨n, hn⟩ := ihl h
      exact ⟨n + 1, .left r hn⟩
    · obtain ⟨n, hn⟩ := ihr h
      exact ⟨n + 1, .right l hn⟩

theorem Places.mem_inputs {t : Joins ρ κ} {p : Predicate ρ κ} {n : Nat} (h : t.Places p n) :
    p ∈ t.inputs := by
  induction h with
  | input p => exact List.mem_singleton_self p
  | left r inside ih => exact List.mem_append_left _ ih
  | right l inside ih => exact List.mem_append_right _ ih

/-- What stands below so many disjunctions makes the whole at least so much deeper. -/
theorem Places.add_depth_le {t : Joins ρ κ} {p : Predicate ρ κ} {n : Nat} (h : t.Places p n) :
    n + p.depth ≤ t.built.depth := by
  induction h with
  | input p => exact Nat.le_of_eq (Nat.zero_add _)
  | left r inside ih =>
    rw [built, Predicate.depth]
    omega
  | right l inside ih =>
    rw [built, Predicate.depth]
    omega

/-- Some input is as deep as the whole, its place counted in. -/
theorem exists_places_depth (t : Joins ρ κ) :
    ∃ p n, t.Places p n ∧ t.built.depth = n + p.depth := by
  induction t with
  | input p => exact ⟨p, 0, .input p, (Nat.zero_add _).symm⟩
  | join l r ihl ihr =>
    obtain ⟨p, m, hp, hl⟩ := ihl
    obtain ⟨q, n, hq, hr⟩ := ihr
    rw [built, Predicate.depth]
    by_cases hd : l.built.depth ≤ r.built.depth
    · exact ⟨q, n + 1, .right l hq, by omega⟩
    · exact ⟨p, m + 1, .left r hp, by omega⟩

end Joins

/-- The smaller half of a range has one level less in its shortest way down. -/
theorem log_two_half {n : Nat} (h : 1 < n) : Nat.log 2 n = Nat.log 2 (n / 2) + 1 :=
  Nat.log_of_one_lt_of_le (by decide) h

theorem clog_two_le_log_two_succ (n : Nat) : Nat.clog 2 n ≤ Nat.log 2 n + 1 :=
  Nat.clog_le_of_le_pow (Nat.lt_pow_succ_log_self (by decide) n).le

namespace Joins

variable {ρ κ : Type}

/-- The two sides of an added disjunction, by the number of predicates below it. -/
theorem Halved.sides {l r : Joins ρ κ} (h : (join l r).Halved) :
    1 < (join l r).inputs.length ∧ (join l r).inputs.length / 2 = l.inputs.length ∧
      (join l r).inputs.length - (join l r).inputs.length / 2 = r.inputs.length ∧
      l.inputs.length ≤ r.inputs.length := by
  obtain ⟨hl, hr, -, -⟩ := h
  have hll := l.length_inputs
  have hrl := r.length_inputs
  rw [inputs, List.length_append]
  omega

/-- Halving leads to a single predicate in as many steps as one of the two logarithms has. -/
theorem Places.level_bounds {t : Joins ρ κ} {p : Predicate ρ κ} {n : Nat} (h : t.Places p n)
    (ht : t.Halved) : Nat.log 2 t.inputs.length ≤ n ∧ n ≤ Nat.clog 2 t.inputs.length := by
  induction h with
  | input p => simp [inputs]
  | @left l p n r inside ih =>
    obtain ⟨hk, hhalf, hrest, hle⟩ := Halved.sides ht
    obtain ⟨hlow, hhigh⟩ := ih ht.2.2.1
    have hmono := Nat.clog_mono_right 2 hle
    rw [log_two_half hk, Predicate.clog_two_half hk, hrest, hhalf]
    omega
  | @right r p n l inside ih =>
    obtain ⟨hk, hhalf, hrest, hle⟩ := Halved.sides ht
    obtain ⟨hlow, hhigh⟩ := ih ht.2.2.2
    have hmono := Nat.log_mono_right (b := 2) hle
    rw [log_two_half hk, Predicate.clog_two_half hk, hrest, hhalf]
    omega

/-- There is no number strictly between the two logarithms. -/
theorem Places.level_eq {t : Joins ρ κ} {p : Predicate ρ κ} {n : Nat} (h : t.Places p n)
    (ht : t.Halved) : n = Nat.log 2 t.inputs.length ∨ n = Nat.clog 2 t.inputs.length := by
  have hbounds := h.level_bounds ht
  have hgap := clog_two_le_log_two_succ t.inputs.length
  omega

/-- The depth of the whole lies above the depth of its deepest input by one of the two logarithms
or between them. -/
theorem depth_bounds {t : Joins ρ κ} (ht : t.Halved) {d : Nat}
    (hd : (t.inputs.map Predicate.depth).max? = some d) :
    Nat.log 2 t.inputs.length + d ≤ t.built.depth ∧
      t.built.depth ≤ Nat.clog 2 t.inputs.length + d := by
  obtain ⟨hmem, hmax⟩ := List.max?_eq_some_iff.1 hd
  constructor
  · obtain ⟨p, hp, rfl⟩ := List.mem_map.1 hmem
    obtain ⟨n, hn⟩ := exists_places hp
    have hlevel := (hn.level_bounds ht).1
    have hdeep := hn.add_depth_le
    omega
  · obtain ⟨p, n, hn, hdepth⟩ := t.exists_places_depth
    have hlevel := (hn.level_bounds ht).2
    have hle := hmax _ (List.mem_map_of_mem hn.mem_inputs)
    omega

end Joins

namespace Predicate

variable {ρ κ : Type}

theorem Balanced.exists_joins {ps : List (Predicate ρ κ)} {q : Predicate ρ κ}
    (h : Balanced ps q) : ∃ t : Joins ρ κ, t.built = q ∧ t.inputs = ps ∧ t.Halved := by
  induction h with
  | single p => exact ⟨.input p, rfl, rfl, trivial⟩
  | join left right halves ihl ihr =>
    obtain ⟨l, rfl, rfl, hl⟩ := ihl
    obtain ⟨r, rfl, rfl, hr⟩ := ihr
    exact ⟨.join l r, rfl, rfl, halves, by omega, hl, hr⟩

/-- A disjunction of `m` predicates exists for every `m` but zero. It adds `m - 1` disjunctions,
over the predicates as they are and in their order, and each of them halves what it joins. So every
predicate stands below one of the two logarithms of `m` many of them, and the depth is that of the
deepest predicate with as much on top. -/
theorem anyOf_halves {ps : List (Predicate ρ κ)} (h : ps ≠ []) :
    ∃ t : Joins ρ κ, (anyOf ps).outcome = .ok t.built ∧ t.inputs = ps ∧
      t.count = ps.length - 1 ∧ t.Halved ∧
      (∀ p ∈ ps, (∃ n, t.Places p n) ∧
        ∀ n, t.Places p n → n = Nat.log 2 ps.length ∨ n = Nat.clog 2 ps.length) ∧
      (∃ d, (ps.map depth).max? = some d ∧
        Nat.log 2 ps.length + d ≤ t.built.depth ∧ t.built.depth ≤ Nat.clog 2 ps.length + d) ∧
      ((∀ p ∈ ps, p.depth = 0) → t.built.depth = Nat.clog 2 ps.length) := by
  obtain ⟨q, hb, ha⟩ := anyOf_of_ne_nil h
  obtain ⟨t, rfl, rfl, ht⟩ := hb.exists_joins
  have hlen := t.length_inputs
  refine ⟨t, congrArg Traced.outcome ha, rfl, by omega, ht, ?_, ?_, ?_⟩
  · intro p hp
    exact ⟨Joins.exists_places hp, fun n hn => hn.level_eq ht⟩
  · have hne : t.inputs.map depth ≠ [] := by simpa using h
    obtain ⟨d, hd⟩ := Option.isSome_iff_exists.1 (List.isSome_max?_of_ne_nil hne)
    exact ⟨d, hd, Joins.depth_bounds ht hd⟩
  · intro hflat
    exact hb.depth_eq hflat

/-- Three predicates of different depths stand one level or two below the root, which makes at most
two levels more than the deepest of them has. Three constants are joined on two levels. -/
theorem anyOf_halves_three :
    (∃ t : Joins Nat Nat,
      (anyOf [.neg .always, .disj (.disj .never .always) (.equals ⟨"k", id⟩ 1),
        .member ⟨"k", id⟩ [2, 3]]).outcome = .ok t.built ∧
      t.count = 2 ∧ (∀ n, t.Places (.neg .always) n → n = 1 ∨ n = 2) ∧
      3 ≤ t.built.depth ∧ t.built.depth ≤ 4) ∧
    ∃ t : Joins Nat Nat, (anyOf [.always, .never, .never]).outcome = .ok t.built ∧
      t.built.depth = 2 := by
  have hlog : Nat.log 2 3 = 1 := by decide
  have hclog : Nat.clog 2 3 = 2 := by decide
  constructor
  · obtain ⟨t, ht, -, hcount, -, hlevel, ⟨d, hd, hlow, hhigh⟩, -⟩ :=
      anyOf_halves (ρ := Nat) (κ := Nat) (List.cons_ne_nil (.neg .always)
        [.disj (.disj .never .always) (.equals ⟨"k", id⟩ 1), .member ⟨"k", id⟩ [2, 3]])
    obtain ⟨-, hfirst⟩ := hlevel _ List.mem_cons_self
    simp only [List.length_cons, List.length_nil, Nat.zero_add, Nat.reduceAdd, hlog, hclog]
      at hfirst hlow hhigh
    obtain rfl : 2 = d := by simpa [depth, List.max?] using hd
    exact ⟨t, ht, hcount, hfirst, hlow, hhigh⟩
  · obtain ⟨t, ht, -, -, -, -, -, hflat⟩ :=
      anyOf_halves (ρ := Nat) (κ := Nat) (List.cons_ne_nil .always [.never, .never])
    exact ⟨t, ht, (hflat (by simp [depth])).trans hclog⟩

end Predicate

end PlanShape
