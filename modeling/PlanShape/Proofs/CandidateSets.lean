import PlanShape.Predicate.Description
import PlanShape.Proofs.Equality
import PlanShape.Proofs.Failures
import PlanShape.Proofs.FirstPlaces
import PlanShape.Proofs.Membership
import PlanShape.Proofs.ShapeKey

/-!
Candidate lists count as sets. Order and repetitions of the candidates do not decide whether a call
succeeds, nor on which path, with which shape and with which meaning. The order in which values are
first seen fixes the predicate itself, up to the equality of keys, and the values that can be read
off a predicate are enough to build it again.
-/
namespace PlanShape

variable {ρ κ : Type}

/-- The candidates that a predicate shows: the values of its native list if it has one, and else
those of its leaves with all copies. -/
def Predicate.shown (p : Predicate ρ κ) : List κ :=
  match p.listed? with
  | some (_, vs) => vs
  | none => p.leaves.map (·.2)

/-- A disjunction of leaves shows its literals, negated or not. -/
theorem Predicate.AsksOnly.shown_orient {field : Field ρ κ} {t : Predicate ρ κ}
    (h : t.AsksOnly field) (m : Membership) (bucket : Nat) :
    (Filter.orient m (.tree bucket) t).shown = t.literals := by
  rw [h.literals_eq]
  cases m <;> cases h <;> simp [Filter.orient, shown, listed?, equalities]

section
variable [BEq κ] [EquivBEq κ]

/-- Different values that are all contained in a list are no more than the list has. -/
theorem length_le_of_contains {xs ys : List κ} (hx : xs.Pairwise fun x y => (x == y) = false)
    (h : ∀ x ∈ xs, ys.contains x = true) : xs.length ≤ ys.length := by
  induction xs generalizing ys with
  | nil => exact Nat.zero_le _
  | cons x xs ih =>
    obtain ⟨hfirst, hrest⟩ := List.pairwise_cons.1 hx
    -- without the values equal to `x` the list is shorter, and still contains the others
    have hshorter : (ys.filter fun y => !x == y).length < ys.length := by
      obtain ⟨y, hy, hxy⟩ := List.contains_iff_exists_mem_beq.1 (h x List.mem_cons_self)
      exact List.length_filter_lt_length_iff_exists.2 ⟨y, hy, by simp [hxy]⟩
    have hothers : ∀ z ∈ xs, (ys.filter fun y => !x == y).contains z = true := by
      intro z hz
      obtain ⟨y, hy, hzy⟩ :=
        List.contains_iff_exists_mem_beq.1 (h z (List.mem_cons_of_mem x hz))
      have hxy : (x == y) = false := (BEq.congr_right hzy).symm.trans (hfirst z hz)
      exact List.contains_iff_exists_mem_beq.2 ⟨y, List.mem_filter.2 ⟨hy, by rw [hxy]; rfl⟩, hzy⟩
    have hle := ih hrest hothers
    rw [List.length_cons]
    omega

variable [Hashable κ] [LawfulHashable κ]

/-- Lists that contain the same have equally many different values. -/
theorem length_distinct_eq {xs ys : List κ} (h : ∀ x, xs.contains x = ys.contains x) :
    (distinct xs).length = (distinct ys).length := by
  have hle {xs ys : List κ} (h : ∀ x, xs.contains x = ys.contains x) :
      (distinct xs).length ≤ (distinct ys).length := by
    apply length_le_of_contains (nodup_distinctFrom _ xs)
    intro x hx
    rw [contains_distinct, ← h, ← contains_distinct]
    exact List.elem_eq_true_of_mem hx
  exact Nat.le_antisymm (hle h) (hle fun x => (h x).symm)

/-- The copies that fill a set up are repetitions. -/
theorem Candidates.distinct_padded (c : Candidates κ) (size : Nat) :
    distinct (c.padded size) = c.values := by
  cases hv : c.values with
  | nil => simp [padded, hv, distinct, distinctFrom]
  | cons first rest =>
    have hfirst : c.values.head? = some first := by rw [hv, List.head?_cons]
    rw [padded_eq hfirst, ← hv]
    apply c.distinct_values_append
    intro y hy
    obtain ⟨-, rfl⟩ := List.mem_replicate.1 hy
    exact List.mem_of_head? hfirst

end

section
variable [BEq κ]

/-- Sets of equal values are filled up with equal copies. -/
theorem Candidates.padded_beq {c c' : Candidates κ} (h : (c.values == c'.values) = true)
    (size : Nat) : (c.padded size == c'.padded size) = true := by
  have hsize : c.size = c'.size := List.length_eq_of_beq h
  cases hv : c.values with
  | nil =>
    rw [hv] at h
    have hv' := eq_nil_of_beq h
    simp [padded, hv, hv']
  | cons first rest =>
    rw [hv] at h
    obtain ⟨first', rest', hv', hfirst, hrest⟩ := exists_cons_of_beq h
    have hvalues : (first :: rest == first' :: rest') = true := by
      rw [List.cons_beq_cons, hfirst, hrest, Bool.and_self]
    simp only [padded, hv, hv', hsize]
    rw [append_beq_append (List.length_eq_of_beq hvalues), hvalues, List.replicate_beq_replicate,
      hfirst, Bool.or_true, Bool.and_self]

theorem Candidates.literalsOn_beq {c c' : Candidates κ} (h : (c.values == c'.values) = true)
    (path : Path) : (c.literalsOn path == c'.literalsOn path) = true := by
  cases path with
  | empty => rfl
  | tree bucket => exact padded_beq h bucket
  | fallback n => exact h

end

namespace Filter

section
variable [BEq κ] {f : Filter} {field : Field ρ κ} {c c' : Candidates κ} {path : Path}
  {q q' : Predicate ρ κ}

theorem Builds.shown_orient (h : Builds f field c path q) (m : Membership) :
    (orient m path q).shown = c.literalsOn path := by
  cases h with
  | empty nil => cases m <;> simp [orient, Predicate.shown, Predicate.listed?,
      Predicate.equalities, Candidates.literalsOn]
  | fallback many => cases m <;> rfl
  | tree nonempty few held joined =>
    exact (joined.of_equals.1.shown_orient m _).trans joined.literals_of_equals

/-- What is built on one path from equal values is equal. -/
theorem Builds.orient_beq (h : Builds f field c path q) (h' : Builds f field c' path q')
    (hc : (c.values == c'.values) = true) (m : Membership) :
    (orient m path q == orient m path q') = true := by
  refine Predicate.beq_iff.2 ⟨Predicate.sameShape_iff.2 ?_, ?_⟩
  · rw [h.shape_orient m, h'.shape_orient m]
  · rw [h.literals_orient m, h'.literals_orient m]
    exact Candidates.literalsOn_beq hc path

variable [Hashable κ] [EquivBEq κ] [LawfulHashable κ]

theorem Builds.distinct_shown (h : Builds f field c path q) (m : Membership) :
    distinct (orient m path q).shown = c.values := by
  rw [h.shown_orient m]
  cases h with
  | empty nil =>
    rw [nil]
    rfl
  | fallback many => exact distinct_of_nodup c.nodup
  | tree nonempty few held joined => exact c.distinct_padded _

end

section
variable [BEq κ] [Hashable κ] [EquivBEq κ] [LawfulHashable κ] {f : Filter} {m : Membership}
  {field : Field ρ κ} {xs ys : List κ}

theorem outcome_compile (f : Filter) (m : Membership) (field : Field ρ κ) (values : List κ) :
    (f.compile m field values).outcome =
      (f.select field (.ofList values)).outcome.map fun (path, q) => orient m path q := by
  obtain ⟨path, q, events, lines, -, hs, -⟩ | ⟨-, -, -, hs⟩ :=
    select_cases f field (.ofList values)
  · rw [compile_of_select_ok m hs, hs]
    rfl
  · rw [compile_of_select_error m hs, hs]
    rfl

/-- A result is made of the values at their first places and of nothing else. -/
theorem outcome_congr (h : distinct xs = distinct ys) :
    (f.compile m field xs).outcome = (f.compile m field ys).outcome := by
  have hc : Candidates.ofList xs = Candidates.ofList ys := Candidates.ext h
  rw [outcome_compile, outcome_compile, hc]

theorem outcome_shown {p : Predicate ρ κ} (h : (f.compile m field xs).outcome = .ok p) :
    (f.compile m field p.shown).outcome = .ok p := by
  obtain ⟨q, hb, hp, -⟩ := builds_of_compile h
  rw [← h]
  apply outcome_congr
  rw [hp]
  exact hb.distinct_shown m

theorem outcome_error_congr (h : (distinct xs).length = (distinct ys).length) (e : Failure) :
    (f.compile m field xs).outcome = .error e ↔ (f.compile m field ys).outcome = .error e := by
  rw [compile_eq_error_iff, compile_eq_error_iff, h]

theorem exists_outcome_of_length_eq {p : Predicate ρ κ}
    (h : (distinct xs).length = (distinct ys).length)
    (hp : (f.compile m field xs).outcome = .ok p) :
    ∃ q, (f.compile m field ys).outcome = .ok q := by
  cases hy : (f.compile m field ys).outcome with
  | ok q => exact ⟨q, rfl⟩
  | error e =>
    rw [(outcome_error_congr h e).2 hy] at hp
    cases hp

/-- Two lists that contain the same fail with the same error or both succeed, on one path, with
predicates of one shape that hold on the same records. If their values are first seen in one order
the predicates are equal, as the values are, and of the very same values they are the same. What a
compiled predicate shows compiles to that predicate again. -/
theorem candidates_count_as_sets (f : Filter) (m : Membership) (field : Field ρ κ) {xs ys : List κ}
    (h : ∀ x, xs.contains x = ys.contains x) :
    (∀ e, (f.compile m field xs).outcome = .error e ↔
      (f.compile m field ys).outcome = .error e) ∧
    (∀ p, (f.compile m field xs).outcome = .ok p →
      ∃ q, (f.compile m field ys).outcome = .ok q ∧
        (∃ path, (∀ path', .compiled m path' ∈ (f.compile m field xs).events ↔ path' = path) ∧
          ∀ path', .compiled m path' ∈ (f.compile m field ys).events ↔ path' = path) ∧
        p.signedBytes = q.signedBytes ∧ (∀ r, p.holds r = q.holds r) ∧
        ((xs.eraseDups == ys.eraseDups) = true → (p == q) = true)) ∧
    (xs.eraseDups = ys.eraseDups →
      (f.compile m field xs).outcome = (f.compile m field ys).outcome) ∧
    ∀ p, (f.compile m field xs).outcome = .ok p → (f.compile m field p.shown).outcome = .ok p := by
  have hlen := length_distinct_eq h
  refine ⟨outcome_error_congr hlen, ?_, ?_, fun p hp => outcome_shown hp⟩
  · intro p hp
    obtain ⟨q, hq⟩ := exists_outcome_of_length_eq hlen hp
    obtain ⟨s, hs, horient, hpathp⟩ := builds_of_compile hp
    obtain ⟨t, ht, horient', hpathq⟩ := builds_of_compile hq
    rw [← hlen] at ht horient' hpathq
    refine ⟨q, hq, ⟨_, hpathp, hpathq⟩, ?_, ?_, ?_⟩
    · rw [Predicate.signedBytes_of_shape (shape_compile hp).1,
        Predicate.signedBytes_of_shape (shape_compile hq).1, hlen]
    · intro r
      rw [Bool.eq_iff_iff, holds_compile_iff hp, holds_compile_iff hq, h (field.read r)]
    · intro he
      rw [← distinct_eq_eraseDups, ← distinct_eq_eraseDups] at he
      rw [horient, horient']
      exact hs.orient_beq ht he m
  · intro he
    apply outcome_congr
    rw [distinct_eq_eraseDups, distinct_eq_eraseDups]
    exact he

/-- The same two values in two orders, padded to four by copies of different ones: the predicates
differ, and share path, shape and records. -/
theorem candidates_count_as_sets_swapped :
    (∀ x, [3, 1, 3].contains x = [1, 3].contains x) ∧
    ∃ p q : Predicate Nat Nat,
      ((⟨2, .constant 4⟩ : Filter).compile .excluded ⟨"k", id⟩ [3, 1, 3]).outcome = .ok p ∧
      ((⟨2, .constant 4⟩ : Filter).compile .excluded ⟨"k", id⟩ [1, 3]).outcome = .ok q ∧
      p.shown = [3, 1, 3, 3] ∧ p.signedBytes = q.signedBytes ∧
      (∀ r, p.holds r = q.holds r) ∧
      ((⟨2, .constant 4⟩ : Filter).compile .excluded ⟨"k", id⟩ [3, 1, 3, 3]).outcome = .ok p := by
  have hset (x : Nat) : [3, 1, 3].contains x = [1, 3].contains x :=
    contains_eq_of_mem_iff (by simp [or_comm]) x
  have hd : distinct [3, 1, 3] = [3, 1] := by simp [distinct, distinctFrom]
  have hp : ((⟨2, .constant 4⟩ : Filter).compile .excluded (⟨"k", id⟩ : Field Nat Nat)
      [3, 1, 3]).outcome = .ok (.neg (.disj (.disj (.equals ⟨"k", id⟩ 3) (.equals ⟨"k", id⟩ 1))
        (.disj (.equals ⟨"k", id⟩ 3) (.equals ⟨"k", id⟩ 3)))) := by
    simp only [compile, Candidates.ofList, hd]
    cbv
  obtain ⟨-, hsame, -, hagain⟩ :=
    candidates_count_as_sets ⟨2, .constant 4⟩ .excluded (⟨"k", id⟩ : Field Nat Nat) hset
  obtain ⟨q, hq, -, hshape, hholds, -⟩ := hsame _ hp
  have hback := hagain _ hp
  have hshown : (Predicate.neg (.disj (.disj (.equals (⟨"k", id⟩ : Field Nat Nat) 3)
      (.equals ⟨"k", id⟩ 1)) (.disj (.equals ⟨"k", id⟩ 3) (.equals ⟨"k", id⟩ 3)))).shown =
      [3, 1, 3, 3] := by
    simp [Predicate.shown, Predicate.listed?, Predicate.equalities]
  rw [hshown] at hback
  exact ⟨hset, _, q, hp, hq, hshown, hshape, hholds, hback⟩

end

end Filter

end PlanShape
