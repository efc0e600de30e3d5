import PlanShape.Proofs.Membership
import PlanShape.Proofs.Structure

/-!
The rows of a source. Records that are looked at and records that are moved out of the source are
the same ones, in source order, and a second pass keeps them all. The positive and the negative
predicate for the same candidates share the positions of a source between them, so their rows, put
together by position, are the source again.
-/
namespace PlanShape

section
variable {α : Type} {le : α → α → Bool} {x y : α} {xs ys : List α}

/-- An element that goes before a whole list is merged first from the left. -/
theorem cons_merge_of_le (h : ∀ y ∈ ys, le x y = true) :
    (x :: xs).merge ys le = x :: xs.merge ys le := by
  cases ys with
  | nil => rw [List.merge_right, List.merge_right]
  | cons y ys => exact List.cons_merge_cons_pos _ _ _ (h y List.mem_cons_self)

/-- An element that goes before a whole list is merged first from the right. -/
theorem merge_cons_of_not_le (h : ∀ x ∈ xs, ¬ le x y = true) :
    xs.merge (y :: ys) le = y :: xs.merge ys le := by
  cases xs with
  | nil => rw [List.nil_merge, List.nil_merge]
  | cons x xs => exact List.cons_merge_cons_neg _ _ _ (h x List.mem_cons_self)

/-- The elements with a property and those without it, merged by position. -/
theorem merge_filter_zipIdx (p : α → Bool) (xs : List α) (k : Nat) :
    List.merge ((xs.zipIdx k).filter fun e => p e.1) ((xs.zipIdx k).filter fun e => !p e.1)
      (fun a b => a.2 ≤ b.2) = xs.zipIdx k := by
  induction xs generalizing k with
  | nil => simp
  | cons x xs ih =>
    -- every later position is above `k`, whichever of the two lists it is in
    have hlater (q : α × Nat → Bool) : ∀ e ∈ (xs.zipIdx (k + 1)).filter q, k < e.2 :=
      fun e he => List.le_snd_of_mem_zipIdx (List.mem_filter.1 he).1
    rw [List.zipIdx_cons]
    cases hx : p x with
    | true =>
      have hfirst : ∀ e ∈ (xs.zipIdx (k + 1)).filter fun e => !p e.1, decide (k ≤ e.2) = true :=
        fun e he => decide_eq_true (hlater _ e he).le
      rw [List.filter_cons_of_pos (by simpa using hx), List.filter_cons_of_neg (by simpa using hx),
        cons_merge_of_le hfirst, ih]
    | false =>
      have hfirst : ∀ e ∈ (xs.zipIdx (k + 1)).filter fun e => p e.1, ¬ decide (e.2 ≤ k) = true :=
        fun e he => by simpa using hlater _ e he
      rw [List.filter_cons_of_neg (by simpa using hx), List.filter_cons_of_pos (by simpa using hx),
        merge_cons_of_not_le hfirst, ih]

end

namespace Selection

variable {ρ κ : Type} [BEq κ]

theorem foldl_push_eq (p : ρ → Bool) (rs : List ρ) (kept : Array ρ) :
    (rs.foldl (fun kept r => if p r then kept.push r else kept) kept).toList =
      kept.toList ++ rs.filter p := by
  induction rs generalizing kept with
  | nil => simp
  | cons r rs ih =>
    rw [List.foldl_cons, ih, List.filter_cons]
    split
    · rw [Array.toList_push, List.append_assoc]
      rfl
    · rfl

/-- Moving records keeps the ones that looking at them finds, in the same order. -/
theorem intoRows_eq_rows (s : Selection ρ κ) : s.intoRows = s.rows :=
  foldl_push_eq s.predicate.holds s.source #[]

/-- The selected records with their positions. -/
def marked (s : Selection ρ κ) : List (ρ × Nat) :=
  s.source.zipIdx.filter fun (r, _) => s.predicate.holds r

theorem map_fst_marked (s : Selection ρ κ) : s.marked.map Prod.fst = s.rows := by
  have h : (s.source.zipIdx.map Prod.fst).filter s.predicate.holds = s.marked.map Prod.fst :=
    List.filter_map
  rw [← h, List.zipIdx_map_fst, rows]

theorem zip_rows_positions (s : Selection ρ κ) : s.rows.zip s.positions = s.marked := by
  rw [← map_fst_marked]
  exact List.zip_map'.trans (List.map_id _)

theorem mem_marked {s : Selection ρ κ} {r : ρ} {i : Nat} :
    (r, i) ∈ s.marked ↔ s.source[i]? = some r ∧ s.predicate.holds r = true := by
  rw [marked, List.mem_filter, List.mem_zipIdx_iff_getElem?]

theorem mem_positions {s : Selection ρ κ} {i : Nat} :
    i ∈ s.positions ↔ ∃ r, s.source[i]? = some r ∧ s.predicate.holds r = true := by
  constructor
  · intro h
    obtain ⟨⟨r, j⟩, hm, rfl⟩ := List.mem_map.1 h
    exact ⟨r, mem_marked.1 hm⟩
  · rintro ⟨r, h⟩
    exact List.mem_map.2 ⟨(r, i), mem_marked.2 h, rfl⟩

/-- A position leads to the row that stands for it. -/
theorem getElem?_positions (s : Selection ρ κ) :
    s.positions.map (s.source[·]?) = s.rows.map some := by
  rw [← map_fst_marked, List.map_map]
  change (s.marked.map Prod.snd).map _ = _
  rw [List.map_map]
  apply List.map_congr_left
  intro (r, i) hm
  exact (mem_marked.1 hm).1

theorem pairwise_positions (s : Selection ρ κ) : s.positions.Pairwise (· < ·) := by
  have hall : (s.source.zipIdx.map Prod.snd).Pairwise (· < ·) := by
    rw [List.zipIdx_map_snd]
    exact List.pairwise_lt_range'
  exact hall.sublist (List.filter_sublist.map Prod.snd)

theorem rows_rows (s : Selection ρ κ) : (Selection.mk s.rows s.predicate).rows = s.rows := by
  apply List.filter_eq_self.2
  intro r hr
  exact (List.mem_filter.1 hr).2

/-- Selections from one source with opposite predicates have the whole of it between them. -/
theorem merge_opposite {s t : Selection ρ κ} (hs : s.source = t.source)
    (h : ∀ r, t.predicate.holds r = !s.predicate.holds r) :
    List.merge (s.rows.zip s.positions) (t.rows.zip t.positions) (fun a b => a.2 ≤ b.2) =
      s.source.zipIdx := by
  have ht : t.marked = s.source.zipIdx.filter fun (r, _) => !s.predicate.holds r := by
    simp only [marked, hs, h]
  rw [zip_rows_positions, zip_rows_positions, ht]
  exact merge_filter_zipIdx s.predicate.holds s.source 0

theorem mem_positions_opposite {s t : Selection ρ κ} (hs : s.source = t.source)
    (h : ∀ r, t.predicate.holds r = !s.predicate.holds r) {i : Nat} (hi : i < s.source.length) :
    i ∈ s.positions ↔ i ∉ t.positions := by
  rw [mem_positions, mem_positions, ← hs]
  simp [List.getElem?_eq_getElem hi, h]

end Selection

namespace Filter

variable {ρ κ : Type} [BEq κ] [Hashable κ] [EquivBEq κ] [LawfulHashable κ]

theorem outcome_attach (f : Filter) (m : Membership) (source : List ρ) (field : Field ρ κ)
    (values : List κ) :
    (f.attach m source field values).outcome =
      (f.compile m field values).outcome.map (Selection.mk source) := by
  cases hc : f.compile m field values with
  | mk outcome events lines => cases outcome <;> simp [attach, hc] <;> rfl

/-- The positive form and the negative form exist together. -/
theorem exists_both_of_compile {f : Filter} {m : Membership} {field : Field ρ κ}
    {values : List κ} {p : Predicate ρ κ} (h : (f.compile m field values).outcome = .ok p) :
    ∃ q q', (f.compile .included field values).outcome = .ok q ∧
      (f.compile .excluded field values).outcome = .ok q' := by
  have hneg := outcome_excluded f field values
  cases hq : (f.compile .included field values).outcome with
  | ok q =>
    rw [hq] at hneg
    exact ⟨q, _, rfl, hneg⟩
  | error e =>
    rw [hq] at hneg
    cases m with
    | included =>
      rw [hq] at h
      cases h
    | excluded =>
      rw [hneg] at h
      cases h

theorem holds_opposite {f : Filter} {field : Field ρ κ} {values : List κ} {q q' : Predicate ρ κ}
    (hq : (f.compile .included field values).outcome = .ok q)
    (hq' : (f.compile .excluded field values).outcome = .ok q') (r : ρ) :
    q'.holds r = !q.holds r := by
  rw [Bool.eq_iff_iff, holds_compile_iff hq', Bool.not_eq_true', Bool.eq_false_iff, ne_eq,
    holds_compile_iff hq]
  simp

theorem rows_of_compile {f : Filter} {m : Membership} {field : Field ρ κ} {values : List κ}
    {p : Predicate ρ κ} (h : (f.compile m field values).outcome = .ok p) (source : List ρ) :
    (Selection.mk source p).rows =
      source.filter fun r => values.contains (field.read r) = true ↔ m = .included := by
  apply List.filter_congr
  intro r _
  rw [Bool.eq_iff_iff, decide_eq_true_iff]
  exact holds_compile_iff h r

/-- If one of the two forms attaches to a source, so does the other, and every position belongs to
exactly one of them: in their order the rows of both, merged by position, are the source, and the
rows of the positive form are those whose field the candidates contain. Any predicate keeps the same
rows whether they are looked at or moved, and keeps all of them a second time. -/
theorem attached_rows_partition (f : Filter) (field : Field ρ κ) (values : List κ) :
    (∀ (source : List ρ) (m : Membership) (s : Selection ρ κ),
      (f.attach m source field values).outcome = .ok s →
      ∃ kept left : Selection ρ κ,
        (f.attach .included source field values).outcome = .ok kept ∧
        (f.attach .excluded source field values).outcome = .ok left ∧
        (∀ i < source.length, i ∈ kept.positions ↔ i ∉ left.positions) ∧
        kept.positions.Pairwise (· < ·) ∧ left.positions.Pairwise (· < ·) ∧
        List.merge (kept.rows.zip kept.positions) (left.rows.zip left.positions)
          (fun a b => a.2 ≤ b.2) = source.zipIdx ∧
        kept.rows = source.filter (fun r => values.contains (field.read r)) ∧
        left.rows = source.filter (fun r => !values.contains (field.read r))) ∧
    ∀ {κ' : Type} [BEq κ'] (s : Selection ρ κ'),
      s.intoRows = s.rows ∧ s.positions.map (s.source[·]?) = s.rows.map some ∧
      (Selection.mk s.rows s.predicate).rows = s.rows ∧
      (Selection.mk s.intoRows s.predicate).intoRows = s.intoRows := by
  constructor
  · intro source m s h
    obtain ⟨p, hp⟩ : ∃ p, (f.compile m field values).outcome = .ok p := by
      rw [outcome_attach] at h
      cases hc : (f.compile m field values).outcome with
      | ok p => exact ⟨p, rfl⟩
      | error e =>
        rw [hc] at h
        cases h
    obtain ⟨q, q', hq, hq'⟩ := exists_both_of_compile hp
    have hopposite := holds_opposite hq hq'
    refine ⟨⟨source, q⟩, ⟨source, q'⟩, ?_, ?_, ?_, ?_, ?_, ?_, ?_, ?_⟩
    · rw [outcome_attach, hq]
      rfl
    · rw [outcome_attach, hq']
      rfl
    · intro i hi
      exact Selection.mem_positions_opposite (s := ⟨source, q⟩) (t := ⟨source, q'⟩) rfl hopposite hi
    · exact Selection.pairwise_positions _
    · exact Selection.pairwise_positions _
    · exact Selection.merge_opposite rfl hopposite
    · rw [rows_of_compile hq]
      simp
    · rw [rows_of_compile hq']
      simp
  · intro κ' _ s
    refine ⟨s.intoRows_eq_rows, s.getElem?_positions, s.rows_rows, ?_⟩
    rw [Selection.intoRows_eq_rows, s.intoRows_eq_rows, s.rows_rows]

/-- Two candidates in a source where one of them occurs twice, as a tree over both of them. -/
theorem attached_rows_partition_repeated :
    ∃ kept left : Selection Nat Nat,
      ((⟨2, .exact⟩ : Filter).attach .included [1, 5, 3, 1] ⟨"k", id⟩ [3, 1, 3]).outcome =
        .ok kept ∧
      ((⟨2, .exact⟩ : Filter).attach .excluded [1, 5, 3, 1] ⟨"k", id⟩ [3, 1, 3]).outcome =
        .ok left ∧
      (1 ∈ kept.positions ↔ 1 ∉ left.positions) ∧ kept.rows = [1, 3, 1] ∧ left.rows = [5] ∧
      kept.intoRows = kept.rows := by
  obtain ⟨p, hp⟩ := compile_ok (f := ⟨2, .exact⟩) Nat.le_refl .included
    (⟨"k", id⟩ : Field Nat Nat) [3, 1, 3]
  have hs := outcome_attach ⟨2, .exact⟩ .included [1, 5, 3, 1] (⟨"k", id⟩ : Field Nat Nat) [3, 1, 3]
  rw [hp] at hs
  obtain ⟨hparts, hpasses⟩ :=
    attached_rows_partition ⟨2, .exact⟩ (⟨"k", id⟩ : Field Nat Nat) [3, 1, 3]
  obtain ⟨kept, left, hkept, hleft, hone, -, -, -, hin, hout⟩ := hparts _ _ _ hs
  exact ⟨kept, left, hkept, hleft, hone 1 (by decide), hin, hout, (hpasses kept).1⟩

end Filter

end PlanShape
