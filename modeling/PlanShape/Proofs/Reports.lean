import PlanShape.Proofs.Structure

/-!
What calls report. Each way in which a filter can end has one list of events and one list of log
lines, made of the two counts of the candidates, the size that the policy names, and the names of
kind and field. The path in the last event describes the predicate that is returned.
-/
namespace PlanShape

variable {ρ κ : Type}

/-- What a predicate looks like when it was built on a path: a constant, so many equality leaves, or
a native list of so many values, with one negation around it in the negative form. -/
def Path.Describes (field : Field ρ κ) : Membership → Path → Predicate ρ κ → Prop
  | _, .empty, p => p.isConstant = true
  | _, .tree bucket, p => p.leafCount = bucket
  | .included, .fallback n, p => ∃ vs, vs.length = n ∧ p = .member field vs
  | .excluded, .fallback n, p => ∃ vs, vs.length = n ∧ p = .neg (.member field vs)

theorem Predicate.anyOf_nil : anyOf ([] : List (Predicate ρ κ)) = ⟨.error .empty, [], []⟩ := rfl

theorem Predicate.leafCount_padded [BEq κ] {field : Field ρ κ} {c : Candidates κ} {size : Nat}
    {t : Predicate ρ κ} (h : Balanced ((c.padded size).map (.equals field)) t)
    (hne : c.values ≠ []) (hs : c.size ≤ size) : t.leafCount = size := by
  obtain ⟨-, -, hcount, -⟩ := h.of_equals
  rw [hcount, Candidates.length_padded hne hs]

namespace Filter

variable [BEq κ]

theorem Builds.describes {f : Filter} {field : Field ρ κ} {c : Candidates κ} {path : Path}
    {q : Predicate ρ κ} (h : Builds f field c path q) (m : Membership) :
    path.Describes field m (orient m path q) := by
  cases h with
  | empty nil => cases m <;> rfl
  | fallback many => cases m <;> exact ⟨c.values, rfl, rfl⟩
  | tree nonempty few held joined =>
    have hcount := Predicate.leafCount_padded joined nonempty held
    cases m with
    | included => exact hcount
    | excluded => exact (Predicate.leafCount_neg q).trans hcount

section
variable [Hashable κ] [EquivBEq κ] [LawfulHashable κ] {f : Filter} {values : List κ}

theorem compile_of_nil (f : Filter) (m : Membership) (field : Field ρ κ)
    (h : distinct values = []) :
    f.compile m field values =
      ⟨.ok (orient m .empty .never), [.deduplicated values.length 0, .compiled m .empty],
        [.compiled m field.name values.length .empty]⟩ := by
  have hc := compile_of_select_ok m (select_of_nil f field (c := .ofList values) h)
  rw [h] at hc
  exact hc

theorem compile_of_threshold_lt (m : Membership) (field : Field ρ κ)
    (h : f.threshold < (distinct values).length) :
    f.compile m field values =
      ⟨.ok (orient m (.fallback (distinct values).length) (.member field (distinct values))),
        [.deduplicated values.length (distinct values).length,
          .compiled m (.fallback (distinct values).length)],
        [.compiled m field.name values.length (.fallback (distinct values).length)]⟩ :=
  compile_of_select_ok m (select_of_threshold_lt field (c := .ofList values) h)

theorem compile_of_undersized (m : Membership) (field : Field ρ κ) (h : distinct values ≠ [])
    (ht : (distinct values).length ≤ f.threshold)
    (hp : f.policy (distinct values).length < (distinct values).length) :
    f.compile m field values =
      ⟨.error (.ofPadding (.undersized (distinct values).length
        (f.policy (distinct values).length))),
        [.deduplicated values.length (distinct values).length], []⟩ :=
  compile_of_select_error m (select_of_undersized field (c := .ofList values) h ht hp)

theorem compile_of_tree (m : Membership) (field : Field ρ κ) (h : distinct values ≠ [])
    (ht : (distinct values).length ≤ f.threshold)
    (hp : (distinct values).length ≤ f.policy (distinct values).length) :
    ∃ p, f.compile m field values =
      ⟨.ok p,
        [.deduplicated values.length (distinct values).length,
          .treeBuilt (f.policy (distinct values).length),
          .compiled m (.tree (f.policy (distinct values).length))],
        [.padded (distinct values).length (f.policy (distinct values).length),
          .compiled m field.name values.length
            (.tree (f.policy (distinct values).length))]⟩ := by
  obtain ⟨t, -, hs⟩ := select_of_tree field (c := .ofList values) h ht hp
  exact ⟨_, compile_of_select_ok m hs⟩

/-- A path is announced for the kind that was asked for, and tells what was returned. -/
theorem describes_of_compile {m m' : Membership} {field : Field ρ κ} {p : Predicate ρ κ}
    {path : Path} (h : (f.compile m field values).outcome = .ok p)
    (he : .compiled m' path ∈ (f.compile m field values).events) :
    m' = m ∧ path.Describes field m p := by
  obtain ⟨path₀, q, events, lines, hb, hs, hquiet⟩ | ⟨-, -, -, hs⟩ :=
    select_cases f field (.ofList values)
  · rw [compile_of_select_ok m hs] at h he
    simp only [List.cons_append, List.mem_cons, List.mem_append, List.not_mem_nil, or_false,
      hquiet m' path, false_or, reduceCtorEq, Event.compiled.injEq] at he
    obtain ⟨rfl, rfl⟩ := he
    obtain rfl := Except.ok.inj h
    exact ⟨rfl, hb.describes m'⟩
  · rw [compile_of_select_error m hs] at h
    cases h

/-- Let `n` be the number of different values. A call reports the length of the list and `n`, then
the tree that was built if there is one, then kind and path; the log gets a line for the padding of
a tree and a line for the call. A call that fails over its padding has reported the two counts and
nothing more. Joining predicates directly reports the number of leaves, and nothing if there are
none. -/
theorem calls_report_exactly (f : Filter) (m : Membership) (field : Field ρ κ) {values : List κ}
    {n : Nat} (hn : values.eraseDups.length = n) :
    (n = 0 → f.compile m field values =
      ⟨.ok (orient m .empty .never), [.deduplicated values.length 0, .compiled m .empty],
        [.compiled m field.name values.length .empty]⟩) ∧
    (f.threshold < n → f.compile m field values =
      ⟨.ok (orient m (.fallback n) (.member field values.eraseDups)),
        [.deduplicated values.length n, .compiled m (.fallback n)],
        [.compiled m field.name values.length (.fallback n)]⟩) ∧
    (1 ≤ n → n ≤ f.threshold → n ≤ f.policy n → ∃ p, f.compile m field values =
      ⟨.ok p,
        [.deduplicated values.length n, .treeBuilt (f.policy n), .compiled m (.tree (f.policy n))],
        [.padded n (f.policy n), .compiled m field.name values.length (.tree (f.policy n))]⟩) ∧
    (1 ≤ n → n ≤ f.threshold → f.policy n < n → f.compile m field values =
      ⟨.error (.ofPadding (.undersized n (f.policy n))), [.deduplicated values.length n], []⟩) ∧
    (∀ p m' path, (f.compile m field values).outcome = .ok p →
      .compiled m' path ∈ (f.compile m field values).events →
      m' = m ∧ path.Describes field m p) ∧
    Predicate.anyOf ([] : List (Predicate ρ κ)) = ⟨.error .empty, [], []⟩ ∧
    ∀ leaves : List (Predicate ρ κ), leaves ≠ [] →
      ∃ t, Predicate.anyOf leaves = ⟨.ok t, [.treeBuilt leaves.length], []⟩ := by
  rw [← distinct_eq_eraseDups] at hn ⊢
  have hne (h : 1 ≤ n) : distinct values ≠ [] := List.ne_nil_of_length_pos (hn ▸ h)
  refine ⟨?_, ?_, ?_, ?_, ?_, Predicate.anyOf_nil, ?_⟩
  · intro h
    exact compile_of_nil f m field (List.eq_nil_of_length_eq_zero (hn.trans h))
  · intro h
    subst hn
    exact compile_of_threshold_lt m field h
  · intro h ht hp
    have hv := hne h
    subst hn
    exact compile_of_tree m field hv ht hp
  · intro h ht hp
    have hv := hne h
    subst hn
    exact compile_of_undersized m field hv ht hp
  · intro p m' path h he
    exact describes_of_compile h he
  · intro leaves h
    obtain ⟨t, -, ht⟩ := Predicate.anyOf_of_ne_nil h
    exact ⟨t, ht⟩

/-- Three candidates with two different values: padded to four, refused over a size of one, and kept
as a native list. -/
theorem calls_report_exactly_two_of_three :
    (∃ p, (⟨2, .multipleOf 4⟩ : Filter).compile .excluded (⟨"k", id⟩ : Field Nat Nat) [3, 1, 3] =
      ⟨.ok p, [.deduplicated 3 2, .treeBuilt 4, .compiled .excluded (.tree 4)],
        [.padded 2 4, .compiled .excluded "k" 3 (.tree 4)]⟩ ∧ p.leafCount = 4) ∧
    (⟨2, .half⟩ : Filter).compile .included (⟨"k", id⟩ : Field Nat Nat) [3, 1, 3] =
      ⟨.error (.ofPadding (.undersized 2 1)), [.deduplicated 3 2], []⟩ ∧
    (⟨1, .half⟩ : Filter).compile .excluded (⟨"k", id⟩ : Field Nat Nat) [3, 1, 3] =
      ⟨.ok (.neg (.member ⟨"k", id⟩ [3, 1])),
        [.deduplicated 3 2, .compiled .excluded (.fallback 2)],
        [.compiled .excluded "k" 3 (.fallback 2)]⟩ := by
  have hn : [3, 1, 3].eraseDups.length = 2 := by decide
  obtain ⟨-, -, htree, -, hpath, -⟩ :=
    calls_report_exactly ⟨2, .multipleOf 4⟩ .excluded (⟨"k", id⟩ : Field Nat Nat) hn
  obtain ⟨p, hp⟩ := htree (by decide) (by decide) (by decide)
  have hsize : SizePolicy.multipleOf 4 2 = 4 := by decide
  have hleaves := hpath p .excluded (.tree 4) (by rw [hp]) (by rw [hp]; simp [hsize])
  refine ⟨⟨p, hp, hleaves.2⟩, ?_, ?_⟩
  · exact (calls_report_exactly ⟨2, .half⟩ .included (⟨"k", id⟩ : Field Nat Nat) hn).2.2.2.1
      (by decide) (by decide) (by decide)
  · exact (calls_report_exactly ⟨1, .half⟩ .excluded (⟨"k", id⟩ : Field Nat Nat) hn).2.1
      (by decide)

end

end Filter

end PlanShape
