import PlanShape.Proofs.Structure

/-!
When a filter fails. A call fails in one case only: there are values, no more than the threshold,
and the policy names a size that cannot hold them. The walk that builds the tree never fails, and
where no size is asked for the policy plays no part. Well-known sizes hold every count and add fewer
places than there are values.
-/
namespace PlanShape

variable {ρ κ : Type} [BEq κ]

/-- A policy is asked for the size of the set and for nothing else. -/
theorem Candidates.padTo_congr {policy policy' : SizePolicy} {c : Candidates κ}
    (h : policy c.size = policy' c.size) : c.padTo policy = c.padTo policy' := by
  cases hv : c.values with
  | nil => simp only [padTo, hv]
  | cons first rest =>
    have hc : c.size = rest.length + 1 := congrArg List.length hv
    rw [hc] at h
    simp only [padTo, hv, h]

namespace Filter

theorem select_congr {f g : Filter} (field : Field ρ κ) {c : Candidates κ}
    (ht : f.threshold = g.threshold)
    (h : c.size = 0 ∨ f.threshold < c.size ∨ f.policy c.size = g.policy c.size) :
    f.select field c = g.select field c := by
  obtain hnil | hmany | hp := h
  · have hv : c.values = [] := List.eq_nil_of_length_eq_zero hnil
    rw [select_of_nil f field hv, select_of_nil g field hv]
  · rw [select_of_threshold_lt field hmany, select_of_threshold_lt field (ht ▸ hmany)]
  · simp only [select, ht, Candidates.padTo_congr hp]

theorem ofSettings_of_valid {c : Settings} (h : c.validate = .ok ()) :
    ofSettings c = .ok ⟨c.threshold, (WellKnown.ofList c.sizes).policy⟩ := by
  rw [ofSettings, h]
  rfl

section
variable [Hashable κ] [EquivBEq κ] [LawfulHashable κ]

theorem compile_congr {f g : Filter} (m : Membership) (field : Field ρ κ) {values : List κ}
    (h : f.select field (.ofList values) = g.select field (.ofList values)) :
    f.compile m field values = g.compile m field values := by
  simp only [compile, h]

/-- The one way to fail, with the error that is reported for it. -/
theorem compile_eq_error_iff {f : Filter} {m : Membership} {field : Field ρ κ} {values : List κ}
    {e : Failure} :
    (f.compile m field values).outcome = .error e ↔
      (1 ≤ (distinct values).length ∧ (distinct values).length ≤ f.threshold ∧
        f.policy (distinct values).length < (distinct values).length) ∧
      e = .ofPadding (.undersized (distinct values).length
        (f.policy (distinct values).length)) := by
  obtain ⟨path, q, hb, ho, -⟩ | ⟨hne, hfew, hp, hf⟩ := compile_cases f m field values
  · rw [ho]
    constructor
    · intro h
      cases h
    · rintro ⟨⟨hpos, hfew, hp⟩, -⟩
      -- what was built stands on the path of a tree, whose size holds the values
      exfalso
      cases hb with
      | empty nil => exact absurd (congrArg List.length nil) (Nat.ne_of_gt hpos)
      | fallback many => exact absurd hfew (Nat.not_le.2 many)
      | tree nonempty few held joined => exact absurd hp (Nat.not_lt.2 held)
  · rw [hf, Except.error.injEq]
    constructor
    · rintro rfl
      exact ⟨⟨List.length_pos_iff.2 hne, hfew, hp⟩, rfl⟩
    · rintro ⟨-, rfl⟩
      rfl

theorem leafCount_compile {f : Filter} {m : Membership} {field : Field ρ κ} {values : List κ}
    {p : Predicate ρ κ} (h : (f.compile m field values).outcome = .ok p)
    (hpos : 1 ≤ (distinct values).length) (hfew : (distinct values).length ≤ f.threshold) :
    p.leafCount = f.policy (distinct values).length := by
  obtain ⟨t, joined, hlength, rfl⟩ := tree_of_compile h hpos hfew
  obtain ⟨-, -, hcount, -⟩ := joined.of_equals
  rw [hlength] at hcount
  cases m with
  | included => exact hcount
  | excluded => exact (Predicate.leafCount_neg t).trans hcount

/-- Success, and in a tree no fewer leaves than there are different values and fewer than twice as
many. -/
def CompilesTightly (f : Filter) (m : Membership) (field : Field ρ κ) (values : List κ) : Prop :=
  ∃ p, (f.compile m field values).outcome = .ok p ∧
    (1 ≤ values.eraseDups.length → values.eraseDups.length ≤ f.threshold →
      values.eraseDups.length ≤ p.leafCount ∧ p.leafCount < 2 * values.eraseDups.length)

theorem compilesTightly_of_policy {f : Filter} {sizes : List Nat}
    (hp : f.policy = (WellKnown.ofList sizes).policy) (m : Membership) (field : Field ρ κ)
    (values : List κ) : f.CompilesTightly m field values := by
  have hholds (n : Nat) : n ≤ f.policy n := by
    rw [hp]
    exact WellKnown.le_sizeFor sizes n
  obtain ⟨p, h⟩ := compile_ok hholds m field values
  refine ⟨p, h, ?_⟩
  rw [← distinct_eq_eraseDups]
  intro hpos hfew
  rw [leafCount_compile h hpos hfew]
  refine ⟨hholds _, ?_⟩
  rw [hp]
  exact WellKnown.sizeFor_lt_two_mul sizes hpos

/-- With `n` different values a call fails exactly if `n` is not zero and not above the threshold
and the policy names a smaller size, and then it reports just these two numbers. Filters of one
threshold agree unless their policies are asked for a size and name different ones. With well-known
sizes, as they come from a list, from valid settings or by default, no call fails. -/
theorem compile_fails_iff_undersized (f : Filter) (m : Membership) (field : Field ρ κ)
    {values : List κ} {n : Nat} (hn : values.eraseDups.length = n) :
    (∀ e, (f.compile m field values).outcome = .error e ↔
      (1 ≤ n ∧ n ≤ f.threshold ∧ f.policy n < n) ∧
        e = .ofPadding (.undersized n (f.policy n))) ∧
    (∀ e, (f.compile m field values).outcome = .error e →
      e.kind = .invariantViolation ∧ e.origin = .bucket ∧
      e.message =
        s!"bucketizer returned size {f.policy n} for {n} values; bucket must hold every value") ∧
    (∀ g : Filter, f.threshold = g.threshold →
      n = 0 ∨ f.threshold < n ∨ f.policy n = g.policy n →
      f.compile m field values = g.compile m field values) ∧
    (∀ sizes, f.policy = (WellKnown.ofList sizes).policy → f.CompilesTightly m field values) ∧
    (∀ c : Settings, c.validate = .ok () →
      ∃ g, ofSettings c = .ok g ∧ g.CompilesTightly m field values) ∧
    standard.CompilesTightly m field values := by
  have hlen : (distinct values).length = n := by
    rw [distinct_eq_eraseDups]
    exact hn
  refine ⟨?_, ?_, ?_, ?_, ?_, ?_⟩
  · intro e
    rw [compile_eq_error_iff, hlen]
  · intro e he
    obtain ⟨-, rfl⟩ := compile_eq_error_iff.1 he
    rw [hlen]
    exact ⟨rfl, rfl, rfl⟩
  · intro g ht h
    rw [← hlen] at h
    exact compile_congr m field (select_congr field (c := .ofList values) ht h)
  · intro sizes hp
    exact compilesTightly_of_policy hp m field values
  · intro c hc
    exact ⟨_, ofSettings_of_valid hc, compilesTightly_of_policy rfl m field values⟩
  · have hp : standard.policy = (WellKnown.ofList WellKnown.defaultSizes).policy :=
      congrArg WellKnown.policy WellKnown.standard_eq_ofList
    exact compilesTightly_of_policy hp m field values

/-- Half a place for each of two values is too little, however a policy comes to name one place.
Over the threshold no policy is asked, and settings that list no size in use lead to two leaves. -/
theorem compile_fails_iff_undersized_two_values :
    ((⟨2, .half⟩ : Filter).compile .excluded (⟨"k", id⟩ : Field Nat Nat) [3, 1, 3]).outcome =
      .error (.ofPadding (.undersized 2 1)) ∧
    (Failure.ofPadding (.undersized 2 1)).origin = .bucket ∧
    (Failure.ofPadding (.undersized 2 1)).message =
      "bucketizer returned size 1 for 2 values; bucket must hold every value" ∧
    (⟨2, .half⟩ : Filter).compile .excluded (⟨"k", id⟩ : Field Nat Nat) [3, 1, 3] =
      (⟨2, .constant 1⟩ : Filter).compile .excluded ⟨"k", id⟩ [3, 1, 3] ∧
    (⟨1, .half⟩ : Filter).compile .excluded (⟨"k", id⟩ : Field Nat Nat) [3, 1, 3] =
      (⟨1, .exact⟩ : Filter).compile .excluded ⟨"k", id⟩ [3, 1, 3] ∧
    ∃ g p, ofSettings ⟨2, [50]⟩ = .ok g ∧
      (g.compile .excluded (⟨"k", id⟩ : Field Nat Nat) [3, 1, 3]).outcome = .ok p ∧
      2 ≤ p.leafCount ∧ p.leafCount < 4 := by
  have hn : [3, 1, 3].eraseDups.length = 2 := by decide
  have hvalid : (⟨2, [50]⟩ : Settings).validate = .ok () := rfl
  obtain ⟨herror, horigin, hcongr, -, hsettings, -⟩ :=
    compile_fails_iff_undersized ⟨2, .half⟩ .excluded (⟨"k", id⟩ : Field Nat Nat) hn
  have hfails := (herror (.ofPadding (.undersized 2 1))).2 ⟨by decide, rfl⟩
  obtain ⟨g, hg, p, hp, hleaves⟩ := hsettings ⟨2, [50]⟩ hvalid
  obtain rfl := Except.ok.inj (hg.symm.trans (ofSettings_of_valid hvalid))
  have hbounds := hleaves (by decide) (by decide)
  rw [hn] at hbounds
  obtain ⟨-, hbucket, hmessage⟩ := horigin _ hfails
  exact ⟨hfails, hbucket, hmessage.trans (by decide), hcongr ⟨2, .constant 1⟩ rfl (.inr (.inr rfl)),
    (compile_fails_iff_undersized ⟨1, .half⟩ .excluded (⟨"k", id⟩ : Field Nat Nat) hn).2.2.1
      ⟨1, .exact⟩ rfl (.inr (.inl (by decide))),
    _, p, hg, hp, hbounds⟩

end

end Filter

end PlanShape
