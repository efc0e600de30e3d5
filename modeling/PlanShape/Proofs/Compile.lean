import PlanShape.Filter.Basic
import PlanShape.Proofs.Disjunction

/-!
Every way in which a filter can end on candidate values: nothing to look for, more values than the
threshold, a size that cannot hold the values, or a balanced tree over the padded values. Each has
one equation that gives the whole of what the call returns and reports.
-/
namespace PlanShape

/-- Lists with the same elements contain the same values. -/
theorem contains_eq_of_mem_iff {κ : Type} [BEq κ] {xs ys : List κ} (h : ∀ x, x ∈ xs ↔ x ∈ ys)
    (y : κ) : xs.contains y = ys.contains y := by
  rw [Bool.eq_iff_iff, List.contains_iff_exists_mem_beq, List.contains_iff_exists_mem_beq]
  simp only [h]

namespace Candidates

variable {κ : Type} [BEq κ]

/-- The values with copies of the first one behind them, up to a size. -/
def padded (c : Candidates κ) (size : Nat) : List κ :=
  match c.values with
  | [] => []
  | first :: rest => first :: rest ++ List.replicate (size - c.size) first

theorem padded_eq {c : Candidates κ} {first : κ} (h : c.values.head? = some first) (size : Nat) :
    c.padded size = c.values ++ List.replicate (size - c.size) first := by
  obtain ⟨rest, hv⟩ := List.head?_eq_some_iff.1 h
  simp [padded, hv]

theorem size_pos {c : Candidates κ} (h : c.values ≠ []) : 0 < c.size := List.length_pos_iff.2 h

theorem exists_cons {c : Candidates κ} (h : c.values ≠ []) :
    ∃ first rest, c.values = first :: rest ∧ c.size = rest.length + 1 := by
  obtain ⟨first, rest, hv⟩ := List.exists_cons_of_ne_nil h
  exact ⟨first, rest, hv, congrArg List.length hv⟩

theorem length_padded {c : Candidates κ} {size : Nat} (h : c.values ≠ []) (hs : c.size ≤ size) :
    (c.padded size).length = size := by
  obtain ⟨first, rest, hv, hc⟩ := exists_cons h
  simp only [padded, hv, List.length_append, List.length_cons, List.length_replicate]
  omega

/-- Padding adds no value and loses none. -/
@[simp] theorem mem_padded {c : Candidates κ} {size : Nat} {x : κ} :
    x ∈ c.padded size ↔ x ∈ c.values := by
  cases hv : c.values with
  | nil => simp [padded, hv]
  | cons first rest =>
    simp only [padded, hv, List.mem_append, List.mem_replicate]
    constructor
    · rintro (h | ⟨-, rfl⟩)
      · exact h
      · exact List.mem_cons_self
    · exact .inl

theorem contains_padded (c : Candidates κ) (size : Nat) (x : κ) :
    (c.padded size).contains x = c.values.contains x :=
  contains_eq_of_mem_iff (fun _ => mem_padded) x

theorem padTo_of_le {policy : SizePolicy} {c : Candidates κ} (h : c.values ≠ [])
    (hp : c.size ≤ policy c.size) :
    c.padTo policy =
      ⟨.ok (c.padded (policy c.size)), [], [.padded c.size (policy c.size)]⟩ := by
  obtain ⟨first, rest, hv, hc⟩ := exists_cons h
  rw [hc] at hp
  simp only [padTo, hv, if_neg (Nat.not_lt.2 hp), padded, hc]
  rfl

theorem padTo_of_lt {policy : SizePolicy} {c : Candidates κ} (h : c.values ≠ [])
    (hp : policy c.size < c.size) :
    c.padTo policy = .fail (.undersized c.size (policy c.size)) := by
  obtain ⟨first, rest, hv, hc⟩ := exists_cons h
  rw [hc] at hp
  simp only [padTo, hv, if_pos hp, hc]

end Candidates

namespace Filter

variable {ρ κ : Type} [BEq κ]

theorem select_of_nil (f : Filter) (field : Field ρ κ) {c : Candidates κ} (h : c.values = []) :
    f.select field c = ⟨.ok (.empty, .never), [], []⟩ := by
  simp [select, Candidates.isEmpty, h]

theorem select_of_threshold_lt {f : Filter} (field : Field ρ κ) {c : Candidates κ}
    (h : f.threshold < c.size) :
    f.select field c = ⟨.ok (.fallback c.size, .member field c.values), [], []⟩ := by
  have hne : c.values ≠ [] := by
    intro he
    simp [Candidates.size, he] at h
  simp [select, Candidates.isEmpty, hne, h]

theorem select_of_undersized {f : Filter} (field : Field ρ κ) {c : Candidates κ}
    (h : c.values ≠ []) (ht : c.size ≤ f.threshold) (hp : f.policy c.size < c.size) :
    f.select field c =
      .fail (.ofPadding (.undersized c.size (f.policy c.size))) := by
  simp only [select, Candidates.isEmpty, List.isEmpty_iff, h, if_false, if_neg (Nat.not_lt.2 ht),
    Candidates.padTo_of_lt h hp]
  rfl

theorem select_of_tree {f : Filter} (field : Field ρ κ) {c : Candidates κ} (h : c.values ≠ [])
    (ht : c.size ≤ f.threshold) (hp : c.size ≤ f.policy c.size) :
    ∃ tree, Predicate.Balanced ((c.padded (f.policy c.size)).map (.equals field)) tree ∧
      f.select field c =
        ⟨.ok (.tree (f.policy c.size), tree), [.treeBuilt (f.policy c.size)],
          [.padded c.size (f.policy c.size)]⟩ := by
  have hl := Candidates.length_padded h hp
  have hpos := Candidates.size_pos h
  have hleaves : (c.padded (f.policy c.size)).map (Predicate.equals field) ≠ [] :=
    List.ne_nil_of_length_pos (by rw [List.length_map, hl]; omega)
  obtain ⟨tree, hb, ha⟩ := Predicate.anyOf_of_ne_nil hleaves
  refine ⟨tree, hb, ?_⟩
  simp only [select, Candidates.isEmpty, List.isEmpty_iff, h, if_false, if_neg (Nat.not_lt.2 ht),
    Candidates.padTo_of_le h hp, Traced.mapError, Except.mapError, Traced.bind_ok, ha,
    List.length_map, hl, Traced.pure_eq]
  rfl

/-- The path that a count of different values leads to, if the policy holds them. -/
def path (f : Filter) (n : Nat) : Path :=
  if n = 0 then .empty else if f.threshold < n then .fallback n else .tree (f.policy n)

theorem path_zero (f : Filter) : f.path 0 = .empty := rfl

theorem path_of_lt {f : Filter} {n : Nat} (h : f.threshold < n) : f.path n = .fallback n := by
  rw [path, if_neg (by omega), if_pos h]

theorem path_of_le {f : Filter} {n : Nat} (h : 0 < n) (ht : n ≤ f.threshold) :
    f.path n = .tree (f.policy n) := by
  rw [path, if_neg (by omega), if_neg (by omega)]

/-- A native list has every value that was counted. -/
theorem fallback_of_path {f : Filter} {n k : Nat} (h : f.path n = .fallback k) : k = n := by
  unfold path at h
  split at h
  · cases h
  · split at h
    · cases h
      rfl
    · cases h

/-- What a filter builds from a candidate set before it is oriented, and on which path. -/
inductive Builds (f : Filter) (field : Field ρ κ) (c : Candidates κ) :
    Path → Predicate ρ κ → Prop where
  | empty (nil : c.values = []) : Builds f field c .empty .never
  | fallback (many : f.threshold < c.size) :
    Builds f field c (.fallback c.size) (.member field c.values)
  | tree {t : Predicate ρ κ} (nonempty : c.values ≠ []) (few : c.size ≤ f.threshold)
    (held : c.size ≤ f.policy c.size)
    (joined : Predicate.Balanced ((c.padded (f.policy c.size)).map (.equals field)) t) :
    Builds f field c (.tree (f.policy c.size)) t

theorem Builds.path_eq {f : Filter} {field : Field ρ κ} {c : Candidates κ} {path : Path}
    {q : Predicate ρ κ} (h : Builds f field c path q) : path = f.path c.size := by
  cases h with
  | empty nil =>
    have hc : c.size = 0 := congrArg List.length nil
    rw [hc, path_zero]
  | fallback many => exact (path_of_lt many).symm
  | tree nonempty few held joined => exact (path_of_le (Candidates.size_pos nonempty) few).symm

/-- A candidate set leads to something built, before the path is announced, or the policy names too
small a size for it. -/
theorem select_cases (f : Filter) (field : Field ρ κ) (c : Candidates κ) :
    (∃ path q events lines, Builds f field c path q ∧
      f.select field c = ⟨.ok (path, q), events, lines⟩ ∧
      ∀ m path', .compiled m path' ∉ events) ∨
    (c.values ≠ [] ∧ c.size ≤ f.threshold ∧ f.policy c.size < c.size ∧
      f.select field c = .fail (.ofPadding (.undersized c.size (f.policy c.size)))) := by
  by_cases hnil : c.values = []
  · left
    exact ⟨_, _, _, _, .empty hnil, select_of_nil f field hnil, by simp⟩
  by_cases ht : f.threshold < c.size
  · left
    exact ⟨_, _, _, _, .fallback ht, select_of_threshold_lt field ht, by simp⟩
  have hfew : c.size ≤ f.threshold := Nat.not_lt.1 ht
  by_cases hp : f.policy c.size < c.size
  · right
    exact ⟨hnil, hfew, hp, select_of_undersized field hnil hfew hp⟩
  · left
    have hheld : c.size ≤ f.policy c.size := Nat.not_lt.1 hp
    obtain ⟨t, hb, hs⟩ := select_of_tree field hnil hfew hheld
    exact ⟨_, _, _, _, .tree hnil hfew hheld hb, hs, by simp⟩

section
variable [Hashable κ] [EquivBEq κ] [LawfulHashable κ]

theorem compile_of_select_ok {f : Filter} (m : Membership) {field : Field ρ κ} {values : List κ}
    {path : Path} {q : Predicate ρ κ} {events : List Event} {lines : List LogLine}
    (h : f.select field (.ofList values) = ⟨.ok (path, q), events, lines⟩) :
    f.compile m field values =
      ⟨.ok (orient m path q),
        .deduplicated values.length (distinct values).length :: events ++ [.compiled m path],
        lines ++ [.compiled m field.name values.length path]⟩ := by
  simp only [compile, Traced.emit, Traced.log, Traced.bind_ok, h, Traced.pure_eq]
  simp [Candidates.size]

theorem compile_of_select_error {f : Filter} (m : Membership) {field : Field ρ κ}
    {values : List κ} {e : Failure} (h : f.select field (.ofList values) = .fail e) :
    f.compile m field values =
      ⟨.error e, [.deduplicated values.length (distinct values).length], []⟩ := by
  simp only [compile, Traced.emit, Traced.bind_ok, h, Traced.fail, Traced.bind_error]
  simp [Candidates.size]

/-- A call succeeds with what the filter builds, and names the path in its last event, or it fails
because the policy names too small a size. -/
theorem compile_cases (f : Filter) (m : Membership) (field : Field ρ κ) (values : List κ) :
    (∃ path q, Builds f field (.ofList values) path q ∧
      (f.compile m field values).outcome = .ok (orient m path q) ∧
      ∀ path', .compiled m path' ∈ (f.compile m field values).events ↔ path' = path) ∨
    (distinct values ≠ [] ∧ (distinct values).length ≤ f.threshold ∧
      f.policy (distinct values).length < (distinct values).length ∧
      f.compile m field values =
        ⟨.error (.ofPadding (.undersized (distinct values).length
          (f.policy (distinct values).length))),
          [.deduplicated values.length (distinct values).length], []⟩) := by
  obtain ⟨path, q, events, lines, hb, hs, hquiet⟩ | ⟨hnil, hfew, hp, hs⟩ :=
    select_cases f field (.ofList values)
  · left
    have hc := compile_of_select_ok m hs
    refine ⟨path, q, hb, by rw [hc], ?_⟩
    intro path'
    simp [hc, hquiet m path']
  · right
    exact ⟨hnil, hfew, hp, compile_of_select_error m hs⟩

/-- A policy that holds every count never makes a call fail. -/
theorem compile_ok {f : Filter} (h : ∀ n, n ≤ f.policy n) (m : Membership) (field : Field ρ κ)
    (values : List κ) : ∃ p, (f.compile m field values).outcome = .ok p := by
  obtain ⟨path, q, -, ho, -⟩ | ⟨-, -, hp, -⟩ := compile_cases f m field values
  · exact ⟨_, ho⟩
  · exact absurd (h _) (Nat.not_le.2 hp)

/-- What a successful call returns was built on the path of its number of different values. -/
theorem builds_of_compile {f : Filter} {m : Membership} {field : Field ρ κ} {values : List κ}
    {p : Predicate ρ κ} (h : (f.compile m field values).outcome = .ok p) :
    ∃ q, Builds f field (.ofList values) (f.path (distinct values).length) q ∧
      p = orient m (f.path (distinct values).length) q ∧
      ∀ path, .compiled m path ∈ (f.compile m field values).events ↔
        path = f.path (distinct values).length := by
  obtain ⟨path, q, hb, ho, he⟩ | ⟨-, -, -, hf⟩ := compile_cases f m field values
  · obtain rfl : path = f.path (distinct values).length := hb.path_eq
    rw [ho] at h
    exact ⟨q, hb, (Except.ok.inj h).symm, he⟩
  · rw [hf] at h
    cases h

/-- Up to the threshold success means a tree over the padded values, which its size holds. -/
theorem tree_of_compile {f : Filter} {m : Membership} {field : Field ρ κ} {values : List κ}
    {p : Predicate ρ κ} (h : (f.compile m field values).outcome = .ok p)
    (hpos : 1 ≤ (distinct values).length) (hfew : (distinct values).length ≤ f.threshold) :
    ∃ t, Predicate.Balanced
        (((Candidates.ofList values).padded (f.policy (distinct values).length)).map
          (.equals field)) t ∧
      ((Candidates.ofList values).padded (f.policy (distinct values).length)).length =
        f.policy (distinct values).length ∧
      p = orient m (.tree (f.policy (distinct values).length)) t := by
  obtain ⟨q, hb, rfl, -⟩ := builds_of_compile h
  rw [path_of_le hpos hfew] at hb ⊢
  cases hb with
  | tree nonempty few held joined =>
    exact ⟨q, joined, Candidates.length_padded nonempty held, rfl⟩

end

end Filter

end PlanShape
