import PlanShape.Proofs.Compile
import PlanShape.Proofs.Encoding

/-!
Which compiled predicates share a shape. The shape of a compiled predicate is a function of the
kind of membership, the field name and the path alone. Kind, name and path can be read back from
it, except that nothing tells which field was not asked.
-/
namespace PlanShape

namespace Shape

/-- The shape of a balanced disjunction of `n` predicates of one shape. -/
def joined (s : Shape) (n : Nat) : Shape :=
  if n ≤ 1 then s else .disj (joined s (n / 2)) (joined s (n - n / 2))
  termination_by n

theorem joined_one (s : Shape) : joined s 1 = s := by
  rw [joined, if_pos (Nat.le_refl 1)]

theorem joined_of_one_lt {n : Nat} (s : Shape) (h : 1 < n) :
    joined s n = .disj (joined s (n / 2)) (joined s (n - n / 2)) := by
  rw [joined, if_neg (by omega)]

theorem fits_joined {s : Shape} (h : s.Fits) (n : Nat) : (joined s n).Fits := by
  induction n using Nat.strongRecOn with
  | ind n ih =>
    by_cases hn : 1 < n
    · rw [joined_of_one_lt s hn]
      exact ⟨ih _ (by omega), ih _ (by omega)⟩
    · rw [joined, if_pos (by omega)]
      exact h

/-- Name and path of a positive form, where a shape has them. -/
def source? : Shape → Option (String × Path)
  | .equals name => some (name, .tree 1)
  | .disj l r =>
    match l.source?, r.source? with
    | some (name, .tree a), some (_, .tree b) => some (name, .tree (a + b))
    | _, _ => none
  | .member name n => some (name, .fallback n)
  | .always | .never | .neg _ => none

/-- Kind of membership, and name and path if there is any value. -/
def key : Shape → Membership × Option (String × Path)
  | .always => (.excluded, none)
  | .neg s => (.excluded, s.source?)
  | s => (.included, s.source?)

theorem source?_joined (name : String) {n : Nat} (h : 0 < n) :
    (joined (.equals name) n).source? = some (name, .tree n) := by
  induction n using Nat.strongRecOn with
  | ind n ih =>
    by_cases hn : 1 < n
    · have hl := ih (n / 2) (by omega) (by omega)
      have hr := ih (n - n / 2) (by omega) (by omega)
      have hsum : n / 2 + (n - n / 2) = n := by omega
      simp only [joined_of_one_lt _ hn, source?, hl, hr, hsum]
    · obtain rfl : n = 1 := by omega
      rw [joined_one]
      rfl

theorem key_of_source? {s : Shape} {x : String × Path} (h : s.source? = some x) :
    s.key = (.included, some x) := by
  cases s with
  | always | never | neg => cases h
  | equals | disj | member => exact congrArg (Prod.mk _) h

end Shape

/-- A form of the given kind around a positive form. -/
def Membership.wrap : Membership → Shape → Shape
  | .included, s => s
  | .excluded, s => .neg s

namespace Path

/-- The shape of what is compiled on a path for a field of the given name. -/
def shape (m : Membership) (name : String) : Path → Shape
  | .empty => match m with
    | .included => .never
    | .excluded => .always
  | .tree bucket => m.wrap (Shape.joined (.equals name) bucket)
  | .fallback n => m.wrap (.member name n)

/-- A tree has a leaf. -/
def Proper : Path → Prop
  | .tree bucket => 0 < bucket
  | .empty | .fallback _ => True

/-- The part of name and path that shows: without values there is no field. -/
def visible (name : String) : Path → Option (String × Path)
  | .empty => none
  | path => some (name, path)

theorem visible_eq_iff {name name' : String} {path path' : Path} :
    path.visible name = path'.visible name' ↔
      path = .empty ∧ path' = .empty ∨ name = name' ∧ path = path' := by
  cases path <;> cases path' <;> simp [visible]

theorem key_wrap (m : Membership) {s : Shape} {x : String × Path} (h : s.source? = some x) :
    (m.wrap s).key = (m, some x) := by
  cases m with
  | included => exact Shape.key_of_source? h
  | excluded => exact congrArg (Prod.mk _) h

/-- Kind, name and path are read back from the shape. -/
theorem key_shape (m : Membership) (name : String) {path : Path} (h : path.Proper) :
    (path.shape m name).key = (m, path.visible name) := by
  cases path with
  | empty => cases m <;> rfl
  | tree bucket => exact key_wrap m (Shape.source?_joined name h)
  | fallback n => exact key_wrap m rfl

theorem shape_eq_iff {m m' : Membership} {name name' : String} {path path' : Path}
    (h : path.Proper) (h' : path'.Proper) :
    path.shape m name = path'.shape m' name' ↔
      m = m' ∧ (path = .empty ∧ path' = .empty ∨ name = name' ∧ path = path') := by
  constructor
  · intro he
    have hk := congrArg Shape.key he
    rw [key_shape m name h, key_shape m' name' h', Prod.mk.injEq, visible_eq_iff] at hk
    exact hk
  · rintro ⟨rfl, ⟨rfl, rfl⟩ | ⟨rfl, rfl⟩⟩ <;> rfl

theorem fits_shape (m : Membership) {name : String} {path : Path}
    (hname : name.utf8ByteSize < 2 ^ 32) (hcount : ∀ n, path = .fallback n → n < 2 ^ 32) :
    (path.shape m name).Fits := by
  have hwrap (s : Shape) (h : s.Fits) : (m.wrap s).Fits := by cases m <;> exact h
  cases path with
  | empty => cases m <;> trivial
  | tree bucket => exact hwrap _ (Shape.fits_joined (s := .equals name) hname bucket)
  | fallback n => exact hwrap _ ⟨hname, hcount n rfl⟩

end Path

variable {ρ κ : Type}

theorem Predicate.Balanced.shape_eq {ps : List (Predicate ρ κ)} {t : Predicate ρ κ} {s : Shape}
    (h : Balanced ps t) (hs : ∀ p ∈ ps, p.shape = s) : t.shape = Shape.joined s ps.length := by
  induction h with
  | single p =>
    rw [List.length_singleton, Shape.joined_one]
    exact hs p (List.mem_singleton_self p)
  | @join ls rs l r left right halves ihl ihr =>
    have hl := left.length_pos
    have hr := right.length_pos
    have hrest : rs.length = ls.length + rs.length - (ls.length + rs.length) / 2 := by omega
    rw [List.length_append, Shape.joined_of_one_lt s (by omega), ← halves, Nat.add_sub_cancel_left]
    rw [shape, ihl fun p hp => hs p (List.mem_append_left _ hp),
      ihr fun p hp => hs p (List.mem_append_right _ hp)]

namespace Filter

variable [BEq κ]

theorem Builds.proper {f : Filter} {field : Field ρ κ} {c : Candidates κ} {path : Path}
    {q : Predicate ρ κ} (h : Builds f field c path q) : path.Proper := by
  cases h with
  | empty | fallback => trivial
  | tree nonempty few held joined =>
    exact Nat.lt_of_lt_of_le (Candidates.size_pos nonempty) held

theorem Builds.shape_orient {f : Filter} {field : Field ρ κ} {c : Candidates κ} {path : Path}
    {q : Predicate ρ κ} (h : Builds f field c path q) (m : Membership) :
    (orient m path q).shape = path.shape m field.name := by
  cases h with
  | empty nil => cases m <;> rfl
  | fallback many => cases m <;> rfl
  | tree nonempty few held joined =>
    have hleaf : ∀ p ∈ (c.padded (f.policy c.size)).map (Predicate.equals field),
        p.shape = .equals field.name := by
      intro p hp
      obtain ⟨v, -, rfl⟩ := List.mem_map.1 hp
      rfl
    have ht := joined.shape_eq hleaf
    rw [List.length_map, Candidates.length_padded nonempty held] at ht
    cases m with
    | included => exact ht
    | excluded => exact congrArg Shape.neg ht

section
variable [Hashable κ] [EquivBEq κ] [LawfulHashable κ]

/-- The shape of a compiled predicate depends on the values by their number only. -/
theorem shape_compile {f : Filter} {m : Membership} {field : Field ρ κ} {values : List κ}
    {p : Predicate ρ κ} (h : (f.compile m field values).outcome = .ok p) :
    p.shape = (f.path (distinct values).length).shape m field.name ∧
      (f.path (distinct values).length).Proper := by
  obtain ⟨q, hb, rfl, -⟩ := builds_of_compile h
  exact ⟨hb.shape_orient m, hb.proper⟩

theorem fits_compile {f : Filter} {m : Membership} {field : Field ρ κ} {values : List κ}
    {p : Predicate ρ κ} (h : (f.compile m field values).outcome = .ok p)
    (hname : field.name.utf8ByteSize < 2 ^ 32) (hcount : (distinct values).length < 2 ^ 32) :
    p.shape.Fits := by
  rw [(shape_compile h).1]
  apply Path.fits_shape m hname
  intro n hn
  rw [fallback_of_path hn]
  exact hcount

theorem path_of_compile {f : Filter} {m : Membership} {field : Field ρ κ} {values : List κ}
    {p : Predicate ρ κ} {path : Path} (h : (f.compile m field values).outcome = .ok p)
    (he : .compiled m path ∈ (f.compile m field values).events) :
    path = f.path (distinct values).length := by
  obtain ⟨q, -, -, hpath⟩ := builds_of_compile h
  exact (hpath path).1 he

end

section
variable {ρ₁ κ₁ ρ₂ κ₂ : Type}
  [BEq κ₁] [Hashable κ₁] [EquivBEq κ₁] [LawfulHashable κ₁]
  [BEq κ₂] [Hashable κ₂] [EquivBEq κ₂] [LawfulHashable κ₂]

/-- Two compiled predicates give one input to the digest exactly when their kinds agree and either
no value was asked for by both, or field names and paths agree. The shape is that of the path, and
the path is that of the number of different values. -/
theorem compiled_shapes_agree_iff {f₁ f₂ : Filter} {m₁ m₂ : Membership} {field₁ : Field ρ₁ κ₁}
    {field₂ : Field ρ₂ κ₂} {values₁ : List κ₁} {values₂ : List κ₂} {p₁ : Predicate ρ₁ κ₁}
    {p₂ : Predicate ρ₂ κ₂} {path₁ path₂ : Path}
    (ok₁ : (f₁.compile m₁ field₁ values₁).outcome = .ok p₁)
    (ok₂ : (f₂.compile m₂ field₂ values₂).outcome = .ok p₂)
    (on₁ : .compiled m₁ path₁ ∈ (f₁.compile m₁ field₁ values₁).events)
    (on₂ : .compiled m₂ path₂ ∈ (f₂.compile m₂ field₂ values₂).events)
    (name₁ : field₁.name.utf8ByteSize < 2 ^ 32) (name₂ : field₂.name.utf8ByteSize < 2 ^ 32)
    (count₁ : (distinct values₁).length < 2 ^ 32) (count₂ : (distinct values₂).length < 2 ^ 32) :
    (p₁.signedBytes = p₂.signedBytes ↔
      m₁ = m₂ ∧ (path₁ = .empty ∧ path₂ = .empty ∨ field₁.name = field₂.name ∧ path₁ = path₂)) ∧
    (p₁.shape = path₁.shape m₁ field₁.name ∧ path₁ = f₁.path (distinct values₁).length) ∧
    (p₂.shape = path₂.shape m₂ field₂.name ∧ path₂ = f₂.path (distinct values₂).length) := by
  obtain rfl := path_of_compile ok₁ on₁
  obtain rfl := path_of_compile ok₂ on₂
  obtain ⟨hs₁, hp₁⟩ := shape_compile ok₁
  obtain ⟨hs₂, hp₂⟩ := shape_compile ok₂
  refine ⟨?_, ⟨hs₁, rfl⟩, hs₂, rfl⟩
  rw [Predicate.signedBytes_eq_iff (fits_compile ok₁ name₁ count₁)
    (fits_compile ok₂ name₂ count₂), hs₁, hs₂]
  exact Path.shape_eq_iff hp₁ hp₂

/-- Two values padded to four and one value padded to four share a shape over one field, and a
native list of two values has another one. -/
theorem compiled_shapes_agree_iff_padded_to_four :
    ∃ p q r : Predicate Nat Nat,
      ((⟨4, .multipleOf 4⟩ : Filter).compile .excluded ⟨"k", id⟩ [3, 1, 3]).outcome = .ok p ∧
      ((⟨2, .constant 4⟩ : Filter).compile .excluded ⟨"k", id⟩ [7]).outcome = .ok q ∧
      ((⟨1, .exact⟩ : Filter).compile .excluded ⟨"k", id⟩ [3, 1, 3]).outcome = .ok r ∧
      p.signedBytes = q.signedBytes ∧ p.signedBytes ≠ r.signedBytes := by
  have hd : distinct [3, 1, 3] = [3, 1] := by simp [distinct, distinctFrom]
  have hd' : distinct [7] = [7] := by simp [distinct, distinctFrom]
  have hp : (⟨4, .multipleOf 4⟩ : Filter).compile .excluded (⟨"k", id⟩ : Field Nat Nat) [3, 1, 3] =
      ⟨.ok (.neg (.disj (.disj (.equals ⟨"k", id⟩ 3) (.equals ⟨"k", id⟩ 1))
          (.disj (.equals ⟨"k", id⟩ 3) (.equals ⟨"k", id⟩ 3)))),
        [.deduplicated 3 2, .treeBuilt 4, .compiled .excluded (.tree 4)],
        [.padded 2 4, .compiled .excluded "k" 3 (.tree 4)]⟩ := by
    simp only [compile, Candidates.ofList, hd]
    cbv
  have hq : (⟨2, .constant 4⟩ : Filter).compile .excluded (⟨"k", id⟩ : Field Nat Nat) [7] =
      ⟨.ok (.neg (.disj (.disj (.equals ⟨"k", id⟩ 7) (.equals ⟨"k", id⟩ 7))
          (.disj (.equals ⟨"k", id⟩ 7) (.equals ⟨"k", id⟩ 7)))),
        [.deduplicated 1 1, .treeBuilt 4, .compiled .excluded (.tree 4)],
        [.padded 1 4, .compiled .excluded "k" 1 (.tree 4)]⟩ := by
    simp only [compile, Candidates.ofList, hd']
    cbv
  have hr : (⟨1, .exact⟩ : Filter).compile .excluded (⟨"k", id⟩ : Field Nat Nat) [3, 1, 3] =
      ⟨.ok (.neg (.member ⟨"k", id⟩ [3, 1])),
        [.deduplicated 3 2, .compiled .excluded (.fallback 2)],
        [.compiled .excluded "k" 3 (.fallback 2)]⟩ := by
    simp only [compile, Candidates.ofList, hd]
    cbv
  have hpq := compiled_shapes_agree_iff (congrArg Traced.outcome hp) (congrArg Traced.outcome hq)
    (show Event.compiled .excluded (.tree 4) ∈ _ by rw [hp]; simp)
    (show Event.compiled .excluded (.tree 4) ∈ _ by rw [hq]; simp)
    (by decide) (by decide) (by simp [hd]) (by simp [hd'])
  have hpr := compiled_shapes_agree_iff (congrArg Traced.outcome hp) (congrArg Traced.outcome hr)
    (show Event.compiled .excluded (.tree 4) ∈ _ by rw [hp]; simp)
    (show Event.compiled .excluded (.fallback 2) ∈ _ by rw [hr]; simp)
    (by decide) (by decide) (by simp [hd]) (by simp [hd])
  exact ⟨_, _, _, congrArg Traced.outcome hp, congrArg Traced.outcome hq,
    congrArg Traced.outcome hr, by simp [hpq.1], by simp [hpr.1]⟩

end

end Filter

end PlanShape
