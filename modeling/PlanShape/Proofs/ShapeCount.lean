import PlanShape.Proofs.Rounding
import PlanShape.Proofs.ShapeKey

/-!
How many shapes a filter over well-known sizes compiles. Up to the threshold every shape comes from
one of the sizes to which counts are rounded, and there are few of them. Above the threshold every
count has a shape of its own.
-/
namespace PlanShape

namespace Path

/-- Two native lists over one field have different bytes if their lengths differ, however long the
name of the field is. -/
theorem fallback_signedBytes_inj {m : Membership} {name : String} {n k : Nat} (hn : n < 2 ^ 32)
    (hk : k < 2 ^ 32) (h : ((fallback n).shape m name).signedBytes =
      ((fallback k).shape m name).signedBytes) : n = k := by
  have hbytes : Shape.lengthBytes n ++ [] = Shape.lengthBytes k ++ [] := by
    cases m <;>
      simpa [shape, Membership.wrap, Shape.signedBytes, Shape.encode, Shape.encodeOnto] using h
  exact (Shape.lengthBytes_append_inj hn hk hbytes).1

/-- A tree never has the bytes of a native list: their positive forms begin with different tags. -/
theorem tree_signedBytes_ne_fallback (m : Membership) (name : String) (bucket n : Nat) :
    ((tree bucket).shape m name).signedBytes ≠ ((fallback n).shape m name).signedBytes := by
  intro h
  have hbytes : (Shape.joined (.equals name) bucket).encodeOnto [] =
      (Shape.member name n).encodeOnto [] := by
    cases m with
    | included => exact List.append_cancel_left h
    | excluded => exact (List.cons.inj (List.append_cancel_left h)).2
  rw [Shape.joined] at hbytes
  split at hbytes
  · exact absurd (List.cons.inj hbytes).1 (by decide)
  · exact absurd (List.cons.inj hbytes).1 (by decide)

end Path

namespace Filter

variable {ρ κ : Type} [BEq κ] [Hashable κ] [EquivBEq κ] [LawfulHashable κ]

/-- The bytes from which signatures are computed, over all values of which between `lo` and `hi`
are different. -/
def shapeInputs (f : Filter) (m : Membership) (field : Field ρ κ) (lo hi : Nat) :
    Set (List UInt8) :=
  {b | ∃ (values : List κ) (p : Predicate ρ κ),
    lo ≤ (distinct values).length ∧ (distinct values).length ≤ hi ∧
    (f.compile m field values).outcome = .ok p ∧ p.signedBytes = b}

/-- The filter over listed sizes with a threshold. -/
def overSizes (sizes : List Nat) (threshold : Nat) : Filter :=
  ⟨threshold, (WellKnown.ofList sizes).policy⟩

/-- The bound on the number of shapes for up to `n` values that stand in trees. -/
def treeShapeBound (sizes : List Nat) (n : Nat) : Nat :=
  Nat.clog 2 n + 1 + {s ∈ sizes.toFinset | 1 ≤ s ∧ s ≤ n}.card

theorem mem_shapeInputs {f : Filter} {m : Membership} {field : Field ρ κ} {lo hi : Nat}
    {b : List UInt8} (h : b ∈ f.shapeInputs m field lo hi) :
    ∃ n, lo ≤ n ∧ n ≤ hi ∧ b = ((f.path n).shape m field.name).signedBytes := by
  obtain ⟨values, p, hlo, hhi, hp, rfl⟩ := h
  exact ⟨_, hlo, hhi, Predicate.signedBytes_of_shape (shape_compile hp).1⟩

theorem shapeInputs_trees_le (sizes : List Nat) {t n : Nat} (m : Membership) (field : Field ρ κ)
    (ht : n ≤ t) (hn : n < 2 ^ 32) :
    ((overSizes sizes t).shapeInputs m field 1 n).encard ≤ treeShapeBound sizes n := by
  have hsub : (overSizes sizes t).shapeInputs m field 1 n ⊆
      (fun size => ((Path.tree size).shape m field.name).signedBytes) ''
        (WellKnown.sizesUpTo sizes n : Set Nat) := by
    intro b hb
    obtain ⟨k, hlo, hhi, rfl⟩ := mem_shapeInputs hb
    have hpath := path_of_le (f := overSizes sizes t) hlo (Nat.le_trans hhi ht)
    exact ⟨_, WellKnown.sizeFor_mem_sizesUpTo hlo hhi hn, by rw [hpath]; rfl⟩
  calc ((overSizes sizes t).shapeInputs m field 1 n).encard
      ≤ _ := Set.encard_le_encard hsub
    _ ≤ (WellKnown.sizesUpTo sizes n : Set Nat).encard := Set.encard_image_le _ _
    _ = (WellKnown.sizesUpTo sizes n).card := Set.encard_coe_eq_coe_finsetCard _
    _ ≤ treeShapeBound sizes n := by exact_mod_cast WellKnown.card_sizesUpTo_le sizes n

theorem shapeInputs_split (f : Filter) (m : Membership) (field : Field ρ κ) {t n : Nat}
    (h : t ≤ n) :
    f.shapeInputs m field 1 n = f.shapeInputs m field 1 t ∪ f.shapeInputs m field (t + 1) n := by
  ext b
  constructor
  · rintro ⟨values, p, hlo, hhi, hp, hb⟩
    by_cases hc : (distinct values).length ≤ t
    · exact .inl ⟨values, p, hlo, hc, hp, hb⟩
    · exact .inr ⟨values, p, by omega, hhi, hp, hb⟩
  · rintro (⟨values, p, hlo, hhi, hp, hb⟩ | ⟨values, p, hlo, hhi, hp, hb⟩)
    · exact ⟨values, p, hlo, Nat.le_trans hhi h, hp, hb⟩
    · exact ⟨values, p, by omega, hhi, hp, hb⟩

/-- Above the threshold there are only shapes of native lists, one for each count. -/
theorem shapeInputs_lists_subset (f : Filter) (m : Membership) (field : Field ρ κ) (n : Nat) :
    f.shapeInputs m field (f.threshold + 1) n ⊆
      (fun k => ((Path.fallback k).shape m field.name).signedBytes) ''
        (Finset.Ioc f.threshold n : Set Nat) := by
  intro b hb
  obtain ⟨k, hlo, hhi, rfl⟩ := mem_shapeInputs hb
  refine ⟨k, ?_, by rw [path_of_lt (f := f) hlo]⟩
  rw [Finset.mem_coe, Finset.mem_Ioc]
  exact ⟨hlo, hhi⟩

theorem encard_lists (m : Membership) (name : String) {t n : Nat} (hn : n < 2 ^ 32) :
    ((fun k => ((Path.fallback k).shape m name).signedBytes) ''
      (Finset.Ioc t n : Set Nat)).encard = (n - t : Nat) := by
  have hinj : Set.InjOn (fun k => ((Path.fallback k).shape m name).signedBytes)
      (Finset.Ioc t n : Set Nat) := by
    intro k hk l hl h
    rw [Finset.mem_coe, Finset.mem_Ioc] at hk hl
    exact Path.fallback_signedBytes_inj (by omega) (by omega) h
  rw [hinj.encard_image, Set.encard_coe_eq_coe_finsetCard, Nat.card_Ioc]

/-- Values of which `n` are different have fewer different ones among the first of them. -/
theorem exists_values_of_le {values : List κ} {k : Nat} (h : k ≤ (distinct values).length) :
    ∃ fewer : List κ, (distinct fewer).length = k := by
  have hnodup : ((distinct values).take k).Pairwise fun x y => (x == y) = false :=
    (nodup_distinctFrom _ values).sublist (List.take_sublist k _)
  exact ⟨(distinct values).take k, by rw [distinct_of_nodup hnodup, List.length_take]; omega⟩

theorem compile_list {f : Filter} (h : ∀ n, n ≤ f.policy n) (m : Membership) (field : Field ρ κ)
    {values : List κ} (hl : f.threshold < (distinct values).length) :
    ∃ p, (f.compile m field values).outcome = .ok p ∧
      p.shape = (Path.fallback (distinct values).length).shape m field.name := by
  obtain ⟨p, hp⟩ := compile_ok h m field values
  exact ⟨p, hp, by rw [(shape_compile hp).1, path_of_lt hl]⟩

/-- If there are enough values, every native list up to a length is compiled. -/
theorem shapeInputs_lists_eq {f : Filter} (h : ∀ n, n ≤ f.policy n) (m : Membership)
    (field : Field ρ κ) {n : Nat} (hn : ∃ values : List κ, (distinct values).length = n) :
    f.shapeInputs m field (f.threshold + 1) n =
      (fun k => ((Path.fallback k).shape m field.name).signedBytes) ''
        (Finset.Ioc f.threshold n : Set Nat) := by
  apply Set.Subset.antisymm (shapeInputs_lists_subset f m field n)
  rintro b ⟨k, hk, rfl⟩
  rw [Finset.mem_coe, Finset.mem_Ioc] at hk
  obtain ⟨values, rfl⟩ := hn
  obtain ⟨fewer, rfl⟩ := exists_values_of_le hk.2
  obtain ⟨p, hp, hs⟩ := compile_list h m field hk.1
  exact ⟨fewer, p, hk.1, hk.2, hp, Predicate.signedBytes_of_shape hs⟩

/-- The shape of a native list is found for one count only. -/
theorem list_not_mem_shapeInputs (f : Filter) (m : Membership) (field : Field ρ κ) {n k : Nat}
    (hn : n < 2 ^ 32) (hk : k < 2 ^ 32) (hpos : 1 ≤ k) (hne : k ≠ n) :
    ((Path.fallback n).shape m field.name).signedBytes ∉ f.shapeInputs m field k k := by
  intro hb
  obtain ⟨j, hlo, hhi, he⟩ := mem_shapeInputs hb
  obtain rfl : j = k := by omega
  by_cases ht : f.threshold < j
  · rw [path_of_lt ht] at he
    exact hne (Path.fallback_signedBytes_inj hk hn he.symm)
  · rw [path_of_le hpos (Nat.not_lt.1 ht)] at he
    exact Path.tree_signedBytes_ne_fallback m field.name _ _ he.symm

theorem disjoint_trees_lists {f : Filter} (m : Membership) (field : Field ρ κ) (n : Nat) :
    Disjoint (f.shapeInputs m field 1 f.threshold)
      (f.shapeInputs m field (f.threshold + 1) n) := by
  rw [Set.disjoint_left]
  intro b htree hlist
  obtain ⟨k, hlo, hhi, rfl⟩ := mem_shapeInputs htree
  obtain ⟨l, hl, -, he⟩ := mem_shapeInputs hlist
  rw [path_of_le hlo hhi, path_of_lt hl] at he
  exact Path.tree_signedBytes_ne_fallback m field.name _ _ he

/-- Beyond the threshold the bound grows by one for each count. -/
theorem shapeInputs_le_of_lt (sizes : List Nat) {t n : Nat} (m : Membership) (field : Field ρ κ)
    (ht : t < n) (hn : n < 2 ^ 32) :
    ((overSizes sizes t).shapeInputs m field 1 n).encard ≤
      treeShapeBound sizes t + (n - t : Nat) := by
  have htrees := shapeInputs_trees_le sizes (t := t) m field (Nat.le_refl t) (Nat.lt_trans ht hn)
  have hlists : ((overSizes sizes t).shapeInputs m field (t + 1) n).encard ≤ (n - t : Nat) :=
    (Set.encard_le_encard (shapeInputs_lists_subset _ m field n)).trans_eq
      (encard_lists m field.name hn)
  rw [shapeInputs_split _ m field (Nat.le_of_lt ht)]
  exact (Set.encard_union_le _ _).trans (add_le_add htrees hlists)

theorem encard_shapeInputs_of_lt (sizes : List Nat) {t n : Nat} (m : Membership)
    (field : Field ρ κ) (ht : t < n) (hn : n < 2 ^ 32)
    (hvalues : ∃ values : List κ, (distinct values).length = n) :
    ((overSizes sizes t).shapeInputs m field 1 n).encard =
      ((overSizes sizes t).shapeInputs m field 1 t).encard + (n - t : Nat) := by
  have hdisjoint : Disjoint ((overSizes sizes t).shapeInputs m field 1 t)
      ((overSizes sizes t).shapeInputs m field (t + 1) n) := disjoint_trees_lists m field n
  have hlists : ((overSizes sizes t).shapeInputs m field (t + 1) n).encard = (n - t : Nat) :=
    (congrArg Set.encard (shapeInputs_lists_eq (WellKnown.le_sizeFor sizes) m field hvalues)).trans
      (encard_lists m field.name hn)
  rw [shapeInputs_split _ m field (Nat.le_of_lt ht), Set.encard_union_eq hdisjoint, hlists]

/-- Over listed sizes every call succeeds. Up to the threshold the number of shapes for up to `n`
different values grows with the logarithm of `n`, listed sizes apart. Above it every further count
adds one shape, which no other count has. -/
theorem shapes_grow_logarithmically (sizes : List Nat) (t n : Nat) (m : Membership)
    (field : Field ρ κ) (hn : n < 2 ^ 32) :
    (∀ values, ∃ p, ((overSizes sizes t).compile m field values).outcome = .ok p) ∧
    (n ≤ t →
      ((overSizes sizes t).shapeInputs m field 1 n).encard ≤ treeShapeBound sizes n) ∧
    (t < n →
      ((overSizes sizes t).shapeInputs m field 1 n).encard ≤
        treeShapeBound sizes t + (n - t : Nat) ∧
      (∀ k, t < k → k ≤ n → ∃ b,
        (∀ values, (distinct values).length = k → ∃ p,
          ((overSizes sizes t).compile m field values).outcome = .ok p ∧
            p.signedBytes = b) ∧
        ∀ l, 1 ≤ l → l ≤ n → l ≠ k → b ∉ (overSizes sizes t).shapeInputs m field l l) ∧
      ((∃ values : List κ, (distinct values).length = n) →
        ((overSizes sizes t).shapeInputs m field 1 n).encard =
          ((overSizes sizes t).shapeInputs m field 1 t).encard + (n - t : Nat))) := by
  have hholds : ∀ k, k ≤ (overSizes sizes t).policy k := WellKnown.le_sizeFor sizes
  refine ⟨compile_ok hholds m field, ?_, ?_⟩
  · intro ht
    exact shapeInputs_trees_le sizes m field ht hn
  · intro ht
    refine ⟨shapeInputs_le_of_lt sizes m field ht hn, ?_,
      encard_shapeInputs_of_lt sizes m field ht hn⟩
    intro k hk hkn
    refine ⟨((Path.fallback k).shape m field.name).signedBytes, ?_, ?_⟩
    · rintro values rfl
      obtain ⟨p, hp, hs⟩ := compile_list hholds m field hk
      exact ⟨p, hp, Predicate.signedBytes_of_shape hs⟩
    · intro l hpos hl hne
      exact list_not_mem_shapeInputs _ m field (by omega) (by omega) hpos hne

/-- With threshold six the default sizes give at most four shapes for up to six values. With
threshold four they give at most three shapes of trees, and two of lists besides. -/
theorem shapes_grow_logarithmically_to_six :
    ((overSizes WellKnown.defaultSizes 6).shapeInputs .included (⟨"k", id⟩ : Field Nat Nat)
      1 6).encard ≤ 4 ∧
    ((overSizes WellKnown.defaultSizes 4).shapeInputs .included (⟨"k", id⟩ : Field Nat Nat)
      1 6).encard ≤ 5 ∧
    ((overSizes WellKnown.defaultSizes 4).shapeInputs .included (⟨"k", id⟩ : Field Nat Nat)
      1 6).encard =
      ((overSizes WellKnown.defaultSizes 4).shapeInputs .included (⟨"k", id⟩ : Field Nat Nat)
        1 4).encard + 2 := by
  have hsix := (shapes_grow_logarithmically WellKnown.defaultSizes 6 6 .included
    (⟨"k", id⟩ : Field Nat Nat) (by decide)).2.1 (by decide)
  have hfour := (shapes_grow_logarithmically WellKnown.defaultSizes 4 6 .included
    (⟨"k", id⟩ : Field Nat Nat) (by decide)).2.2 (by decide)
  have hlog₆ : Nat.clog 2 6 = 3 := WellKnown.clog_eq_succ (by decide) (by decide)
  have hlog₄ : Nat.clog 2 4 = 2 := WellKnown.clog_eq_succ (by decide) (by decide)
  have hlisted₆ : {s ∈ WellKnown.defaultSizes.toFinset | 1 ≤ s ∧ s ≤ 6}.card = 0 := by decide
  have hlisted₄ : {s ∈ WellKnown.defaultSizes.toFinset | 1 ≤ s ∧ s ≤ 4}.card = 0 := by decide
  rw [treeShapeBound, hlog₆, hlisted₆] at hsix
  have hbound := hfour.1
  rw [treeShapeBound, hlog₄, hlisted₄] at hbound
  have hvalues : ∃ values : List Nat, (distinct values).length = 6 := by
    refine ⟨List.range 6, ?_⟩
    rw [distinct_of_nodup (List.nodup_range.imp beq_false_of_ne), List.length_range]
  exact ⟨hsix, hbound, hfour.2.2 hvalues⟩

end Filter

end PlanShape
