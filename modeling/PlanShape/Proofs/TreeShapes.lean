import Mathlib
import PlanShape.Proofs.CallOrder
import PlanShape.Proofs.Conservation
import PlanShape.Proofs.ShapeKey

/-!
What the number of shapes in a report says of the predicates that were returned. The counters know
a tree by the number of its leaves, and the shape of a tree is made of that number, of the kind of
membership and of the field name. So the reported number is that of the shapes wherever kind and
name are shared; in general it lies between the shapes of one kind and name and all of them.
-/
namespace PlanShape

/-- Where `f` does not tell two elements apart `g` does not either, so `g` has no more values. -/
theorem card_toFinset_map_le {α β γ : Type} [DecidableEq β] [DecidableEq γ] {xs : List α}
    {f : α → β} {g : α → γ} (h : ∀ x ∈ xs, ∀ y ∈ xs, f x = f y → g x = g y) :
    (xs.map g).toFinset.card ≤ (xs.map f).toFinset.card := by
  induction xs with
  | nil => exact Nat.le_refl _
  | cons x xs ih =>
    have hrest := ih fun y hy z hz =>
      h y (List.mem_cons_of_mem x hy) z (List.mem_cons_of_mem x hz)
    simp only [List.map_cons, List.toFinset_cons]
    by_cases hg : g x ∈ (xs.map g).toFinset
    · rw [Finset.insert_eq_of_mem hg]
      exact hrest.trans (Finset.card_le_card (Finset.subset_insert _ _))
    · -- a value of `f` that occurs again would bring the value of `g` with it
      have hf : f x ∉ (xs.map f).toFinset := by
        intro hmem
        obtain ⟨y, hy, hxy⟩ := List.mem_map.1 (List.mem_toFinset.1 hmem)
        have hgy : g y = g x := h y (List.mem_cons_of_mem x hy) x List.mem_cons_self hxy
        exact hg (List.mem_toFinset.2 (List.mem_map.2 ⟨y, hy, hgy⟩))
      rw [Finset.card_insert_of_notMem hg, Finset.card_insert_of_notMem hf]
      exact Nat.succ_le_succ hrest

/-- A predicate that was returned on the path of a tree: what was asked for, the bytes from which
its signature is made, and the number of its leaves. -/
structure GrownTree where
  membership : Membership
  name : String
  bytes : List UInt8
  leafCount : Nat
  deriving DecidableEq, Repr

/-- The bytes are those of the tree with so many leaves. -/
structure GrownTree.Shaped (t : GrownTree) : Prop where
  bytes_eq : t.bytes = ((Path.tree t.leafCount).shape t.membership t.name).signedBytes
  proper : (Path.tree t.leafCount).Proper

/-- Trees of one shape have the same number of leaves. -/
theorem GrownTree.Shaped.leafCount_eq {t t' : GrownTree} (h : t.Shaped) (h' : t'.Shaped)
    (hname : t.name.utf8ByteSize < 2 ^ 32) (hname' : t'.name.utf8ByteSize < 2 ^ 32)
    (hbytes : t.bytes = t'.bytes) : t.leafCount = t'.leafCount := by
  have hfits : ((Path.tree t.leafCount).shape t.membership t.name).Fits :=
    Path.fits_shape t.membership hname (by simp)
  have hfits' : ((Path.tree t'.leafCount).shape t'.membership t'.name).Fits :=
    Path.fits_shape t'.membership hname' (by simp)
  rw [h.bytes_eq, h'.bytes_eq, Shape.signedBytes_eq_iff hfits hfits',
    Path.shape_eq_iff h.proper h'.proper] at hbytes
  obtain ⟨-, ⟨hempty, -⟩ | ⟨-, hpath⟩⟩ := hbytes
  · cases hempty
  · exact Path.tree.inj hpath

namespace Filter

variable {ρ κ : Type} [BEq κ] [Hashable κ] [EquivBEq κ] [LawfulHashable κ]

/-- The tree that a call returns, if it succeeds on the path of a tree. -/
def grown? (f : Filter) (m : Membership) (field : Field ρ κ) (values : List κ) :
    Option GrownTree :=
  match (f.compile m field values).outcome, f.pathTaken? m field values with
  | .ok p, some (.tree _) => some ⟨m, field.name, p.signedBytes, p.leafCount⟩
  | _, _ => none

/-- A call on the path of a tree returns a tree of the size that is announced. -/
theorem grown?_of_compile {f : Filter} {m : Membership} {field : Field ρ κ} {values : List κ}
    {p : Predicate ρ κ} {bucket : Nat} (h : (f.compile m field values).outcome = .ok p)
    (hpath : f.path (distinct values).length = .tree bucket) :
    f.pathTaken? m field values = some (.tree bucket) ∧
      f.grown? m field values = some ⟨m, field.name, p.signedBytes, bucket⟩ ∧
      GrownTree.Shaped ⟨m, field.name, p.signedBytes, bucket⟩ := by
  obtain ⟨q, -, -, hevents⟩ := builds_of_compile h
  obtain ⟨-, hleaves⟩ := describes_of_compile h ((hevents _).2 hpath.symm)
  obtain ⟨hshape, hproper⟩ := shape_compile h
  have htaken : f.pathTaken? m field values = some (.tree bucket) := by
    simp [pathTaken?, h, hpath, Except.toOption]
  refine ⟨htaken, ?_, ?_, ?_⟩
  · rw [grown?, h, htaken]
    exact congrArg (fun n => some (GrownTree.mk m field.name p.signedBytes n)) hleaves
  · rw [Predicate.signedBytes_of_shape hshape, hpath]
  · rw [hpath] at hproper
    exact hproper

theorem grown?_cases (f : Filter) (m : Membership) (field : Field ρ κ) (values : List κ) :
    (∃ t, f.grown? m field values = some t ∧ t.Shaped ∧
      f.pathTaken? m field values = some (.tree t.leafCount)) ∨
    (f.grown? m field values = none ∧
      (f.pathTaken? m field values).bind Path.size? = none) := by
  cases ho : (f.compile m field values).outcome with
  | error e =>
    right
    simp [grown?, pathTaken?, ho, Except.toOption]
  | ok p =>
    cases hpath : f.path (distinct values).length with
    | empty | fallback n =>
      right
      simp [grown?, pathTaken?, ho, hpath, Except.toOption, Path.size?]
    | tree bucket =>
      left
      obtain ⟨htaken, hgrown, hshaped⟩ := grown?_of_compile ho hpath
      exact ⟨_, hgrown, hshaped, htaken⟩

end Filter

namespace Metered.Call

/-- The tree that a call returns, if it compiles one. -/
def tree? : {ε α : Type} → Call ε α → Option GrownTree
  | _, _, @compile _ _ _ _ _ _ f m field values => f.grown? m field values
  | _, _, .combine _ | _, _, @announce _ _ _ _ _ _ => none

variable {ε α : Type} (c : Call ε α)

theorem shaped_of_tree? {t : GrownTree} (h : c.tree? = some t) : t.Shaped := by
  cases c with
  | compile f m field values =>
    obtain ⟨t', ht, hshaped, -⟩ | ⟨hnone, -⟩ := f.grown?_cases m field values
    · obtain rfl := Option.some.inj (ht.symm.trans h)
      exact hshaped
    · cases hnone.symm.trans h
  | combine leaves => cases h
  | announce values => cases h

theorem treeSizes_eq_tree? : treeSizes c.traced.events = c.tree?.toList.map (·.leafCount) := by
  rw [treeSizes_events]
  cases c with
  | compile f m field values =>
    simp only [path?, tree?]
    obtain ⟨t, ht, -, htaken⟩ | ⟨hnone, hsize⟩ := f.grown?_cases m field values
    · rw [ht, htaken]
      rfl
    · rw [hnone, hsize]
      rfl
  | combine leaves => rfl
  | announce values => rfl

end Metered.Call

namespace Deed

/-- The tree that a deed returns, if it is a call that compiles one. -/
def tree? : Deed → Option GrownTree
  | call _ c => c.tree?
  | reset => none

theorem shaped_of_mem {ds : List Deed} {t : GrownTree} (h : t ∈ ds.filterMap tree?) :
    t.Shaped := by
  obtain ⟨d, -, hd⟩ := List.mem_filterMap.1 h
  cases d with
  | call receiver c => exact c.shaped_of_tree? hd
  | reset => cases hd

/-- The sizes that are announced are those of the trees that are returned. -/
theorem treeSizes_flatMap_events (ds : List Deed) :
    treeSizes (ds.flatMap events) = (ds.filterMap tree?).map (·.leafCount) := by
  have hdeed (d : Deed) : treeSizes d.events = d.tree?.toList.map (·.leafCount) := by
    cases d with
    | call receiver c => exact c.treeSizes_eq_tree?
    | reset => rfl
  induction ds with
  | nil => rfl
  | cons d ds ih =>
    rw [List.flatMap_cons, treeSizes_append, hdeed, ih]
    cases hd : d.tree? <;> simp [hd]

end Deed

theorem Counters.mem_keys_recordAll_zero {es : List Event} {k : Nat} :
    k ∈ (zero.recordAll es).buckets.keys ↔ k ∈ treeSizes es := by
  rw [mem_keys_recordAll]
  simp [Histogram.keys, zero, Histogram.empty]

/-- The shapes of a report are the sizes of trees that occurred. -/
theorem Counters.distinctShapes_recordAll (es : List Event) :
    (zero.recordAll es).report.distinctShapes = (treeSizes es).toFinset.card := by
  have hnodup : (zero.recordAll es).buckets.keys.Nodup :=
    (zero.recordAll es).buckets.ascending_keys.imp Nat.ne_of_lt
  have hsame : (zero.recordAll es).buckets.keys.toFinset = (treeSizes es).toFinset := by
    ext k
    rw [List.mem_toFinset, List.mem_toFinset, mem_keys_recordAll_zero]
  rw [← hsame, List.toFinset_card_of_nodup hnodup, Histogram.keys, List.length_map]
  rfl

/-- Below the largest count a key of the histogram holds the number of trees of its size. -/
theorem Counters.count_recordAll_zero {es : List Event} (h : es.length < 2 ^ 64) (k : Nat) :
    (zero.recordAll es).buckets.count k = (treeSizes es).count k := by
  have hmax : maxCount + 1 = 2 ^ 64 := by decide
  have hcount : (treeSizes es).count k ≤ es.length :=
    List.count_le_length.trans (List.length_filterMap_le _ _)
  have hstart : zero.buckets.count k = 0 := rfl
  rw [count_recordAll (by omega), hstart]
  omega

/-- Trees that share kind and name have as many shapes as numbers of leaves. -/
theorem GrownTree.card_bytes_le {trees : List GrownTree} (h : ∀ tree ∈ trees, tree.Shaped)
    (hshared : ∀ tree ∈ trees, ∀ tree' ∈ trees,
      tree.membership = tree'.membership ∧ tree.name = tree'.name) :
    (trees.map (·.bytes)).toFinset.card ≤ (trees.map (·.leafCount)).toFinset.card := by
  apply card_toFinset_map_le
  intro tree htree tree' htree' hleaves
  obtain ⟨hkind, hname⟩ := hshared tree htree tree' htree'
  rw [(h tree htree).bytes_eq, (h tree' htree').bytes_eq, hkind, hname, hleaves]

/-- The report after some deeds is that of the calls that are counted. -/
theorem Program.report_eq_of_getElem? {π α : Type} {p : Program π α} {scopes : List SinkId}
    {t : Thread} {n : Nat} {report : Report} (h : t.active = scopes.head?)
    (hz : t.counters = .zero) (hr : (p.reports t)[n]? = some report) :
    report = (Counters.zero.recordAll
      ((Deed.counted ((p.deeds scopes).take (n + 1))).flatMap Deed.events)).report := by
  rw [p.reports_eq h, hz] at hr
  obtain ⟨-, rfl⟩ : n < (p.deeds scopes).length ∧
      (((p.deeds scopes).take (n + 1)).foldl Deed.count .zero).report = report := by
    simpa [List.getElem?_eq_some_iff] using hr
  rw [Deed.foldl_count]

/-- A program starts with counters at zero and gives a report after every call and every reset. Let
the trees be those that the counted calls since the last reset have returned, with names short
enough for their encoding. Then the reported number of shapes is at most that of all shapes of the
trees and at least that of the shapes of one kind and one name, so it is their number if all trees
share kind and name. As long as there are fewer events than a counter can hold, the entries of the
histogram are the numbers of the trees by their leaves. -/
theorem Program.distinct_shapes_reported {π α : Type} (p : Program π α) {scopes : List SinkId}
    {t : Thread} (h : t.active = scopes.head?) (hz : t.counters = .zero) {n : Nat}
    {report : Report} (hr : (p.reports t)[n]? = some report) {calls : List Deed}
    (hcalls : calls = Deed.counted ((p.deeds scopes).take (n + 1)))
    (hevents : (calls.flatMap Deed.events).length < 2 ^ 64) {trees : List GrownTree}
    (htrees : trees = calls.filterMap Deed.tree?)
    (hnames : ∀ tree ∈ trees, tree.name.utf8ByteSize < 2 ^ 32) :
    report.distinctShapes ≤ (trees.map (·.bytes)).toFinset.card ∧
    (∀ m name, ((trees.filter fun tree => tree.membership = m ∧ tree.name = name).map
      (·.bytes)).toFinset.card ≤ report.distinctShapes) ∧
    ((∀ tree ∈ trees, ∀ tree' ∈ trees,
        tree.membership = tree'.membership ∧ tree.name = tree'.name) →
      report.distinctShapes = (trees.map (·.bytes)).toFinset.card) ∧
    (∀ k, k ∈ report.counters.buckets.keys ↔ ∃ tree ∈ trees, tree.leafCount = k) ∧
    ∀ e ∈ report.counters.buckets.entries, e.2 = trees.countP fun tree => tree.leafCount = e.1 := by
  subst hcalls
  have hshaped : ∀ tree ∈ trees, tree.Shaped := by
    intro tree htree
    exact Deed.shaped_of_mem (htrees ▸ htree)
  have hreport := report_eq_of_getElem? h hz hr
  have hsizes := Deed.treeSizes_flatMap_events (Deed.counted ((p.deeds scopes).take (n + 1)))
  rw [← htrees] at hsizes
  have hnumber : report.distinctShapes = (trees.map (·.leafCount)).toFinset.card := by
    rw [hreport, Counters.distinctShapes_recordAll, hsizes]
  have hupper : report.distinctShapes ≤ (trees.map (·.bytes)).toFinset.card := by
    rw [hnumber]
    apply card_toFinset_map_le
    intro tree htree tree' htree' hbytes
    exact (hshaped tree htree).leafCount_eq (hshaped tree' htree') (hnames tree htree)
      (hnames tree' htree') hbytes
  refine ⟨hupper, ?_, ?_, ?_, ?_⟩
  · intro m name
    have hsub : trees.filter (fun tree => tree.membership = m ∧ tree.name = name) ⊆ trees :=
      List.filter_subset_self _
    have hsubset : ((trees.filter fun tree => tree.membership = m ∧ tree.name = name).map
        (·.leafCount)).toFinset ⊆ (trees.map (·.leafCount)).toFinset :=
      fun k hk => List.mem_toFinset.2 (List.map_subset _ hsub (List.mem_toFinset.1 hk))
    rw [hnumber]
    refine (GrownTree.card_bytes_le (fun tree ht => hshaped tree (hsub ht)) ?_).trans ?_
    · intro tree htree tree' htree'
      obtain ⟨hm, hn⟩ := of_decide_eq_true (List.mem_filter.1 htree).2
      obtain ⟨hm', hn'⟩ := of_decide_eq_true (List.mem_filter.1 htree').2
      exact ⟨hm.trans hm'.symm, hn.trans hn'.symm⟩
    · exact Finset.card_le_card hsubset
  · intro hshared
    exact Nat.le_antisymm hupper (hnumber ▸ GrownTree.card_bytes_le hshaped hshared)
  · intro k
    rw [hreport, Counters.report, Counters.mem_keys_recordAll_zero, hsizes, List.mem_map]
  · intro e he
    rw [hreport] at he
    rw [← Histogram.count_of_mem he, Counters.report, Counters.count_recordAll_zero hevents, hsizes,
      List.count_eq_countP, List.countP_map]
    rfl

/-- The tree of four leaves for one value under a negation. -/
def AnyCall.fourNegated : AnyCall := ⟨.ofNumbers ⟨4, .constant 4⟩ .excluded [7]⟩

/-- Two trees of one size and of both kinds, with a call in between that fails. -/
def Program.bothKinds : Program Unit Unit := inTurn [.fourLeaves, .undersized, .fourNegated]

theorem Program.distinct_shapes_reported_both_kinds :
    ∃ report trees, (bothKinds.reports .fresh)[2]? = some report ∧
      trees = (Deed.counted ((bothKinds.deeds []).take 3)).filterMap Deed.tree? ∧
      ((Deed.counted ((bothKinds.deeds []).take 3)).flatMap Deed.events).length < 2 ^ 64 ∧
      trees.map (·.leafCount) = [4, 4] ∧ (∀ tree ∈ trees, tree.name.utf8ByteSize < 2 ^ 32) ∧
      1 ≤ report.distinctShapes ∧ report.distinctShapes ≤ (trees.map (·.bytes)).toFinset.card ∧
      ∀ e ∈ report.counters.buckets.entries, e.1 = 4 → e.2 = 2 := by
  have hactive : Thread.fresh.active = ([] : List SinkId).head? := rfl
  have hcounted : Deed.counted ((bothKinds.deeds []).take 3) =
      [.call none AnyCall.fourLeaves.call, .call none AnyCall.undersized.call,
        .call none AnyCall.fourNegated.call] := rfl
  have hdouble : distinct [7, 7] = [7] := by simp [distinct, distinctFrom]
  have hsingle : distinct [7] = [7] := by simp [distinct, distinctFrom]
  have hgrown (m : Membership) {values : List Nat} (hv : distinct values = [7]) :
      ∃ bytes, (⟨4, .constant 4⟩ : Filter).pathTaken? m (⟨"k", id⟩ : Field Nat Nat) values =
          some (.tree 4) ∧
        (⟨4, .constant 4⟩ : Filter).grown? m (⟨"k", id⟩ : Field Nat Nat) values =
          some ⟨m, "k", bytes, 4⟩ := by
    have hne : distinct values ≠ [] := by simp [hv]
    obtain ⟨p, hp⟩ := Filter.compile_of_tree (f := ⟨4, .constant 4⟩) m (⟨"k", id⟩ : Field Nat Nat)
      hne (by simp [hv]) (by simp [hv, SizePolicy.constant])
    have hpath : (⟨4, .constant 4⟩ : Filter).path (distinct values).length = .tree 4 := by
      rw [hv]
      rfl
    obtain ⟨htaken, ht, -⟩ := Filter.grown?_of_compile (congrArg Traced.outcome hp) hpath
    exact ⟨_, htaken, ht⟩
  obtain ⟨bytes, hpath, htree⟩ := hgrown .included hdouble
  obtain ⟨bytes', hpath', htree'⟩ := hgrown .excluded hsingle
  have hfailed : (⟨2, .half⟩ : Filter).pathTaken? .excluded (⟨"k", id⟩ : Field Nat Nat) [3, 1, 3] =
      none := AnyCall.path?_undersized
  have hnone : (⟨2, .half⟩ : Filter).grown? .excluded (⟨"k", id⟩ : Field Nat Nat) [3, 1, 3] =
      none := by
    obtain ⟨t, -, -, htaken⟩ | ⟨hnone, -⟩ :=
      (⟨2, .half⟩ : Filter).grown?_cases .excluded (⟨"k", id⟩ : Field Nat Nat) [3, 1, 3]
    · cases hfailed.symm.trans htaken
    · exact hnone
  have htrees : (Deed.counted ((bothKinds.deeds []).take 3)).filterMap Deed.tree? =
      [⟨.included, "k", bytes, 4⟩, ⟨.excluded, "k", bytes', 4⟩] := by
    rw [hcounted]
    simp [Deed.tree?, AnyCall.fourLeaves, AnyCall.undersized, AnyCall.fourNegated,
      Metered.Call.ofNumbers, Metered.Call.tree?, htree, htree', hnone]
  have hevents : ((Deed.counted ((bothKinds.deeds []).take 3)).flatMap Deed.events).length = 7 := by
    rw [hcounted]
    simp [Deed.events, AnyCall.fourLeaves, AnyCall.undersized, AnyCall.fourNegated,
      Metered.Call.ofNumbers, Metered.Call.traced, Filter.events_compile, hpath, hpath', hfailed,
      Path.events]
  have hthree : 2 < (bothKinds.reports .fresh).length := by
    rw [bothKinds.reports_eq hactive]
    simp [bothKinds, inTurn, deeds, outcome]
  have hreport := List.getElem?_eq_getElem hthree
  have hfits : ((Deed.counted ((bothKinds.deeds []).take 3)).flatMap Deed.events).length <
      2 ^ 64 := by
    rw [hevents]
    decide
  have hnames : ∀ tree ∈ (Deed.counted ((bothKinds.deeds []).take 3)).filterMap Deed.tree?,
      tree.name.utf8ByteSize < 2 ^ 32 := by
    rw [htrees]
    simp
    decide
  obtain ⟨hupper, hlower, -, -, hentries⟩ :=
    bothKinds.distinct_shapes_reported hactive rfl hreport rfl hfits rfl hnames
  refine ⟨_, _, hreport, rfl, hfits, ?_, hnames, ?_, hupper, ?_⟩
  · rw [htrees]
    rfl
  · have hone := hlower .included "k"
    rw [htrees] at hone
    simpa using hone
  · intro e he h4
    rw [hentries e he, htrees, h4]
    rfl

end PlanShape
