import Mathlib.Data.List.Forall2
import PlanShape.Settings.Document

/-!
What formats have in common. A reader finds the fields of a record by their names, so settings are
read from every record that has some of their fields and no others, whatever format it comes from.
-/
namespace PlanShape

section
variable {α β : Type} {f : α → Except String β}

theorem bind_eq_ok {x : Except String α} {b : β} :
    (x >>= f) = .ok b ↔ ∃ a, x = .ok a ∧ f a = .ok b := by
  cases x with
  | error e => exact ⟨nofun, fun ⟨_, h, _⟩ => by cases h⟩
  | ok a => exact ⟨fun h => ⟨a, rfl, h⟩, fun ⟨_, h, hb⟩ => by cases h; exact hb⟩

/-- A traversal succeeds where every step does. -/
theorem mapM_eq_ok_iff {xs : List α} {ys : List β} :
    xs.mapM f = .ok ys ↔ List.Forall₂ (fun x y => f x = .ok y) xs ys := by
  induction xs generalizing ys with
  | nil =>
    rw [List.mapM_nil, List.forall₂_nil_left_iff]
    exact ⟨fun h => (Except.ok.inj h).symm, fun h => congrArg Except.ok h.symm⟩
  | cons x xs ih =>
    rw [List.mapM_cons, bind_eq_ok]
    simp only [bind_eq_ok, ih]
    constructor
    · rintro ⟨y, hy, ys', hys, h⟩
      cases h
      exact .cons hy hys
    · rintro (_ | ⟨hy, hys⟩)
      exact ⟨_, hy, _, hys, rfl⟩

theorem mapM_eq_ok_map {xs : List α} {g : α → β} (h : ∀ x ∈ xs, f x = .ok (g x)) :
    xs.mapM f = .ok (xs.map g) := by
  rw [mapM_eq_ok_iff, List.forall₂_map_right_iff, List.forall₂_same]
  exact h

theorem exists_forall₂ {p : α → β → Prop} {xs : List α} (h : ∀ x ∈ xs, ∃ y, p x y) :
    ∃ ys, List.Forall₂ p xs ys := by
  induction xs with
  | nil => exact ⟨[], .nil⟩
  | cons x xs ih =>
    obtain ⟨y, hy⟩ := h x List.mem_cons_self
    obtain ⟨ys, hys⟩ := ih fun z hz => h z (List.mem_cons_of_mem x hz)
    exact ⟨y :: ys, .cons hy hys⟩

theorem exists_mapM {p : α → β → Prop} {xs : List α} (h : ∀ x ∈ xs, ∃ y, f x = .ok y ∧ p x y) :
    ∃ ys, xs.mapM f = .ok ys ∧ List.Forall₂ p xs ys := by
  obtain ⟨ys, hys⟩ := exists_forall₂ h
  exact ⟨ys, mapM_eq_ok_iff.2 (hys.imp fun _ _ => And.left), hys.imp fun _ _ => And.right⟩

theorem exists_of_mem_mapM {xs : List α} {ys : List β} (h : xs.mapM f = .ok ys) {y : β}
    (hy : y ∈ ys) : ∃ x ∈ xs, f x = .ok y := by
  induction mapM_eq_ok_iff.1 h with
  | nil => cases hy
  | cons hx hxs ih =>
    rcases List.mem_cons.1 hy with rfl | hy
    · exact ⟨_, List.mem_cons_self, hx⟩
    · obtain ⟨x, hmem, hx⟩ := ih (mapM_eq_ok_iff.2 hxs) hy
      exact ⟨x, List.mem_cons_of_mem _ hmem, hx⟩

theorem exists_of_mem_optionMapM {o : Option α} {o' : Option β} (h : o.mapM f = .ok o') {y : β}
    (hy : y ∈ o') : ∃ x ∈ o, f x = .ok y := by
  cases o with
  | none =>
    cases h
    cases hy
  | some x =>
    obtain ⟨z, hz, h⟩ := bind_eq_ok.1 ((map_eq_pure_bind _ _).symm.trans h)
    cases h
    cases hy
    exact ⟨x, rfl, hz⟩

end

theorem forall_mem_pair {α : Type} {p : α → Prop} {a b : α} :
    (∀ x ∈ [a, b], p x) ↔ p a ∧ p b := by simp

theorem required_eq_ok {α : Type} {get : String → Option α} {name : String} {v : α}
    (h : get name = some v) : required get name = .ok v := by rw [required, h]

namespace Reader

variable {α : Type}

/-- Records are read by the names of their fields, wherever these stand and whatever stands beside
them. Here `hold` is the value that has certain fields, and a strict reading refuses other names. -/
structure ReadsRecords (r : Reader α) (isName : String → Prop)
    (hold : List (String × α) → α) : Prop where
  found : ∀ (strict : Bool) {names : List String} {fields : List (String × α)},
    (∀ e ∈ fields, isName e.1) → (fields.map (·.1)).Nodup →
    (strict = true → ∀ e ∈ fields, e.1 ∈ names) →
    ∃ get, r.record strict names (hold fields) = .ok get ∧
      ∀ n ∈ names, ∀ v, get n = some v ↔ (n, v) ∈ fields
  refused : ∀ {names : List String} {fields : List (String × α)},
    (∀ e ∈ fields, isName e.1) → (∃ e ∈ fields, e.1 ∉ names) →
    ∃ message, r.record true names (hold fields) = .error message

end Reader

section
variable {α : Type} {fields : List (String × α)}

theorem lookup_eq_some_iff_mem (h : (fields.map (·.1)).Nodup) {n : String} {v : α} :
    fields.lookup n = some v ↔ (n, v) ∈ fields := by
  induction fields with
  | nil => simp
  | cons e fields ih =>
    obtain ⟨k, w⟩ := e
    obtain ⟨hnew, hrest⟩ := List.nodup_cons.1 h
    rw [List.lookup_cons, List.mem_cons, Prod.mk.injEq]
    by_cases hn : n = k
    · subst hn
      have hother : (n, v) ∉ fields := fun hm => hnew (List.mem_map.2 ⟨_, hm, rfl⟩)
      simp [hother, eq_comm]
    · rw [beq_eq_false_iff_ne.2 hn]
      simp [hn, ih hrest]

theorem fieldsByName_eq_ok {strict : Bool} {names : List String} (h : (fields.map (·.1)).Nodup)
    (hknown : strict = true → ∀ e ∈ fields, e.1 ∈ names) :
    fieldsByName strict names fields = .ok fun n => fields.lookup n := by
  have hall : ¬ (strict && fields.any fun e => !names.contains e.1) = true := by
    simpa using hknown
  have honce : ¬ (names.any fun n => 1 < fields.countP fun e => e.1 == n) = true := by
    have hcount (n : String) : fields.countP (fun e => e.1 == n) ≤ 1 := by
      have hle := List.nodup_iff_count.1 h n
      rwa [List.count, List.countP_map] at hle
    simpa using fun n _ => hcount n
  rw [fieldsByName, if_neg hall, if_neg honce]

/-- A reader that looks fields up in a list of named values reads records. -/
theorem Reader.readsRecords_of_fieldsByName {r : Reader α} {isName : String → Prop}
    {hold : List (String × α) → α}
    (h : ∀ strict names, ∀ fields : List (String × α), (∀ e ∈ fields, isName e.1) →
      r.record strict names (hold fields) = fieldsByName strict names fields) :
    r.ReadsRecords isName hold where
  found _ _ _ hnames hnodup hknown :=
    ⟨_, (h _ _ _ hnames).trans (fieldsByName_eq_ok hnodup hknown),
      fun _ _ _ => lookup_eq_some_iff_mem hnodup⟩
  refused := by
    rintro names fields hnames ⟨e, he, hunknown⟩
    have hany : (true && fields.any fun e => !names.contains e.1) = true := by
      simpa using ⟨e.1, ⟨e.2, he⟩, hunknown⟩
    exact ⟨_, (h _ _ _ hnames).trans (if_pos hany)⟩

end

namespace Settings

variable {α : Type}

/-- The fields of settings that are given. -/
def fieldsOf (threshold sizes : Option α) : List (String × α) :=
  (threshold.map (thresholdKey, ·)).toList ++ (sizes.map (sizesKey, ·)).toList

theorem mem_fieldsOf {threshold sizes : Option α} {e : String × α} :
    e ∈ fieldsOf threshold sizes ↔
      e.1 = thresholdKey ∧ threshold = some e.2 ∨ e.1 = sizesKey ∧ sizes = some e.2 := by
  obtain ⟨n, v⟩ := e
  cases threshold <;> cases sizes <;> simp [fieldsOf, eq_comm]

theorem nodup_fieldsOf (threshold sizes : Option α) :
    ((fieldsOf threshold sizes).map (·.1)).Nodup := by
  cases threshold <;> cases sizes <;> simp [fieldsOf, thresholdKey, sizesKey]

variable {r : Reader α} {isName : String → Prop} {hold : List (String × α) → α}

/-- A record of some of the fields, in any order, is read as the standard settings with these
replaced. -/
theorem ofValue_hold (hr : r.ReadsRecords isName hold) (hnames : ∀ n ∈ fieldNames, isName n)
    {threshold sizes : Option α} {fields : List (String × α)}
    (h : fields.Perm (fieldsOf threshold sizes)) {n : Option Nat} {ns : Option (List Nat)}
    (hn : threshold.mapM r.count = .ok n) (hns : sizes.mapM r.counts = .ok ns) :
    ofValue r (hold fields) = .ok ⟨n.getD standard.threshold, ns.getD standard.sizes⟩ := by
  have hknown : ∀ e ∈ fields, e.1 ∈ fieldNames := by
    intro e he
    obtain ⟨hname, -⟩ | ⟨hname, -⟩ := mem_fieldsOf.1 (h.mem_iff.1 he) <;> simp [fieldNames, hname]
  have hnodup : (fields.map (·.1)).Nodup :=
    ((h.map (·.1)).nodup_iff).2 (nodup_fieldsOf threshold sizes)
  obtain ⟨get, hget, hfound⟩ :=
    hr.found true (fun e he => hnames e.1 (hknown e he)) hnodup fun _ => hknown
  have hdifferent : thresholdKey ≠ sizesKey := by decide
  have hthreshold : get thresholdKey = threshold := Option.ext fun v => by
    rw [hfound _ (by simp [fieldNames]), h.mem_iff, mem_fieldsOf]
    simp [hdifferent]
  have hsizes : get sizesKey = sizes := Option.ext fun v => by
    rw [hfound _ (by simp [fieldNames]), h.mem_iff, mem_fieldsOf]
    simp [hdifferent.symm]
  refine bind_eq_ok.2 ⟨get, hget, bind_eq_ok.2 ⟨n, ?_, bind_eq_ok.2 ⟨ns, ?_, rfl⟩⟩⟩
  · rw [hthreshold, hn]
  · rw [hsizes, hns]

/-- A record with another field is refused. -/
theorem ofValue_hold_error (hr : r.ReadsRecords isName hold) {fields : List (String × α)}
    (hnames : ∀ e ∈ fields, isName e.1) (h : ∃ e ∈ fields, e.1 ∉ fieldNames) :
    ∃ message, ofValue r (hold fields) = .error message := by
  obtain ⟨message, hrefused⟩ := hr.refused hnames h
  exact ⟨message, by rw [ofValue, hrefused]; rfl⟩

end Settings

end PlanShape
