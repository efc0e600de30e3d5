import PlanShape.Proofs.Failures
import PlanShape.Proofs.TomlReading

/-!
Settings as TOML documents, by any writer and reader that follow TOML. A document that assigns some
of the fields is read as the standard settings with these replaced, wherever they stand in it, so
settings come back from the document that is written for them. A key too many, known or not, is an
error of form. A threshold of zero is refused after that, by name.
-/
namespace PlanShape

namespace Settings

open Toml (Document IsBareName Spells)

section
variable {α : Type} {r : Reader α} {text : String}

theorem load_of_read {c : Settings} (h : read r text = .ok c) :
    load r text =
      if c.threshold = 0 then .error (.invalid thresholdKey "must be at least 1") else .ok c := by
  have hload : load r text = (do c.validate; return c) := by rw [load, h]; rfl
  rw [hload, validate]
  split <;> rfl

theorem load_of_read_error {message : String} (h : read r text = .error message) :
    load r text = .error (.parse message) := by
  rw [load, h]
  rfl

/-- Nothing is loaded that a filter would refuse. -/
theorem validate_of_load {c : Settings} (h : load r text = .ok c) : c.validate = .ok () := by
  cases hread : read r text with
  | error message =>
    rw [load_of_read_error hread] at h
    cases h
  | ok c' =>
    rw [load_of_read hread] at h
    split at h
    · cases h
    · next hpos =>
      cases h
      exact validate_eq_ok.2 hpos

end

variable {other : List Char → Prop} {w : Writer} {r : Reader Toml.Value}

/-- The fields of a document that assigns a threshold, or sizes, or both, or nothing. -/
def assigned (threshold : Option Nat) (sizes : Option (List Nat)) : List (String × Toml.Value) :=
  fieldsOf (threshold.map .integer) (sizes.map .integers)

section
variable {threshold : Option Nat} {sizes : Option (List Nat)} {text : String}
  {entries : List (String × Toml.Value)}

theorem nodup_of_perm_assigned (h : entries.Perm (assigned threshold sizes)) :
    (entries.map (·.1)).Nodup := (h.map (·.1)).nodup_iff.2 (nodup_fieldsOf _ _)

theorem counts_integers (hr : r.FollowsToml other) {ns : List Nat} (h : ∀ n ∈ ns, n ≤ maxCount) :
    r.counts (.integers ns) = .ok ns := by
  have hcounts : ns.mapM (fun n => r.count (.integer n)) = .ok (ns.map id) :=
    mapM_eq_ok_map fun n hn => hr.count (h n hn)
  rw [List.map_id] at hcounts
  exact bind_eq_ok.2 ⟨_, hr.list ns, (List.mapM_map ..).trans hcounts⟩

theorem bare_of_mem_assigned {e : String × Toml.Value} (h : e ∈ assigned threshold sizes) :
    IsBareName e.1 := by
  obtain ⟨hname, -⟩ | ⟨hname, -⟩ := mem_fieldsOf.1 h <;> rw [hname] <;> decide

theorem exists_sizes (hw : w.FollowsToml other) {ns : List Nat} (h : ∀ n ∈ ns, n ≤ maxCount) :
    ∃ items text, ns.mapM w.count = .ok items ∧ w.list items = .ok text ∧
      Spells text.toList (.integers ns) := by
  obtain ⟨items, hitems, hspells⟩ := exists_mapM (f := w.count)
    (p := fun n item => Spells item.toList (.integer n)) fun n hn => hw.count (h n hn)
  obtain ⟨text, htext, hlist⟩ := hw.list hspells.flip
  exact ⟨items, text, hitems, htext, hlist⟩

/-- There is a document of some of the fields in any order. -/
theorem exists_document (hthreshold : ∀ n ∈ threshold, n ≤ maxCount)
    (hsizes : ∀ ns ∈ sizes, ∀ n ∈ ns, n ≤ maxCount)
    (h : entries.Perm (assigned threshold sizes)) :
    ∃ text : String, Document other text.toList entries := by
  have hw : Toml.writer.FollowsToml other := Toml.writer_followsToml
  have hvalue : ∀ e ∈ entries, ∃ f : String × String, f.1 = e.1 ∧ Spells f.2.toList e.2 := by
    rintro ⟨name, v⟩ he
    obtain ⟨-, hv⟩ | ⟨-, hv⟩ := mem_fieldsOf.1 (h.mem_iff.1 he)
    · obtain ⟨n, hn, rfl⟩ := Option.map_eq_some_iff.1 hv
      obtain ⟨text, -, hspells⟩ := hw.count (hthreshold n hn)
      exact ⟨(name, text), rfl, hspells⟩
    · obtain ⟨ns, hns, rfl⟩ := Option.map_eq_some_iff.1 hv
      obtain ⟨-, text, -, -, hspells⟩ := exists_sizes hw (hsizes ns hns)
      exact ⟨(name, text), rfl, hspells⟩
  obtain ⟨fields, hfields⟩ := exists_forall₂ hvalue
  obtain ⟨text, -, hdoc⟩ := hw.record hfields.flip
    (fun e he => bare_of_mem_assigned (h.mem_iff.1 he)) (nodup_of_perm_assigned h)
  exact ⟨text, hdoc⟩

/-- A document of some of the fields is read as the standard settings with these replaced. -/
theorem read_assigned (hr : r.FollowsToml other) (hthreshold : ∀ n ∈ threshold, n ≤ maxCount)
    (hsizes : ∀ ns ∈ sizes, ∀ n ∈ ns, n ≤ maxCount) (hdoc : Document other text.toList entries)
    (hentries : entries.Perm (assigned threshold sizes)) :
    read r text = .ok ⟨threshold.getD standard.threshold, sizes.getD standard.sizes⟩ := by
  obtain ⟨entries', hperm, hparse⟩ := hr.parse hdoc (nodup_of_perm_assigned hentries)
  refine bind_eq_ok.2 ⟨_, hparse, ofValue_hold hr.records (fun _ _ => trivial)
    (hperm.trans hentries) ?_ ?_⟩
  · cases threshold with
    | none => rfl
    | some n => simp [hr.count (hthreshold n rfl)]
  · cases sizes with
    | none => rfl
    | some ns => simp [counts_integers hr (hsizes ns rfl)]

/-- With a field more that is unknown, or that is there already, a document cannot be read. -/
theorem read_surplus (hr : r.FollowsToml other) {name : String} {v : Toml.Value}
    (hdoc : Document other text.toList entries)
    (hentries : entries.Perm ((name, v) :: assigned threshold sizes))
    (hname : name ∉ fieldNames ∨ name ∈ (assigned threshold sizes).map (·.1)) :
    ∃ message, read r text = .error message := by
  by_cases hnodup : (entries.map (·.1)).Nodup
  · have hunknown : name ∉ fieldNames :=
      hname.resolve_right (List.nodup_cons.1 ((hentries.map (·.1)).nodup_iff.1 hnodup)).1
    obtain ⟨entries', hperm, hparse⟩ := hr.parse hdoc hnodup
    have hmem : (name, v) ∈ entries' := (hperm.trans hentries).mem_iff.2 List.mem_cons_self
    obtain ⟨message, hrefused⟩ :=
      ofValue_hold_error hr.records (fun _ _ => trivial) ⟨_, hmem, hunknown⟩
    exact ⟨message, by rw [read, hparse]; exact hrefused⟩
  · obtain ⟨message, hparse⟩ := hr.repeated hdoc hnodup
    exact ⟨message, by rw [read, hparse]; rfl⟩

end

/-- What is written for settings is a document of both fields. -/
theorem exists_save (hw : w.FollowsToml other) {c : Settings} (h : c.Bounded) :
    ∃ text, c.save w = .ok text ∧
      Document other text.toList (assigned (some c.threshold) (some c.sizes)) := by
  obtain ⟨items, sizes, hitems, hsizes, hspellsSizes⟩ := exists_sizes hw h.2
  obtain ⟨threshold, hthreshold, hspellsThreshold⟩ := hw.count h.1
  have hfields : List.Forall₂ (fun f e => f.1 = e.1 ∧ Spells f.2.toList e.2)
      [(thresholdKey, threshold), (sizesKey, sizes)]
      (assigned (some c.threshold) (some c.sizes)) :=
    .cons ⟨rfl, hspellsThreshold⟩ (.cons ⟨rfl, hspellsSizes⟩ .nil)
  obtain ⟨text, htext, hdoc⟩ := hw.record hfields (fun _ => bare_of_mem_assigned)
    (nodup_of_perm_assigned (.refl _))
  have hwrite : c.write w = .ok text :=
    bind_eq_ok.2 ⟨_, hitems, bind_eq_ok.2 ⟨_, hthreshold, bind_eq_ok.2 ⟨_, hsizes, htext⟩⟩⟩
  exact ⟨text, by rw [save, hwrite]; rfl, hdoc⟩

/-- Settings in full range are written, and come back from the document with the sizes in their
order, but for a threshold of zero, which is refused by name. Every document that is accepted gives
a filter with its threshold and its sizes. -/
theorem toml_round_trip (hw : w.FollowsToml other) (hr : r.FollowsToml other) (c : Settings)
    (h : c.Bounded) :
    (∃ text, c.save w = .ok text ∧
      (1 ≤ c.threshold → load r text = .ok c) ∧
      (c.threshold = 0 →
        load r text = .error (.invalid "fallback_threshold" "must be at least 1"))) ∧
    ∀ text c', load r text = .ok c' →
      Filter.ofSettings c' = .ok ⟨c'.threshold, (WellKnown.ofList c'.sizes).policy⟩ := by
  refine ⟨?_, fun text c' hc' => Filter.ofSettings_of_valid (validate_of_load hc')⟩
  obtain ⟨text, hsave, hdoc⟩ := exists_save hw h
  have hread : read r text = .ok c :=
    read_assigned hr (fun _ hn => Option.mem_some.1 hn ▸ h.1)
      (fun _ hns => Option.mem_some.1 hns ▸ h.2) hdoc (.refl _)
  refine ⟨text, hsave, ?_, ?_⟩
  · intro hpos
    rw [load_of_read hread, if_neg (Nat.ne_of_gt hpos)]
  · intro hzero
    rw [load_of_read hread, if_pos hzero]
    rfl

/-- The largest threshold with unsorted and repeated sizes, and a threshold of zero. -/
theorem toml_round_trip_extremes :
    (∃ text, save Toml.writer ⟨maxCount, [3, 0, 3]⟩ = .ok text ∧
      load Toml.reader text = .ok ⟨maxCount, [3, 0, 3]⟩ ∧
      Filter.ofSettings ⟨maxCount, [3, 0, 3]⟩ =
        .ok ⟨maxCount, (WellKnown.ofList [3, 0, 3]).policy⟩) ∧
    ∃ text, save Toml.writer ⟨0, [maxCount]⟩ = .ok text ∧
      load Toml.reader text = .error (.invalid "fallback_threshold" "must be at least 1") := by
  have hlarge : (⟨maxCount, [3, 0, 3]⟩ : Settings).Bounded := ⟨Nat.le_refl _, by decide⟩
  have hzero : (⟨0, [maxCount]⟩ : Settings).Bounded := ⟨Nat.zero_le _, by decide⟩
  obtain ⟨⟨text, hsave, hback, -⟩, haccepted⟩ :=
    toml_round_trip Toml.writer_followsToml Toml.reader_followsToml _ hlarge
  obtain ⟨⟨text', hsave', -, hrefused⟩, -⟩ :=
    toml_round_trip Toml.writer_followsToml Toml.reader_followsToml _ hzero
  exact ⟨⟨text, hsave, hback (by decide), haccepted _ _ (hback (by decide))⟩,
    text', hsave', hrefused rfl⟩

/-- There are documents that assign a threshold, or sizes, or both in either order, or nothing, and
each of them is read as the standard settings with these replaced, but for a threshold of zero,
which is refused by name.
With one assignment more, of any value to an unknown key or to one that is assigned already, it is
an error of form, whatever the threshold. -/
theorem partial_documents_read (hr : r.FollowsToml other) (threshold : Option Nat)
    (sizes : Option (List Nat)) (hthreshold : ∀ n ∈ threshold, n ≤ maxCount)
    (hsizes : ∀ ns ∈ sizes, ∀ n ∈ ns, n ≤ maxCount) :
    (∀ entries, entries.Perm (assigned threshold sizes) →
      ∃ text : String, Document other text.toList entries) ∧
    (∀ text entries, Document other text.toList entries →
      entries.Perm (assigned threshold sizes) →
      (threshold ≠ some 0 → load r text =
        .ok ⟨threshold.getD standard.threshold, sizes.getD standard.sizes⟩) ∧
      (threshold = some 0 →
        load r text = .error (.invalid "fallback_threshold" "must be at least 1"))) ∧
    ∀ text entries name v, Document other text.toList entries →
      entries.Perm ((name, v) :: assigned threshold sizes) →
      (name ∉ ["fallback_threshold", "well_known_sizes"] ∨
        name ∈ (assigned threshold sizes).map (·.1)) →
      ∃ message, load r text = .error (.parse message) := by
  refine ⟨fun entries => exists_document hthreshold hsizes, ?_, ?_⟩
  · intro text entries hdoc hentries
    have hzero : threshold.getD standard.threshold = 0 ↔ threshold = some 0 := by
      cases threshold with
      | none => exact ⟨nofun, nofun⟩
      | some n => exact Option.some_inj.symm
    rw [load_of_read (read_assigned hr hthreshold hsizes hdoc hentries)]
    exact ⟨fun h => if_neg (mt hzero.1 h), fun h => if_pos (hzero.2 h)⟩
  · intro text entries name v hdoc hentries hname
    obtain ⟨message, hread⟩ := read_surplus hr hdoc hentries hname
    exact ⟨message, load_of_read_error hread⟩

/-- Sizes alone; a threshold of zero behind them; and such a document with an unknown key, and with
the threshold assigned once more at its start. -/
theorem partial_documents_read_sizes_first :
    load Toml.reader "well_known_sizes = []" = .ok ⟨1024, []⟩ ∧
    load Toml.reader "well_known_sizes = [3, 0]\nfallback_threshold = 0" =
      .error (.invalid "fallback_threshold" "must be at least 1") ∧
    (∃ message, load Toml.reader
      "well_known_sizes = [3, 0]\r\n'new'\t=10 # old\nfallback_threshold = 0" =
        .error (.parse message)) ∧
    ∃ message, load Toml.reader
      "fallback_threshold = 7\nwell_known_sizes = [3, 0]\nfallback_threshold = 0" =
        .error (.parse message) := by
  have hcount (n : Nat) (h : n ≤ maxCount) : Spells (toString n).toList (.integer n) :=
    Toml.spells_toString h
  have hlist : Spells (Toml.arrayText ["3", "0"]).toList (.integers [3, 0]) :=
    Toml.spells_arrayText (.cons (hcount 3 (by decide)) (.cons (hcount 0 (by decide)) .nil))
  have hempty : Toml.Line (fun _ => False) _ [(sizesKey, .integers [])] :=
    Toml.line_plain (by decide) (Toml.spells_arrayText .nil)
  have hsizes : Toml.Line (fun _ => False) _ [(sizesKey, .integers [3, 0])] :=
    Toml.line_plain (by decide) hlist
  have hzero : Toml.Line (fun _ => False) _ [(thresholdKey, .integer 0)] :=
    Toml.line_plain (by decide) (hcount 0 (by decide))
  have hseven : Toml.Line (fun _ => False) _ [(thresholdKey, .integer 7)] :=
    Toml.line_plain (by decide) (hcount 7 (by decide))
  have htab : Toml.IsBlank ['\t'] := by simp [Toml.IsBlank]
  have hold : Toml.IsTrail ('#' :: " old".toList) := .comment (by simp [Toml.isForbidden])
  have hnew : Toml.Line (fun _ => False) _ [("new", .integer 10)] :=
    .assign Toml.isBlank_nil (.literal (by simp [Toml.isForbidden])) htab Toml.isBlank_nil
      (.inl (hcount 10 (by decide))) Toml.isBlank_space hold
  have hboth : Document (fun _ => False) _
      [(sizesKey, .integers [3, 0]), (thresholdKey, .integer 0)] :=
    .cons hsizes .newline (.last hzero)
  have hunknown : Document (fun _ => False) _
      [(sizesKey, .integers [3, 0]), ("new", .integer 10), (thresholdKey, .integer 0)] :=
    .cons hsizes .carriage (.cons hnew .newline (.last hzero))
  have hrepeated : Document (fun _ => False) _
      [(thresholdKey, .integer 7), (sizesKey, .integers [3, 0]), (thresholdKey, .integer 0)] :=
    .cons hseven .newline hboth
  obtain ⟨-, hread, -⟩ := partial_documents_read Toml.reader_followsToml none (some [])
    (by simp) (by decide)
  obtain ⟨-, hreadBoth, hsurplus⟩ := partial_documents_read Toml.reader_followsToml (some 0)
    (some [3, 0]) (by decide) (by decide)
  have hof {cs ds : List Char} {entries : List (String × Toml.Value)}
      (h : Document (fun _ => False) ds entries) (htext : cs = ds) :
      Document (fun _ => False) cs entries := htext ▸ h
  exact ⟨(hread _ _ (hof (.last hempty) (by decide)) (.refl _)).1 (by simp),
    (hreadBoth _ _ (hof hboth (by decide)) (.swap ..)).2 rfl,
    hsurplus _ _ "new" (.integer 10) (hof hunknown (by decide))
      (.trans (.swap ..) (.cons _ (.swap ..))) (.inl (by decide)),
    hsurplus _ _ thresholdKey (.integer 7) (hof hrepeated (by decide)) (.cons _ (.swap ..))
      (.inr (by decide))⟩

end Settings

end PlanShape
