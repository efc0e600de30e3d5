import PlanShape.Proofs.JsonRecords
import PlanShape.Proofs.Totals

/-!
Reports and settings as JSON texts, by any writer and reader that follow JSON. What is written for a
record is the text of a value that keeps its names apart, so it is read back, and what is read has
no number beyond the largest count, so it is written and read back in turn. The entries of a
histogram stand in the text in the order of their keys as numbers, so reading them in turn inserts
each of them behind the others.
-/
namespace PlanShape

open Json (IsPlainName Plain memberText objectText)

namespace Reader

/-- The fields of a record that has no others are found by their names. -/
theorem FollowsJson.record {r : Reader Json} (hr : r.FollowsJson) {names : List String}
    (plain : ∀ n ∈ names, IsPlainName n) (nodup : names.Nodup) (fields : List (String × Json))
    (hnames : fields.map (·.1) = names) :
    ∃ get, r.record false names (Json.ofFields fields) = .ok get ∧
      ∀ f ∈ fields, get f.1 = some f.2 := by
  subst hnames
  have hmem : ∀ f ∈ fields, f.1 ∈ fields.map (·.1) := fun f hf => List.mem_map_of_mem hf
  obtain ⟨get, hget, hfound⟩ := hr.records.found false (Json.isPlainName_of_mem plain rfl)
    nodup fun _ => hmem
  exact ⟨get, hget, fun f hf => (hfound f.1 (hmem f hf) f.2).2 hf⟩

theorem FollowsJson.counts {r : Reader Json} (hr : r.FollowsJson) {ns : List Nat}
    (h : ∀ n ∈ ns, n ≤ maxCount) : r.counts (Json.ofCounts ns) = .ok ns := by
  have hread : ns.mapM (fun n => r.count (.ofCount n)) = .ok (ns.map id) :=
    mapM_eq_ok_map fun n hn => hr.count (h n hn)
  rw [List.map_id] at hread
  exact bind_eq_ok.2 ⟨_, hr.list _, (List.mapM_map ..).trans hread⟩

theorem FollowsJson.counts_le {r : Reader Json} (hr : r.FollowsJson) {v : Json} {ns : List Nat}
    (h : r.counts v = .ok ns) : ∀ n ∈ ns, n ≤ maxCount := by
  obtain ⟨items, -, hns⟩ := bind_eq_ok.1 h
  intro n hn
  obtain ⟨item, -, hitem⟩ := exists_of_mem_mapM hns hn
  exact hr.count_le hitem

end Reader

variable {w : Writer} {r : Reader Json}

namespace Tally

theorem plain_fieldNames : ∀ n ∈ fieldNames, IsPlainName n := by decide

def toJson (t : Tally) : Json :=
  .ofFields ((fieldNames.zip t.toCounts).map fun (k, n) => (k, .ofCount n))

/-- The text of an object of the counters. -/
def text (t : Tally) : String :=
  objectText ((fieldNames.zip t.toCounts).map fun (k, n) => memberText k (toString n))

theorem write_toJson (t : Tally) : t.toJson.write = t.text := by
  simp [toJson, text, Json.write_ofFields, Json.write_ofCount, Function.comp_def]

theorem names_toJson (t : Tally) :
    ((fieldNames.zip t.toCounts).map fun (k, n) => (k, Json.ofCount n)).map (·.1) = fieldNames :=
  rfl

theorem plain_toJson {t : Tally} (h : t.Fits) {depth : Nat} : Plain (depth + 1) t.toJson := by
  apply Json.plain_ofFields (Json.isPlainName_of_mem plain_fieldNames t.names_toJson)
  intro f hf
  obtain ⟨e, he, rfl⟩ := List.mem_map.1 hf
  exact .number (h e.2 (List.of_mem_zip he).2)

theorem write_eq_text (hw : w.FollowsJson) {t : Tally} (h : t.Fits) : t.write w = .ok t.text := by
  have hcounts : t.toCounts.mapM w.count = .ok (t.toCounts.map toString) :=
    mapM_eq_ok_map fun n hn => hw.count (h n hn)
  refine bind_eq_ok.2 ⟨_, hcounts, (hw.record ?_).trans ?_⟩
  · exact fun f hf => plain_fieldNames f.1 (List.of_mem_zip hf).1
  · rw [List.zip_map_right, List.map_map]
    rfl

theorem ofValue_toJson (hr : r.FollowsJson) {t : Tally} (h : t.Fits) :
    ofValue r t.toJson = .ok t := by
  obtain ⟨get, hget, hfound⟩ := hr.record plain_fieldNames (by decide) _ t.names_toJson
  have hcounts : fieldNames.mapM (fun name => required get name >>= r.count) = .ok t.toCounts := by
    rw [mapM_eq_ok_iff, List.forall₂_iff_zip]
    refine ⟨rfl, fun {name n} hn => bind_eq_ok.2 ⟨.ofCount n, required_eq_ok ?_, hr.count ?_⟩⟩
    · exact hfound _ (List.mem_map.2 ⟨(name, n), hn, rfl⟩)
    · exact h n (List.of_mem_zip hn).2
  exact bind_eq_ok.2 ⟨get, hget, bind_eq_ok.2 ⟨_, hcounts, rfl⟩⟩

theorem toCounts_of_ofCounts {ns : List Nat} {t : Tally} (h : ofCounts ns = .ok t) :
    t.toCounts = ns := by
  unfold ofCounts at h
  split at h
  · cases h
    rfl
  · cases h

theorem fits_of_ofValue (hr : r.FollowsJson) {v : Json} {t : Tally} (h : ofValue r v = .ok t) :
    t.Fits := by
  obtain ⟨get, -, h⟩ := bind_eq_ok.1 h
  obtain ⟨ns, hns, ht⟩ := bind_eq_ok.1 h
  rw [Fits, toCounts_of_ofCounts ht]
  intro n hn
  obtain ⟨name, -, hname⟩ := exists_of_mem_mapM hns hn
  obtain ⟨value, -, hvalue⟩ := bind_eq_ok.1 hname
  exact hr.count_le hvalue

end Tally

namespace Histogram

theorem insertEntry_of_lt {k v : Nat} {es : List (Nat × Nat)} (h : ∀ e ∈ es, e.1 < k) :
    insertEntry k v es = es ++ [(k, v)] := by
  induction es with
  | nil => rfl
  | cons e es ih =>
    obtain ⟨k', v'⟩ := e
    have hk : k' < k := h (k', v') List.mem_cons_self
    rw [insertEntry, if_neg (by omega), if_neg (by omega),
      ih fun e he => h e (List.mem_cons_of_mem _ he)]
    rfl

theorem entries_foldl_insert {es : List (Nat × Nat)} {h : Histogram}
    (hes : (h.entries ++ es).Pairwise fun a b => a.1 < b.1) :
    (es.foldl (fun h (k, v) => h.insert k v) h).entries = h.entries ++ es := by
  induction es generalizing h with
  | nil => exact (List.append_nil _).symm
  | cons e es ih =>
    obtain ⟨k, v⟩ := e
    have hlast : (h.insert k v).entries = h.entries ++ [(k, v)] :=
      insertEntry_of_lt fun e he => (List.pairwise_append.1 hes).2.2 e he _ List.mem_cons_self
    rw [List.append_cons, ← hlast] at hes ⊢
    exact ih hes

theorem ofList_entries (h : Histogram) : ofList h.entries = h :=
  Histogram.ext (entries_foldl_insert (h := .empty) h.ascending)

theorem fits_foldl_insert {es : List (Nat × Nat)} {h : Histogram} (hh : h.Fits)
    (hes : ∀ e ∈ es, e.1 ≤ maxCount ∧ e.2 ≤ maxCount) :
    (es.foldl (fun h (k, v) => h.insert k v) h).Fits := by
  induction es generalizing h with
  | nil => exact hh
  | cons e es ih =>
    apply ih _ fun e he => hes e (List.mem_cons_of_mem _ he)
    intro e' he'
    rcases mem_insertEntry he' with rfl | he'
    · exact hes e List.mem_cons_self
    · exact hh e' he'

def toJson (h : Histogram) : Json :=
  .ofFields (h.entries.map fun (k, n) => (toString k, .ofCount n))

/-- The text of an object of the entries in their order, whose keys are decimal strings. -/
def text (h : Histogram) : String :=
  objectText (h.entries.map fun (k, n) => memberText (toString k) (toString n))

theorem write_toJson (h : Histogram) : h.toJson.write = h.text := by
  simp [toJson, text, Json.write_ofFields, Json.write_ofCount, Function.comp_def]

theorem plain_toJson {h : Histogram} (hh : h.Fits) {depth : Nat} :
    Plain (depth + 1) h.toJson := by
  apply Json.plain_ofFields
  · intro f hf
    obtain ⟨e, -, rfl⟩ := List.mem_map.1 hf
    exact Json.isPlainName_toString e.1
  · intro f hf
    obtain ⟨e, he, rfl⟩ := List.mem_map.1 hf
    exact .number (hh e he).2

theorem write_eq_text (hw : w.FollowsJson) {h : Histogram} (hh : h.Fits) :
    h.write w = .ok h.text := by
  have hentries : h.entries.mapM (fun (k, v) => do return (k, ← w.count v)) =
      .ok (h.entries.map fun (k, v) => (k, toString v)) :=
    mapM_eq_ok_map fun e he => bind_eq_ok.2 ⟨_, hw.count (hh e he).2, rfl⟩
  refine bind_eq_ok.2 ⟨_, hentries, (hw.map ?_).trans ?_⟩
  · intro e he
    obtain ⟨e', he', rfl⟩ := List.mem_map.1 he
    exact (hh e' he').1
  · rw [List.map_map]
    rfl

theorem ofValue_toJson (hr : r.FollowsJson) {h : Histogram} (hh : h.Fits) :
    ofValue r h.toJson = .ok h := by
  have hmap : r.map h.toJson = .ok (h.entries.map fun e => (e.1, .ofCount e.2)) := by
    have hkeys : ∀ e ∈ h.entries.map (fun e => (e.1, Json.ofCount e.2)), e.1 ≤ maxCount := by
      intro e he
      obtain ⟨e', he', rfl⟩ := List.mem_map.1 he
      exact (hh e' he').1
    have hread := hr.map hkeys
    rwa [List.map_map] at hread
  have hentries : (h.entries.map fun e => (e.1, Json.ofCount e.2)).mapM
      (fun e => do return (e.1, ← r.count e.2)) = .ok h.entries := by
    rw [List.mapM_map]
    exact (mapM_eq_ok_map (g := id) fun e he =>
      bind_eq_ok.2 ⟨_, hr.count (hh e he).2, rfl⟩).trans (congrArg _ (List.map_id _))
  exact bind_eq_ok.2 ⟨_, hmap, bind_eq_ok.2 ⟨_, hentries, congrArg _ h.ofList_entries⟩⟩

theorem fits_of_ofValue (hr : r.FollowsJson) {v : Json} {h : Histogram}
    (hv : ofValue r v = .ok h) : h.Fits := by
  obtain ⟨entries, hentries, hv⟩ := bind_eq_ok.1 hv
  obtain ⟨es, hes, hv⟩ := bind_eq_ok.1 hv
  cases hv
  apply fits_foldl_insert (fun _ he => by cases he)
  intro e he
  obtain ⟨m, hm, hentry⟩ := exists_of_mem_mapM hes he
  obtain ⟨n, hn, hentry⟩ := bind_eq_ok.1 hentry
  cases hentry
  exact ⟨hr.map_le hentries m hm, hr.count_le hn⟩

end Histogram

namespace Counters

theorem plain_fieldNames : ∀ n ∈ fieldNames, IsPlainName n := by decide

def toJson (c : Counters) : Json :=
  .ofFields [("ops", c.tally.toJson), ("buckets", c.buckets.toJson)]

def text (c : Counters) : String :=
  objectText [memberText "ops" c.tally.text, memberText "buckets" c.buckets.text]

theorem write_toJson (c : Counters) : c.toJson.write = c.text := by
  simp [toJson, text, Json.write_ofFields, Tally.write_toJson, Histogram.write_toJson]

theorem plain_toJson {c : Counters} (ht : c.tally.Fits) (hb : c.buckets.Fits) {depth : Nat} :
    Plain (depth + 2) c.toJson :=
  Json.plain_ofFields (Json.isPlainName_of_mem plain_fieldNames rfl)
    (forall_mem_pair.2 ⟨Tally.plain_toJson ht, Histogram.plain_toJson hb⟩)

theorem write_eq_text (hw : w.FollowsJson) {c : Counters} (ht : c.tally.Fits)
    (hb : c.buckets.Fits) : c.write w = .ok c.text :=
  bind_eq_ok.2 ⟨_, Tally.write_eq_text hw ht, bind_eq_ok.2 ⟨_, Histogram.write_eq_text hw hb,
    hw.record (Json.isPlainName_of_mem plain_fieldNames rfl)⟩⟩

theorem ofValue_toJson (hr : r.FollowsJson) {c : Counters} (ht : c.tally.Fits)
    (hb : c.buckets.Fits) : ofValue r c.toJson = .ok c := by
  obtain ⟨get, hget, hfound⟩ := hr.record plain_fieldNames (by decide)
    [("ops", c.tally.toJson), ("buckets", c.buckets.toJson)] rfl
  obtain ⟨hops, hbuckets⟩ := forall_mem_pair.1 hfound
  exact bind_eq_ok.2 ⟨get, hget, bind_eq_ok.2 ⟨_, required_eq_ok hops, bind_eq_ok.2
    ⟨_, Tally.ofValue_toJson hr ht, bind_eq_ok.2 ⟨_, required_eq_ok hbuckets, bind_eq_ok.2
      ⟨_, Histogram.ofValue_toJson hr hb, rfl⟩⟩⟩⟩⟩

theorem fits_of_ofValue (hr : r.FollowsJson) {v : Json} {c : Counters}
    (h : ofValue r v = .ok c) : c.tally.Fits ∧ c.buckets.Fits := by
  obtain ⟨get, -, h⟩ := bind_eq_ok.1 h
  obtain ⟨_, -, h⟩ := bind_eq_ok.1 h
  obtain ⟨t, ht, h⟩ := bind_eq_ok.1 h
  obtain ⟨_, -, h⟩ := bind_eq_ok.1 h
  obtain ⟨b, hb, h⟩ := bind_eq_ok.1 h
  cases h
  exact ⟨Tally.fits_of_ofValue hr ht, Histogram.fits_of_ofValue hr hb⟩

end Counters

namespace Report

theorem plain_fieldNames : ∀ n ∈ fieldNames, IsPlainName n := by decide

/-- Every number of the report is a count. -/
structure Bounded (report : Report) : Prop where
  tally : report.counters.tally.Fits
  buckets : report.counters.buckets.Fits
  shapes : report.distinctShapes ≤ maxCount

def toJson (report : Report) : Json :=
  .ofFields
    [("counters", report.counters.toJson), ("distinct_shapes", .ofCount report.distinctShapes)]

/-- The text of a report. -/
def text (report : Report) : String :=
  objectText [memberText "counters" report.counters.text,
    memberText "distinct_shapes" (toString report.distinctShapes)]

theorem write_toJson (report : Report) : report.toJson.write = report.text := by
  simp [toJson, text, Json.write_ofFields, Counters.write_toJson, Json.write_ofCount]

theorem plain_toJson {report : Report} (h : report.Bounded) {depth : Nat} :
    Plain (depth + 3) report.toJson :=
  Json.plain_ofFields (Json.isPlainName_of_mem plain_fieldNames rfl)
    (forall_mem_pair.2 ⟨Counters.plain_toJson h.tally h.buckets, .number h.shapes⟩)

theorem write_eq_text (hw : w.FollowsJson) {report : Report} (h : report.Bounded) :
    report.write w = .ok report.text :=
  bind_eq_ok.2 ⟨_, Counters.write_eq_text hw h.tally h.buckets, bind_eq_ok.2
    ⟨_, hw.count h.shapes, hw.record (Json.isPlainName_of_mem plain_fieldNames rfl)⟩⟩

theorem ofValue_toJson (hr : r.FollowsJson) {report : Report} (h : report.Bounded) :
    ofValue r report.toJson = .ok report := by
  obtain ⟨get, hget, hfound⟩ := hr.record plain_fieldNames (by decide)
    [("counters", report.counters.toJson), ("distinct_shapes", .ofCount report.distinctShapes)] rfl
  obtain ⟨hcounters, hshapes⟩ := forall_mem_pair.1 hfound
  exact bind_eq_ok.2 ⟨get, hget, bind_eq_ok.2 ⟨_, required_eq_ok hcounters, bind_eq_ok.2
    ⟨_, Counters.ofValue_toJson hr h.tally h.buckets, bind_eq_ok.2
      ⟨_, required_eq_ok hshapes, bind_eq_ok.2 ⟨_, hr.count h.shapes, rfl⟩⟩⟩⟩⟩

theorem read_text (hr : r.FollowsJson) {report : Report} (h : report.Bounded) :
    read r report.text = .ok report := by
  have hparse : r.parse report.text = .ok report.toJson :=
    report.write_toJson ▸ hr.parse (plain_toJson h)
  exact bind_eq_ok.2 ⟨_, hparse, ofValue_toJson hr h⟩

theorem bounded_of_read (hr : r.FollowsJson) {text : String} {report : Report}
    (h : read r text = .ok report) : report.Bounded := by
  obtain ⟨v, -, h⟩ := bind_eq_ok.1 h
  obtain ⟨get, -, h⟩ := bind_eq_ok.1 h
  obtain ⟨_, -, h⟩ := bind_eq_ok.1 h
  obtain ⟨c, hc, h⟩ := bind_eq_ok.1 h
  obtain ⟨_, -, h⟩ := bind_eq_ok.1 h
  obtain ⟨n, hn, h⟩ := bind_eq_ok.1 h
  cases h
  obtain ⟨htally, hbuckets⟩ := Counters.fits_of_ofValue hr hc
  exact ⟨htally, hbuckets, hr.count_le hn⟩

end Report

namespace Settings

theorem plain_fieldNames : ∀ n ∈ fieldNames, IsPlainName n := by decide

def toJson (c : Settings) : Json :=
  .ofFields [(thresholdKey, .ofCount c.threshold), (sizesKey, .ofCounts c.sizes)]

/-- The text of settings. -/
def text (c : Settings) : String :=
  objectText [memberText thresholdKey (toString c.threshold),
    memberText sizesKey (Json.arrayText (c.sizes.map toString))]

theorem write_toJson (c : Settings) : c.toJson.write = c.text := by
  simp [toJson, text, Json.write_ofFields, Json.write_ofCount, Json.write_ofCounts]

theorem plain_toJson {c : Settings} (h : c.Bounded) {depth : Nat} : Plain (depth + 2) c.toJson :=
  Json.plain_ofFields (Json.isPlainName_of_mem plain_fieldNames rfl)
    (forall_mem_pair.2 ⟨.number h.1, Json.plain_ofCounts h.2⟩)

theorem write_eq_text (hw : w.FollowsJson) {c : Settings} (h : c.Bounded) :
    c.write w = .ok c.text := by
  have hsizes : c.sizes.mapM w.count = .ok (c.sizes.map toString) :=
    mapM_eq_ok_map fun n hn => hw.count (h.2 n hn)
  exact bind_eq_ok.2 ⟨_, hsizes, bind_eq_ok.2 ⟨_, hw.count h.1, bind_eq_ok.2
    ⟨_, hw.list _, hw.record (Json.isPlainName_of_mem plain_fieldNames rfl)⟩⟩⟩

theorem read_text (hr : r.FollowsJson) {c : Settings} (h : c.Bounded) : read r c.text = .ok c := by
  have hparse : r.parse c.text = .ok c.toJson := c.write_toJson ▸ hr.parse (plain_toJson h)
  have hthreshold : (some (Json.ofCount c.threshold)).mapM r.count = .ok (some c.threshold) := by
    simp [hr.count h.1]
  have hsizes : (some (Json.ofCounts c.sizes)).mapM r.counts = .ok (some c.sizes) := by
    simp [hr.counts h.2]
  exact bind_eq_ok.2 ⟨_, hparse,
    ofValue_hold hr.records plain_fieldNames (.refl _) hthreshold hsizes⟩

theorem bounded_standard : standard.Bounded := ⟨by decide, by decide⟩

theorem bounded_of_read (hr : r.FollowsJson) {text : String} {c : Settings}
    (h : read r text = .ok c) : c.Bounded := by
  obtain ⟨v, -, h⟩ := bind_eq_ok.1 h
  obtain ⟨get, -, h⟩ := bind_eq_ok.1 h
  obtain ⟨n, hn, h⟩ := bind_eq_ok.1 h
  obtain ⟨ns, hns, h⟩ := bind_eq_ok.1 h
  cases h
  constructor
  · cases n with
    | none => exact bounded_standard.1
    | some n =>
      obtain ⟨_, -, hread⟩ := exists_of_mem_optionMapM hn (Option.mem_some_self n)
      exact hr.count_le hread
  · cases ns with
    | none => exact bounded_standard.2
    | some ns =>
      obtain ⟨_, -, hread⟩ := exists_of_mem_optionMapM hns (Option.mem_some_self ns)
      exact hr.counts_le hread

end Settings

/-- A report in full range comes back from its text, in which the sizes stand as decimal strings in
the order of the numbers, and so do settings, a threshold of zero among them. What is read from any
text is written as a text that gives the same value and is written again as it is. -/
theorem json_round_trip (hw : w.FollowsJson) (hr : r.FollowsJson) :
    (∀ report : Report, report.Bounded →
      report.write w = .ok report.text ∧ Report.read r report.text = .ok report ∧
      report.counters.buckets.entries.Pairwise fun a b => a.1 < b.1) ∧
    (∀ c : Settings, c.Bounded → c.write w = .ok c.text ∧ Settings.read r c.text = .ok c) ∧
    (∀ text report, Report.read r text = .ok report →
      ∃ text', report.write w = .ok text' ∧ Report.read r text' = .ok report ∧
        (do (← Report.read r text').write w) = .ok text') ∧
    ∀ text c, Settings.read r text = .ok c →
      ∃ text', c.write w = .ok text' ∧ Settings.read r text' = .ok c ∧
        (do (← Settings.read r text').write w) = .ok text' := by
  refine ⟨?_, ?_, ?_, ?_⟩
  · intro report h
    exact ⟨Report.write_eq_text hw h, Report.read_text hr h, report.counters.buckets.ascending⟩
  · intro c h
    exact ⟨Settings.write_eq_text hw h, Settings.read_text hr h⟩
  · intro text report h
    have hbounded := Report.bounded_of_read hr h
    have hwrite := Report.write_eq_text hw hbounded
    have hread := Report.read_text hr hbounded
    exact ⟨_, hwrite, hread, bind_eq_ok.2 ⟨_, hread, hwrite⟩⟩
  · intro text c h
    have hbounded := Settings.bounded_of_read hr h
    have hwrite := Settings.write_eq_text hw hbounded
    have hread := Settings.read_text hr hbounded
    exact ⟨_, hwrite, hread, bind_eq_ok.2 ⟨_, hread, hwrite⟩⟩

/-- The size 9 stands before the size 10. Settings are also read from a text of one field. -/
theorem json_round_trip_nine_before_ten :
    ∃ report : Report, report.counters = ⟨.zero, ⟨[(9, maxCount), (10, 1)], by decide⟩⟩ ∧
      report.write Json.writer = .ok report.text ∧
      report.text = "\x7b\"counters\":\x7b\"ops\":\x7b\"in_calls\":0,\"not_in_calls\":0," ++
        "\"empty_sets\":0,\"tree_paths\":0,\"fallback_paths\":0,\"values_in\":0," ++
        "\"values_unique\":0,\"trees_built\":0,\"leaves_built\":0\x7d," ++
        "\"buckets\":\x7b\"9\":18446744073709551615,\"10\":1\x7d\x7d,\"distinct_shapes\":7\x7d" ∧
      Report.read Json.reader report.text = .ok report ∧
      (∃ text', report.write Json.writer = .ok text' ∧
        Report.read Json.reader text' = .ok report ∧
        (do (← Report.read Json.reader text').write Json.writer) = .ok text') ∧
      Settings.read Json.reader (Settings.text ⟨0, [3, 0, 3]⟩) = .ok ⟨0, [3, 0, 3]⟩ ∧
      ∃ text', Settings.write Json.writer ⟨defaultThreshold, [7]⟩ = .ok text' ∧
        Settings.read Json.reader text' = .ok ⟨defaultThreshold, [7]⟩ ∧
        (do (← Settings.read Json.reader text').write Json.writer) = .ok text' := by
  obtain ⟨hreports, hsettings, hreportTexts, hsettingsTexts⟩ :=
    json_round_trip Json.writer_followsJson Json.reader_followsJson
  have hbounded : Report.Bounded ⟨⟨.zero, ⟨[(9, maxCount), (10, 1)], by decide⟩⟩, 7⟩ := by
    refine ⟨?_, ?_, by decide⟩
    · exact (by decide : ∀ n ∈ Tally.zero.toCounts, n ≤ maxCount)
    · exact (by decide : ∀ e ∈ [(9, maxCount), (10, 1)], e.1 ≤ maxCount ∧ e.2 ≤ maxCount)
  have hpartial : Settings.read Json.reader "\x7b\"well_known_sizes\": [7]\x7d" =
      .ok ⟨defaultThreshold, [7]⟩ := by decide +kernel
  obtain ⟨hwrite, hread, -⟩ := hreports _ hbounded
  exact ⟨_, rfl, hwrite, by decide +kernel, hread, hreportTexts _ _ hread,
    (hsettings ⟨0, [3, 0, 3]⟩ ⟨Nat.zero_le _, by decide⟩).2, hsettingsTexts _ _ hpartial⟩

end PlanShape
