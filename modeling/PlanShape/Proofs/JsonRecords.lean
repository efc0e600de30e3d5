import PlanShape.Proofs.Formats
import PlanShape.Proofs.JsonText

/-!
What is known of a format that follows JSON, as laws of its writer and its reader. Counts, lists of
counts and records are written as the texts of JSON values, and these values are read back from
their texts. The writer and the reader that are spelled out for JSON follow the laws.
-/
namespace PlanShape

namespace Json

theorem writeOnto_eq (v : Json) (rest : List Char) : v.writeOnto rest = v.write.toList ++ rest := by
  rw [write, String.toList_ofList, ← writeOnto_append, List.nil_append]

theorem write_ofCount (n : Nat) : (ofCount n).write = toString n := by
  rw [← String.toList_inj, Decimal.toList_toString, write, String.toList_ofList, ofCount, writeOnto,
    List.append_nil]

theorem writeItems_eq (items : List Json) (rest : List Char) :
    writeItems items rest = (",".intercalate (items.map write)).toList ++ rest := by
  rw [String.toList_intercalate]
  induction items with
  | nil => rfl
  | cons v vs ih =>
    cases vs with
    | nil => simp [writeItems, writeOnto_eq]
    | cons w vs =>
      simp only [List.map_cons] at ih ⊢
      rw [writeItems_cons_cons, writeOnto_eq, ih, List.intercalate_cons_cons]
      simp

theorem write_array (items : List Json) : (array items).write = arrayText (items.map write) := by
  apply String.toList_inj.1
  rw [write, writeOnto, writeItems_eq]
  simp [arrayText]

/-- A list of counts as a JSON value. -/
def ofCounts (ns : List Nat) : Json := .array (ns.map .ofCount)

theorem write_ofCounts (ns : List Nat) : (ofCounts ns).write = arrayText (ns.map toString) := by
  rw [ofCounts, write_array, List.map_map]
  exact congrArg arrayText (List.map_congr_left fun n _ => write_ofCount n)

/-- Named values as a JSON value. -/
def ofFields (fields : List (String × Json)) : Json :=
  .object (fields.map fun (k, v) => (k.toList, v))

theorem writeMembers_eq (fields : List (String × Json)) (rest : List Char) :
    writeMembers (fields.map fun (k, v) => (k.toList, v)) rest =
      (",".intercalate (fields.map fun (k, v) => memberText k v.write)).toList ++ rest := by
  rw [String.toList_intercalate]
  induction fields with
  | nil => rfl
  | cons f fields ih =>
    obtain ⟨k, v⟩ := f
    cases fields with
    | nil => simp [writeMembers, writeOnto_eq, memberText]
    | cons g fields =>
      simp only [List.map_cons] at ih ⊢
      rw [writeMembers_cons_cons, writeOnto_eq, ih, List.intercalate_cons_cons]
      simp [memberText]

theorem write_ofFields (fields : List (String × Json)) :
    (ofFields fields).write = objectText (fields.map fun (k, v) => memberText k v.write) := by
  apply String.toList_inj.1
  rw [write, ofFields, writeOnto, writeMembers_eq]
  simp [objectText]

/-- A name that needs no escapes. -/
def IsPlainName (name : String) : Prop := ∀ c ∈ name.toList, isPlainChar c = true

instance : DecidablePred IsPlainName := fun name => List.decidableBAll _ name.toList

theorem isPlainName_of_mem {α : Type} {names : List String} (plain : ∀ n ∈ names, IsPlainName n)
    {fields : List (String × α)} (h : fields.map (·.1) = names) : ∀ f ∈ fields, IsPlainName f.1 :=
  fun _ hf => plain _ (h ▸ List.mem_map_of_mem hf)

theorem plain_ofCounts {depth : Nat} {ns : List Nat} (h : ∀ n ∈ ns, n ≤ maxCount) :
    Plain (depth + 1) (ofCounts ns) := by
  apply Plain.array
  intro v hv
  obtain ⟨n, hn, rfl⟩ := List.mem_map.1 hv
  exact .number (h n hn)

theorem plain_ofFields {depth : Nat} {fields : List (String × Json)}
    (names : ∀ f ∈ fields, IsPlainName f.1) (values : ∀ f ∈ fields, Plain depth f.2) :
    Plain (depth + 1) (ofFields fields) := by
  apply Plain.object
  · intro m hm
    obtain ⟨f, hf, rfl⟩ := List.mem_map.1 hm
    exact names f hf
  · intro m hm
    obtain ⟨f, hf, rfl⟩ := List.mem_map.1 hm
    exact values f hf

end Json

open Json (IsPlainName Plain)

/-- A writer of JSON texts without blanks. -/
structure Writer.FollowsJson (w : Writer) : Prop where
  /-- Numbers of 64 bits are written in full. -/
  count : ∀ {n : Nat}, n ≤ maxCount → w.count n = .ok (toString n)
  list : ∀ items, w.list items = .ok (Json.arrayText items)
  /-- A map is an object in the order of the map, and its keys are decimal strings. -/
  map : ∀ {entries : List (Nat × String)}, (∀ e ∈ entries, e.1 ≤ maxCount) →
    w.map entries = .ok (Json.objectText (entries.map fun (k, v) => Json.memberText (toString k) v))
  /-- A record is an object with its fields in their order. -/
  record : ∀ {fields : List (String × String)}, (∀ f ∈ fields, IsPlainName f.1) →
    w.record fields = .ok (Json.objectText (fields.map fun (k, v) => Json.memberText k v))

/-- A reader of JSON texts into numbers of 64 bits, lists, maps and records of these. -/
structure Reader.FollowsJson (r : Reader Json) : Prop where
  /-- Arrays and objects may stand in each other up to the usual limit. -/
  parse : ∀ {v : Json}, Plain 127 v → r.parse v.write = .ok v
  count : ∀ {n : Nat}, n ≤ maxCount → r.count (.ofCount n) = .ok n
  count_le : ∀ {v : Json} {n : Nat}, r.count v = .ok n → n ≤ maxCount
  list : ∀ items, r.list (.array items) = .ok items
  /-- Decimal strings are read as the keys of a map. -/
  map : ∀ {entries : List (Nat × Json)}, (∀ e ∈ entries, e.1 ≤ maxCount) →
    r.map (Json.ofFields (entries.map fun (k, v) => (toString k, v))) = .ok entries
  map_le : ∀ {v : Json} {entries : List (Nat × Json)}, r.map v = .ok entries →
    ∀ e ∈ entries, e.1 ≤ maxCount
  records : r.ReadsRecords IsPlainName Json.ofFields

theorem readCount?_write {n : Nat} (h : n ≤ maxCount) :
    readCount? (Decimal.write n) = some n := by
  simp [readCount?, Option.filter, h]

theorem readCount?_le {cs : List Char} {n : Nat} (h : readCount? cs = some n) : n ≤ maxCount := by
  simpa using (Option.filter_eq_some_iff.1 h).2

namespace Json

theorem orError_eq_ok {α : Type} {message : String} {o : Option α} {a : α} :
    orError message o = .ok a ↔ o = some a := by
  cases o <;> simp [orError]

theorem isPlainChar_of_isDigit {c : Char} (h : c.isDigit = true) : isPlainChar c = true := by
  have hne (d : Char) (hd : d.isDigit = false) : c ≠ d := by
    rintro rfl
    rw [h] at hd
    cases hd
  have hblank : ¬ c < ' ' := by
    have hzero : 48 ≤ c.toNat := (Char.isDigit_iff_toNat.1 h).1
    intro hc
    have hspace : c.toNat < 32 := UInt32.lt_iff_toNat_lt.1 hc
    omega
  simp [isPlainChar, hne '"' (by decide), hne '\\' (by decide), hblank]

theorem isPlainName_toString (n : Nat) : IsPlainName (toString n) := by
  intro c hc
  rw [Decimal.toList_toString] at hc
  exact isPlainChar_of_isDigit (Decimal.isDigit_of_mem_write hc)

theorem unescape?_plain {cs : List Char} (h : ∀ c ∈ cs, isPlainChar c = true) :
    unescape? cs = some cs := by
  induction cs with
  | nil => rfl
  | cons c cs ih =>
    have hc := h c List.mem_cons_self
    have hslash : c ≠ '\\' := by
      rintro rfl
      exact absurd hc (by decide)
    simp [unescape?, hslash, ih fun d hd => h d (List.mem_cons_of_mem c hd)]

theorem fields_plain {named : List (String × Json)} (h : ∀ f ∈ named, IsPlainName f.1) :
    fields (named.map fun (k, v) => (k.toList, v)) = .ok named := by
  have hfield : ∀ f ∈ named, (orError "a name is not well-formed" (unescape? f.1.toList)).bind
      (fun k => .ok (String.ofList k, f.2)) = .ok f := by
    intro f hf
    rw [unescape?_plain (h f hf), orError, Except.bind, String.ofList_toList]
  exact (List.mapM_map ..).trans ((mapM_eq_ok_map hfield).trans (congrArg _ (List.map_id _)))

theorem entries_toString {entries : List (Nat × Json)} (h : ∀ e ∈ entries, e.1 ≤ maxCount) :
    Json.entries (entries.map fun (k, v) => ((toString k).toList, v)) = .ok entries := by
  have hentry : ∀ e ∈ entries, (orError "a key is not a count"
      (readCount? (toString e.1).toList)).bind (fun k => .ok (k, e.2)) = .ok e := by
    intro e he
    rw [Decimal.toList_toString, readCount?_write (h e he)]
    rfl
  exact (List.mapM_map ..).trans ((mapM_eq_ok_map hentry).trans (congrArg _ (List.map_id _)))

theorem writer_followsJson : writer.FollowsJson where
  count _ := rfl
  list _ := rfl
  map _ := rfl
  record _ := rfl

theorem reader_followsJson : reader.FollowsJson where
  parse hv := orError_eq_ok.2 (parse?_write hv)
  count hn := orError_eq_ok.2 (readCount?_write hn)
  count_le {v n} h := by
    cases v with
    | number cs => exact readCount?_le (orError_eq_ok.1 h)
    | null | bool | text | array | object => cases h
  list _ := rfl
  map {entries} h := by
    rw [ofFields, List.map_map]
    exact entries_toString h
  map_le {v entries} h := by
    cases v with
    | object members =>
      intro e he
      obtain ⟨m, -, hm⟩ := exists_of_mem_mapM h he
      obtain ⟨k, hk, hm⟩ := bind_eq_ok.1 hm
      cases hm
      exact readCount?_le (orError_eq_ok.1 hk)
    | null | bool | number | text | array => cases h
  records := Reader.readsRecords_of_fieldsByName fun strict names _ h =>
    congrArg (· >>= fieldsByName strict names) (fields_plain h)

end Json

end PlanShape
