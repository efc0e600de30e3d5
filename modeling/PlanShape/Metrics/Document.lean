import PlanShape.Format.Basic
import PlanShape.Metrics.Counters

/-!
Reports as documents, in any format. All fields have to be present; others are passed over. The
histogram is a map from counts, and of a key that stands twice the last number is kept.
-/
namespace PlanShape

namespace Tally

def fieldNames : List String :=
  ["in_calls", "not_in_calls", "empty_sets", "tree_paths", "fallback_paths", "values_in",
   "values_unique", "trees_built", "leaves_built"]

/-- The counters in the order of their fields. -/
def toCounts (t : Tally) : List Nat :=
  [t.includedCalls, t.excludedCalls, t.emptySets, t.treePaths, t.fallbackPaths, t.valuesIn,
   t.valuesUnique, t.treesBuilt, t.leavesBuilt]

def ofCounts : List Nat → Except String Tally
  | [a, b, c, d, e, f, g, h, i] => .ok ⟨a, b, c, d, e, f, g, h, i⟩
  | _ => .error "not one number for each counter"

def write (w : Writer) (t : Tally) : Except String String := do
  w.record (fieldNames.zip (← t.toCounts.mapM w.count))

/-- The counters that a value holds. -/
def ofValue {α : Type} (r : Reader α) (v : α) : Except String Tally := do
  let get ← r.record false fieldNames v
  ofCounts (← fieldNames.mapM fun name => do r.count (← required get name))

end Tally

namespace Histogram

/-- The histogram of numbers by key; a later number of a key replaces an earlier one. -/
def ofList (entries : List (Nat × Nat)) : Histogram :=
  entries.foldl (fun h (k, v) => h.insert k v) .empty

def write (w : Writer) (h : Histogram) : Except String String := do
  w.map (← h.entries.mapM fun (k, v) => do return (k, ← w.count v))

/-- The histogram that a value holds. -/
def ofValue {α : Type} (r : Reader α) (v : α) : Except String Histogram := do
  let entries ← (← r.map v).mapM fun (k, v) => do return (k, ← r.count v)
  return ofList entries

end Histogram

namespace Counters

def fieldNames : List String := ["ops", "buckets"]

def write (w : Writer) (c : Counters) : Except String String := do
  w.record [("ops", ← c.tally.write w), ("buckets", ← c.buckets.write w)]

/-- The counters that a value holds. -/
def ofValue {α : Type} (r : Reader α) (v : α) : Except String Counters := do
  let get ← r.record false fieldNames v
  return ⟨← Tally.ofValue r (← required get "ops"),
    ← Histogram.ofValue r (← required get "buckets")⟩

end Counters

namespace Report

def fieldNames : List String := ["counters", "distinct_shapes"]

def write (w : Writer) (report : Report) : Except String String := do
  w.record
    [("counters", ← report.counters.write w), ("distinct_shapes", ← w.count report.distinctShapes)]

/-- The report that a value holds. -/
def ofValue {α : Type} (r : Reader α) (v : α) : Except String Report := do
  let get ← r.record false fieldNames v
  return ⟨← Counters.ofValue r (← required get "counters"),
    ← r.count (← required get "distinct_shapes")⟩

/-- The report that a text holds. -/
def read {α : Type} (r : Reader α) (text : String) : Except String Report := do
  ofValue r (← r.parse text)

end Report

end PlanShape
