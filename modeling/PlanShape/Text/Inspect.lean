import PlanShape.Text.Doc
import PlanShape.Text.Quoted
import PlanShape.Filter.Basic
import PlanShape.Filter.Selection
import PlanShape.Metrics.Counters

/-!
Descriptions of the library's values for a reader, and the lines of the log.
-/
namespace PlanShape

/-- Values that have a description. -/
class Inspect (α : Type) where
  doc : α → Doc

export Inspect (doc)

/-- The description of a value in a layout. -/
def inspect {α : Type} [Inspect α] (layout : Layout) (a : α) : String := (doc a).render layout

mutual

def Value.toDoc : Value → Doc
  | .null => .word "null"
  | .bool b => .word (if b then "true" else "false")
  | .int n => .word n.repr
  | .text s => .word (quoted s)
  | .list items => .list (Value.toDocs items)

def Value.toDocs : List Value → List Doc
  | [] => []
  | v :: vs => v.toDoc :: Value.toDocs vs

end

instance : Inspect Value := ⟨Value.toDoc⟩

instance : Inspect Nat := ⟨Doc.nat⟩

instance {α : Type} [Inspect α] : Inspect (List α) := ⟨fun xs => .list (xs.map doc)⟩

variable {ρ κ : Type}

instance : Inspect (Field ρ κ) := ⟨fun f => .call "FieldRef" [.word (quoted f.name)]⟩

def Predicate.toDoc [Inspect κ] : Predicate ρ κ → Doc
  | .always => .word "True"
  | .never => .word "False"
  | .equals f v => .record "Eq" [.entry "field" (.word (quoted f.name)), .entry "value" (doc v)]
  | .disj p q => .call "Or" [p.toDoc, q.toDoc]
  | .neg p => .call "Not" [p.toDoc]
  | .member f vs =>
    .record "InList" [.entry "field" (.word (quoted f.name)), .entry "values" (doc vs)]

instance [Inspect κ] : Inspect (Predicate ρ κ) := ⟨Predicate.toDoc⟩

instance : Inspect Row := ⟨fun r => .call "Row" [doc r.slots]⟩

instance [Inspect ρ] [Inspect κ] : Inspect (Selection ρ κ) := ⟨fun s =>
  .record "FilteredSource" [.entry "source" (doc s.source), .entry "predicate" (doc s.predicate)]⟩

instance [BEq κ] [Inspect κ] : Inspect (Candidates κ) := ⟨fun c =>
  .call "DedupedValues" [doc c.values]⟩

instance : Inspect WellKnown := ⟨fun w =>
  .record "WellKnownBucketizer" [.entry "sizes" (doc w.sizes)]⟩

instance : Inspect Filter := ⟨fun f =>
  .record "MembershipFilter" [.entry "fallback_threshold" (doc f.threshold), .ellipsis]⟩

instance : Inspect Settings := ⟨fun c =>
  .record "FilterConfig"
    [.entry Settings.thresholdKey (doc c.threshold), .entry Settings.sizesKey (doc c.sizes)]⟩

instance : Inspect Membership := ⟨fun m =>
  match m with
  | .included => .word "In"
  | .excluded => .word "NotIn"⟩

instance : Inspect Path := ⟨fun p =>
  match p with
  | .empty => .word "Empty"
  | .tree bucket => .record "Tree" [.entry "bucket" (doc bucket)]
  | .fallback values => .record "Fallback" [.entry "values" (doc values)]⟩

instance : Inspect Event := ⟨fun e =>
  match e with
  | .deduplicated input unique =>
    .record "Dedupe" [.entry "input" (doc input), .entry "unique" (doc unique)]
  | .treeBuilt leaves => .record "TreeBuilt" [.entry "leaves" (doc leaves)]
  | .compiled m p => .record "Filter" [.entry "kind" (doc m), .entry "path" (doc p)]⟩

instance : Inspect Histogram := ⟨fun h =>
  .table (h.entries.map fun (k, v) => .entry k.repr (doc v))⟩

instance : Inspect Tally := ⟨fun t =>
  .record "FilterOps"
    [.entry "in_calls" (doc t.includedCalls), .entry "not_in_calls" (doc t.excludedCalls),
     .entry "empty_sets" (doc t.emptySets), .entry "tree_paths" (doc t.treePaths),
     .entry "fallback_paths" (doc t.fallbackPaths), .entry "values_in" (doc t.valuesIn),
     .entry "values_unique" (doc t.valuesUnique), .entry "trees_built" (doc t.treesBuilt),
     .entry "leaves_built" (doc t.leavesBuilt)]⟩

instance : Inspect Counters := ⟨fun c =>
  .record "EventState" [.entry "ops" (doc c.tally), .entry "buckets" (doc c.buckets)]⟩

instance : Inspect Report := ⟨fun r =>
  .record "EventReport"
    [.entry "counters" (doc r.counters), .entry "distinct_shapes" (doc r.distinctShapes)]⟩

instance : Inspect FailureClass := ⟨fun c =>
  match c with
  | .unsupported => .word "Unsupported"
  | .invariantViolation => .word "InvariantViolation"⟩

instance : Inspect FailureOrigin := ⟨fun o =>
  match o with
  | .bucket => .word "Bucket"
  | .tree => .word "Tree"
  | .config => .word "Config"⟩

instance : Inspect Failure := ⟨fun f =>
  .record "InternalError"
    [.entry "class" (doc f.kind), .entry "origin" (doc f.origin),
     .entry "message" (.word (quoted f.message))]⟩

/-- A line of the log: the level, the message and the named values. -/
def LogLine.text : LogLine → String
  | .padded values bucket =>
    s!"TRACE bucketized candidate set: values={values} bucket={bucket}"
  | .compiled m field input path =>
    let kind := inspect .plain m
    let name := quoted field
    let way := inspect .plain path
    s!"DEBUG compiled membership predicate: kind={kind} field={name} input={input} path={way}"

end PlanShape
