import PlanShape.Filter.Recipe
import PlanShape.Filter.Selection
import PlanShape.Metrics.Thread

/-!
Sessions. A session is a list of steps that define and change filters, compile predicates, read
and reset the metrics, and open scopes and threads in which further steps are taken. Every step
is answered together with the report of its thread after the step.
-/
namespace PlanShape

namespace Session

/-- The filters that a session has defined, by name. -/
structure Shelf where
  filters : List (String × Filter)

namespace Shelf

def empty : Shelf := ⟨[]⟩

def find? (s : Shelf) (id : String) : Option Filter := s.filters.lookup id

/-- Define a filter; one that had the name before is replaced. -/
def put (s : Shelf) (id : String) (f : Filter) : Shelf :=
  ⟨(id, f) :: s.filters.filter (·.1 != id)⟩

end Shelf

/-- A request for a predicate, and for the rows of a source on which it holds. -/
structure Query where
  membership : Membership
  field : Field Row Value
  values : List Value
  rows : Option (List Row)

/-- The steps of a session. -/
inductive Step where
  | define (id : String) (recipe : Filter.Recipe)
  | copy (source target : String)
  | setThreshold (id : String) (threshold : Nat)
  | setPolicy (id : String) (policy : SizePolicy)
  | sizes (id : String) (counts : List Nat)
  | compile (id : Option String) (query : Query)
  | combine (leaves : List (Predicate Row Value))
  | report
  | reset
  | scope (steps : List Step) (aborts : Bool)
  | thread (steps : List Step)

/-- The outcome of a step. -/
inductive Outcome where
  | filter (f : Filter)
  | sizes (sizes : List Nat)
  | predicate (p : Predicate Row Value) (selection : Option (Selection Row Value))
  | report (isZero : Bool)
  | reset
  | scope (results : List (Outcome × Report)) (events : List Event) (aborted : Bool)
  | thread (results : List (Outcome × Report))
  | failure (f : Failure)
  | disjunctionError (e : DisjunctionError)
  | settingsError (e : SettingsError)
  | unknownFilter (id : String)

/-- A computation of a session: metrics of the thread, and the filters of all threads. What aborts
it carries the answers that were given before. -/
abbrev SessionM (α : Type) := Metered (List (Outcome × Report)) Shelf α

/-- Store a filter under a name, and answer with it. -/
def store (id : String) (f : Filter) : SessionM Outcome := do
  Metered.onApp fun s => s.put id f
  return .filter f

/-- Go on with the filter of a name. -/
def withFilter (id : String) (k : Filter → SessionM Outcome) : SessionM Outcome := do
  match (← Metered.app).find? id with
  | some f => k f
  | none => return .unknownFilter id

def compile (f : Filter) (q : Query) : SessionM Outcome := do
  match ← Metered.perform (f.compile q.membership q.field q.values) with
  | .error e => return .failure e
  | .ok p => return .predicate p (q.rows.map fun rows => ⟨rows, p⟩)

def combine (leaves : List (Predicate Row Value)) : SessionM Outcome := do
  match ← Metered.perform (Predicate.anyOf leaves) with
  | .error e => return .disjunctionError e
  | .ok p => return .predicate p none

mutual

/-- Take one step. -/
def Step.run : Step → SessionM Outcome
  | .define id recipe =>
    match recipe.build with
    | .error e => return .settingsError e
    | .ok f => store id f
  | .copy source target => withFilter source fun f => store target f
  | .setThreshold id n => withFilter id fun f => store id (f.withThreshold n)
  | .setPolicy id policy => withFilter id fun f => store id (f.withPolicy policy)
  | .sizes id counts => withFilter id fun f => return .sizes (counts.map f.policy)
  | .compile none q => compile .standard q
  | .compile (some id) q => withFilter id fun f => compile f q
  | .combine leaves => combine leaves
  | .report => return .report ((← Metered.report) = .zero)
  | .reset => do
    Metered.reset
    return .reset
  | .scope steps aborts => do
    let sink ← Metered.newSink
    let ending ← Metered.attempt (Metered.withSink sink do
      let results ← runAll steps
      if aborts then Metered.abort results else return results)
    let seen := (← Metered.thread).seenBy sink
    match ending with
    | .ok results => return .scope results seen false
    | .error results => return .scope results seen true
  | .thread steps => return .thread (← Metered.onNewThread (runAll steps))

/-- Take steps one after the other, and note the report after each of them. -/
def runAll : List Step → SessionM (List (Outcome × Report))
  | [] => return []
  | step :: rest => do
    let outcome ← step.run
    let report ← Metered.report
    let results ← runAll rest
    return (outcome, report) :: results

end

/-- The answers to the steps of a session that starts with nothing. -/
def answers (steps : List Step) : List (Outcome × Report) :=
  match runAll steps ⟨.fresh, .empty⟩ with
  | (.ok results, _) | (.error results, _) => results

end Session

end PlanShape
