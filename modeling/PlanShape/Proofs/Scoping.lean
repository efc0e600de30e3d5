import PlanShape.Proofs.Programs

/-!
Where events go. Whatever a program does with scopes, aborts and handlers, each of its events
reaches the sink of the innermost scope that is open when it is reported, or the counters if none
is, once and in the order of the program. No end of a scope leaves another sink active than the one
before it, and results and log do not depend on scopes or counters.
-/
namespace PlanShape

variable {π σ α : Type}

namespace Deed

/-- The events of a deed that go to a sink, or to the counters. -/
def eventsFor (receiver : Option SinkId) : Deed → List Event
  | call r c => if r = receiver then c.traced.events else []
  | reset => []

theorem filterMap_deliveries (s : SinkId) (d : Deed) :
    (d.deliveries.filterMap fun (id, e) => if id = s then some e else none) =
      d.eventsFor (some s) := by
  cases d with
  | reset => rfl
  | call receiver c =>
    cases receiver with
    | none => simp [deliveries, eventsFor]
    | some id =>
      rw [deliveries, List.filterMap_map]
      by_cases h : id = s
      · rw [eventsFor, if_pos (congrArg some h)]
        exact (congrArg (List.filterMap · _) (funext fun _ => if_pos h)).trans List.filterMap_some
      · rw [eventsFor, if_neg (by simpa using h)]
        exact List.filterMap_eq_nil_iff.2 fun e _ => if_neg h

end Deed

theorem Thread.seenBy_append (t : Thread) (ds : List Deed) (s : SinkId) :
    { t with delivered := t.delivered ++ ds.flatMap Deed.deliveries }.seenBy s =
      t.seenBy s ++ ds.flatMap (Deed.eventsFor (some s)) := by
  simp [seenBy, List.filterMap_flatMap, Deed.filterMap_deliveries]

namespace Program

/-- What is not said of the receiver does not depend on the scopes. -/
theorem flatMap_deeds {β : Type} {g : Deed → List β}
    (h : ∀ {ε α : Type} (r r' : Option SinkId) (c : Metered.Call ε α),
      g (.call r c) = g (.call r' c))
    (p : Program π α) (scopes scopes' : List SinkId) :
    (p.deeds scopes).flatMap g = (p.deeds scopes').flatMap g := by
  induction p generalizing scopes scopes' with
  | done a => rfl
  | abort e => rfl
  | reset => rfl
  | call c => simpa [deeds] using h scopes.head? scopes'.head? c
  | andThen p k ihp ihk =>
    simp only [deeds, List.flatMap_append, ihp scopes scopes']
    cases p.outcome with
    | error e => rfl
    | ok a => exact congrArg _ (ihk a scopes scopes')
  | scope s body ih => exact ih (s :: scopes) (s :: scopes')
  | attempt body ih => exact ih scopes scopes'

theorem run_eq (p : Program π α) {scopes : List SinkId} {w : World σ}
    (h : w.thread.active = scopes.head?) :
    p.run w = (p.outcome, (p.deeds scopes).foldl (World.advance fun _ app => app) w) :=
  p.observed_eq _ h

/-- Let the scopes that are open be given, the innermost one first; any sink may stand among them
more than once. The program ends as it does in any other place, and adds the same lines to the log.
Its events, each of them once and in its order, go to the sink of the innermost scope around them,
or into the counters; a reset is the only other thing that the counters see, and it is all that a
reset does. The sink that was active is active again at the end, also after an abort. -/
theorem events_reach_innermost_scope (p : Program π α) {scopes : List SinkId} {w : World σ}
    (h : w.thread.active = scopes.head?) :
    (p.run w).1 = p.outcome ∧
    (p.run w).2.thread.log.toList = w.thread.log.toList ++ p.lines ∧
    (p.run w).2.thread.active = w.thread.active ∧
    (p.deeds scopes).flatMap Deed.events = p.events ∧
    (p.run w).2.thread.delivered.toList =
      w.thread.delivered.toList ++ (p.deeds scopes).flatMap Deed.deliveries ∧
    (∀ s, (p.run w).2.thread.seenBy s =
      w.thread.seenBy s ++ (p.deeds scopes).flatMap (Deed.eventsFor (some s))) ∧
    (p.run w).2.thread.counters = (p.deeds scopes).foldl Deed.count w.thread.counters := by
  have hevents : (p.deeds scopes).flatMap Deed.events = p.events :=
    flatMap_deeds (fun _ _ _ => rfl) p scopes []
  have hlines : (p.deeds scopes).flatMap Deed.lines = p.lines :=
    flatMap_deeds (fun _ _ _ => rfl) p scopes []
  rw [p.run_eq h]
  simp only [World.thread_foldl_advance]
  refine ⟨trivial, ?_, trivial, hevents, ?_, ?_, trivial⟩
  · rw [← hlines]
    simp
  · simp
  · intro s
    exact Thread.seenBy_append w.thread (p.deeds scopes) s

/-- Join so many constants directly. -/
def join (n : Nat) : Program π (Except DisjunctionError (Predicate Nat Nat)) :=
  .call (.combine (List.replicate n .always))

/-- An abort inside three scopes, the first and the last of one sink, which is caught outside. -/
def abortedNest : Program Unit (Except DisjunctionError (Predicate Nat Nat)) :=
  .andThen (.attempt (.scope 0 (.andThen (join 1) fun _ =>
    .scope 1 (.scope 0 (.andThen (join 2) fun _ => .abort ()))))) fun (_ : Except Unit Unit) =>
  join 4

theorem events_reach_innermost_scope_aborted_nest :
    Thread.fresh.active = ([] : List SinkId).head? ∧
    (abortedNest.run ⟨.fresh, ()⟩).2.thread.seenBy 0 = [.treeBuilt 1, .treeBuilt 2] ∧
    (abortedNest.run ⟨.fresh, ()⟩).2.thread.seenBy 1 = [] ∧
    (abortedNest.run ⟨.fresh, ()⟩).2.thread.active = none ∧
    (abortedNest.run ⟨.fresh, ()⟩).2.thread.counters = Counters.zero.record (.treeBuilt 4) := by
  have hstart : (⟨.fresh, ()⟩ : World Unit).thread.active = ([] : List SinkId).head? := rfl
  have hdeeds : abortedNest.deeds [] =
      [.call (some 0) (.combine (List.replicate 1 (.always : Predicate Nat Nat))),
        .call (some 0) (.combine (List.replicate 2 (.always : Predicate Nat Nat))),
        .call none (.combine (List.replicate 4 (.always : Predicate Nat Nat)))] := rfl
  obtain ⟨-, -, hactive, -, -, hseen, hcounters⟩ := abortedNest.events_reach_innermost_scope hstart
  refine ⟨hstart, ?_, ?_, hactive, ?_⟩
  · rw [hseen 0, hdeeds]
    simp [Deed.eventsFor, Metered.Call.events_combine, Thread.seenBy, Thread.fresh]
  · rw [hseen 1, hdeeds]
    simp [Deed.eventsFor, Thread.seenBy, Thread.fresh]
  · rw [hcounters, hdeeds]
    simp [Deed.count, Metered.Call.events_combine, Counters.recordAll, Thread.fresh]

end Program

end PlanShape
