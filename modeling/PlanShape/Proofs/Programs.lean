import PlanShape.Filter.Basic
import PlanShape.Metrics.Thread
import PlanShape.Proofs.Disjunction

/-!
Programs over the metrics of one thread. A program makes calls, resets the counters, opens scopes,
aborts and catches what aborted, and may go on by what its calls return. Its run on a thread is set
against what it does in the scopes that are open around it: a list of calls, each with its receiver,
and of resets.
-/
namespace PlanShape

namespace Metered

/-- The calls that report. A call whose policy aborts has announced its candidates, and nothing
else. -/
inductive Call : Type → Type → Type 1 where
  | compile {ρ κ : Type} [BEq κ] [Hashable κ] [EquivBEq κ] [LawfulHashable κ] (f : Filter)
    (m : Membership) (field : Field ρ κ) (values : List κ) : Call Failure (Predicate ρ κ)
  | combine {ρ κ : Type} (leaves : List (Predicate ρ κ)) : Call DisjunctionError (Predicate ρ κ)
  | announce {κ : Type} [BEq κ] [Hashable κ] [EquivBEq κ] [LawfulHashable κ] (values : List κ) :
    Call Empty Unit

/-- A call for numbers as candidates, in records that are numbers. -/
def Call.ofNumbers (f : Filter) (m : Membership) (values : List Nat) :
    Call Failure (Predicate Nat Nat) :=
  .compile f m ⟨"k", id⟩ values

def Call.traced : {ε α : Type} → Call ε α → Traced ε α
  | _, _, @Call.compile _ _ _ _ _ _ f m field values => f.compile m field values
  | _, _, .combine leaves => Predicate.anyOf leaves
  | _, _, @Call.announce _ _ _ _ _ values =>
    Traced.emit (.deduplicated values.length (distinct values).length)

theorem Call.events_combine {ρ κ : Type} {leaves : List (Predicate ρ κ)} (h : leaves ≠ []) :
    (combine leaves).traced.events = [.treeBuilt leaves.length] := by
  obtain ⟨t, -, ht⟩ := Predicate.anyOf_of_ne_nil h
  rw [traced, ht]

end Metered

/-- Programs that end with a result or abort with a value of type `π`. -/
inductive Program (π : Type) : Type → Type 1 where
  | done {α : Type} (a : α) : Program π α
  | andThen {α β : Type} (p : Program π α) (k : α → Program π β) : Program π β
  | call {ε α : Type} (c : Metered.Call ε α) : Program π (Except ε α)
  | reset : Program π Unit
  | scope {α : Type} (sink : SinkId) (body : Program π α) : Program π α
  | abort {α : Type} (payload : π) : Program π α
  | attempt {α : Type} (body : Program π α) : Program π (Except π α)

/-- A call whose report went to a sink, or to the counters if no sink is named, or a reset. -/
inductive Deed : Type 1 where
  | call {ε α : Type} (receiver : Option SinkId) (c : Metered.Call ε α)
  | reset

namespace Deed

def events : Deed → List Event
  | call _ c => c.traced.events
  | reset => []

def lines : Deed → List LogLine
  | call _ c => c.traced.lines
  | reset => []

/-- What the sinks get. -/
def deliveries : Deed → List (SinkId × Event)
  | call (some s) c => c.traced.events.map fun e => (s, e)
  | call none _ | reset => []

/-- What becomes of the counters. -/
def count (c : Counters) : Deed → Counters
  | call none x => c.recordAll x.traced.events
  | call (some _) _ => c
  | reset => .zero

/-- The thread after a deed. Its active sink plays no part and stays. -/
def apply (d : Deed) (t : Thread) : Thread :=
  { t with
    counters := d.count t.counters
    delivered := t.delivered ++ d.deliveries
    log := t.log ++ d.lines }

end Deed

variable {π σ α β : Type}

namespace Program

/-- How a program ends; neither scopes nor counters have a say in it. -/
def outcome : {α : Type} → Program π α → Except π α
  | _, .done a => .ok a
  | _, .andThen p k =>
    match p.outcome with
    | .ok a => (k a).outcome
    | .error e => .error e
  | _, .call c => .ok c.traced.outcome
  | _, .reset => .ok ()
  | _, .scope _ body => body.outcome
  | _, .abort e => .error e
  | _, .attempt body => .ok body.outcome

/-- What a program does inside the given scopes, innermost first: every call reports to the
innermost scope that is open when it is made. -/
def deeds : {α : Type} → Program π α → List SinkId → List Deed
  | _, .done _, _ | _, .abort _, _ => []
  | _, .andThen p k, scopes =>
    p.deeds scopes ++ match p.outcome with
      | .ok a => (k a).deeds scopes
      | .error _ => []
  | _, .call c, scopes => [.call scopes.head? c]
  | _, .reset, _ => [.reset]
  | _, .scope s body, scopes => body.deeds (s :: scopes)
  | _, .attempt body, scopes => body.deeds scopes

/-- All events of a program in order, whoever receives them. -/
def events (p : Program π α) : List Event := (p.deeds []).flatMap Deed.events

def lines (p : Program π α) : List LogLine := (p.deeds []).flatMap Deed.lines

/-- Run a program; an observer is told the report after every call and every reset. -/
def observed (note : Report → σ → σ) : {α : Type} → Program π α → Metered π σ α
  | _, .done a => pure a
  | _, .andThen p k => do
    let a ← p.observed note
    (k a).observed note
  | _, .call c => do
    let result ← Metered.perform c.traced
    let report ← Metered.report
    Metered.onApp (note report)
    return result
  | _, .reset => do
    Metered.reset
    let report ← Metered.report
    Metered.onApp (note report)
  | _, .scope s body => Metered.withSink s (body.observed note)
  | _, .abort e => Metered.abort e
  | _, .attempt body => Metered.attempt (body.observed note)

def run (p : Program π α) : Metered π σ α := p.observed fun _ app => app

/-- The reports of a run, one after every call and every reset. -/
def reports (p : Program π α) (t : Thread) : List Report :=
  (p.observed (fun report seen => seen ++ [report]) ⟨t, []⟩).2.app

end Program

/-- The world after a deed and after its report has been noted. -/
def World.advance (note : Report → σ → σ) (w : World σ) (d : Deed) : World σ :=
  ⟨d.apply w.thread, note (d.apply w.thread).report w.app⟩

/-- A world with another active sink. -/
def World.withActive (w : World σ) (active : Option SinkId) : World σ :=
  { w with thread := { w.thread with active := active } }

namespace Thread

theorem recordAll_of_none {t : Thread} (h : t.active = none) (events : List Event) :
    t.recordAll events = { t with counters := t.counters.recordAll events } := by
  induction events generalizing t with
  | nil => rfl
  | cons e events ih =>
    have hstep : t.record e = { t with counters := t.counters.record e } := by simp [record, h]
    rw [recordAll, List.foldl_cons, hstep]
    exact ih h

theorem recordAll_of_some {t : Thread} {s : SinkId} (h : t.active = some s)
    (events : List Event) :
    t.recordAll events =
      { t with delivered := t.delivered ++ events.map fun e => (s, e) } := by
  induction events generalizing t with
  | nil => simp [recordAll]
  | cons e events ih =>
    have hstep : t.record e = { t with delivered := t.delivered.push (s, e) } := by
      simp [record, h]
    have hrest := ih (t := { t with delivered := t.delivered.push (s, e) }) h
    rw [recordAll, List.foldl_cons, hstep]
    refine hrest.trans ?_
    simp

/-- A call is a deed with the active sink as its receiver. -/
theorem write_recordAll {ε α : Type} (t : Thread) (c : Metered.Call ε α) :
    (t.recordAll c.traced.events).write c.traced.lines = (Deed.call t.active c).apply t := by
  cases h : t.active with
  | none => simp [recordAll_of_none h, write, Deed.apply, Deed.count, Deed.deliveries, Deed.lines]
  | some s => simp [recordAll_of_some h, write, Deed.apply, Deed.count, Deed.deliveries, Deed.lines]

theorem reset_eq (t : Thread) : t.reset = Deed.reset.apply t := by
  simp [reset, Deed.apply, Deed.count, Deed.deliveries, Deed.lines]

end Thread

namespace World

variable (note : Report → σ → σ)

theorem active_foldl_advance (ds : List Deed) (w : World σ) :
    (ds.foldl (advance note) w).thread.active = w.thread.active := by
  induction ds generalizing w with
  | nil => rfl
  | cons d ds ih => exact ih (w.advance note d)

/-- Deeds do the same whatever sink is active, and leave it active. -/
theorem foldl_advance_withActive (ds : List Deed) (w : World σ) (active : Option SinkId) :
    ds.foldl (advance note) (w.withActive active) =
      (ds.foldl (advance note) w).withActive active := by
  induction ds generalizing w with
  | nil => rfl
  | cons d ds ih => exact ih (w.advance note d)

theorem thread_foldl_advance (ds : List Deed) (w : World σ) :
    (ds.foldl (advance note) w).thread =
      { w.thread with
        counters := ds.foldl Deed.count w.thread.counters
        delivered := w.thread.delivered ++ ds.flatMap Deed.deliveries
        log := w.thread.log ++ ds.flatMap Deed.lines } := by
  induction ds generalizing w with
  | nil => simp
  | cons d ds ih =>
    refine (ih (w.advance note d)).trans ?_
    simp [advance, Deed.apply, ← Array.toList_inj]

theorem withActive_self {w : World σ} {active : Option SinkId} (h : w.thread.active = active) :
    w.withActive active = w := by
  subst h
  rfl

end World

namespace Metered

theorem bind_apply (x : Metered π σ α) (f : α → Metered π σ β) (w : World σ) :
    (x >>= f) w = match x w with
      | (.ok a, w') => f a w'
      | (.error e, w') => (.error e, w') := by
  simp only [bind, ExceptT.bind, ExceptT.mk, StateT.bind]
  cases x w with
  | mk result w' => cases result <;> rfl

theorem observe_perform (note : Report → σ → σ) {ε : Type} (c : Metered.Call ε α) (w : World σ) :
    (Program.call c : Program π (Except ε α)).observed note w =
      (.ok c.traced.outcome, w.advance note (.call w.thread.active c)) := by
  change (Except.ok c.traced.outcome, World.mk ((w.thread.recordAll c.traced.events).write
    c.traced.lines) (note ((w.thread.recordAll c.traced.events).write c.traced.lines).report
      w.app)) = _
  rw [Thread.write_recordAll]
  rfl

theorem observe_reset (note : Report → σ → σ) (w : World σ) :
    (Program.reset : Program π Unit).observed note w = (.ok (), w.advance note .reset) := by
  change (Except.ok (), World.mk w.thread.reset (note w.thread.reset.report w.app)) = _
  rw [Thread.reset_eq]
  rfl

theorem withSink_apply (s : SinkId) (body : Metered π σ α) (w : World σ) :
    withSink s body w =
      ((body (w.withActive (some s))).1,
        (body (w.withActive (some s))).2.withActive w.thread.active) := rfl

end Metered

/-- A run ends as the program does, and leaves the world as the deeds of the program do inside the
scopes that are open. -/
theorem Program.observed_eq (note : Report → σ → σ) (p : Program π α) {scopes : List SinkId}
    {w : World σ} (h : w.thread.active = scopes.head?) :
    p.observed note w = (p.outcome, (p.deeds scopes).foldl (World.advance note) w) := by
  induction p generalizing scopes w with
  | done a => rfl
  | abort e => rfl
  | call c =>
    rw [Metered.observe_perform, h]
    rfl
  | reset => exact Metered.observe_reset note w
  | andThen p k ihp ihk =>
    rw [observed, Metered.bind_apply, ihp h]
    cases ho : p.outcome with
    | error e => simp [outcome, deeds, ho]
    | ok a =>
      have hactive := (World.active_foldl_advance note (p.deeds scopes) w).trans h
      simp [outcome, deeds, ho, ihk a hactive]
  | attempt body ih =>
    rw [observed, Metered.attempt, ih h]
    rfl
  | scope s body ih =>
    have hinner : (w.withActive (some s)).thread.active = (s :: scopes).head? := rfl
    have hbody := ih hinner
    rw [observed, Metered.withSink_apply, hbody, World.foldl_advance_withActive]
    -- the sink of the scope goes, and the one that was active before is back
    have hback := World.active_foldl_advance note (body.deeds (s :: scopes)) w
    exact Prod.ext rfl (World.withActive_self hback)

end PlanShape
