import PlanShape.Metrics.Counters

/-!
Metrics and log of one thread. An event goes to the active sink, or to the counters of the
thread when there is none. A sink is active inside its scope only: whichever way the scope is
left, the sink that was active before is active again. Log lines go to the log whatever sink is
active.
-/
namespace PlanShape

/-- The number of a recording sink. -/
abbrev SinkId := Nat

structure Thread where
  counters : Counters
  active : Option SinkId
  delivered : Array (SinkId × Event)
  sinkCount : Nat
  log : Array LogLine

namespace Thread

/-- Zero counters, no sink and an empty log. -/
def fresh : Thread := ⟨.zero, none, #[], 0, #[]⟩

/-- Deliver one event. -/
def record (t : Thread) (e : Event) : Thread :=
  match t.active with
  | none => { t with counters := t.counters.record e }
  | some s => { t with delivered := t.delivered.push (s, e) }

/-- Deliver events in order. -/
def recordAll (t : Thread) (events : List Event) : Thread := events.foldl record t

/-- Add lines to the log. -/
def write (t : Thread) (lines : List LogLine) : Thread := { t with log := t.log ++ lines }

/-- Set the counters to zero; sinks and the log keep what they have seen. -/
def reset (t : Thread) : Thread := { t with counters := .zero }

def report (t : Thread) : Report := t.counters.report

/-- The events that one sink has seen, in order. -/
def seenBy (t : Thread) (s : SinkId) : List Event :=
  t.delivered.toList.filterMap fun (id, e) => if id = s then some e else none

end Thread

/-- A thread beside what the application keeps. -/
structure World (σ : Type) where
  thread : Thread
  app : σ

/-- A computation on one thread. It ends with a result, or it aborts with a value of type `π`. -/
abbrev Metered (π σ α : Type) := ExceptT π (StateM (World σ)) α

namespace Metered

variable {π σ α ε : Type}

def onThread (f : Thread → Thread) : Metered π σ Unit :=
  modify fun w => { w with thread := f w.thread }

def onApp (f : σ → σ) : Metered π σ Unit :=
  modify fun w => { w with app := f w.app }

def thread : Metered π σ Thread := return (← get).thread

def app : Metered π σ σ := return (← get).app

/-- Deliver everything that a call reports, and go on with its outcome. -/
def perform (x : Traced ε α) : Metered π σ (Except ε α) := do
  onThread fun t => (t.recordAll x.events).write x.lines
  return x.outcome

def reset : Metered π σ Unit := onThread Thread.reset

def report : Metered π σ Report := return (← thread).report

/-- A sink that has not been used before. -/
def newSink : Metered π σ SinkId := do
  let t ← thread
  onThread fun t => { t with sinkCount := t.sinkCount + 1 }
  return t.sinkCount

def abort (payload : π) : Metered π σ α := throw payload

/-- Run a computation with a sink active, and restore the sink that was active before. -/
def withSink (s : SinkId) (body : Metered π σ α) : Metered π σ α := fun w =>
  let (result, w') := body { w with thread := { w.thread with active := some s } }
  (result, { w' with thread := { w'.thread with active := w.thread.active } })

/-- Run a computation and tell how it ended. -/
def attempt (body : Metered π σ α) : Metered π σ (Except π α) := fun w =>
  let (result, w') := body w
  (.ok result, w')

/-- Run a computation on a thread of its own, which is gone afterwards. -/
def onNewThread (body : Metered π σ α) : Metered π σ α := fun w =>
  let (result, w') := body { w with thread := .fresh }
  (result, { w' with thread := w.thread })

end Metered

end PlanShape
