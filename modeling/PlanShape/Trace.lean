/-!
What a call reports besides its result: metrics events for a sink and lines for the log,
each in the order in which they arise. A call that fails keeps what it reported before.
-/
namespace PlanShape

/-- Whether the listed values are the wanted ones or the unwanted ones. -/
inductive Membership where
  | included | excluded
  deriving DecidableEq, Repr

/-- The way in which a predicate was built. -/
inductive Path where
  | empty
  | tree (bucket : Nat)
  | fallback (values : Nat)
  deriving DecidableEq, Repr

inductive Event where
  | deduplicated (input unique : Nat)
  | treeBuilt (leaves : Nat)
  | compiled (membership : Membership) (path : Path)
  deriving DecidableEq, Repr

inductive LogLine where
  | padded (values bucket : Nat)
  | compiled (membership : Membership) (field : String) (input : Nat) (path : Path)
  deriving DecidableEq, Repr

/-- An outcome together with everything that was reported on the way to it. -/
structure Traced (ε α : Type) where
  outcome : Except ε α
  events : List Event
  lines : List LogLine

namespace Traced

variable {ε ε' α β : Type}

def fail (e : ε) : Traced ε α := ⟨.error e, [], []⟩

def emit (event : Event) : Traced ε Unit := ⟨.ok (), [event], []⟩

def log (line : LogLine) : Traced ε Unit := ⟨.ok (), [], [line]⟩

/-- Continue after a success; reports of both parts follow each other. -/
def andThen (x : Traced ε α) (f : α → Traced ε β) : Traced ε β :=
  match x.outcome with
  | .error e => ⟨.error e, x.events, x.lines⟩
  | .ok a =>
    let y := f a
    ⟨y.outcome, x.events ++ y.events, x.lines ++ y.lines⟩

instance : Monad (Traced ε) where
  pure a := ⟨.ok a, [], []⟩
  bind := andThen

/-- Restate the error; what was reported stays. -/
def mapError (f : ε → ε') (x : Traced ε α) : Traced ε' α :=
  ⟨x.outcome.mapError f, x.events, x.lines⟩

@[simp] theorem pure_eq (a : α) : (pure a : Traced ε α) = ⟨.ok a, [], []⟩ := rfl
@[simp] theorem bind_error (e : ε) (es : List Event) (ls : List LogLine) (f : α → Traced ε β) :
    (Traced.mk (.error e) es ls >>= f) = ⟨.error e, es, ls⟩ := rfl
@[simp] theorem bind_ok (a : α) (es : List Event) (ls : List LogLine) (f : α → Traced ε β) :
    (Traced.mk (.ok a) es ls >>= f) = ⟨(f a).outcome, es ++ (f a).events, ls ++ (f a).lines⟩ := rfl

end Traced

end PlanShape
