import PlanShape.Failure

/-!
Membership filters. A list of candidate values becomes a predicate in one of three ways: a
constant for no values, the native membership test for more values than the threshold
allows, and otherwise a balanced tree over the values padded to the size of the policy. The
negative form is one negation around the positive one.
-/
namespace PlanShape

structure Filter where
  threshold : Nat
  policy : SizePolicy

namespace Filter

/-- Default threshold and default well-known sizes. -/
def standard : Filter := ⟨defaultThreshold, WellKnown.standard.policy⟩

/-- The filter of valid settings. -/
def ofSettings (c : Settings) : Except SettingsError Filter := do
  c.validate
  return ⟨c.threshold, (WellKnown.ofList c.sizes).policy⟩

def withThreshold (f : Filter) (threshold : Nat) : Filter := ⟨threshold, f.policy⟩

def withPolicy (f : Filter) (policy : SizePolicy) : Filter := ⟨f.threshold, policy⟩

variable {ρ κ : Type}

/-- The path for a candidate set and the predicate that holds on its members. -/
def select [BEq κ] (f : Filter) (field : Field ρ κ) (c : Candidates κ) :
    Traced Failure (Path × Predicate ρ κ) :=
  if c.isEmpty then pure (.empty, .never)
  else if f.threshold < c.size then pure (.fallback c.size, .member field c.values)
  else do
    let padded ← (c.padTo f.policy).mapError Failure.ofPadding
    let tree ← (Predicate.anyOf (padded.map (.equals field))).mapError Failure.ofDisjunction
    return (.tree padded.length, tree)

/-- The wanted form of a predicate built on a path: excluding nothing keeps everything. -/
def orient : Membership → Path → Predicate ρ κ → Predicate ρ κ
  | .included, _, p => p
  | .excluded, .empty, _ => .always
  | .excluded, _, p => .neg p

/-- The predicate for candidate values, with everything that is reported on the way. -/
def compile [BEq κ] [Hashable κ] [EquivBEq κ] [LawfulHashable κ] (f : Filter) (m : Membership)
    (field : Field ρ κ) (values : List κ) : Traced Failure (Predicate ρ κ) := do
  let c := Candidates.ofList values
  Traced.emit (.deduplicated values.length c.size)
  let (path, p) ← f.select field c
  Traced.log (.compiled m field.name values.length path)
  Traced.emit (.compiled m path)
  return orient m path p

end Filter

end PlanShape
