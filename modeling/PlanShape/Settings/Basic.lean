import PlanShape.Padding.WellKnown

/-!
Settings of a filter: the number of values up to which a tree is built, and the sizes that
are not padded.
-/
namespace PlanShape

structure Settings where
  threshold : Nat
  sizes : List Nat
  deriving DecidableEq, Repr

/-- The number of values above which the native membership test is used. -/
def defaultThreshold : Nat := 1024

inductive SettingsError where
  | parse (message : String)
  | invalid (field reason : String)
  deriving DecidableEq, Repr

def SettingsError.message : SettingsError → String
  | .parse message => s!"invalid filter config: {message}"
  | .invalid field reason => s!"invalid filter config field '{field}': {reason}"

namespace Settings

/-- The settings of an empty document. -/
def standard : Settings := ⟨defaultThreshold, WellKnown.defaultSizes⟩

def thresholdKey : String := "fallback_threshold"

def sizesKey : String := "well_known_sizes"

/-- A threshold of zero would leave no count for which a tree is built. -/
def validate (c : Settings) : Except SettingsError Unit :=
  if c.threshold = 0 then .error (.invalid thresholdKey "must be at least 1") else .ok ()

@[simp] theorem validate_eq_ok {c : Settings} : c.validate = .ok () ↔ c.threshold ≠ 0 := by
  simp [validate]

/-- Every number of the settings is a count. -/
def Bounded (c : Settings) : Prop := c.threshold ≤ maxCount ∧ ∀ n ∈ c.sizes, n ≤ maxCount

end Settings

end PlanShape
