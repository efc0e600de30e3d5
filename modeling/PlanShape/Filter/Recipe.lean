import PlanShape.Filter.Basic

/-!
Recipes for filters: where the settings come from, and what replaces them.
-/
namespace PlanShape

namespace Filter

/-- Where a filter takes its settings from. Loading them from a document may have failed. -/
inductive Base where
  | standard
  | settings (c : Settings)
  | loaded (c : Except SettingsError Settings)

def Base.filter : Base → Except SettingsError Filter
  | .standard => .ok .standard
  | .settings c => ofSettings c
  | .loaded c => do ofSettings (← c)

structure Recipe where
  base : Base
  threshold : Option Nat
  policy : Option SizePolicy

/-- The recipe that changes nothing. -/
def Recipe.plain : Recipe := ⟨.standard, none, none⟩

/-- The filter of a recipe. A threshold that replaces another one is not judged. -/
def Recipe.build (r : Recipe) : Except SettingsError Filter := do
  let f ← r.base.filter
  let f := (r.threshold.map f.withThreshold).getD f
  return (r.policy.map f.withPolicy).getD f

end Filter

end PlanShape
