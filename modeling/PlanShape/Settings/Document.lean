import PlanShape.Format.Basic
import PlanShape.Settings.Basic

/-!
Settings as documents, in any format. What a document leaves out has its default value, and no
other fields may stand in it. Settings that are loaded have to be valid, too.
-/
namespace PlanShape

namespace Settings

def fieldNames : List String := [thresholdKey, sizesKey]

def write (w : Writer) (c : Settings) : Except String String := do
  let sizes ← c.sizes.mapM w.count
  w.record [(thresholdKey, ← w.count c.threshold), (sizesKey, ← w.list sizes)]

section
variable {α : Type} (r : Reader α)

/-- The settings that a value holds. -/
def ofValue (v : α) : Except String Settings := do
  let get ← r.record true fieldNames v
  let threshold ← (get thresholdKey).mapM r.count
  let sizes ← (get sizesKey).mapM r.counts
  return ⟨threshold.getD standard.threshold, sizes.getD standard.sizes⟩

def read (text : String) : Except String Settings := do ofValue r (← r.parse text)

/-- The valid settings of a document. Its form is judged before its values. -/
def load (text : String) : Except SettingsError Settings := do
  let c ← (read r text).mapError .parse
  c.validate
  return c

end

/-- The document of settings, which need not be valid. -/
def save (w : Writer) (c : Settings) : Except SettingsError String := (c.write w).mapError .parse

end Settings

end PlanShape
