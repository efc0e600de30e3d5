import PlanShape.Padding.Padded
import PlanShape.Predicate.Balanced
import PlanShape.Settings.Basic

/-!
Failures as they are reported to callers: a class, the part that failed, and a message.
The errors of the single parts become failures with their own wording.
-/
namespace PlanShape

def PaddingError.message : PaddingError → String
  | .undersized values bucket =>
    s!"bucketizer returned size {bucket} for {values} values; bucket must hold every value"

def DisjunctionError.message : DisjunctionError → String
  | .empty => "cannot build a predicate tree from zero leaves"

inductive FailureClass where
  | unsupported | invariantViolation
  deriving DecidableEq, Repr

def FailureClass.label : FailureClass → String
  | .unsupported => "unsupported"
  | .invariantViolation => "invariant_violation"

inductive FailureOrigin where
  | bucket | tree | config
  deriving DecidableEq, Repr

def FailureOrigin.label : FailureOrigin → String
  | .bucket => "bucket"
  | .tree => "tree"
  | .config => "config"

structure Failure where
  kind : FailureClass
  origin : FailureOrigin
  message : String
  deriving DecidableEq, Repr

namespace Failure

def ofPadding (e : PaddingError) : Failure := ⟨.invariantViolation, .bucket, e.message⟩

def ofDisjunction (e : DisjunctionError) : Failure := ⟨.invariantViolation, .tree, e.message⟩

def ofSettings (e : SettingsError) : Failure := ⟨.unsupported, .config, e.message⟩

/-- Origin, class and message on one line. -/
def summary (f : Failure) : String := s!"{f.origin.label}:{f.kind.label}: {f.message}"

end Failure

end PlanShape
