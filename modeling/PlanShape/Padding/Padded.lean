import PlanShape.Candidates
import PlanShape.Padding.Policy
import PlanShape.Trace

/-!
Padding a candidate set to the size that a policy names. The values come first, in order;
copies of the first value fill the rest. An empty set stays empty under every policy.
-/
namespace PlanShape

inductive PaddingError where
  | undersized (values bucket : Nat)
  deriving DecidableEq, Repr

/-- The values of the set, padded to the size of the policy. -/
def Candidates.padTo {κ : Type} [BEq κ] (policy : SizePolicy) (c : Candidates κ) :
    Traced PaddingError (List κ) :=
  match c.values with
  | [] => pure []
  | first :: rest =>
    let n := rest.length + 1
    let bucket := policy n
    if bucket < n then Traced.fail (.undersized n bucket)
    else do
      Traced.log (.padded n bucket)
      return first :: rest ++ List.replicate (bucket - n) first

end PlanShape
