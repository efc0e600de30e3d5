/-!
Text formats for records. A record is written by a writer, which puts the texts of its parts
together, and is read by a reader, which finds the value that a text holds and takes it apart.
Which formats there are, and what their texts look like, is left to the two.
-/
namespace PlanShape

/-- How a format writes counts, lists, maps from counts, and records of named fields. -/
structure Writer where
  count : Nat → Except String String
  list : List String → Except String String
  map : List (Nat × String) → Except String String
  record : List (String × String) → Except String String

/-- How a format reads. The fields of a record are looked up by their names; a strict reading
refuses a record with a field of another name. -/
structure Reader (α : Type) where
  parse : String → Except String α
  count : α → Except String Nat
  list : α → Except String (List α)
  map : α → Except String (List (Nat × α))
  record : Bool → List String → α → Except String (String → Option α)

namespace Reader

variable {α : Type}

/-- A list of counts. -/
def counts (r : Reader α) (v : α) : Except String (List Nat) := do (← r.list v).mapM r.count

end Reader

/-- The value of a field that has to be there. -/
def required {α : Type} (get : String → Option α) (name : String) : Except String α :=
  match get name with
  | some v => .ok v
  | none => .error s!"missing field {name}"

/-- Fields by their names. None of the names may stand twice, and in a strict reading there may be
no others. -/
def fieldsByName {α : Type} (strict : Bool) (names : List String) (entries : List (String × α)) :
    Except String (String → Option α) :=
  if strict && entries.any fun e => !names.contains e.1 then .error "unknown field"
  else if names.any fun n => 1 < entries.countP fun e => e.1 == n then .error "duplicate field"
  else .ok fun n => entries.lookup n

end PlanShape
