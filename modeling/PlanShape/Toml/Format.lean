import PlanShape.Format.Basic
import PlanShape.Toml.Number
import PlanShape.Toml.Token

/-!
TOML as a format for records of counts and lists of counts. A document assigns them to keys, each
at most once; blank lines and comments may stand anywhere between lines and between the elements of
an array. The tokens of a document are read one by one.
-/
namespace PlanShape

namespace Toml

/-- What a document assigns, and the table of a whole document. Values of other kinds are known by
their texts only. -/
inductive Value where
  | integer (n : Nat)
  | integers (ns : List Nat)
  | table (entries : List (String × Value))
  | other (text : List Char)
  deriving Repr

/-- Why a document cannot be read. -/
inductive ReadError where
  | malformed
  | unexpected
  | repeatedKey (key : String)
  | notCount (spelling : String)
  | unfinished
  deriving DecidableEq, Repr

def ReadError.message : ReadError → String
  | .malformed => "the text is not well-formed"
  | .unexpected => "a key, a value or the end of a line is missing"
  | .repeatedKey key => s!"duplicate key {key}"
  | .notCount spelling => s!"invalid integer {spelling}"
  | .unfinished => "the document ends too early"

/-- Characters of a key that stands without quotes. -/
def isKeyChar (c : Char) : Bool := c.isAlphanum || c = '_' || c = '-'

/-- What the next token has to be. -/
inductive Phase where
  | key
  | equals (key : String)
  | value (key : String)
  | lineEnd
  | item (key : String) (before : List Nat)
  | separator (key : String) (before : List Nat)
  deriving DecidableEq, Repr

/-- The phase of a reading, and what has been assigned before, the last one first. -/
structure Progress where
  phase : Phase
  entries : List (String × Value)
  deriving Repr

namespace Progress

def start : Progress := ⟨.key, []⟩

/-- Begin an assignment. -/
def key (entries : List (String × Value)) (name : String) : Except ReadError Progress :=
  if entries.any fun e => e.1 == name then .error (.repeatedKey name)
  else .ok ⟨.equals name, entries⟩

/-- Go on behind a count. -/
def count (cs : List Char) (behind : Nat → Progress) : Except ReadError Progress :=
  match count? cs with
  | none => .error (.notCount (String.ofList cs))
  | some n => .ok (behind n)

def step (p : Progress) (t : Token) : Except ReadError Progress :=
  match p.phase, t with
  | .key, .newline => .ok p
  | .key, .word cs =>
    if cs.all isKeyChar then key p.entries (String.ofList cs) else .error .unexpected
  | .key, .quoted cs => key p.entries (String.ofList cs)
  | .equals k, .equals => .ok ⟨.value k, p.entries⟩
  | .value k, .word cs => count cs fun n => ⟨.lineEnd, (k, .integer n) :: p.entries⟩
  | .value k, .opening => .ok ⟨.item k [], p.entries⟩
  | .lineEnd, .newline => .ok ⟨.key, p.entries⟩
  | .item .., .newline | .separator .., .newline => .ok p
  | .item k before, .word cs => count cs fun n => ⟨.separator k (n :: before), p.entries⟩
  | .separator k before, .comma => .ok ⟨.item k before, p.entries⟩
  | .item k before, .closing | .separator k before, .closing =>
    .ok ⟨.lineEnd, (k, .integers before.reverse) :: p.entries⟩
  | _, _ => .error .unexpected

/-- What has been assigned when the document ends. -/
def finish (p : Progress) : Except ReadError (List (String × Value)) :=
  match p.phase with
  | .key | .lineEnd => .ok p.entries.reverse
  | _ => .error .unfinished

end Progress

/-- What a document assigns. -/
def read (cs : List Char) : Except ReadError (List (String × Value)) :=
  match scan? cs with
  | none => .error .malformed
  | some ts => do (← ts.foldlM Progress.step .start).finish

def reader : Reader Value where
  parse text := (read text.toList).mapError ReadError.message |>.map .table
  count
    | .integer n => .ok n
    | _ => .error "an integer is missing"
  list
    | .integers ns => .ok (ns.map .integer)
    | _ => .error "an array is missing"
  map _ := .error "a table with counts for keys is missing"
  record strict names
    | .table entries => fieldsByName strict names entries
    | _ => .error "a table is missing"

/-- The text of an array of values with these texts. -/
def arrayText (items : List String) : String := "[" ++ ", ".intercalate items ++ "]"

/-- An assignment on a line of its own. -/
def lineText (key value : String) : String := key ++ " = " ++ value ++ "\n"

def writer : Writer where
  count n := .ok (toString n)
  list items := .ok (arrayText items)
  map _ := .error "counts cannot be keys"
  record fields := .ok (String.join (fields.map fun (k, v) => lineText k v))

end Toml

end PlanShape
