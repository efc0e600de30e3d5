import PlanShape.Format.Basic
import PlanShape.Json.Tree
import PlanShape.Text.Decimal
import PlanShape.Padding.Policy

/-!
JSON as a format. Texts are written without blanks. A record is read from an object, in which a
field may stand only once, or from an array that gives the fields in their order; a map from counts
is an object with decimal numbers for keys.
-/
namespace PlanShape

/-- A count in its decimal form. -/
def readCount? (cs : List Char) : Option Nat := (Decimal.read? cs).filter (· ≤ maxCount)

namespace Json

def hexNumber (cs : List Char) : Nat :=
  cs.foldl (fun n c => 16 * n + (Digit.value? c).getD 0) 0

def isHighSurrogate (n : Nat) : Bool := 0xd800 ≤ n && n < 0xdc00

def isLowSurrogate (n : Nat) : Bool := 0xdc00 ≤ n && n < 0xe000

/-- The character of a surrogate pair. -/
def joinSurrogates (high low : Nat) : Char :=
  Char.ofNat (0x10000 + (high - 0xd800) * 0x400 + (low - 0xdc00))

/-- The character of a letter behind a backslash. -/
def unescapeLetter? : Char → Option Char
  | '"' => some '"'
  | '\\' => some '\\'
  | '/' => some '/'
  | 'b' => some '\x08'
  | 'f' => some '\x0c'
  | 'n' => some '\n'
  | 'r' => some '\r'
  | 't' => some '\t'
  | _ => none

/-- The text of a spelling. A surrogate without its partner stands for nothing. -/
def unescape? : List Char → Option (List Char)
  | [] => some []
  | '\\' :: 'u' :: a :: b :: c :: d :: rest =>
    let n := hexNumber [a, b, c, d]
    if isHighSurrogate n then
      match rest with
      | '\\' :: 'u' :: a' :: b' :: c' :: d' :: rest' =>
        let m := hexNumber [a', b', c', d']
        if isLowSurrogate m then (unescape? rest').map (joinSurrogates n m :: ·) else none
      | _ => none
    else if isLowSurrogate n then none
    else (unescape? rest).map (Char.ofNat n :: ·)
  | '\\' :: c :: rest => do
    let x ← unescapeLetter? c
    let xs ← unescape? rest
    return x :: xs
  | c :: rest => (unescape? rest).map (c :: ·)

/-- What is read, or an error with a message. -/
def orError {α : Type} (message : String) : Option α → Except String α
  | some a => .ok a
  | none => .error message

/-- Field names with their values; every name has to be readable. -/
def fields (members : List (List Char × Json)) : Except String (List (String × Json)) :=
  members.mapM fun (k, v) => do
    return (String.ofList (← orError "a name is not well-formed" (unescape? k)), v)

/-- Entries whose keys are counts. -/
def entries (members : List (List Char × Json)) : Except String (List (Nat × Json)) :=
  members.mapM fun (k, v) => do return (← orError "a key is not a count" (readCount? k), v)

def reader : Reader Json where
  parse text := orError "the text is not well-formed" (parse? text.toList)
  count
    | .number cs => orError "not a count" (readCount? cs)
    | _ => .error "a number is missing"
  list
    | .array items => .ok items
    | _ => .error "an array is missing"
  map
    | .object members => entries members
    | _ => .error "an object is missing"
  record strict names
    | .object members => do fieldsByName strict names (← fields members)
    | .array items =>
      if items.length ≤ names.length then .ok fun n => (names.zip items).lookup n
      else .error "too many values"
    | _ => .error "an object is missing"

/-- The text of an array of values with these texts. -/
def arrayText (items : List String) : String := "[" ++ ",".intercalate items ++ "]"

/-- The text of an object of members with these texts. -/
def objectText (members : List String) : String :=
  "\x7b" ++ ",".intercalate members ++ "\x7d"

/-- The text of a member whose key needs no escapes. -/
def memberText (key value : String) : String := "\"" ++ key ++ "\":" ++ value

def writer : Writer where
  count n := .ok (toString n)
  list items := .ok (arrayText items)
  map entries := .ok (objectText (entries.map fun (k, v) => memberText (toString k) v))
  record fields := .ok (objectText (fields.map fun (k, v) => memberText k v))

end Json

end PlanShape
