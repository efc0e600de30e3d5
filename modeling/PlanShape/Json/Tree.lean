import PlanShape.Json.Token

/-!
JSON values. Numbers and strings are kept in the spelling of the text. Tokens are read by a machine
with a stack of the arrays and objects that are still open.
-/
namespace PlanShape

inductive Json where
  | null
  | bool (b : Bool)
  | number (spelling : List Char)
  | text (spelling : List Char)
  | array (items : List Json)
  | object (members : List (List Char × Json))
  deriving Inhabited, Repr

namespace Json

/-- One digit or more. -/
def isDigits (cs : List Char) : Bool := !cs.isEmpty && cs.all Char.isDigit

/-- An exponent behind its letter: an optional sign and digits. -/
def isExponent : List Char → Bool
  | '+' :: cs | '-' :: cs => isDigits cs
  | cs => isDigits cs

def isExponentMark (c : Char) : Bool := c = 'e' || c = 'E'

/-- An optional exponent. -/
def isExponentPart : List Char → Bool
  | [] => true
  | c :: cs => isExponentMark c && isExponent cs

/-- Digits before the exponent, if there is one. -/
def isFractionPart : List Char → Bool
  | '.' :: cs =>
    isDigits (cs.takeWhile Char.isDigit) && isExponentPart (cs.dropWhile Char.isDigit)
  | cs => isExponentPart cs

/-- Integer part without leading zeros, then fraction and exponent. -/
def isUnsignedNumber : List Char → Bool
  | '0' :: cs => isFractionPart cs
  | cs => isDigits (cs.takeWhile Char.isDigit) && isFractionPart (cs.dropWhile Char.isDigit)

def isNumber : List Char → Bool
  | '-' :: cs => isUnsignedNumber cs
  | cs => isUnsignedNumber cs

/-- The value of a word: one of the three names, or a number. -/
def ofWord? (cs : List Char) : Option Json :=
  if cs = ['n', 'u', 'l', 'l'] then some .null
  else if cs = ['t', 'r', 'u', 'e'] then some (.bool true)
  else if cs = ['f', 'a', 'l', 's', 'e'] then some (.bool false)
  else if isNumber cs then some (.number cs)
  else none

/-- An array or object that is still open, with what it holds so far in reverse. -/
inductive Frame where
  | items (before : List Json)
  | members (before : List (List Char × Json))
  | member (before : List (List Char × Json)) (key : List Char)
  deriving Repr

/-- What the next token has to be. -/
inductive Phase where
  | value
  | firstItem
  | firstKey
  | key
  | colon
  | separator
  | done (result : Json)
  deriving Repr

structure Machine where
  phase : Phase
  stack : List Frame
  deriving Repr

namespace Machine

def start : Machine := ⟨.value, []⟩

/-- Put a finished value into the innermost open array or object. -/
def put? (v : Json) : List Frame → Option Machine
  | [] => some ⟨.done v, []⟩
  | .items before :: stack => some ⟨.separator, .items (v :: before) :: stack⟩
  | .member before key :: stack => some ⟨.separator, .members ((key, v) :: before) :: stack⟩
  | .members _ :: _ => none

/-- Read a token with which a value begins. -/
def value? (t : Token) (stack : List Frame) : Option Machine :=
  match t with
  | .word cs => (ofWord? cs).bind (put? · stack)
  | .text cs => put? (.text cs) stack
  | .openBracket => some ⟨.firstItem, .items [] :: stack⟩
  | .openBrace => some ⟨.firstKey, .members [] :: stack⟩
  | _ => none

/-- Close the innermost array or object by its own bracket. -/
def close? (t : Token) (stack : List Frame) : Option Machine :=
  match t, stack with
  | .closeBracket, .items before :: stack => put? (.array before.reverse) stack
  | .closeBrace, .members before :: stack => put? (.object before.reverse) stack
  | _, _ => none

/-- Read the key of a member. -/
def key? (t : Token) (stack : List Frame) : Option Machine :=
  match t, stack with
  | .text cs, .members before :: stack => some ⟨.colon, .member before cs :: stack⟩
  | _, _ => none

/-- Go on to the next item or member, or close. -/
def separator? (t : Token) (stack : List Frame) : Option Machine :=
  match t, stack with
  | .comma, .items _ :: _ => some ⟨.value, stack⟩
  | .comma, .members _ :: _ => some ⟨.key, stack⟩
  | t, stack => close? t stack

def step? (m : Machine) (t : Token) : Option Machine :=
  match m.phase, t with
  | .value, t => value? t m.stack
  | .firstItem, .closeBracket => close? t m.stack
  | .firstItem, t => value? t m.stack
  | .firstKey, .closeBrace => close? t m.stack
  | .firstKey, t => key? t m.stack
  | .key, t => key? t m.stack
  | .colon, .colon => some ⟨.value, m.stack⟩
  | .colon, _ => none
  | .separator, t => separator? t m.stack
  | .done _, _ => none

def result? (m : Machine) : Option Json :=
  match m.phase with
  | .done v => some v
  | _ => none

end Machine

/-- The value of a list of tokens. -/
def ofTokens? (ts : List Token) : Option Json := do
  (← ts.foldlM Machine.step? Machine.start).result?

/-- The value that a text holds, and nothing besides blanks around it. -/
def parse? (cs : List Char) : Option Json := do ofTokens? (← scanner.scan? cs)

end Json

end PlanShape
