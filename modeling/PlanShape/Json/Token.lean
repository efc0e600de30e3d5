import PlanShape.Text.Digit
import PlanShape.Text.Scanner

/-!
Tokens of JSON text. Words and strings are kept as they are spelled; a string that is not
well-formed, a stray character or an unfinished string makes the text unreadable.
-/
namespace PlanShape

namespace Json

inductive Token where
  | openBrace | closeBrace | openBracket | closeBracket | colon | comma
  | word (spelling : List Char)
  | text (spelling : List Char)
  deriving DecidableEq, Repr

/-- Where a scan stands in a string: what it has read of it is held in reverse. -/
inductive Mode where
  | text (read : List Char)
  | escape (read : List Char)
  | hex (missing : Nat) (read : List Char)
  deriving DecidableEq, Repr

def isBlank (c : Char) : Bool := c = ' ' || c = '\t' || c = '\n' || c = '\r'

def isWordChar (c : Char) : Bool := c.isAlphanum || c = '+' || c = '-' || c = '.'

/-- Letters that may follow a backslash, the one for a code point apart. -/
def simpleEscapes : List Char := ['"', '\\', '/', 'b', 'f', 'n', 'r', 't']

def punctuation? : Char → Option Token
  | '\x7b' => some .openBrace
  | '\x7d' => some .closeBrace
  | '[' => some .openBracket
  | ']' => some .closeBracket
  | ':' => some .colon
  | ',' => some .comma
  | _ => none

/-- What a character begins that stands neither in a word nor in a string. -/
def start? (c : Char) : Option (List Token × ScanMode Mode) :=
  if isBlank c then some ([], .between)
  else if c = '"' then some ([], .inside (.text []))
  else (punctuation? c).map fun t => ([t], .between)

/-- Tokens that a character of a string completes, and the mode behind it. -/
def within? : Mode → Char → Option (List Token × ScanMode Mode)
  | .text read, c =>
    if c = '"' then some ([.text read.reverse], .between)
    else if c = '\\' then some ([], .inside (.escape (c :: read)))
    else if c < ' ' then none
    else some ([], .inside (.text (c :: read)))
  | .escape read, c =>
    if c = 'u' then some ([], .inside (.hex 3 (c :: read)))
    else if simpleEscapes.contains c then some ([], .inside (.text (c :: read)))
    else none
  | .hex missing read, c =>
    if (Digit.value? c).isSome then
      match missing with
      | 0 => some ([], .inside (.text (c :: read)))
      | n + 1 => some ([], .inside (.hex n (c :: read)))
    else none

/-- The scanner of JSON texts. A string has to end before the text does. -/
def scanner : Scanner Mode Token where
  isWordChar := isWordChar
  word := .word
  start? := start?
  within? := within?
  finish? _ := none
  isWordChar_of_isDigit h := by simp [isWordChar, Char.isAlphanum, h]

end Json

end PlanShape
