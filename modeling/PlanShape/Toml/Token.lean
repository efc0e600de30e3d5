import PlanShape.Text.Digit
import PlanShape.Text.Scanner

/-!
Tokens of TOML documents. Words are kept as they are spelled, strings as the text they stand for.
Comments belong to no token, and the end of a line is a token of its own.
-/
namespace PlanShape

namespace Toml

inductive Token where
  | newline | equals | comma | opening | closing
  | word (spelling : List Char)
  | quoted (text : List Char)
  deriving DecidableEq, Repr

/-- Where a scan stands outside of words: what it has read of a string is held in reverse. -/
inductive Mode where
  | carriage
  | comment
  | basic (read : List Char)
  | escape (read : List Char)
  | codePoint (missing value : Nat) (read : List Char)
  | literal (read : List Char)
  deriving DecidableEq, Repr

/-- Control characters, the tab apart. -/
def isForbidden (c : Char) : Bool := (c < ' ' && c != '\t') || c = '\x7f'

def isWordChar (c : Char) : Bool :=
  c.isAlphanum || c = '_' || c = '-' || c = '+' || c = '.' || c = ':'

/-- The character of a letter behind a backslash. -/
def unescapeLetter? : Char → Option Char
  | 'b' => some '\x08'
  | 't' => some '\t'
  | 'n' => some '\n'
  | 'f' => some '\x0c'
  | 'r' => some '\r'
  | 'e' => some '\x1b'
  | '"' => some '"'
  | '\\' => some '\\'
  | _ => none

/-- The number of digits of a code point behind its letter. -/
def codePointLength? : Char → Option Nat
  | 'x' => some 2
  | 'u' => some 4
  | 'U' => some 8
  | _ => none

/-- The character with a number, if there is one. -/
def scalar? (n : Nat) : Option Char := if n.isValidChar then some (Char.ofNat n) else none

/-- What a character begins that stands in no word, string or comment. -/
def start? (c : Char) : Option (List Token × ScanMode Mode) :=
  if c = ' ' ∨ c = '\t' then some ([], .between)
  else if c = '\n' then some ([.newline], .between)
  else if c = '\r' then some ([], .inside .carriage)
  else if c = '#' then some ([], .inside .comment)
  else if c = '=' then some ([.equals], .between)
  else if c = ',' then some ([.comma], .between)
  else if c = '[' then some ([.opening], .between)
  else if c = ']' then some ([.closing], .between)
  else if c = '"' then some ([], .inside (.basic []))
  else if c = '\'' then some ([], .inside (.literal []))
  else none

/-- Tokens that a character of a comment, a string or a line end completes, and the mode behind. -/
def within? : Mode → Char → Option (List Token × ScanMode Mode)
  | .carriage, c => if c = '\n' then some ([.newline], .between) else none
  | .comment, c =>
    if c = '\n' then some ([.newline], .between)
    else if c = '\r' then some ([], .inside .carriage)
    else if isForbidden c then none
    else some ([], .inside .comment)
  | .basic read, c =>
    if c = '"' then some ([.quoted read.reverse], .between)
    else if c = '\\' then some ([], .inside (.escape read))
    else if isForbidden c then none
    else some ([], .inside (.basic (c :: read)))
  | .escape read, c =>
    match codePointLength? c with
    | some n => some ([], .inside (.codePoint n 0 read))
    | none => (unescapeLetter? c).map fun x => ([], .inside (.basic (x :: read)))
  | .codePoint missing value read, c => do
    let value := 16 * value + (← Digit.value? c)
    if missing = 1 then return ([], .inside (.basic ((← scalar? value) :: read)))
    else return ([], .inside (.codePoint (missing - 1) value read))
  | .literal read, c =>
    if c = '\'' then some ([.quoted read.reverse], .between)
    else if isForbidden c then none
    else some ([], .inside (.literal (c :: read)))

/-- A document may end in a comment, and nowhere else outside of words. -/
def finish? : Mode → Option (List Token)
  | .comment => some []
  | .carriage | .basic _ | .escape _ | .codePoint .. | .literal _ => none

/-- The scanner of documents. -/
def scanner : Scanner Mode Token where
  isWordChar := isWordChar
  word := .word
  start? := start?
  within? := within?
  finish? := finish?
  isWordChar_of_isDigit h := by simp [isWordChar, Char.isAlphanum, h]

/-- The tokens of a document, which may start with a byte order mark. -/
def scan? : List Char → Option (List Token)
  | '\ufeff' :: cs => scanner.scan? cs
  | cs => scanner.scan? cs

end Toml

end PlanShape
