/-!
Scanners that cut a text into tokens, character by character. Words are read in the same way by
every scanner: a character of a word begins one, and every such character goes on with it. What
else a character begins, and how a string or a comment is read, is the scanner's own.
-/
namespace PlanShape

/-- Where a scan stands: what it has read of the present word is held in reverse. -/
inductive ScanMode (μ : Type) where
  | between
  | word (read : List Char)
  | inside (m : μ)
  deriving DecidableEq, Repr

structure Scanner (μ τ : Type) where
  isWordChar : Char → Bool
  word : List Char → τ
  /-- What a character begins that belongs to no word. -/
  start? : Char → Option (List τ × ScanMode μ)
  /-- Tokens that a character completes inside something else than a word, and the mode behind. -/
  within? : μ → Char → Option (List τ × ScanMode μ)
  /-- Tokens that the end of the text completes there. -/
  finish? : μ → Option (List τ)
  isWordChar_of_isDigit : ∀ {c}, c.isDigit = true → isWordChar c = true

namespace Scanner

variable {μ τ : Type} (s : Scanner μ τ)

/-- Tokens that a character completes, and the mode behind it. -/
def step? : ScanMode μ → Char → Option (List τ × ScanMode μ)
  | .between, c => if s.isWordChar c then some ([], .word [c]) else s.start? c
  | .word read, c =>
    if s.isWordChar c then some ([], .word (c :: read))
    else (s.start? c).map fun (ts, m) => (s.word read.reverse :: ts, m)
  | .inside m, c => s.within? m c

/-- Tokens that the end of the text completes. -/
def finishMode? : ScanMode μ → Option (List τ)
  | .between => some []
  | .word read => some [s.word read.reverse]
  | .inside m => s.finish? m

/-- The tokens of a text, read on from a mode. -/
def scanFrom? : ScanMode μ → List Char → Option (List τ)
  | m, [] => s.finishMode? m
  | m, c :: cs => do
    let (ts, m') ← s.step? m c
    let rest ← scanFrom? m' cs
    return ts ++ rest

/-- The tokens of a text. -/
def scan? (cs : List Char) : Option (List τ) := s.scanFrom? .between cs

end Scanner

end PlanShape
