/-!
Documents that describe values for a reader: words, labelled entries and bracketed groups. A
document is laid out on one line, or with every entry of a group on a line of its own, indented
by four blanks a level.
-/
namespace PlanShape

/-- The brackets of a group, and whether blanks stand inside them on one line. -/
structure Brackets where
  opening : String
  closing : String
  spaced : Bool
  deriving DecidableEq, Repr

/-- The blank inside the brackets. -/
def Brackets.pad (b : Brackets) : List Char := if b.spaced then [' '] else []

inductive Doc where
  | word (text : String)
  | ellipsis
  | entry (label : String) (value : Doc)
  | group (brackets : Brackets) (items : List Doc)
  deriving Inhabited, Repr

/-- One line, or one line for each entry. -/
inductive Layout where
  | plain | pretty
  deriving DecidableEq, Repr

namespace Doc

def list (items : List Doc) : Doc := .group ⟨"[", "]", false⟩ items

/-- A name with its arguments in round brackets. -/
def call (name : String) (items : List Doc) : Doc := .group ⟨name ++ "(", ")", false⟩ items

/-- A name with its entries in braces. -/
def record (name : String) (items : List Doc) : Doc := .group ⟨name ++ " \x7b", "\x7d", true⟩ items

/-- Entries in braces. -/
def table (items : List Doc) : Doc := .group ⟨"\x7b", "\x7d", false⟩ items

def nat (n : Nat) : Doc := .word n.repr

mutual

/-- The document on one line, in front of `rest`. -/
def plainOnto : Doc → List Char → List Char
  | .word text, rest => text.toList ++ rest
  | .ellipsis, rest => '.' :: '.' :: rest
  | .entry label value, rest => label.toList ++ ':' :: ' ' :: value.plainOnto rest
  | .group b items, rest =>
    b.opening.toList ++
      (if items.isEmpty then b.closing.toList ++ rest
      else b.pad ++ itemsOnto items (b.pad ++ (b.closing.toList ++ rest)))

/-- Documents on one line, separated by commas. -/
def itemsOnto : List Doc → List Char → List Char
  | [], rest => rest
  | [d], rest => d.plainOnto rest
  | d :: ds, rest => d.plainOnto (',' :: ' ' :: itemsOnto ds rest)

end

/-- The blanks at the start of a line. -/
def indent (level : Nat) : List Char := List.replicate (4 * level) ' '

/-- What follows an entry that has a line of its own. -/
def terminator : Doc → List Char
  | .ellipsis => []
  | _ => [',']

mutual

/-- The document over several lines, in front of `rest`. -/
def prettyOnto : Nat → Doc → List Char → List Char
  | _, .word text, rest => text.toList ++ rest
  | _, .ellipsis, rest => '.' :: '.' :: rest
  | level, .entry label value, rest => label.toList ++ ':' :: ' ' :: prettyOnto level value rest
  | level, .group b items, rest =>
    b.opening.toList ++
      (if items.isEmpty then b.closing.toList ++ rest
      else '\n' :: linesOnto (level + 1) items (indent level ++ (b.closing.toList ++ rest)))

/-- Documents on lines of their own. -/
def linesOnto : Nat → List Doc → List Char → List Char
  | _, [], rest => rest
  | level, d :: ds, rest =>
    indent level ++ prettyOnto level d (terminator d ++ '\n' :: linesOnto level ds rest)

end

def render (layout : Layout) (d : Doc) : String :=
  match layout with
  | .plain => String.ofList (d.plainOnto [])
  | .pretty => String.ofList (prettyOnto 0 d [])

end Doc

end PlanShape
