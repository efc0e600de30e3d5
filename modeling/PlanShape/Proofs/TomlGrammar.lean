import PlanShape.Proofs.Formats
import PlanShape.Toml.Format

/-!
What is known of a format that follows TOML, as laws of its writer and its reader. Documents are
given by the grammar of the format, as far as they assign integers and arrays of integers; the texts
of all other values are a parameter. A writer gives some document of the fields, and a reader takes
any document for the fields that it assigns, if no key stands twice.
-/
namespace PlanShape

namespace Toml

def IsBlank (cs : List Char) : Prop := ∀ c ∈ cs, c = ' ' ∨ c = '\t'

theorem isBlank_nil : IsBlank [] := by simp [IsBlank]

theorem isBlank_space : IsBlank [' '] := by simp [IsBlank]

/-- What may stand behind the last value of a line: nothing, or a comment. -/
inductive IsTrail : List Char → Prop where
  | nothing : IsTrail []
  | comment {cs : List Char} (chars : ∀ c ∈ cs, isForbidden c = false) : IsTrail ('#' :: cs)

inductive IsLineEnd : List Char → Prop where
  | newline : IsLineEnd ['\n']
  | carriage : IsLineEnd ['\r', '\n']

/-- What may stand between the elements of an array: blanks, comments and the ends of lines. -/
inductive IsGap : List Char → Prop where
  | blank {b : List Char} (hb : IsBlank b) : IsGap b
  | lineEnd {b t e cs : List Char} (hb : IsBlank b) (ht : IsTrail t) (he : IsLineEnd e)
    (rest : IsGap cs) : IsGap (b ++ (t ++ (e ++ cs)))

/-- The text between the brackets of an array of counts. A comma may follow the last one, too. -/
inductive Elements : List Char → List Nat → Prop where
  | nil {g : List Char} (hg : IsGap g) : Elements g []
  | last {g cs g' : List Char} {n : Nat} (hg : IsGap g) (hn : count? cs = some n)
    (hg' : IsGap g') : Elements (g ++ (cs ++ g')) [n]
  | cons {g cs g' rest : List Char} {n : Nat} {ns : List Nat} (hg : IsGap g)
    (hn : count? cs = some n) (hg' : IsGap g') (hrest : Elements rest ns) :
    Elements (g ++ (cs ++ (g' ++ ',' :: rest))) (n :: ns)

/-- A count or an array of counts. -/
inductive Spells : List Char → Value → Prop where
  | integer {cs : List Char} {n : Nat} (hn : count? cs = some n) : Spells cs (.integer n)
  | integers {cs : List Char} {ns : List Nat} (hns : Elements cs ns) :
    Spells ('[' :: (cs ++ [']'])) (.integers ns)

/-- A name that may stand without quotes. -/
def IsBareName (name : String) : Prop := name ≠ "" ∧ ∀ c ∈ name.toList, isKeyChar c = true

instance : DecidablePred IsBareName := fun name =>
  have : Decidable (∀ c ∈ name.toList, isKeyChar c = true) := List.decidableBAll _ name.toList
  inferInstanceAs (Decidable (_ ∧ _))

/-- A key as it stands, or in quotes of either kind. -/
inductive IsKey (name : String) : List Char → Prop where
  | bare (h : IsBareName name) : IsKey name name.toList
  | basic (h : ∀ c ∈ name.toList, c ≠ '"' ∧ c ≠ '\\' ∧ isForbidden c = false) :
    IsKey name ('"' :: (name.toList ++ ['"']))
  | literal (h : ∀ c ∈ name.toList, c ≠ '\'' ∧ isForbidden c = false) :
    IsKey name ('\'' :: (name.toList ++ ['\'']))

section
variable (other : List Char → Prop)

/-- A line without its end: nothing but blanks, or an assignment, and a comment behind. Values that
are neither counts nor arrays of counts have the texts that `other` admits. -/
inductive Line : List Char → List (String × Value) → Prop where
  | blank {b t : List Char} (hb : IsBlank b) (ht : IsTrail t) : Line (b ++ t) []
  | assign {b b₁ b₂ b₃ k cs t : List Char} {name : String} {v : Value} (hb : IsBlank b)
    (hk : IsKey name k) (hb₁ : IsBlank b₁) (hb₂ : IsBlank b₂)
    (hv : Spells cs v ∨ other cs ∧ v = .other cs) (hb₃ : IsBlank b₃) (ht : IsTrail t) :
    Line (b ++ (k ++ (b₁ ++ '=' :: (b₂ ++ (cs ++ (b₃ ++ t)))))) [(name, v)]

/-- Lines, with an end behind each of them but the last. -/
inductive Document : List Char → List (String × Value) → Prop where
  | last {cs : List Char} {es : List (String × Value)} (hline : Line other cs es) : Document cs es
  | cons {cs e rest : List Char} {es es' : List (String × Value)} (hline : Line other cs es)
    (he : IsLineEnd e) (hrest : Document rest es') : Document (cs ++ (e ++ rest)) (es ++ es')

end

end Toml

open Toml (Document IsBareName Spells)

/-- A writer of TOML texts for records of counts and lists of counts, all of 64 bits. -/
structure Writer.FollowsToml (other : List Char → Prop) (w : Writer) : Prop where
  count : ∀ {n : Nat}, n ≤ maxCount →
    ∃ text, w.count n = .ok text ∧ Spells text.toList (.integer n)
  list : ∀ {items : List String} {ns : List Nat},
    List.Forall₂ (fun item n => Spells item.toList (.integer n)) items ns →
    ∃ text, w.list items = .ok text ∧ Spells text.toList (.integers ns)
  /-- A record is a document of its fields. -/
  record : ∀ {fields : List (String × String)} {entries : List (String × Toml.Value)},
    List.Forall₂ (fun f e => f.1 = e.1 ∧ Spells f.2.toList e.2) fields entries →
    (∀ e ∈ entries, IsBareName e.1) → (entries.map (·.1)).Nodup →
    ∃ text, w.record fields = .ok text ∧ Document other text.toList entries

/-- A reader of TOML texts into records of counts and lists of counts, all of 64 bits. -/
structure Reader.FollowsToml (other : List Char → Prop) (r : Reader Toml.Value) : Prop where
  /-- A table does not keep the order of its keys. -/
  parse : ∀ {text : String} {entries : List (String × Toml.Value)},
    Document other text.toList entries → (entries.map (·.1)).Nodup →
    ∃ entries', entries'.Perm entries ∧ r.parse text = .ok (.table entries')
  /-- No key may be assigned twice. -/
  repeated : ∀ {text : String} {entries : List (String × Toml.Value)},
    Document other text.toList entries → ¬ (entries.map (·.1)).Nodup →
    ∃ message, r.parse text = .error message
  count : ∀ {n : Nat}, n ≤ maxCount → r.count (.integer n) = .ok n
  list : ∀ ns : List Nat, r.list (.integers ns) = .ok (ns.map .integer)
  records : r.ReadsRecords (fun _ => True) .table

end PlanShape
