import PlanShape.Text.Decimal
import PlanShape.Text.Scanner

/-!
Words in a scan. A word is one token, whatever stands behind it that does not go on with it, and the
rest of the text is scanned by itself. A number in decimal form is such a word.
-/
namespace PlanShape

namespace Scanner

variable {μ τ : Type} (s : Scanner μ τ)

/-- The next character, if there is one, does not go on with a word. -/
def Ends (rest : List Char) : Prop := ∀ c ∈ rest.head?, s.isWordChar c = false

theorem ends_nil : s.Ends [] := fun _ h => by cases h

variable {s}

theorem ends_cons {c : Char} {rest : List Char} (h : s.isWordChar c = false) :
    s.Ends (c :: rest) := fun _ hd => Option.some.inj hd ▸ h

theorem Ends.append {cs rest : List Char} (h : s.Ends cs) (hrest : s.Ends rest) :
    s.Ends (cs ++ rest) := by
  cases cs with
  | nil => exact hrest
  | cons c cs => exact ends_cons (h c rfl)

/-- A character that completes its tokens by itself. -/
theorem scanFrom?_cons {m m' : ScanMode μ} {c : Char} {ts : List τ}
    (h : s.step? m c = some (ts, m')) (rest : List Char) :
    s.scanFrom? m (c :: rest) = (s.scanFrom? m' rest).map (ts ++ ·) := by
  simp only [scanFrom?, h, Option.bind_eq_bind, Option.bind_some]
  cases s.scanFrom? m' rest <;> rfl

/-- A character that only changes the mode. -/
theorem scanFrom?_silent {m m' : ScanMode μ} {c : Char} (h : s.step? m c = some ([], m'))
    (rest : List Char) : s.scanFrom? m (c :: rest) = s.scanFrom? m' rest :=
  (scanFrom?_cons h rest).trans Option.map_id'

/-- A character that is a token of its own. -/
theorem scan?_cons {c : Char} {ts : List τ} (h : s.step? .between c = some (ts, .between))
    (rest : List Char) : s.scan? (c :: rest) = (s.scan? rest).map (ts ++ ·) := scanFrom?_cons h rest

theorem step?_between {c : Char} (h : s.isWordChar c = false) :
    s.step? .between c = s.start? c := if_neg (Bool.eq_false_iff.1 h)

theorem scanFrom?_word_append (read : List Char) {cs rest : List Char}
    (h : ∀ c ∈ cs, s.isWordChar c = true) (hrest : s.Ends rest) :
    s.scanFrom? (.word read) (cs ++ rest) =
      (s.scanFrom? .between rest).map (s.word (read.reverse ++ cs) :: ·) := by
  induction cs generalizing read with
  | nil =>
    rw [List.nil_append, List.append_nil]
    cases rest with
    | nil => rfl
    | cons c rest =>
      have hc : s.isWordChar c = false := hrest c rfl
      have hbehind : s.step? (.word read) c =
          (s.start? c).map fun p => (s.word read.reverse :: p.1, p.2) :=
        if_neg (Bool.eq_false_iff.1 hc)
      rw [scanFrom?, scanFrom?, step?_between hc, hbehind]
      cases s.start? c with
      | none => rfl
      | some p => cases hs : s.scanFrom? p.2 rest <;> simp [hs]
  | cons c cs ih =>
    have hcs : ∀ d ∈ cs, s.isWordChar d = true := fun d hd => h d (List.mem_cons_of_mem c hd)
    have hstep : s.step? (.word read) c = some ([], .word (c :: read)) :=
      if_pos (h c List.mem_cons_self)
    rw [List.cons_append, scanFrom?_silent hstep, ih _ hcs, List.reverse_cons, List.append_assoc]
    rfl

/-- A word is read to its end. -/
theorem scan?_word {cs rest : List Char} (hne : cs ≠ []) (h : ∀ c ∈ cs, s.isWordChar c = true)
    (hrest : s.Ends rest) : s.scan? (cs ++ rest) = (s.scan? rest).map (s.word cs :: ·) := by
  cases cs with
  | nil => exact absurd rfl hne
  | cons c cs =>
    have hcs : ∀ d ∈ cs, s.isWordChar d = true := fun d hd => h d (List.mem_cons_of_mem c hd)
    have hstep : s.step? .between c = some ([], .word [c]) := if_pos (h c List.mem_cons_self)
    rw [scan?, List.cons_append, scanFrom?_silent hstep, scanFrom?_word_append [c] hcs hrest]
    rfl

/-- A written number is a word. -/
theorem scan?_write (n : Nat) {rest : List Char} (hrest : s.Ends rest) :
    s.scan? (Decimal.write n ++ rest) =
      (s.scan? rest).map (s.word (Decimal.write n) :: ·) :=
  scan?_word (Decimal.write_ne_nil n)
    (fun _ h => s.isWordChar_of_isDigit (Decimal.isDigit_of_mem_write h)) hrest

/-- What stands in quotes is read up to the closing quote. -/
theorem scan?_quoted (inside : List Char → μ) {token : List Char → τ} {quote : Char}
    (hopen : s.step? .between quote = some ([], .inside (inside [])))
    (hclose : ∀ read, s.within? (inside read) quote = some ([token read.reverse], .between))
    {cs : List Char}
    (h : ∀ c ∈ cs, ∀ read, s.within? (inside read) c = some ([], .inside (inside (c :: read))))
    (rest : List Char) :
    s.scan? (quote :: (cs ++ quote :: rest)) = (s.scan? rest).map (token cs :: ·) := by
  -- the mode holds what has been read in reverse, so the induction is for any such beginning
  have hinside (read : List Char) :
      s.scanFrom? (.inside (inside read)) (cs ++ quote :: rest) =
        (s.scan? rest).map (token (read.reverse ++ cs) :: ·) := by
    induction cs generalizing read with
    | nil =>
      have hstep : s.step? (.inside (inside read)) quote = some ([token read.reverse], .between) :=
        hclose read
      rw [List.append_nil]
      exact scanFrom?_cons hstep rest
    | cons c cs ih =>
      have hstep : s.step? (.inside (inside read)) c = some ([], .inside (inside (c :: read))) :=
        h c List.mem_cons_self read
      rw [List.cons_append, scanFrom?_silent hstep,
        ih (fun d hd => h d (List.mem_cons_of_mem c hd)), List.reverse_cons, List.append_assoc]
      rfl
  rw [scan?, scanFrom?_silent hopen, hinside]
  rfl

end Scanner

end PlanShape
