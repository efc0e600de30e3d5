import PlanShape.Proofs.Equality
import PlanShape.Proofs.Hexadecimal
import PlanShape.Text.Decimal
import PlanShape.Text.Inspect

/-!
Descriptions on one line are unambiguous. A quoted text is read back character by character, so it
also tells where it ends. A number ends in front of the first character that belongs to no number.
Every other text begins with a character that only one constructor begins with, and puts the texts
of its parts between fixed ones. By induction the text of a predicate, whatever stands behind it,
tells its constructors, names and values.
-/
namespace PlanShape

namespace Quoted

open Hexadecimal

/-- The character that the beginning of an escaped text stands for, and the text behind it. -/
def readChar? : List Char → Option (Char × List Char)
  | [] => none
  | '\\' :: '0' :: rest => some ('\x00', rest)
  | '\\' :: 't' :: rest => some ('\t', rest)
  | '\\' :: 'r' :: rest => some ('\r', rest)
  | '\\' :: 'n' :: rest => some ('\n', rest)
  | '\\' :: 'u' :: '\x7b' :: rest =>
    some (Char.ofNat (number (rest.takeWhile (· ∈ digits))), (rest.dropWhile (· ∈ digits)).tail)
  | '\\' :: c :: rest => some (c, rest)
  | c :: rest => some (c, rest)

theorem readChar?_codePoint (c : Char) (rest : List Char) :
    readChar? (codePoint c ++ rest) = some (c, rest) := by
  have hdigits : ∀ d ∈ Nat.toDigits 16 c.toNat, decide (d ∈ digits) = true :=
    fun d hd => decide_eq_true (mem_digits_of_mem_toDigits hd)
  have hbrace : '\x7d' ∉ digits := by decide
  simp [codePoint, readChar?, List.takeWhile_append_of_pos hdigits,
    List.dropWhile_append_of_pos hdigits, hbrace, number_toDigits]

theorem readChar?_escape (c : Char) (rest : List Char) :
    readChar? (escape c ++ rest) = some (c, rest) := by
  unfold escape
  -- six characters have a letter of their own
  iterate 6
    split
    · next h => rw [h]; rfl
  split
  · exact readChar?_codePoint c rest
  · simp_all [readChar?]

/-- The quote that ends a text is not the beginning of an escaped character. -/
theorem escape_append_ne_quote (c : Char) (cs rest : List Char) : escape c ++ cs ≠ '"' :: rest := by
  unfold escape
  repeat' split
  all_goals simp_all [codePoint]

theorem escapes_append_inj {cs ds rest rest' : List Char}
    (h : cs.flatMap escape ++ '"' :: rest = ds.flatMap escape ++ '"' :: rest') :
    cs = ds ∧ rest = rest' := by
  induction cs generalizing ds with
  | nil =>
    cases ds with
    | nil => exact ⟨rfl, (List.cons.inj h).2⟩
    | cons d ds =>
      rw [List.flatMap_cons, List.append_assoc] at h
      exact absurd h.symm (escape_append_ne_quote d _ _)
  | cons c cs ih =>
    cases ds with
    | nil =>
      rw [List.flatMap_cons, List.append_assoc] at h
      exact absurd h (escape_append_ne_quote c _ _)
    | cons d ds =>
      rw [List.flatMap_cons, List.flatMap_cons, List.append_assoc, List.append_assoc] at h
      have hread := congrArg readChar? h
      rw [readChar?_escape, readChar?_escape] at hread
      obtain ⟨rfl, hbehind⟩ := Prod.mk.inj (Option.some.inj hread)
      obtain ⟨rfl, hend⟩ := ih hbehind
      exact ⟨rfl, hend⟩

theorem quote_append_inj {s t : String} {rest rest' : List Char}
    (h : quote s ++ rest = quote t ++ rest') : s = t ∧ rest = rest' := by
  simp only [quote, List.cons_append, List.append_assoc, List.nil_append] at h
  obtain ⟨hchars, hrest⟩ := escapes_append_inj (List.cons.inj h).2
  exact ⟨String.toList_inj.1 hchars, hrest⟩

end Quoted

/-- Characters of written numbers. -/
def isNumberChar (c : Char) : Bool := c.isDigit || c == '-'

/-- The next character, if there is one, does not go on with a number. -/
def NumberEnds (rest : List Char) : Prop := ∀ c ∈ rest.head?, isNumberChar c = false

theorem numberEnds_cons {c : Char} {rest : List Char} (h : isNumberChar c = false) :
    NumberEnds (c :: rest) := fun _ hd => Option.some.inj hd ▸ h

theorem isNumberChar_of_mem_repr {n : Int} {c : Char} (h : c ∈ n.repr.toList) :
    isNumberChar c = true := by
  have hdigit {m : Nat} (hm : c ∈ Nat.toDigits 10 m) : isNumberChar c = true := by
    rw [isNumberChar, Decimal.isDigit_of_mem_write hm, Bool.true_or]
  cases n with
  | ofNat m => exact hdigit (by simpa [Int.repr] using h)
  | negSucc m =>
    have hc : c = '-' ∨ c ∈ Nat.toDigits 10 (m + 1) := by simpa [Int.repr] using h
    rcases hc with rfl | hc
    · rfl
    · exact hdigit hc

theorem repr_ne_nil (n : Int) : n.repr.toList ≠ [] := by
  cases n <;> simp [Int.repr]

theorem takeWhile_number {cs rest : List Char} (h : ∀ c ∈ cs, isNumberChar c = true)
    (hrest : NumberEnds rest) : (cs ++ rest).takeWhile isNumberChar = cs := by
  rw [List.takeWhile_append_of_pos h]
  cases rest with
  | nil => simp
  | cons c rest => simp [hrest c rfl]

theorem repr_append_inj {m n : Int} {rest rest' : List Char} (hrest : NumberEnds rest)
    (hrest' : NumberEnds rest') (h : m.repr.toList ++ rest = n.repr.toList ++ rest') :
    m = n ∧ rest = rest' := by
  have hword := congrArg (List.takeWhile isNumberChar) h
  rw [takeWhile_number (fun _ => isNumberChar_of_mem_repr) hrest,
    takeWhile_number (fun _ => isNumberChar_of_mem_repr) hrest'] at hword
  exact ⟨Int.repr_injective (String.toList_inj.1 hword), List.append_cancel_left (hword ▸ h)⟩

section
variable {α : Type} (text : α → Doc)

/-- The text of a value tells the value and where its text ends, unless a number goes on there. -/
def SelfDelimiting (v : α) : Prop := ∀ {w : α} {rest rest' : List Char}, NumberEnds rest →
  NumberEnds rest' → (text v).plainOnto rest = (text w).plainOnto rest' → v = w ∧ rest = rest'

/-- No text begins with the bracket that ends a list. -/
def NeverCloses : Prop := ∀ (v : α) (cs rest : List Char), (text v).plainOnto cs ≠ ']' :: rest

variable {text}

/-- What stands behind the first item of a list. -/
def behindItem (text : α → Doc) (vs : List α) (rest : List Char) : List Char :=
  if vs.isEmpty then ']' :: rest else ',' :: ' ' :: Doc.itemsOnto (vs.map text) (']' :: rest)

theorem itemsOnto_cons (v : α) (vs : List α) (rest : List Char) :
    Doc.itemsOnto ((v :: vs).map text) (']' :: rest) =
      (text v).plainOnto (behindItem text vs rest) := by
  cases vs with
  | nil => rfl
  | cons w vs => rfl

theorem numberEnds_behindItem (vs : List α) (rest : List Char) :
    NumberEnds (behindItem text vs rest) := by
  unfold behindItem
  split
  · exact numberEnds_cons rfl
  · exact numberEnds_cons rfl

/-- A comma or the bracket behind an item tells whether there are more. -/
theorem itemsOnto_eq_of_behindItem {vs ws : List α} {rest rest' : List Char}
    (h : behindItem text vs rest = behindItem text ws rest') :
    Doc.itemsOnto (vs.map text) (']' :: rest) = Doc.itemsOnto (ws.map text) (']' :: rest') := by
  cases vs with
  | nil => cases ws with
    | nil => exact h
    | cons w ws => exact absurd (List.cons.inj h).1 (by decide)
  | cons v vs => cases ws with
    | nil => exact absurd (List.cons.inj h).1 (by decide)
    | cons w ws => exact (List.cons.inj (List.cons.inj h).2).2

/-- Items that tell where they end make a list that tells where it ends. -/
theorem itemsOnto_inj (hcloses : NeverCloses text) {vs ws : List α} {rest rest' : List Char}
    (each : ∀ v ∈ vs, SelfDelimiting text v)
    (h : Doc.itemsOnto (vs.map text) (']' :: rest) = Doc.itemsOnto (ws.map text) (']' :: rest')) :
    vs = ws ∧ rest = rest' := by
  induction vs generalizing ws with
  | nil =>
    cases ws with
    | nil => exact ⟨rfl, (List.cons.inj h).2⟩
    | cons w ws =>
      rw [itemsOnto_cons] at h
      exact absurd h.symm (hcloses w _ _)
  | cons v vs ih =>
    cases ws with
    | nil =>
      rw [itemsOnto_cons] at h
      exact absurd h (hcloses v _ _)
    | cons w ws =>
      rw [itemsOnto_cons, itemsOnto_cons] at h
      obtain ⟨rfl, hbehind⟩ := each v List.mem_cons_self (numberEnds_behindItem vs rest)
        (numberEnds_behindItem ws rest') h
      obtain ⟨rfl, hend⟩ := ih (fun u hu => each u (List.mem_cons_of_mem v hu))
        (itemsOnto_eq_of_behindItem hbehind)
      exact ⟨rfl, hend⟩

theorem plainOnto_list (vs : List α) (rest : List Char) :
    (Doc.list (vs.map text)).plainOnto rest =
      '[' :: Doc.itemsOnto (vs.map text) (']' :: rest) := by
  cases vs with
  | nil => simp [Doc.list, Doc.plainOnto, Doc.itemsOnto]
  | cons v vs => simp [Doc.list, Doc.plainOnto, Brackets.pad]

end

namespace Value

/-- What the first character of a text tells about a value. -/
inductive Kind where
  | null
  | bool (b : Bool)
  | number
  | text
  | list

def Kind.ofChar (c : Char) : Kind :=
  if c = 'n' then .null else if c = 't' then .bool true else if c = 'f' then .bool false
  else if c = '"' then .text else if c = '[' then .list else .number

def kind : Value → Kind
  | .null => .null
  | .bool b => .bool b
  | .int _ => .number
  | .text _ => .text
  | .list _ => .list

theorem Kind.ofChar_number {c : Char} (h : isNumberChar c = true) : ofChar c = .number := by
  have hne (d : Char) (hd : isNumberChar d = false) : c ≠ d := by
    rintro rfl
    rw [h] at hd
    cases hd
  simp [ofChar, hne 'n' rfl, hne 't' rfl, hne 'f' rfl, hne '"' rfl, hne '[' rfl]

theorem toDocs_eq_map (vs : List Value) : toDocs vs = vs.map toDoc := by
  induction vs with
  | nil => rfl
  | cons v vs ih => rw [toDocs, ih, List.map_cons]

theorem plainOnto_int (n : Int) (rest : List Char) :
    (toDoc (.int n)).plainOnto rest = n.repr.toList ++ rest := rfl

theorem plainOnto_text (s : String) (rest : List Char) :
    (toDoc (.text s)).plainOnto rest = Quoted.quote s ++ rest := by
  rw [toDoc, Doc.plainOnto, quoted, String.toList_ofList]

theorem plainOnto_items (vs : List Value) (rest : List Char) :
    (toDoc (.list vs)).plainOnto rest = '[' :: Doc.itemsOnto (vs.map toDoc) (']' :: rest) := by
  rw [toDoc, toDocs_eq_map, plainOnto_list]

/-- The first character of a text tells the kind of the value, and it ends no list. -/
theorem exists_first (v : Value) (rest : List Char) :
    ∃ c cs, v.toDoc.plainOnto rest = c :: cs ∧ Kind.ofChar c = v.kind ∧ c ≠ ']' := by
  cases v with
  | null => exact ⟨'n', 'u' :: 'l' :: 'l' :: rest, rfl, rfl, by decide⟩
  | bool b =>
    cases b with
    | false => exact ⟨'f', 'a' :: 'l' :: 's' :: 'e' :: rest, rfl, rfl, by decide⟩
    | true => exact ⟨'t', 'r' :: 'u' :: 'e' :: rest, rfl, rfl, by decide⟩
  | int n =>
    obtain ⟨c, cs, hc⟩ := List.exists_cons_of_ne_nil (repr_ne_nil n)
    have hnumber : isNumberChar c = true := isNumberChar_of_mem_repr (hc ▸ List.mem_cons_self)
    refine ⟨c, cs ++ rest, by rw [plainOnto_int, hc]; rfl, Kind.ofChar_number hnumber, ?_⟩
    rintro rfl
    cases hnumber
  | text s => exact ⟨'"', _, plainOnto_text s rest, rfl, by decide⟩
  | list vs => exact ⟨'[', _, plainOnto_items vs rest, rfl, by decide⟩

theorem neverCloses : NeverCloses toDoc := by
  intro v cs rest h
  obtain ⟨c, ds, hc, -, hne⟩ := exists_first v cs
  exact hne (List.cons.inj (hc.symm.trans h)).1

theorem kind_eq {v w : Value} {rest rest' : List Char}
    (h : v.toDoc.plainOnto rest = w.toDoc.plainOnto rest') : v.kind = w.kind := by
  obtain ⟨c, cs, hc, hv, -⟩ := exists_first v rest
  obtain ⟨d, ds, hd, hw, -⟩ := exists_first w rest'
  rw [hc, hd] at h
  rw [← hv, ← hw, (List.cons.inj h).1]

/-- Values are told by their texts, nested lists by the texts of their items. -/
theorem selfDelimiting (v : Value) : SelfDelimiting toDoc v := by
  intro w rest rest' hrest hrest' h
  have hkind := kind_eq h
  cases v with
  | null => cases w with
    | null => exact ⟨rfl, List.append_cancel_left h⟩
    | _ => cases hkind
  | bool b => cases w with
    | bool b' =>
      obtain rfl := Kind.bool.inj hkind
      exact ⟨rfl, List.append_cancel_left h⟩
    | _ => cases hkind
  | int n => cases w with
    | int n' =>
      obtain ⟨rfl, hend⟩ := repr_append_inj hrest hrest' h
      exact ⟨rfl, hend⟩
    | _ => cases hkind
  | text s => cases w with
    | text s' =>
      rw [plainOnto_text, plainOnto_text] at h
      obtain ⟨rfl, hend⟩ := Quoted.quote_append_inj h
      exact ⟨rfl, hend⟩
    | _ => cases hkind
  | list vs => cases w with
    | list ws =>
      rw [plainOnto_items, plainOnto_items] at h
      obtain ⟨rfl, hend⟩ :=
        itemsOnto_inj neverCloses (fun u _ => selfDelimiting u) (List.cons.inj h).2
      exact ⟨rfl, hend⟩
    | _ => cases hkind

end Value

namespace Predicate

/-- The letter with which the text of a predicate begins. -/
def Head.letter : Head → Char
  | .always => 'T'
  | .never => 'F'
  | .equals => 'E'
  | .disj => 'O'
  | .neg => 'N'
  | .member => 'I'

theorem Head.letter_inj {a b : Head} (h : a.letter = b.letter) : a = b := by
  cases a <;> cases b <;> first | rfl | exact absurd h (by decide)

variable {ρ κ : Type} [Inspect κ]

section
variable (rest : List Char)

theorem plainOnto_equals (f : Field ρ κ) (v : κ) :
    (equals f v).toDoc.plainOnto rest =
      "Eq \x7b field: ".toList ++ (Quoted.quote f.name ++
        (", value: ".toList ++ (doc v).plainOnto (' ' :: '\x7d' :: rest))) := by
  simp [toDoc, Doc.record, Doc.plainOnto, Doc.itemsOnto, Brackets.pad, quoted]

theorem plainOnto_disj (p q : Predicate ρ κ) :
    (disj p q).toDoc.plainOnto rest =
      "Or(".toList ++ p.toDoc.plainOnto (", ".toList ++ q.toDoc.plainOnto (')' :: rest)) := by
  simp [toDoc, Doc.call, Doc.plainOnto, Doc.itemsOnto, Brackets.pad]

theorem plainOnto_neg (p : Predicate ρ κ) :
    (neg p).toDoc.plainOnto rest = "Not(".toList ++ p.toDoc.plainOnto (')' :: rest) := by
  simp [toDoc, Doc.call, Doc.plainOnto, Doc.itemsOnto, Brackets.pad]

theorem plainOnto_member (f : Field ρ κ) (vs : List κ) :
    (member f vs).toDoc.plainOnto rest =
      "InList \x7b field: ".toList ++ (Quoted.quote f.name ++
        (", values: [".toList ++ Doc.itemsOnto (vs.map doc) (']' :: ' ' :: '\x7d' :: rest))) := by
  have hlist : doc vs = Doc.list (vs.map doc) := rfl
  simp [toDoc, Doc.record, Doc.plainOnto, Doc.itemsOnto, Brackets.pad, quoted, hlist,
    plainOnto_list]

end

theorem exists_first (p : Predicate ρ κ) (rest : List Char) :
    ∃ cs, p.toDoc.plainOnto rest = p.head.letter :: cs := by
  cases p with
  | always => exact ⟨_, rfl⟩
  | never => exact ⟨_, rfl⟩
  | equals f v => exact ⟨_, plainOnto_equals rest f v⟩
  | disj p q => exact ⟨_, plainOnto_disj rest p q⟩
  | neg p => exact ⟨_, plainOnto_neg rest p⟩
  | member f vs => exact ⟨_, plainOnto_member rest f vs⟩

theorem head_eq {p q : Predicate ρ κ} {rest rest' : List Char}
    (h : p.toDoc.plainOnto rest = q.toDoc.plainOnto rest') : p.head = q.head := by
  obtain ⟨cs, hp⟩ := exists_first p rest
  obtain ⟨ds, hq⟩ := exists_first q rest'
  rw [hp, hq] at h
  exact Head.letter_inj (List.cons.inj h).1

variable [BEq κ]

/-- If the texts of keys tell the keys, the text of a predicate tells its constructors, names and
values, whatever stands behind it. -/
theorem sameTree_of_plainOnto [ReflBEq κ] (hcloses : NeverCloses (doc : κ → Doc))
    (hkey : ∀ v : κ, SelfDelimiting doc v) {p q : Predicate ρ κ} {rest rest' : List Char}
    (h : p.toDoc.plainOnto rest = q.toDoc.plainOnto rest') : SameTree p q ∧ rest = rest' := by
  induction p generalizing q rest rest' with
  | always => cases q with
    | always => exact ⟨.always, List.append_cancel_left h⟩
    | _ => cases head_eq h
  | never => cases q with
    | never => exact ⟨.never, List.append_cancel_left h⟩
    | _ => cases head_eq h
  | equals f v => cases q with
    | equals g w =>
      rw [plainOnto_equals, plainOnto_equals] at h
      obtain ⟨hname, h⟩ := Quoted.quote_append_inj (List.append_cancel_left h)
      obtain ⟨rfl, hend⟩ := hkey v (numberEnds_cons rfl) (numberEnds_cons rfl)
        (List.append_cancel_left h)
      exact ⟨.equals hname BEq.rfl, by simpa using hend⟩
    | _ => cases head_eq h
  | disj l r ihl ihr => cases q with
    | disj l' r' =>
      rw [plainOnto_disj, plainOnto_disj] at h
      obtain ⟨hl, h⟩ := ihl (List.append_cancel_left h)
      obtain ⟨hr, h⟩ := ihr (List.append_cancel_left h)
      exact ⟨.disj hl hr, (List.cons.inj h).2⟩
    | _ => cases head_eq h
  | neg p ih => cases q with
    | neg q =>
      rw [plainOnto_neg, plainOnto_neg] at h
      obtain ⟨hp, h⟩ := ih (List.append_cancel_left h)
      exact ⟨.neg hp, (List.cons.inj h).2⟩
    | _ => cases head_eq h
  | member f vs => cases q with
    | member g ws =>
      rw [plainOnto_member, plainOnto_member] at h
      obtain ⟨hname, h⟩ := Quoted.quote_append_inj (List.append_cancel_left h)
      obtain ⟨rfl, hend⟩ := itemsOnto_inj hcloses (fun v _ => hkey v) (List.append_cancel_left h)
      exact ⟨.member hname BEq.rfl, by simpa using hend⟩
    | _ => cases head_eq h

/-- A description names fields and values and nothing else of them. -/
theorem SameTree.toDoc_eq [LawfulBEq κ] {p q : Predicate ρ κ} (h : SameTree p q) :
    p.toDoc = q.toDoc := by
  induction h with
  | always | never => rfl
  | equals name value => rw [toDoc, toDoc, name, eq_of_beq value]
  | disj left right ihl ihr => rw [toDoc, toDoc, ihl, ihr]
  | neg inner ih => rw [toDoc, toDoc, ih]
  | member name values => rw [toDoc, toDoc, name, eq_of_beq values]

/-- Predicates have the same description on one line exactly if they are equal, whatever quotes,
brackets, commas or words their names and texts contain. -/
theorem plain_text_unambiguous (p q : Predicate ρ Value) :
    inspect .plain p = inspect .plain q ↔ (p == q) = true := by
  constructor
  · intro h
    have htext : p.toDoc.plainOnto [] = q.toDoc.plainOnto [] := String.ofList_injective h
    exact (sameTree_of_plainOnto Value.neverCloses Value.selfDelimiting htext).1.beq
  · intro h
    exact congrArg (Doc.render .plain) (sameTree_of_beq h).toDoc_eq

/-- A name that goes on like the rest of a predicate is still a name. -/
example : inspect .plain (equals (.slot "a\", value: 1 \x7d" 0) .null : Predicate Row Value) =
    "Eq \x7b field: \"a\\\", value: 1 \x7d\", value: null \x7d" := by decide +kernel

end Predicate

end PlanShape
