import PlanShape.Lowering.Sql
import PlanShape.Predicate.Leaves

/-!
SQL text in pieces. The text of a predicate is cut into fixed words and the places of its literal
values, so that it can be said which number stands at the place of which value. Where no list is too
long, lowering puts there the numbers of the binds that hold the values.
-/
namespace PlanShape

variable {ρ κ : Type}

/-- A part of a text: fixed words, or the place of a literal value. -/
inductive Piece (κ : Type) where
  | words (text : String)
  | literal (value : κ)

namespace Piece

def value? : Piece κ → Option κ
  | .words _ => none
  | .literal v => some v

/-- The values at the places, from left to right. -/
def values (ps : List (Piece κ)) : List κ := ps.filterMap value?

/-- The text in which each place shows the number of its own bind, behind `k` earlier binds. -/
def assemble : Nat → List (Piece κ) → String
  | _, [] => ""
  | k, .words text :: rest => text ++ assemble k rest
  | k, .literal _ :: rest => Sql.placeholder (k + 1) ++ assemble (k + 1) rest

@[simp] theorem values_nil : values ([] : List (Piece κ)) = [] := rfl
@[simp] theorem values_words (text : String) (ps : List (Piece κ)) :
    values (.words text :: ps) = values ps := rfl
@[simp] theorem values_literal (v : κ) (ps : List (Piece κ)) :
    values (.literal v :: ps) = v :: values ps := rfl
@[simp] theorem values_append (ps qs : List (Piece κ)) :
    values (ps ++ qs) = values ps ++ values qs := List.filterMap_append

@[simp] theorem assemble_nil (k : Nat) : assemble k ([] : List (Piece κ)) = "" := rfl
@[simp] theorem assemble_words (k : Nat) (text : String) (ps : List (Piece κ)) :
    assemble k (.words text :: ps) = text ++ assemble k ps := rfl
@[simp] theorem assemble_literal (k : Nat) (v : κ) (ps : List (Piece κ)) :
    assemble k (.literal v :: ps) = Sql.placeholder (k + 1) ++ assemble (k + 1) ps := rfl

@[simp] theorem assemble_append (k : Nat) (ps qs : List (Piece κ)) :
    assemble k (ps ++ qs) = assemble k ps ++ assemble (k + (values ps).length) qs := by
  induction ps generalizing k with
  | nil => simp
  | cons p ps ih =>
    cases p with
    | words text => simp [ih, String.append_assoc]
    | literal v => simp [ih, String.append_assoc, Nat.add_assoc, Nat.add_comm 1]

/-- The places of some values with commas between them. -/
def listed (vs : List κ) : List (Piece κ) := (vs.map .literal).intersperse (.words ", ")

@[simp] theorem values_listed (vs : List κ) : values (listed vs) = vs := by
  induction vs with
  | nil => rfl
  | cons v vs ih =>
    cases vs with
    | nil => rfl
    | cons w vs => simpa [listed] using ih

theorem assemble_listed (k : Nat) (vs : List κ) :
    assemble k (listed vs) =
      ", ".intercalate ((List.range' (k + 1) vs.length).map Sql.placeholder) := by
  induction vs generalizing k with
  | nil => rfl
  | cons v vs ih =>
    cases vs with
    | nil => simp [listed]
    | cons w vs =>
      have hrest := ih (k + 1)
      simp only [listed, List.map_cons, List.length_cons, List.range'_succ] at hrest ⊢
      rw [List.intersperse_cons_cons, assemble_literal, assemble_words, hrest,
        String.intercalate_cons_cons, String.append_assoc]

end Piece

namespace Predicate

/-- The text of a predicate with the places of its literals. -/
def pieces : Predicate ρ κ → List (Piece κ)
  | .always => [.words "TRUE"]
  | .never => [.words "FALSE"]
  | .equals f v => [.words (f.name ++ " = "), .literal v]
  | .disj p q => .words "(" :: p.pieces ++ .words " OR " :: q.pieces ++ [.words ")"]
  | .neg p => .words "NOT " :: p.pieces
  | .member f vs => .words (f.name ++ " IN (") :: Piece.listed vs ++ [.words ")"]

theorem values_pieces (p : Predicate ρ κ) : Piece.values p.pieces = p.literals := by
  induction p with
  | always | never | equals => rfl
  | disj p q ihp ihq => simp [pieces, literals, ihp, ihq]
  | neg p ih => simp [pieces, literals, ih]
  | member f vs => simp [pieces, literals]

/-- The value lists of the native membership tests, from left to right. -/
def lists : Predicate ρ κ → List (List κ)
  | .disj p q => p.lists ++ q.lists
  | .neg p => p.lists
  | .member _ vs => [vs]
  | .always | .never | .equals .. => []

end Predicate

namespace Sql

/-- No more than the limit, if there is one. -/
def Within (maxBinds : Option Nat) (n : Nat) : Prop := ∀ limit ∈ maxBinds, n ≤ limit

theorem any_lt_iff {maxBinds : Option Nat} {n : Nat} :
    maxBinds.any (· < n) = true ↔ ¬Within maxBinds n := by
  cases maxBinds with
  | none => simp [Within]
  | some limit => simp [Within]

theorem not_within_iff {maxBinds : Option Nat} {n : Nat} :
    ¬Within maxBinds n ↔ ∃ limit ∈ maxBinds, limit < n := by
  simp [Within]

theorem member_of_within {maxBinds : Option Nat} {vs : List κ} (h : Within maxBinds vs.length)
    (f : Field ρ κ) (binds : Array κ) :
    (backend maxBinds).member f vs binds = (.ok (f.name ++ " IN (" ++ ", ".intercalate
      ((List.range' (binds.size + 1) vs.length).map placeholder) ++ ")"), binds ++ vs) := by
  rw [member_apply, if_neg fun hany => any_lt_iff.1 hany h]

theorem member_of_not_within {maxBinds : Option Nat} {vs : List κ}
    (h : ¬Within maxBinds vs.length) (f : Field ρ κ) (binds : Array κ) :
    (backend maxBinds).member f vs binds = (.error (.tooManyBinds vs.length), binds) := by
  rw [member_apply, if_pos (any_lt_iff.2 h)]

theorem append_append_values (binds : Array κ) (vs ws : List κ) :
    binds ++ vs ++ ws = binds ++ (vs ++ ws) := by
  apply Array.ext'
  simp only [Array.toList_appendList, List.append_assoc]

theorem getElem?_append_values {binds : Array κ} {vs : List κ} {i : Nat} :
    (binds ++ vs)[binds.size + i]? = vs[i]? := by
  rw [← Array.getElem?_toList, Array.toList_appendList,
    List.getElem?_append_right (by simp), Array.length_toList, Nat.add_sub_cancel_left]

/-- Where every list fits, all literals are bound and the text shows their numbers. -/
theorem lower_of_fits {maxBinds : Option Nat} {p : Predicate ρ κ}
    (h : ∀ vs ∈ p.lists, Within maxBinds vs.length) (binds : Array κ) :
    p.lower (backend maxBinds) binds =
      (.ok (Piece.assemble binds.size p.pieces), binds ++ p.literals) := by
  induction p generalizing binds with
  | always | never =>
    rw [Predicate.literals, Array.appendList_nil]
    rfl
  | equals f v =>
    rw [Predicate.lower, equals_apply]
    simp [Predicate.pieces, Predicate.literals]
  | disj p q ihp ihq =>
    have hp := ihp (fun vs hvs => h vs (List.mem_append_left _ hvs)) binds
    have hq := ihq (fun vs hvs => h vs (List.mem_append_right _ hvs)) (binds ++ p.literals)
    rw [Predicate.lower, Action.bind_ok hp, Action.bind_ok hq, append_append_values,
      size_append_values]
    simp only [backend, Predicate.pieces, Predicate.literals, List.cons_append,
      Piece.assemble_words, Piece.assemble_append, Predicate.values_pieces, Piece.assemble_nil,
      String.append_assoc, String.append_empty]
    rfl
  | neg p ih =>
    rw [Predicate.lower, Action.bind_ok (ih h binds)]
    rfl
  | member f vs =>
    rw [Predicate.lower, member_of_within (h vs (List.mem_singleton_self vs))]
    simp [Predicate.pieces, Predicate.literals, Piece.assemble_listed, String.append_assoc]

/-- What a walk leaves when it succeeds: all literals are bound behind the earlier binds, and the
place of a literal shows the number of the bind that holds it. -/
structure Bound (p : Predicate ρ κ) (binds : Array κ) (text : String) (binds' : Array κ) :
    Prop where
  appended : binds' = binds ++ p.literals
  places : Piece.values p.pieces = p.literals
  assembled : text = Piece.assemble binds.size p.pieces
  numbered : ∀ left v right, p.pieces = left ++ .literal v :: right →
    ∃ i, i = (Piece.values left).length ∧ p.literals[i]? = some v ∧
      binds'[binds.size + i]? = some v ∧
      text = Piece.assemble binds.size left ++ placeholder (binds.size + i + 1) ++
        Piece.assemble (binds.size + i + 1) right

theorem bound_of_fits {maxBinds : Option Nat} {p : Predicate ρ κ}
    (h : ∀ vs ∈ p.lists, Within maxBinds vs.length) (binds : Array κ) :
    ∃ text binds', p.lower (backend maxBinds) binds = (.ok text, binds') ∧
      Bound p binds text binds' := by
  refine ⟨_, _, lower_of_fits h binds, rfl, p.values_pieces, rfl, ?_⟩
  intro left v right hsplit
  have hliterals : p.literals = Piece.values left ++ v :: Piece.values right := by
    rw [← p.values_pieces, hsplit, Piece.values_append, Piece.values_literal]
  have hv : p.literals[(Piece.values left).length]? = some v := by simp [hliterals]
  refine ⟨_, rfl, hv, getElem?_append_values.trans hv, ?_⟩
  rw [hsplit, Piece.assemble_append, Piece.assemble_literal, String.append_assoc]

end Sql

end PlanShape
