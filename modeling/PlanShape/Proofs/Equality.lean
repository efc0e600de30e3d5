import PlanShape.Digest.Sha256
import PlanShape.Predicate.Leaves
import PlanShape.Proofs.Encoding
import PlanShape.Signature

/-!
A predicate is its shape together with its literals. Structural comparison asks for the same
constructors, names and literals at the same places. As a shape tells how many literals each of its
parts has, the literals in one line, from left to right, can be told apart again. Keys are compared
by any equivalence. Fields count by name alone, so equal predicates need not hold on the same
records, unless equal names also mean equal ways to read.
-/
namespace PlanShape

section
variable {α : Type} [BEq α]

/-- Equally long parts are compared one by one. -/
theorem append_beq_append {as bs as' bs' : List α} (h : as.length = bs.length) :
    (as ++ as' == bs ++ bs') = (as == bs && as' == bs') := by
  induction as generalizing bs with
  | nil =>
    obtain rfl := List.length_eq_zero_iff.1 h.symm
    rfl
  | cons a as ih =>
    obtain ⟨b, bs, rfl⟩ := List.exists_cons_of_length_pos (l := bs) (by simp [← h])
    rw [List.cons_append, List.cons_append, List.cons_beq_cons, List.cons_beq_cons,
      ih (Nat.succ.inj h), Bool.and_assoc]

theorem eq_nil_of_beq {bs : List α} (h : ([] == bs) = true) : bs = [] := by
  cases bs with
  | nil => rfl
  | cons b bs => cases h

theorem exists_cons_of_beq {a : α} {as bs : List α} (h : (a :: as == bs) = true) :
    ∃ b rest, bs = b :: rest ∧ (a == b) = true ∧ (as == rest) = true := by
  cases bs with
  | nil => cases h
  | cons b rest =>
    rw [List.cons_beq_cons, Bool.and_eq_true] at h
    exact ⟨b, rest, rfl, h⟩

/-- An equivalence of values is one of lists. -/
instance equivBEqList [EquivBEq α] : EquivBEq (List α) where
  rfl := by
    intro as
    induction as with
    | nil => rfl
    | cons a as ih => rw [List.cons_beq_cons, BEq.rfl, ih, Bool.and_self]
  symm := by
    intro as bs h
    induction as generalizing bs with
    | nil =>
      obtain rfl := eq_nil_of_beq h
      rfl
    | cons a as ih =>
      obtain ⟨b, bs, rfl, hab, has⟩ := exists_cons_of_beq h
      rw [List.cons_beq_cons, BEq.symm hab, ih has, Bool.and_self]
  trans := by
    intro as bs cs h h'
    induction as generalizing bs cs with
    | nil =>
      obtain rfl := eq_nil_of_beq h
      exact h'
    | cons a as ih =>
      obtain ⟨b, bs, rfl, hab, has⟩ := exists_cons_of_beq h
      obtain ⟨c, cs, rfl, hbc, hbs⟩ := exists_cons_of_beq h'
      rw [List.cons_beq_cons, BEq.trans hab hbc, ih has hbs, Bool.and_self]

/-- Equal lists contain the same values. -/
theorem contains_eq_of_beq [EquivBEq α] {as bs : List α} (h : (as == bs) = true) (x : α) :
    as.contains x = bs.contains x := by
  induction as generalizing bs with
  | nil => rw [eq_nil_of_beq h]
  | cons a as ih =>
    obtain ⟨b, bs, rfl, hab, has⟩ := exists_cons_of_beq h
    rw [List.contains_cons, List.contains_cons, BEq.congr_right hab, ih has]

end

variable {ρ κ : Type}

namespace Predicate

/-- Equal constructors and field names, and equal literal values at equal places. -/
inductive SameTree [BEq κ] : Predicate ρ κ → Predicate ρ κ → Prop where
  | always : SameTree .always .always
  | never : SameTree .never .never
  | equals {f g : Field ρ κ} {v w : κ} (name : f.name = g.name) (value : (v == w) = true) :
    SameTree (.equals f v) (.equals g w)
  | disj {l r l' r' : Predicate ρ κ} (left : SameTree l l') (right : SameTree r r') :
    SameTree (.disj l r) (.disj l' r')
  | neg {p q : Predicate ρ κ} (inner : SameTree p q) : SameTree (.neg p) (.neg q)
  | member {f g : Field ρ κ} {vs ws : List κ} (name : f.name = g.name)
    (values : (vs == ws) = true) : SameTree (.member f vs) (.member g ws)

/-- The fields that a predicate reads, from left to right. -/
def fields : Predicate ρ κ → List (Field ρ κ)
  | .always | .never => []
  | .equals f _ => [f]
  | .disj p q => p.fields ++ q.fields
  | .neg p => p.fields
  | .member f _ => [f]

theorem SameShape.depth_eq {ρ' κ' : Type} {p : Predicate ρ κ} {q : Predicate ρ' κ'}
    (h : SameShape p q) : p.depth = q.depth := by
  induction h with
  | always | never | equals | member => rfl
  | disj left right ihl ihr => rw [depth, depth, ihl, ihr]
  | neg inner ih => exact ih

/-- The shape tells the number of literals. -/
theorem SameShape.length_literals {ρ' κ' : Type} {p : Predicate ρ κ} {q : Predicate ρ' κ'}
    (h : SameShape p q) : p.literals.length = q.literals.length := by
  induction h with
  | always | never | equals => rfl
  | disj left right ihl ihr =>
    rw [literals, literals, List.length_append, List.length_append, ihl, ihr]
  | neg inner ih => exact ih
  | member name count => exact count

section
variable [BEq κ] {p q : Predicate ρ κ}

theorem sameTree_of_beq (h : (p == q) = true) : SameTree p q := by
  change same p q = true at h
  induction p generalizing q with
  | always => cases q with
    | always => exact .always
    | _ => cases h
  | never => cases q with
    | never => exact .never
    | _ => cases h
  | equals f v => cases q with
    | equals g w =>
      obtain ⟨hf, hv⟩ := Bool.and_eq_true_iff.1 h
      exact .equals (Field.beq_iff.1 hf) hv
    | _ => cases h
  | disj l r ihl ihr => cases q with
    | disj l' r' =>
      obtain ⟨hl, hr⟩ := Bool.and_eq_true_iff.1 h
      exact .disj (ihl hl) (ihr hr)
    | _ => cases h
  | neg p ih => cases q with
    | neg q => exact .neg (ih h)
    | _ => cases h
  | member f vs => cases q with
    | member g ws =>
      obtain ⟨hf, hv⟩ := Bool.and_eq_true_iff.1 h
      exact .member (Field.beq_iff.1 hf) hv
    | _ => cases h

theorem SameTree.beq (h : SameTree p q) : (p == q) = true := by
  change same p q = true
  induction h with
  | always | never => rfl
  | equals name value => exact Bool.and_eq_true_iff.2 ⟨Field.beq_iff.2 name, value⟩
  | disj left right ihl ihr => exact Bool.and_eq_true_iff.2 ⟨ihl, ihr⟩
  | neg inner ih => exact ih
  | member name values => exact Bool.and_eq_true_iff.2 ⟨Field.beq_iff.2 name, values⟩

theorem SameTree.sameShape (h : SameTree p q) : SameShape p q := by
  induction h with
  | always => exact .always
  | never => exact .never
  | equals name value => exact .equals _ _ name
  | disj left right ihl ihr => exact .disj ihl ihr
  | neg inner ih => exact .neg ih
  | member name values => exact .member name (List.length_eq_of_beq values)

theorem SameTree.literals_beq (h : SameTree p q) : (p.literals == q.literals) = true := by
  induction h with
  | always | never => rfl
  | equals name value => simpa [literals] using value
  | disj left right ihl ihr =>
    rw [literals, literals, append_beq_append left.sameShape.length_literals, ihl, ihr,
      Bool.and_self]
  | neg inner ih => exact ih
  | member name values => exact values

/-- The literals in one line are split back along the shape. -/
theorem SameShape.sameTree (h : SameShape p q) (hl : (p.literals == q.literals) = true) :
    SameTree p q := by
  induction h with
  | always => exact .always
  | never => exact .never
  | equals v w name => exact .equals name (by simpa [literals] using hl)
  | disj left right ihl ihr =>
    -- equally many literals on the left, so both lines split at one place
    rw [literals, literals, append_beq_append left.length_literals, Bool.and_eq_true] at hl
    exact .disj (ihl hl.1) (ihr hl.2)
  | neg inner ih => exact .neg (ih hl)
  | member name count => exact .member name hl

theorem beq_iff : (p == q) = true ↔ SameShape p q ∧ (p.literals == q.literals) = true := by
  constructor
  · intro h
    exact ⟨(sameTree_of_beq h).sameShape, (sameTree_of_beq h).literals_beq⟩
  · rintro ⟨hs, hl⟩
    exact (hs.sameTree hl).beq

theorem SameTree.leaves_beq (h : SameTree p q) : (p.leaves == q.leaves) = true := by
  rw [leaves_eq_equalities, leaves_eq_equalities]
  induction h with
  | always | never | member => rfl
  | @equals f g v w name value =>
    change (f.name == g.name && v == w && true) = true
    rw [name, value, beq_self_eq_true]
    rfl
  | disj left right ihl ihr =>
    rw [equalities, equalities, append_beq_append (List.length_eq_of_beq ihl), ihl, ihr,
      Bool.and_self]
  | neg inner ih => exact ih

variable [EquivBEq κ]

theorem SameTree.holds_eq (h : SameTree p q)
    (hread : ∀ f ∈ p.fields, ∀ g ∈ q.fields, f.name = g.name → f.read = g.read) (r : ρ) :
    p.holds r = q.holds r := by
  induction h with
  | always | never => rfl
  | @equals f g v w name value =>
    have hfg : f.read = g.read := hread f List.mem_cons_self g List.mem_cons_self name
    rw [holds_equals, holds_equals, hfg]
    exact BEq.congr_right value
  | disj left right ihl ihr =>
    rw [holds_disj, holds_disj,
      ihl fun f hf g hg => hread f (List.mem_append_left _ hf) g (List.mem_append_left _ hg),
      ihr fun f hf g hg => hread f (List.mem_append_right _ hf) g (List.mem_append_right _ hg)]
  | neg inner ih => rw [holds_neg, holds_neg, ih hread]
  | @member f g vs ws name values =>
    have hfg : f.read = g.read := hread f List.mem_cons_self g List.mem_cons_self name
    rw [holds_member, holds_member, hfg, List.any_beq', List.any_beq']
    exact contains_eq_of_beq values _

end

theorem equivalence_beq [BEq κ] [EquivBEq κ] :
    Equivalence fun p q : Predicate ρ κ => (p == q) = true where
  refl p := beq_iff.2 ⟨sameShape_iff.2 rfl, BEq.rfl⟩
  symm h := by
    obtain ⟨hs, hl⟩ := beq_iff.1 h
    exact beq_iff.2 ⟨sameShape_iff.2 (sameShape_iff.1 hs).symm, BEq.symm hl⟩
  trans h h' := by
    obtain ⟨hs, hl⟩ := beq_iff.1 h
    obtain ⟨hs', hl'⟩ := beq_iff.1 h'
    exact beq_iff.2 ⟨sameShape_iff.2 ((sameShape_iff.1 hs).trans (sameShape_iff.1 hs')),
      BEq.trans hl hl'⟩

/-- Predicates are equal exactly if their shapes are the same and their literals, in one line from
left to right, are equal. This is an equivalence if equality of keys is one. Equal predicates have
one signature by any digest, one depth and equal leaves, and if fields of one name read alike in
both of them they hold on the same records. -/
theorem equal_iff_shape_and_literals [BEq κ] [EquivBEq κ] :
    (∀ p q : Predicate ρ κ,
      (p == q) = true ↔ SameShape p q ∧ (p.literals == q.literals) = true) ∧
    Equivalence (fun p q : Predicate ρ κ => (p == q) = true) ∧
    ∀ p q : Predicate ρ κ, (p == q) = true →
      (∀ digest, p.signature digest = q.signature digest) ∧ p.depth = q.depth ∧
      (p.leaves == q.leaves) = true ∧
      ((∀ f ∈ p.fields, ∀ g ∈ q.fields, f.name = g.name → f.read = g.read) →
        ∀ r, p.holds r = q.holds r) := by
  refine ⟨fun p q => beq_iff, equivalence_beq, ?_⟩
  intro p q h
  have htree := sameTree_of_beq h
  exact ⟨fun digest => signature_eq_of_shape_eq digest (sameShape_iff.1 htree.sameShape),
    htree.sameShape.depth_eq, htree.leaves_beq, htree.holds_eq⟩

/-- Keys that are fields themselves, so that different keys can be equal. Under one name two slots
make equal predicates as well, and a row tells them apart. -/
theorem equal_iff_shape_and_literals_by_name :
    let field : Field Nat (Field Row Value) := ⟨"k", fun n => .slot "a" n⟩
    let p := disj (equals field (.slot "a" 0)) (member field [.slot "b" 1, .slot "a" 2])
    let q := disj (equals field (.slot "a" 3)) (member field [.slot "b" 4, .slot "a" 5])
    let slot (i : Nat) : Predicate Row Value := equals (.slot "k" i) .null
    (p == q) = true ∧ p.signature sha256 = q.signature sha256 ∧ (∀ r, p.holds r = q.holds r) ∧
    (slot 0 == slot 1) = true ∧ (slot 0).depth = (slot 1).depth ∧
    (slot 0).holds ⟨[.int 1]⟩ ≠ (slot 1).holds ⟨[.int 1]⟩ := by
  intro field p q slot
  obtain ⟨hiff, -, hequal⟩ := equal_iff_shape_and_literals (ρ := Nat) (κ := Field Row Value)
  obtain ⟨hiff', -, hequal'⟩ := equal_iff_shape_and_literals (ρ := Row) (κ := Value)
  have hpq : (p == q) = true :=
    (hiff p q).2 ⟨.disj (.equals _ _ rfl) (.member rfl rfl), by decide⟩
  have hslot : (slot 0 == slot 1) = true := (hiff' _ _).2 ⟨.equals _ _ rfl, by decide⟩
  have hread : ∀ f ∈ p.fields, ∀ g ∈ q.fields, f.name = g.name → f.read = g.read := by
    simp [p, q, fields]
  obtain ⟨hsign, -, -, hholds⟩ := hequal p q hpq
  exact ⟨hpq, hsign sha256, hholds hread, hslot, (hequal' _ _ hslot).2.1, by decide⟩

end Predicate

end PlanShape
