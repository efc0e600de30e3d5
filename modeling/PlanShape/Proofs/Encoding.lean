import Mathlib
import PlanShape.Predicate.Shape

/-!
The bytes of a shape determine the shape. A name or a count that four length bytes can hold is
written so that its bytes also tell where it ends, and a tag tells which constructor follows. By
induction on the shape the same is true of whole shapes, whatever bytes stand behind them.
-/
namespace PlanShape

/-- Equal constructors, field names and list lengths; literal values may differ. -/
inductive Predicate.SameShape {ρ κ ρ' κ' : Type} : Predicate ρ κ → Predicate ρ' κ' → Prop where
  | always : SameShape .always .always
  | never : SameShape .never .never
  | equals {f : Field ρ κ} {g : Field ρ' κ'} (v : κ) (w : κ') (name : f.name = g.name) :
    SameShape (.equals f v) (.equals g w)
  | disj {l r : Predicate ρ κ} {l' r' : Predicate ρ' κ'} (left : SameShape l l')
    (right : SameShape r r') : SameShape (.disj l r) (.disj l' r')
  | neg {p : Predicate ρ κ} {q : Predicate ρ' κ'} (inner : SameShape p q) :
    SameShape (.neg p) (.neg q)
  | member {f : Field ρ κ} {g : Field ρ' κ'} {vs : List κ} {ws : List κ'}
    (name : f.name = g.name) (count : vs.length = ws.length) :
    SameShape (.member f vs) (.member g ws)

namespace Predicate

variable {ρ κ ρ' κ' : Type}

theorem shape_eq_of_sameShape {p : Predicate ρ κ} {q : Predicate ρ' κ'} (h : SameShape p q) :
    p.shape = q.shape := by
  induction h with
  | always | never => rfl
  | equals v w name => simp only [shape, name]
  | disj left right ihl ihr => simp only [shape, ihl, ihr]
  | neg inner ih => simp only [shape, ih]
  | member name count => simp only [shape, name, count]

theorem sameShape_of_shape_eq {p : Predicate ρ κ} {q : Predicate ρ' κ'} (h : p.shape = q.shape) :
    SameShape p q := by
  induction p generalizing q with
  | always => cases q with
    | always => exact .always
    | _ => cases h
  | never => cases q with
    | never => exact .never
    | _ => cases h
  | equals f v => cases q with
    | equals g w => exact .equals v w (Shape.equals.inj h)
    | _ => cases h
  | disj l r ihl ihr => cases q with
    | disj l' r' =>
      obtain ⟨hl, hr⟩ := Shape.disj.inj h
      exact .disj (ihl hl) (ihr hr)
    | _ => cases h
  | neg p ih => cases q with
    | neg q => exact .neg (ih (Shape.neg.inj h))
    | _ => cases h
  | member f vs => cases q with
    | member g ws =>
      obtain ⟨hn, hc⟩ := Shape.member.inj h
      exact .member hn hc
    | _ => cases h

/-- Forgetting the literal values leaves exactly what `SameShape` compares. -/
theorem sameShape_iff {p : Predicate ρ κ} {q : Predicate ρ' κ'} :
    SameShape p q ↔ p.shape = q.shape := ⟨shape_eq_of_sameShape, sameShape_of_shape_eq⟩

end Predicate

namespace Shape

/-- The number that some bytes stand for, highest byte first. -/
def lengthValue (bytes : List UInt8) : Nat := bytes.foldl (fun n b => 0x100 * n + b.toNat) 0

/-- Four bytes give back the length, or the largest one in place of a longer one. -/
theorem lengthValue_lengthBytes (n : Nat) : lengthValue (lengthBytes n) = min n maxLength := by
  have hm : min n maxLength ≤ maxLength := Nat.min_le_right _ _
  simp only [lengthValue, lengthBytes, List.foldl_cons, List.foldl_nil, Nat.toUInt8_eq,
    UInt8.toNat_ofNat']
  generalize min n maxLength = m at hm ⊢
  simp only [maxLength] at hm
  omega

theorem lengthBytes_append_inj {m n : Nat} {rest rest' : List UInt8} (hm : m < 2 ^ 32)
    (hn : n < 2 ^ 32) (h : lengthBytes m ++ rest = lengthBytes n ++ rest') :
    m = n ∧ rest = rest' := by
  obtain ⟨hb, hr⟩ := List.append_inj h rfl
  have hv := congrArg lengthValue hb
  simp only [lengthValue_lengthBytes, maxLength] at hv
  exact ⟨by omega, hr⟩

theorem nameBytes_append_inj {s t : String} {rest rest' : List UInt8}
    (hs : s.utf8ByteSize < 2 ^ 32) (ht : t.utf8ByteSize < 2 ^ 32)
    (h : nameBytes s ++ rest = nameBytes t ++ rest') : s = t ∧ rest = rest' := by
  simp only [nameBytes, List.append_assoc] at h
  obtain ⟨hl, h⟩ := lengthBytes_append_inj hs ht h
  -- equally long names: the bytes behind the length split at one place
  obtain ⟨hb, hr⟩ := List.append_inj h hl
  have ha : s.toByteArray = t.toByteArray := ByteArray.ext (Array.toList_inj.1 hb)
  exact ⟨String.toByteArray_inj.1 ha, hr⟩

/-- Every name and every count of the shape is one that four length bytes can hold. -/
def Fits : Shape → Prop
  | .always | .never => True
  | .equals name => name.utf8ByteSize < 2 ^ 32
  | .disj l r => l.Fits ∧ r.Fits
  | .neg s => s.Fits
  | .member name n => name.utf8ByteSize < 2 ^ 32 ∧ n < 2 ^ 32

instance decidableFits : (s : Shape) → Decidable s.Fits
  | .always | .never => isTrue trivial
  | .equals _ => inferInstanceAs (Decidable (_ < _))
  | .disj l r =>
    have := decidableFits l
    have := decidableFits r
    inferInstanceAs (Decidable (_ ∧ _))
  | .neg s => decidableFits s
  | .member _ _ => inferInstanceAs (Decidable (_ ∧ _))

/-- A shape ends where its own bytes end, whatever stands behind them. -/
theorem encodeOnto_inj {s t : Shape} (hs : s.Fits) (ht : t.Fits) {rest rest' : List UInt8}
    (h : s.encodeOnto rest = t.encodeOnto rest') : s = t ∧ rest = rest' := by
  induction s generalizing t rest rest' with
  | always => cases t with
    | always => exact ⟨rfl, (List.cons.inj h).2⟩
    | _ => exact absurd (List.cons.inj h).1 (by decide)
  | never => cases t with
    | never => exact ⟨rfl, (List.cons.inj h).2⟩
    | _ => exact absurd (List.cons.inj h).1 (by decide)
  | equals name => cases t with
    | equals name' =>
      obtain ⟨hn, hr⟩ := nameBytes_append_inj hs ht (List.cons.inj h).2
      exact ⟨congrArg equals hn, hr⟩
    | _ => exact absurd (List.cons.inj h).1 (by decide)
  | disj l r ihl ihr => cases t with
    | disj l' r' =>
      -- the left part is read first, and what follows it is the right part
      obtain ⟨hl, h⟩ := ihl hs.1 ht.1 (List.cons.inj h).2
      obtain ⟨hr, hrest⟩ := ihr hs.2 ht.2 h
      exact ⟨by rw [hl, hr], hrest⟩
    | _ => exact absurd (List.cons.inj h).1 (by decide)
  | neg s ih => cases t with
    | neg t' =>
      have ht' : t'.Fits := ht
      obtain ⟨hi, hr⟩ := ih hs ht' (List.cons.inj h).2
      exact ⟨congrArg neg hi, hr⟩
    | _ => exact absurd (List.cons.inj h).1 (by decide)
  | member name n => cases t with
    | member name' n' =>
      obtain ⟨hn, h⟩ := nameBytes_append_inj hs.1 ht.1 (List.cons.inj h).2
      obtain ⟨hc, hr⟩ := lengthBytes_append_inj hs.2 ht.2 h
      exact ⟨by rw [hn, hc], hr⟩
    | _ => exact absurd (List.cons.inj h).1 (by decide)

/-- No encoding of a shape runs on into the bytes behind it. -/
theorem encode_append_eq_iff {s t : Shape} (hs : s.Fits) (ht : t.Fits) (rest rest' : List UInt8) :
    s.encode ++ rest = t.encode ++ rest' ↔ s = t ∧ rest = rest' := by
  constructor
  · intro h
    rw [← encodeOnto_eq, ← encodeOnto_eq] at h
    exact encodeOnto_inj hs ht h
  · rintro ⟨rfl, rfl⟩
    rfl

theorem signedBytes_eq_iff {s t : Shape} (hs : s.Fits) (ht : t.Fits) :
    s.signedBytes = t.signedBytes ↔ s = t := by
  have h := encode_append_eq_iff hs ht [] []
  simp only [List.append_nil, and_true] at h
  simp only [signedBytes, List.append_cancel_left_eq]
  exact h

end Shape

namespace Predicate

variable {ρ κ ρ' κ' : Type}

theorem signedBytes_eq_iff {p : Predicate ρ κ} {q : Predicate ρ' κ'} (hp : p.shape.Fits)
    (hq : q.shape.Fits) : p.signedBytes = q.signedBytes ↔ p.shape = q.shape := by
  rw [signedBytes_eq, signedBytes_eq, Shape.signedBytes_eq_iff hp hq]

/-- Two predicates give one input to the digest exactly when they have the same shape, and the
bytes of one are not the beginning of the bytes of the other unless they are the same. -/
theorem shape_bytes_decodable (p : Predicate ρ κ) (q : Predicate ρ' κ') (hp : p.shape.Fits)
    (hq : q.shape.Fits) :
    (p.signedBytes = q.signedBytes ↔ SameShape p q) ∧
    ∀ rest rest' : List UInt8,
      p.encode ++ rest = q.encode ++ rest' ↔ SameShape p q ∧ rest = rest' := by
  rw [sameShape_iff, encode_eq, encode_eq]
  exact ⟨signedBytes_eq_iff hp hq, Shape.encode_append_eq_iff hp hq⟩

/-- Names made of tag bytes: other literals give the same bytes, and exchanged operands do not. -/
theorem shape_bytes_decodable_tag_names :
    (disj (equals (.slot "$&" 0) (.int 1)) (member (.slot "+" 1) [.null]) :
      Predicate Row Value).signedBytes =
    (disj (equals (.slot "$&" 2) (.int 2)) (member (.slot "+" 1) [.text "&"]) :
      Predicate Row Value).signedBytes ∧
    (disj (equals (.slot "$&" 0) (.int 1)) (member (.slot "+" 1) [.null]) :
      Predicate Row Value).signedBytes ≠
    (disj (member (.slot "+" 1) [.null]) (equals (.slot "$&" 0) (.int 1)) :
      Predicate Row Value).signedBytes := by
  constructor
  · exact (shape_bytes_decodable _ _ (by decide) (by decide)).1.2
      (.disj (.equals _ _ rfl) (.member rfl rfl))
  · intro h
    cases (shape_bytes_decodable _ _ (by decide) (by decide)).1.1 h with
    | disj left right => cases left

end Predicate

end PlanShape
