import PlanShape.Predicate.Basic

/-!
Shapes: what remains of a predicate once its literal values are forgotten. A predicate is
written as the bytes of its shape, in preorder, one tag byte a node, names and counts with a
four byte length in front, so that no encoding is the beginning of another one.
-/
namespace PlanShape

inductive Shape where
  | always
  | never
  | equals (name : String)
  | disj (left right : Shape)
  | neg (inner : Shape)
  | member (name : String) (count : Nat)
  deriving DecidableEq, Repr

/-- The tree of constructors, field names and list lengths. -/
def Predicate.shape {ρ κ : Type} : Predicate ρ κ → Shape
  | .always => .always
  | .never => .never
  | .equals f _ => .equals f.name
  | .disj p q => .disj p.shape q.shape
  | .neg p => .neg p.shape
  | .member f vs => .member f.name vs.length

namespace Shape

/-- The largest length that four bytes hold. -/
def maxLength : Nat := 0xffff_ffff

/-- A length as four bytes, highest first; a longer one is written as the largest. -/
def lengthBytes (n : Nat) : List UInt8 :=
  let m := min n maxLength
  [(m / 0x100_0000).toUInt8, (m / 0x1_0000).toUInt8, (m / 0x100).toUInt8, m.toUInt8]

@[simp] theorem length_lengthBytes (n : Nat) : (lengthBytes n).length = 4 := rfl

/-- The UTF-8 bytes of a name behind their number. -/
def nameBytes (s : String) : List UInt8 :=
  lengthBytes s.utf8ByteSize ++ s.toUTF8.data.toList

namespace Tag

def always : UInt8 := 0x21
def never : UInt8 := 0x22
def disj : UInt8 := 0x24
def neg : UInt8 := 0x25
def equals : UInt8 := 0x26
def member : UInt8 := 0x2b

end Tag

/-- The bytes of a shape, written in front of `rest`. -/
def encodeOnto : Shape → List UInt8 → List UInt8
  | .always, rest => Tag.always :: rest
  | .never, rest => Tag.never :: rest
  | .equals name, rest => Tag.equals :: (nameBytes name ++ rest)
  | .disj l r, rest => Tag.disj :: l.encodeOnto (r.encodeOnto rest)
  | .neg s, rest => Tag.neg :: s.encodeOnto rest
  | .member name n, rest => Tag.member :: (nameBytes name ++ (lengthBytes n ++ rest))

/-- The bytes of a shape. -/
def encode (s : Shape) : List UInt8 := s.encodeOnto []

theorem encodeOnto_eq (s : Shape) (rest : List UInt8) : s.encodeOnto rest = s.encode ++ rest := by
  unfold encode
  induction s generalizing rest with
  | always | never | equals | member => simp [encodeOnto]
  | disj l r ihl ihr =>
    simp only [encodeOnto, List.cons_append]
    rw [ihl, ihl (r.encodeOnto []), ihr]
    simp
  | neg s ih => simp only [encodeOnto, List.cons_append]; rw [ih]

/-- What the bytes of every signed shape start with. -/
def domain : String := "shapesig:v1"

/-- The bytes of a shape behind the domain. -/
def signedBytes (s : Shape) : List UInt8 := domain.toUTF8.data.toList ++ s.encode

end Shape

namespace Predicate

open Shape

variable {ρ κ : Type}

/-- The bytes of the shape of a predicate, written in front of `rest`. Literal values are passed
over. -/
def encodeOnto : Predicate ρ κ → List UInt8 → List UInt8
  | .always, rest => Tag.always :: rest
  | .never, rest => Tag.never :: rest
  | .equals f _, rest => Tag.equals :: (nameBytes f.name ++ rest)
  | .disj p q, rest => Tag.disj :: p.encodeOnto (q.encodeOnto rest)
  | .neg p, rest => Tag.neg :: p.encodeOnto rest
  | .member f vs, rest => Tag.member :: (nameBytes f.name ++ (lengthBytes vs.length ++ rest))

/-- The bytes of the shape of a predicate. -/
def encode (p : Predicate ρ κ) : List UInt8 := p.encodeOnto []

/-- The bytes from which a signature is computed. -/
def signedBytes (p : Predicate ρ κ) : List UInt8 := domain.toUTF8.data.toList ++ p.encode

theorem encodeOnto_eq (p : Predicate ρ κ) (rest : List UInt8) :
    p.encodeOnto rest = p.shape.encodeOnto rest := by
  induction p generalizing rest with
  | always | never | equals | member => rfl
  | disj p q ihp ihq => rw [encodeOnto, ihq, ihp, shape, Shape.encodeOnto]
  | neg p ih => rw [encodeOnto, ih, shape, Shape.encodeOnto]

/-- A predicate is encoded as its shape is. -/
theorem encode_eq (p : Predicate ρ κ) : p.encode = p.shape.encode := p.encodeOnto_eq []

theorem signedBytes_eq (p : Predicate ρ κ) : p.signedBytes = p.shape.signedBytes := by
  rw [signedBytes, encode_eq, Shape.signedBytes]

theorem signedBytes_of_shape {p : Predicate ρ κ} {s : Shape} (h : p.shape = s) :
    p.signedBytes = s.signedBytes := h ▸ p.signedBytes_eq

end Predicate

end PlanShape
