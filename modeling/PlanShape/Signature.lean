import PlanShape.Predicate.Shape

/-!
Shape signatures: a digest of the bytes of a shape. Predicates of one shape have one signature,
whatever their literal values and the digest. Signatures are ordered by their bytes and are written
as lower-case hexadecimal digits, two for each byte.
-/
namespace PlanShape

structure Signature where
  bytes : Vector UInt8 32
  deriving DecidableEq, Repr

namespace Signature

instance : LT Signature := ⟨fun a b => a.bytes.toList < b.bytes.toList⟩

instance (a b : Signature) : Decidable (a < b) :=
  inferInstanceAs (Decidable (a.bytes.toList < b.bytes.toList))

instance : Ord Signature := ⟨fun a b => compareOfLessAndEq a b⟩

/-- The two hexadecimal digits of a byte, higher one first. -/
def byteHex (b : UInt8) : List Char :=
  [Nat.digitChar (b.toNat / 16), Nat.digitChar (b.toNat % 16)]

@[simp] theorem length_byteHex (b : UInt8) : (byteHex b).length = 2 := rfl

def hexDigits (s : Signature) : List Char := s.bytes.toList.flatMap byteHex

/-- The signature as text. -/
def hex (s : Signature) : String := String.ofList s.hexDigits

end Signature

/-- A function that makes 32 bytes of a message. -/
abbrev Digest := List UInt8 → Vector UInt8 32

/-- The signature of the shape of a predicate. -/
def Predicate.signature {ρ κ : Type} (digest : Digest) (p : Predicate ρ κ) : Signature :=
  ⟨digest p.signedBytes⟩

theorem Predicate.signature_eq_of_shape_eq {ρ κ : Type} (digest : Digest) {p q : Predicate ρ κ}
    (h : p.shape = q.shape) : p.signature digest = q.signature digest := by
  rw [signature, signature, signedBytes_eq, signedBytes_eq, h]

end PlanShape
