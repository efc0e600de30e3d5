/-!
The SHA-256 digest of a list of bytes. The message is padded to whole blocks of sixteen
words, and every block is mixed into a state of eight words.
-/
namespace PlanShape

namespace Sha256

structure State where
  a : UInt32
  b : UInt32
  c : UInt32
  d : UInt32
  e : UInt32
  f : UInt32
  g : UInt32
  h : UInt32
  deriving DecidableEq, Repr

def initial : State :=
  ⟨0x6a09e667, 0xbb67ae85, 0x3c6ef372, 0xa54ff53a, 0x510e527f, 0x9b05688c, 0x1f83d9ab, 0x5be0cd19⟩

def roundConstants : List UInt32 :=
  [0x428a2f98, 0x71374491, 0xb5c0fbcf, 0xe9b5dba5, 0x3956c25b, 0x59f111f1, 0x923f82a4, 0xab1c5ed5,
   0xd807aa98, 0x12835b01, 0x243185be, 0x550c7dc3, 0x72be5d74, 0x80deb1fe, 0x9bdc06a7, 0xc19bf174,
   0xe49b69c1, 0xefbe4786, 0x0fc19dc6, 0x240ca1cc, 0x2de92c6f, 0x4a7484aa, 0x5cb0a9dc, 0x76f988da,
   0x983e5152, 0xa831c66d, 0xb00327c8, 0xbf597fc7, 0xc6e00bf3, 0xd5a79147, 0x06ca6351, 0x14292967,
   0x27b70a85, 0x2e1b2138, 0x4d2c6dfc, 0x53380d13, 0x650a7354, 0x766a0abb, 0x81c2c92e, 0x92722c85,
   0xa2bfe8a1, 0xa81a664b, 0xc24b8b70, 0xc76c51a3, 0xd192e819, 0xd6990624, 0xf40e3585, 0x106aa070,
   0x19a4c116, 0x1e376c08, 0x2748774c, 0x34b0bcb5, 0x391c0cb3, 0x4ed8aa4a, 0x5b9cca4f, 0x682e6ff3,
   0x748f82ee, 0x78a5636f, 0x84c87814, 0x8cc70208, 0x90befffa, 0xa4506ceb, 0xbef9a3f7, 0xc67178f2]

/-- Rotation to the right, for amounts between 1 and 31. -/
def rotr (x : UInt32) (n : UInt32) : UInt32 := (x >>> n) ||| (x <<< (32 - n))

def bigSigma0 (x : UInt32) : UInt32 := rotr x 2 ^^^ rotr x 13 ^^^ rotr x 22
def bigSigma1 (x : UInt32) : UInt32 := rotr x 6 ^^^ rotr x 11 ^^^ rotr x 25
def smallSigma0 (x : UInt32) : UInt32 := rotr x 7 ^^^ rotr x 18 ^^^ (x >>> 3)
def smallSigma1 (x : UInt32) : UInt32 := rotr x 17 ^^^ rotr x 19 ^^^ (x >>> 10)
def choose (x y z : UInt32) : UInt32 := (x &&& y) ^^^ (~~~x &&& z)
def majority (x y z : UInt32) : UInt32 := (x &&& y) ^^^ (x &&& z) ^^^ (y &&& z)

/-- The sixteen words of a block extended to one word for each round. -/
def schedule (block : Array UInt32) : Array UInt32 :=
  Nat.fold 48 (fun i _ w =>
    w.push (smallSigma1 (w.getD (i + 14) 0) + w.getD (i + 9) 0 +
      smallSigma0 (w.getD (i + 1) 0) + w.getD i 0)) block

def round (s : State) (constant word : UInt32) : State :=
  let t₁ := s.h + bigSigma1 s.e + choose s.e s.f s.g + constant + word
  let t₂ := bigSigma0 s.a + majority s.a s.b s.c
  ⟨t₁ + t₂, s.a, s.b, s.c, s.d + t₁, s.e, s.f, s.g⟩

/-- One round for each constant, from the given word on. -/
def rounds (words : Array UInt32) : List UInt32 → Nat → State → State
  | [], _, s => s
  | k :: ks, i, s => rounds words ks (i + 1) (round s k (words.getD i 0))

/-- Mix one block into the state. -/
def compress (s : State) (block : Array UInt32) : State :=
  let t := rounds (schedule block) roundConstants 0 s
  ⟨s.a + t.a, s.b + t.b, s.c + t.c, s.d + t.d, s.e + t.e, s.f + t.f, s.g + t.g, s.h + t.h⟩

/-- A length in bits as eight bytes, highest first. -/
def bitLengthBytes (bytes : Nat) : List UInt8 :=
  (List.range 8).map fun i => ((bytes * 8) >>> (8 * (7 - i))).toUInt8

/-- The message, one marked byte, zeros up to the last eight bytes of a block, and the length. -/
def pad (message : List UInt8) : List UInt8 :=
  let n := message.length
  message ++ (0x80 :: (List.replicate ((119 - n % 64) % 64) 0 ++ bitLengthBytes n))

/-- Four bytes to a word, highest first. -/
def words : List UInt8 → List UInt32
  | a :: b :: c :: d :: rest =>
    ((a.toUInt32 <<< 24) ||| (b.toUInt32 <<< 16) ||| (c.toUInt32 <<< 8) ||| d.toUInt32) ::
      words rest
  | _ => []

/-- The state so far and the words of a block that is not yet full. -/
structure Progress where
  state : State
  block : Array UInt32

def Progress.absorb (p : Progress) (word : UInt32) : Progress :=
  let block := p.block.push word
  if block.size = 16 then ⟨compress p.state block, #[]⟩ else ⟨p.state, block⟩

/-- The state after the whole padded message. -/
def finalState (message : List UInt8) : State :=
  ((words (pad message)).foldl Progress.absorb ⟨initial, #[]⟩).state

def State.words (s : State) : Vector UInt32 8 :=
  #v[s.a, s.b, s.c, s.d, s.e, s.f, s.g, s.h]

/-- The bytes of the state words, highest byte of each word first. -/
def State.bytes (s : State) : Vector UInt8 32 :=
  Vector.ofFn fun i => (s.words[i.val / 4] >>> (24 - 8 * (i.val % 4)).toUInt32).toUInt8

end Sha256

/-- The 32 digest bytes of a message. -/
def sha256 (message : List UInt8) : Vector UInt8 32 := (Sha256.finalState message).bytes

end PlanShape
