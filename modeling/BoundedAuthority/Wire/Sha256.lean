import BoundedAuthority.Wire.Bytes

/-!
# SHA-256

FIPS 180-4 on natural numbers below `2^32`, so that a digest can be computed.  No
property of the function is used but the size of its output
(`length_hash`).
-/

namespace Wire.Sha256

/-- A word from the right. -/
def rotateRight (x n : Nat) : Nat := (x >>> n ||| x <<< (32 - n)) % 2 ^ 32

def lowerSigma0 (x : Nat) : Nat := rotateRight x 7 ^^^ rotateRight x 18 ^^^ x >>> 3

def lowerSigma1 (x : Nat) : Nat := rotateRight x 17 ^^^ rotateRight x 19 ^^^ x >>> 10

def upperSigma0 (x : Nat) : Nat := rotateRight x 2 ^^^ rotateRight x 13 ^^^ rotateRight x 22

def upperSigma1 (x : Nat) : Nat := rotateRight x 6 ^^^ rotateRight x 11 ^^^ rotateRight x 25

def choose (x y z : Nat) : Nat := x &&& y ^^^ (2 ^ 32 - 1 - x) &&& z

def majority (x y z : Nat) : Nat := x &&& y ^^^ x &&& z ^^^ y &&& z

/-- The round constants. -/
def roundConstants : List Nat :=
  [0x428A2F98, 0x71374491, 0xB5C0FBCF, 0xE9B5DBA5, 0x3956C25B, 0x59F111F1, 0x923F82A4, 0xAB1C5ED5,
    0xD807AA98, 0x12835B01, 0x243185BE, 0x550C7DC3, 0x72BE5D74, 0x80DEB1FE, 0x9BDC06A7, 0xC19BF174,
    0xE49B69C1, 0xEFBE4786, 0x0FC19DC6, 0x240CA1CC, 0x2DE92C6F, 0x4A7484AA, 0x5CB0A9DC, 0x76F988DA,
    0x983E5152, 0xA831C66D, 0xB00327C8, 0xBF597FC7, 0xC6E00BF3, 0xD5A79147, 0x06CA6351, 0x14292967,
    0x27B70A85, 0x2E1B2138, 0x4D2C6DFC, 0x53380D13, 0x650A7354, 0x766A0ABB, 0x81C2C92E, 0x92722C85,
    0xA2BFE8A1, 0xA81A664B, 0xC24B8B70, 0xC76C51A3, 0xD192E819, 0xD6990624, 0xF40E3585, 0x106AA070,
    0x19A4C116, 0x1E376C08, 0x2748774C, 0x34B0BCB5, 0x391C0CB3, 0x4ED8AA4A, 0x5B9CCA4F, 0x682E6FF3,
    0x748F82EE, 0x78A5636F, 0x84C87814, 0x8CC70208, 0x90BEFFFA, 0xA4506CEB, 0xBEF9A3F7, 0xC67178F2]

/-- The eight working variables. -/
structure State where
  a : Nat
  b : Nat
  c : Nat
  d : Nat
  e : Nat
  f : Nat
  g : Nat
  h : Nat
deriving DecidableEq

/-- The initial hash value. -/
def initial : State :=
  ⟨0x6A09E667, 0xBB67AE85, 0x3C6EF372, 0xA54FF53A, 0x510E527F, 0x9B05688C, 0x1F83D9AB, 0x5BE0CD19⟩

/-- The words of the schedule, the latest first. -/
def extend : Nat → List Nat → List Nat
  | 0, words => words
  | n + 1, words =>
      extend n ((lowerSigma1 (words.getD 1 0) + words.getD 6 0 + lowerSigma0 (words.getD 14 0) +
        words.getD 15 0) % 2 ^ 32 :: words)

/-- One round. -/
def round (s : State) (constant word : Nat) : State :=
  let t₁ := s.h + upperSigma1 s.e + choose s.e s.f s.g + constant + word
  let t₂ := upperSigma0 s.a + majority s.a s.b s.c
  ⟨(t₁ + t₂) % 2 ^ 32, s.a, s.b, s.c, (s.d + t₁) % 2 ^ 32, s.e, s.f, s.g⟩

/-- The rounds of one block. -/
def rounds : State → List (Nat × Nat) → State
  | s, [] => s
  | s, (constant, word) :: rest => rounds (round s constant word) rest

/-- The words of a block. -/
def toWords : Bytes → List Nat
  | a :: b :: c :: d :: rest =>
      (((a.toNat * 256 + b.toNat) * 256 + c.toNat) * 256 + d.toNat) :: toWords rest
  | _ => []

/-- One block into the hash value. -/
def compress (s : State) (block : Bytes) : State :=
  let schedule := (extend 48 (toWords block).reverse).reverse
  let t := rounds s (roundConstants.zip schedule)
  ⟨(s.a + t.a) % 2 ^ 32, (s.b + t.b) % 2 ^ 32, (s.c + t.c) % 2 ^ 32, (s.d + t.d) % 2 ^ 32,
    (s.e + t.e) % 2 ^ 32, (s.f + t.f) % 2 ^ 32, (s.g + t.g) % 2 ^ 32, (s.h + t.h) % 2 ^ 32⟩

/-- The blocks, at most `n` of them. -/
def compressAll : Nat → State → Bytes → State
  | 0, s, _ => s
  | _ + 1, s, [] => s
  | n + 1, s, b :: bs => compressAll n (compress s ((b :: bs).take 64)) ((b :: bs).drop 64)

/-- The message filled up to whole blocks. -/
def pad (message : Bytes) : Bytes :=
  message ++ 0x80 :: (List.replicate ((119 - message.length % 64) % 64) 0 ++
    bigEndian 8 (message.length * 8))

/-- The digest of a message. -/
def hash (message : Bytes) : Bytes :=
  let padded := pad message
  let s := compressAll padded.length initial padded
  [s.a, s.b, s.c, s.d, s.e, s.f, s.g, s.h].flatMap (bigEndian 4)

theorem length_hash (message : Bytes) : (hash message).length = 32 := by
  simp [hash]

example : hash (ascii "abc") = bigEndian 32
    0xBA7816BF8F01CFEA414140DE5DAE2223B00361A396177A9CB410FF61F20015AD := by
  decide

end Wire.Sha256
