import AgentGov.Foundation.Text

/-!
# SHA-256

The digest of FIPS 180-4 over bytes, with words as natural numbers below `2 ^ 32`. The message
schedule is kept as the window of the sixteen words a round reads. Words are combined by `Nat`'s
own functions, which evaluate fast.

## Main definitions

* `Foundation.sha256`: the thirty-two bytes of the digest.
* `Foundation.sha256Hex`: the digest in hexadecimal.

## Main results

* `Foundation.length_sha256`: a digest has thirty-two bytes.
-/

namespace Foundation

namespace Sha256

/-- The modulus of a word. -/
def wordModulus : ℕ := 4294967296

/-- The sum of two words. -/
def plus (x y : ℕ) : ℕ := Nat.mod (Nat.add x y) wordModulus

/-- The word rotated right by `n` bits. -/
def rotr (n x : ℕ) : ℕ :=
  Nat.lor (Nat.shiftRight x n) (Nat.mod (Nat.shiftLeft x (Nat.sub 32 n)) wordModulus)

/-- The exclusive or of three words. -/
def xor3 (x y z : ℕ) : ℕ := Nat.xor (Nat.xor x y) z

/-- The function mixing an early word into the schedule. -/
def smallSigma0 (x : ℕ) : ℕ := xor3 (rotr 7 x) (rotr 18 x) (Nat.shiftRight x 3)

/-- The function mixing a late word into the schedule. -/
def smallSigma1 (x : ℕ) : ℕ := xor3 (rotr 17 x) (rotr 19 x) (Nat.shiftRight x 10)

/-- The function of the first working word. -/
def bigSigma0 (x : ℕ) : ℕ := xor3 (rotr 2 x) (rotr 13 x) (rotr 22 x)

/-- The function of the fifth working word. -/
def bigSigma1 (x : ℕ) : ℕ := xor3 (rotr 6 x) (rotr 11 x) (rotr 25 x)

/-- Each bit of `y` or of `z`, as `x` chooses. -/
def choose (x y z : ℕ) : ℕ := Nat.xor (Nat.land x y) (Nat.land (Nat.sub 0xffffffff x) z)

/-- Each bit the majority of three have. -/
def majority (x y z : ℕ) : ℕ := xor3 (Nat.land x y) (Nat.land x z) (Nat.land y z)

/-- The round constants. -/
def roundConstants : List ℕ :=
  [0x428a2f98, 0x71374491, 0xb5c0fbcf, 0xe9b5dba5, 0x3956c25b, 0x59f111f1, 0x923f82a4, 0xab1c5ed5,
   0xd807aa98, 0x12835b01, 0x243185be, 0x550c7dc3, 0x72be5d74, 0x80deb1fe, 0x9bdc06a7, 0xc19bf174,
   0xe49b69c1, 0xefbe4786, 0x0fc19dc6, 0x240ca1cc, 0x2de92c6f, 0x4a7484aa, 0x5cb0a9dc, 0x76f988da,
   0x983e5152, 0xa831c66d, 0xb00327c8, 0xbf597fc7, 0xc6e00bf3, 0xd5a79147, 0x06ca6351, 0x14292967,
   0x27b70a85, 0x2e1b2138, 0x4d2c6dfc, 0x53380d13, 0x650a7354, 0x766a0abb, 0x81c2c92e, 0x92722c85,
   0xa2bfe8a1, 0xa81a664b, 0xc24b8b70, 0xc76c51a3, 0xd192e819, 0xd6990624, 0xf40e3585, 0x106aa070,
   0x19a4c116, 0x1e376c08, 0x2748774c, 0x34b0bcb5, 0x391c0cb3, 0x4ed8aa4a, 0x5b9cca4f, 0x682e6ff3,
   0x748f82ee, 0x78a5636f, 0x84c87814, 0x8cc70208, 0x90befffa, 0xa4506ceb, 0xbef9a3f7, 0xc67178f2]

/-- The eight working words. -/
structure Words where
  a : ℕ
  b : ℕ
  c : ℕ
  d : ℕ
  e : ℕ
  f : ℕ
  g : ℕ
  h : ℕ

/-- The words a digest starts from. -/
def initialWords : Words :=
  ⟨0x6a09e667, 0xbb67ae85, 0x3c6ef372, 0xa54ff53a, 0x510e527f, 0x9b05688c, 0x1f83d9ab, 0x5be0cd19⟩

/-- One round, with the constant `k` and the schedule's word `w`. -/
def round (s : Words) (k w : ℕ) : Words :=
  let t1 := Nat.add (Nat.add (Nat.add s.h (bigSigma1 s.e)) (choose s.e s.f s.g)) (Nat.add k w)
  let t2 := Nat.add (bigSigma0 s.a) (majority s.a s.b s.c)
  ⟨plus t1 t2, s.a, s.b, s.c, plus s.d t1, s.e, s.f, s.g⟩

/-- The sixteen words of the message schedule a round reads. -/
structure Window where
  (w0 w1 w2 w3 w4 w5 w6 w7 w8 w9 w10 w11 w12 w13 w14 w15 : ℕ)

/-- The window of a block. -/
def Window.ofBlock (block : List ℕ) : Window :=
  let w := fun i => block.getD i 0
  ⟨w 0, w 1, w 2, w 3, w 4, w 5, w 6, w 7, w 8, w 9, w 10, w 11, w 12, w 13, w 14, w 15⟩

/-- The window of the schedule moved on by one word. -/
def Window.slide (v : Window) : Window :=
  ⟨v.w1, v.w2, v.w3, v.w4, v.w5, v.w6, v.w7, v.w8, v.w9, v.w10, v.w11, v.w12, v.w13, v.w14, v.w15,
    plus (Nat.add (smallSigma1 v.w14) v.w9) (Nat.add (smallSigma0 v.w1) v.w0)⟩

/-- The rounds of a block, one for each constant. -/
def rounds : List ℕ → Window → Words → Words
  | [], _, s => s
  | k :: ks, window, s => rounds ks window.slide (round s k window.w0)

/-- The words after one more block. -/
def compress (s : Words) (block : List ℕ) : Words :=
  let r := rounds roundConstants (.ofBlock block) s
  ⟨plus s.a r.a, plus s.b r.b, plus s.c r.c, plus s.d r.d, plus s.e r.e, plus s.f r.f,
    plus s.g r.g, plus s.h r.h⟩

/-- The lower `width` bytes of a number, most significant first. -/
def bigEndian : ℕ → ℕ → List Byte
  | 0, _ => []
  | width + 1, n => bigEndian width (n / 256) ++ [Fin.ofNat 256 n]

/-- The message with its padding and its length in bits. -/
def pad (message : List Byte) : List Byte :=
  message ++ [Fin.ofNat 256 0x80] ++ List.replicate ((119 - message.length % 64) % 64) 0 ++
    bigEndian 8 (8 * message.length)

/-- Bytes as big-endian words of four. -/
def toWords : List Byte → List ℕ
  | a :: b :: c :: d :: rest =>
    (((a.val * 256 + b.val) * 256 + c.val) * 256 + d.val) :: toWords rest
  | _ => []

/-- The words after a message of so many blocks. -/
def digestWords : ℕ → List ℕ → Words → Words
  | 0, _, s => s
  | blocks + 1, words, s => digestWords blocks (words.drop 16) (compress s (words.take 16))

end Sha256

open Sha256

/-- The SHA-256 digest of a message. -/
def sha256 (message : List Byte) : List Byte :=
  let words := toWords (pad message)
  let s := digestWords (words.length / 16) words initialWords
  [s.a, s.b, s.c, s.d, s.e, s.f, s.g, s.h].flatMap (bigEndian 4)

/-- The digest in hexadecimal. -/
def sha256Hex (message : List Byte) : Text := toHex (sha256 message)

theorem length_bigEndian (width n : ℕ) : (bigEndian width n).length = width := by
  induction width generalizing n with
  | zero => rfl
  | succ width ih => simp [bigEndian, ih]

/-- A digest has thirty-two bytes. -/
@[simp] theorem length_sha256 (message : List Byte) : (sha256 message).length = 32 := by
  simp [sha256, length_bigEndian]

@[simp] theorem length_sha256Hex (message : List Byte) : (sha256Hex message).length = 64 := by
  simp [sha256Hex]

@[simp] theorem fromHex_sha256Hex (message : List Byte) :
    fromHex (sha256Hex message) = some (sha256 message) :=
  fromHex_toHex _

end Foundation
