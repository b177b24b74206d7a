import AgentGov.Foundation.Sha256

/-!
# SHA-512

The digest of FIPS 180-4 over words of sixty-four bits, on the working words and the schedule
window of `Foundation.Sha256`.

## Main definitions

* `Foundation.sha512`: the sixty-four bytes of the digest.

## Main results

* `Foundation.length_sha512`: a digest has sixty-four bytes.
-/

namespace Foundation

namespace Sha512

open Sha256 (Words Window xor3 majority bigEndian)

/-- The modulus of a word. -/
def wordModulus : ℕ := 18446744073709551616

/-- The sum of two words. -/
def plus (x y : ℕ) : ℕ := Nat.mod (Nat.add x y) wordModulus

/-- The word rotated right by `n` bits. -/
def rotr (n x : ℕ) : ℕ :=
  Nat.lor (Nat.shiftRight x n) (Nat.mod (Nat.shiftLeft x (Nat.sub 64 n)) wordModulus)

/-- The function mixing an early word into the schedule. -/
def smallSigma0 (x : ℕ) : ℕ := xor3 (rotr 1 x) (rotr 8 x) (Nat.shiftRight x 7)

/-- The function mixing a late word into the schedule. -/
def smallSigma1 (x : ℕ) : ℕ := xor3 (rotr 19 x) (rotr 61 x) (Nat.shiftRight x 6)

/-- The function of the first working word. -/
def bigSigma0 (x : ℕ) : ℕ := xor3 (rotr 28 x) (rotr 34 x) (rotr 39 x)

/-- The function of the fifth working word. -/
def bigSigma1 (x : ℕ) : ℕ := xor3 (rotr 14 x) (rotr 18 x) (rotr 41 x)

/-- Each bit of `y` or of `z`, as `x` chooses. -/
def choose (x y z : ℕ) : ℕ := Nat.xor (Nat.land x y) (Nat.land (Nat.sub 0xffffffffffffffff x) z)

/-- The round constants. -/
def roundConstants : List ℕ :=
  [0x428a2f98d728ae22, 0x7137449123ef65cd, 0xb5c0fbcfec4d3b2f, 0xe9b5dba58189dbbc,
   0x3956c25bf348b538, 0x59f111f1b605d019, 0x923f82a4af194f9b, 0xab1c5ed5da6d8118,
   0xd807aa98a3030242, 0x12835b0145706fbe, 0x243185be4ee4b28c, 0x550c7dc3d5ffb4e2,
   0x72be5d74f27b896f, 0x80deb1fe3b1696b1, 0x9bdc06a725c71235, 0xc19bf174cf692694,
   0xe49b69c19ef14ad2, 0xefbe4786384f25e3, 0x0fc19dc68b8cd5b5, 0x240ca1cc77ac9c65,
   0x2de92c6f592b0275, 0x4a7484aa6ea6e483, 0x5cb0a9dcbd41fbd4, 0x76f988da831153b5,
   0x983e5152ee66dfab, 0xa831c66d2db43210, 0xb00327c898fb213f, 0xbf597fc7beef0ee4,
   0xc6e00bf33da88fc2, 0xd5a79147930aa725, 0x06ca6351e003826f, 0x142929670a0e6e70,
   0x27b70a8546d22ffc, 0x2e1b21385c26c926, 0x4d2c6dfc5ac42aed, 0x53380d139d95b3df,
   0x650a73548baf63de, 0x766a0abb3c77b2a8, 0x81c2c92e47edaee6, 0x92722c851482353b,
   0xa2bfe8a14cf10364, 0xa81a664bbc423001, 0xc24b8b70d0f89791, 0xc76c51a30654be30,
   0xd192e819d6ef5218, 0xd69906245565a910, 0xf40e35855771202a, 0x106aa07032bbd1b8,
   0x19a4c116b8d2d0c8, 0x1e376c085141ab53, 0x2748774cdf8eeb99, 0x34b0bcb5e19b48a8,
   0x391c0cb3c5c95a63, 0x4ed8aa4ae3418acb, 0x5b9cca4f7763e373, 0x682e6ff3d6b2b8a3,
   0x748f82ee5defb2fc, 0x78a5636f43172f60, 0x84c87814a1f0ab72, 0x8cc702081a6439ec,
   0x90befffa23631e28, 0xa4506cebde82bde9, 0xbef9a3f7b2c67915, 0xc67178f2e372532b,
   0xca273eceea26619c, 0xd186b8c721c0c207, 0xeada7dd6cde0eb1e, 0xf57d4f7fee6ed178,
   0x06f067aa72176fba, 0x0a637dc5a2c898a6, 0x113f9804bef90dae, 0x1b710b35131c471b,
   0x28db77f523047d84, 0x32caab7b40c72493, 0x3c9ebe0a15c9bebc, 0x431d67c49c100d4c,
   0x4cc5d4becb3e42b6, 0x597f299cfc657e2a, 0x5fcb6fab3ad6faec, 0x6c44198c4a475817]

/-- The words a digest starts from. -/
def initialWords : Words :=
  ⟨0x6a09e667f3bcc908, 0xbb67ae8584caa73b, 0x3c6ef372fe94f82b, 0xa54ff53a5f1d36f1,
    0x510e527fade682d1, 0x9b05688c2b3e6c1f, 0x1f83d9abfb41bd6b, 0x5be0cd19137e2179⟩

/-- One round, with the constant `k` and the schedule's word `w`. -/
def round (s : Words) (k w : ℕ) : Words :=
  let t1 := Nat.add (Nat.add (Nat.add s.h (bigSigma1 s.e)) (choose s.e s.f s.g)) (Nat.add k w)
  let t2 := Nat.add (bigSigma0 s.a) (majority s.a s.b s.c)
  ⟨plus t1 t2, s.a, s.b, s.c, plus s.d t1, s.e, s.f, s.g⟩

/-- The window of the schedule moved on by one word. -/
def slide (v : Window) : Window :=
  ⟨v.w1, v.w2, v.w3, v.w4, v.w5, v.w6, v.w7, v.w8, v.w9, v.w10, v.w11, v.w12, v.w13, v.w14, v.w15,
    plus (Nat.add (smallSigma1 v.w14) v.w9) (Nat.add (smallSigma0 v.w1) v.w0)⟩

/-- The rounds of a block, one for each constant. -/
def rounds : List ℕ → Window → Words → Words
  | [], _, s => s
  | k :: ks, window, s => rounds ks (slide window) (round s k window.w0)

/-- The words after one more block. -/
def compress (s : Words) (block : List ℕ) : Words :=
  let r := rounds roundConstants (.ofBlock block) s
  ⟨plus s.a r.a, plus s.b r.b, plus s.c r.c, plus s.d r.d, plus s.e r.e, plus s.f r.f,
    plus s.g r.g, plus s.h r.h⟩

/-- The message with its padding and its length in bits. -/
def pad (message : List Byte) : List Byte :=
  message ++ [Fin.ofNat 256 0x80] ++ List.replicate ((239 - message.length % 128) % 128) 0 ++
    bigEndian 16 (8 * message.length)

/-- Bytes as big-endian words of eight. -/
def toWords : List Byte → List ℕ
  | a :: b :: c :: d :: e :: f :: g :: h :: rest =>
    [a, b, c, d, e, f, g, h].foldl (fun n x => n * 256 + x.val) 0 :: toWords rest
  | _ => []

/-- The words after a message of so many blocks. -/
def digestWords : ℕ → List ℕ → Words → Words
  | 0, _, s => s
  | blocks + 1, words, s => digestWords blocks (words.drop 16) (compress s (words.take 16))

end Sha512

open Sha256 (bigEndian)

/-- The SHA-512 digest of a message. -/
def sha512 (message : List Byte) : List Byte :=
  let words := Sha512.toWords (Sha512.pad message)
  let s := Sha512.digestWords (words.length / 16) words Sha512.initialWords
  [s.a, s.b, s.c, s.d, s.e, s.f, s.g, s.h].flatMap (bigEndian 8)

/-- A digest has sixty-four bytes. -/
@[simp] theorem length_sha512 (message : List Byte) : (sha512 message).length = 64 := by
  simp [sha512, length_bigEndian]

end Foundation
