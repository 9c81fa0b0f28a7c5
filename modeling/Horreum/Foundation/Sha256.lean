/-
  Foundation/Sha256.lean --- the SHA-256 hash function on byte strings.

  The message is padded to whole 64-byte blocks, and each block is folded into the
  eight-word state by 64 rounds over an expanded schedule of 64 words.
-/
import Horreum.Foundation.Bytes

set_option autoImplicit false

namespace Horreum.Foundation.Sha256

/-- The round constants. -/
def roundConstants : List UInt32 :=
  [0x428a2f98, 0x71374491, 0xb5c0fbcf, 0xe9b5dba5, 0x3956c25b, 0x59f111f1, 0x923f82a4, 0xab1c5ed5,
   0xd807aa98, 0x12835b01, 0x243185be, 0x550c7dc3, 0x72be5d74, 0x80deb1fe, 0x9bdc06a7, 0xc19bf174,
   0xe49b69c1, 0xefbe4786, 0x0fc19dc6, 0x240ca1cc, 0x2de92c6f, 0x4a7484aa, 0x5cb0a9dc, 0x76f988da,
   0x983e5152, 0xa831c66d, 0xb00327c8, 0xbf597fc7, 0xc6e00bf3, 0xd5a79147, 0x06ca6351, 0x14292967,
   0x27b70a85, 0x2e1b2138, 0x4d2c6dfc, 0x53380d13, 0x650a7354, 0x766a0abb, 0x81c2c92e, 0x92722c85,
   0xa2bfe8a1, 0xa81a664b, 0xc24b8b70, 0xc76c51a3, 0xd192e819, 0xd6990624, 0xf40e3585, 0x106aa070,
   0x19a4c116, 0x1e376c08, 0x2748774c, 0x34b0bcb5, 0x391c0cb3, 0x4ed8aa4a, 0x5b9cca4f, 0x682e6ff3,
   0x748f82ee, 0x78a5636f, 0x84c87814, 0x8cc70208, 0x90befffa, 0xa4506ceb, 0xbef9a3f7, 0xc67178f2]

/-- The initial hash value. -/
def initialState : List UInt32 :=
  [0x6a09e667, 0xbb67ae85, 0x3c6ef372, 0xa54ff53a, 0x510e527f, 0x9b05688c, 0x1f83d9ab, 0x5be0cd19]

/-- Rotate to the right. -/
def rotr (x : UInt32) (n : UInt32) : UInt32 := (x >>> n) ||| (x <<< (32 - n))

/-- The number a big-endian byte string stands for. -/
def beNat (bs : Bytes) : Nat := leNat bs.reverse

/-- The first `n` big-endian words of a byte string. -/
def words : (n : Nat) → Bytes → List UInt32
  | 0, _ => []
  | n + 1, bs => UInt32.ofNat (beNat (bs.take 4)) :: words n (bs.drop 4)

/-- Extend a schedule, kept latest word first, by `n` words. -/
def expand : (n : Nat) → List UInt32 → List UInt32
  | 0, w => w
  | n + 1, w =>
    let w₂ := w.getD 1 0
    let w₇ := w.getD 6 0
    let w₁₅ := w.getD 14 0
    let w₁₆ := w.getD 15 0
    let s₀ := rotr w₁₅ 7 ^^^ rotr w₁₅ 18 ^^^ (w₁₅ >>> 3)
    let s₁ := rotr w₂ 17 ^^^ rotr w₂ 19 ^^^ (w₂ >>> 10)
    expand n ((w₁₆ + s₀ + w₇ + s₁) :: w)

/-- One round with schedule word and constant. -/
def round (state : List UInt32) (kw : UInt32 × UInt32) : List UInt32 :=
  match state with
  | [a, b, c, d, e, f, g, h] =>
    let s₁ := rotr e 6 ^^^ rotr e 11 ^^^ rotr e 25
    let ch := (e &&& f) ^^^ (~~~e &&& g)
    let t₁ := h + s₁ + ch + kw.1 + kw.2
    let s₀ := rotr a 2 ^^^ rotr a 13 ^^^ rotr a 22
    let maj := (a &&& b) ^^^ (a &&& c) ^^^ (b &&& c)
    [t₁ + (s₀ + maj), a, b, c, d + t₁, e, f, g]
  | _ => state

/-- Take one block of 64 bytes into the state. -/
def compress (state : List UInt32) (block : Bytes) : List UInt32 :=
  let schedule := (expand 48 (words 16 block).reverse).reverse
  List.zipWith (· + ·) state ((roundConstants.zip schedule).foldl round state)

/-- Fold `n` blocks into the state. -/
def compressAll : (n : Nat) → Bytes → List UInt32 → List UInt32
  | 0, _, state => state
  | n + 1, bs, state => compressAll n (bs.drop 64) (compress state (bs.take 64))

/-- A one bit, zeros up to 56 bytes of the last block, and the length in bits. -/
def pad (msg : Bytes) : Bytes :=
  msg ++ 0x80 :: (List.replicate ((119 - msg.length % 64) % 64) 0 ++
    (leBytes 8 (msg.length * 8)).reverse)

/-- The eight words of the digest. -/
def digest (msg : Bytes) : List UInt32 :=
  compressAll ((pad msg).length / 64) (pad msg) initialState

/-- The published digest of `abc`. -/
example : digest [0x61, 0x62, 0x63] =
    [0xba7816bf, 0x8f01cfea, 0x414140de, 0x5dae2223, 0xb00361a3, 0x96177a9c, 0xb410ff61, 0xf20015ad] := by
  decide +kernel

end Horreum.Foundation.Sha256
