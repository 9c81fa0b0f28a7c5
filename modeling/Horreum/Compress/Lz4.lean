/-
  Compress/Lz4.lean --- the value compressors of `internal/compress`.

  The LZ4 block codec is modelled byte by byte.  The encoder writes into a buffer of
  fixed capacity, so its appends are partial; the decoder reads the block as a shrinking
  list, and its output is the part of the destination written so far, which is all it
  ever copies from.
-/
import Horreum.Foundation.Bytes
import Mathlib.Logic.Function.Basic

set_option autoImplicit false

namespace Horreum.Compress

open Foundation

/-- The shortest match. -/
def minMatch : Nat := 4

/-- The largest input of a block. -/
def maxInputSize : Nat := 0x7E000000

/-- These many bytes at the end are literals. -/
def lastLiterals : Nat := 5

/-- How far back a match may start. -/
def winSize : Nat := 2 ^ 16

/-- The length of the size in front of a block. -/
def sizePrefix : Nat := 4

/-- The errors of the package. -/
inductive Error where
  | corrupt
  | tooLarge
  | length (got expected : Nat)
  deriving DecidableEq, Repr

/-! ## Buffers -/

/-- The capacities of pooled buffers. -/
def poolClasses : List Nat := [4 * 2 ^ 10, 16 * 2 ^ 10, 64 * 2 ^ 10, 256 * 2 ^ 10, 2 ^ 20]

/-- The capacity of a pooled buffer of length `n`: that of its class, or `n` itself past the
last class. -/
def poolCap (n : Nat) : Nat := (poolClasses.find? fun c => n ≤ c).getD n

/-- `dst[:dp+1]` panics past the capacity. -/
def appendByte (cap : Nat) (dst : Bytes) (b : UInt8) : Option Bytes :=
  if dst.length + 1 ≤ cap then some (dst ++ [b]) else none

/-- Append if the capacity allows it. -/
def appendBytes (cap : Nat) (dst src : Bytes) : Option Bytes :=
  if src.length = 0 then some dst
  else if dst.length + src.length ≤ cap then some (dst ++ src) else none

/-- A length past 15: bytes 255 while it lasts, then the remainder. -/
def appendLen (cap : Nat) (dst : Bytes) (length : Nat) : Option Bytes :=
  if length ≥ 255 then
    (appendByte cap dst 255).bind fun dst => appendLen cap dst (length - 255)
  else appendByte cap dst (UInt8.ofNat length)
termination_by length

/-! ## Encoder -/

/-- The hash of four bytes. -/
def hashU32 (v : UInt32) : UInt32 := (v * 2654435761) >>> 16

/-- Four bytes, little-endian. -/
def read32 (src : Bytes) (i : Nat) : UInt32 := UInt32.ofNat (wordAt src i 4)

/-- The number of equal bytes from `ref` and `cur` on, up to `stop`. -/
def matchLength (src : Bytes) (stop : Nat) : (fuel ref cur : Nat) → Nat
  | 0, _, _ => 0
  | fuel + 1, ref, cur =>
    if cur < stop ∧ ref < stop ∧ src[ref]? = src[cur]? then
      matchLength src stop fuel (ref + 1) (cur + 1) + 1
    else 0

/-- The high nibble of a token, for the literals. -/
def literalNibble (litLen : Nat) : UInt8 :=
  if litLen ≥ 15 then 0xF0 else UInt8.ofNat (litLen <<< 4)

/-- The low nibble of a token, for the match. -/
def matchNibble (ml : Nat) : UInt8 := if ml ≥ 15 then 0x0F else UInt8.ofNat ml

/-- The extra length bytes behind a token. -/
def appendExtra (cap : Nat) (dst : Bytes) (length : Nat) : Option Bytes :=
  if length ≥ 15 then appendLen cap dst (length - 15) else some dst

/-- A token's literals: the extra length bytes and the bytes themselves. -/
def appendLiterals (cap : Nat) (dst lits : Bytes) : Option Bytes := do
  let dst ← appendExtra cap dst lits.length
  appendBytes cap dst lits

/-- The state of the encoder: the table, the position, the start of the literals, the output. -/
structure Encoder where
  hashTable : UInt32 → UInt32
  sp : Nat
  anchor : Nat
  dst : Bytes

/-- One round of the search loop: advance by one, or emit a sequence. -/
def encodeStep (cap : Nat) (src : Bytes) (mfLimit : Nat) (s : Encoder) : Option Encoder := do
  let h := hashU32 (read32 src s.sp)
  let ref := (s.hashTable h).toNat
  let hashTable := Function.update s.hashTable h (UInt32.ofNat s.sp)
  if ref = 0 ∨ s.sp - ref ≥ winSize ∨ read32 src ref ≠ read32 src s.sp then
    some { s with hashTable := hashTable, sp := s.sp + 1 }
  else
    let lits := slice src s.anchor s.sp
    let ml := matchLength src src.length (src.length - s.sp) (ref + minMatch) (s.sp + minMatch)
    let dst ← appendByte cap s.dst (literalNibble lits.length ||| matchNibble ml)
    let dst ← appendLiterals cap dst lits
    let offset := s.sp - ref
    let dst ← appendByte cap dst (UInt8.ofNat offset)
    let dst ← appendByte cap dst (UInt8.ofNat (offset >>> 8))
    let dst ← appendExtra cap dst ml
    let sp := s.sp + minMatch + ml
    let hashTable :=
      if sp ≤ mfLimit then
        Function.update hashTable (hashU32 (read32 src (sp - 2))) (UInt32.ofNat (sp - 2))
      else hashTable
    some ⟨hashTable, sp, sp, dst⟩

/-- The main loop of the encoder. -/
def encodeLoop (cap : Nat) (src : Bytes) (mfLimit : Nat) : (fuel : Nat) → Encoder → Option Encoder
  | 0, _ => none
  | fuel + 1, s =>
    if s.sp ≤ mfLimit then do
      let s ← encodeStep cap src mfLimit s
      encodeLoop cap src mfLimit fuel s
    else some s

/-- The compressed block, empty where the source returns zero. -/
def compressBlock (cap : Nat) (src : Bytes) : Option Bytes := do
  if src.length < minMatch + lastLiterals then some []
  else
    let mfLimit := src.length - lastLiterals - minMatch
    let s ← encodeLoop cap src mfLimit (src.length + 1) ⟨fun _ => 0, 0, 0, []⟩
    let lits := slice src s.anchor src.length
    if lits.length = 0 ∧ s.dst.length = 0 then some []
    else
      let dst ← appendByte cap s.dst (literalNibble lits.length)
      appendLiterals cap dst lits

/-! ## Decoder -/

/-- The extra bytes of a length whose nibble is 15. -/
def readExtra : (src : Bytes) → (length : Nat) → Nat × Bytes
  | [], length => (length, [])
  | b :: src, length =>
    if b.toNat < 255 then (length + b.toNat, src) else readExtra src (length + b.toNat)

/-- A nibble with its extra bytes. -/
def readLen (nibble : Nat) (src : Bytes) : Nat × Bytes :=
  if nibble = 15 then readExtra src 15 else (nibble, src)

/-- Byte by byte, so that a match may reach into what it is writing. -/
def copyMatch : (n : Nat) → (dst : Bytes) → (matchPos : Nat) → Bytes
  | 0, dst, _ => dst
  | n + 1, dst, matchPos => copyMatch n (dst ++ [dst.getD matchPos 0]) (matchPos + 1)

/-- One sequence after its token.  The first component is the rest of the block, `none`
after the last sequence. -/
def decodeSequence (dn : Nat) (token : UInt8) (src dst : Bytes) :
    Except Error (Option Bytes × Bytes) :=
  let (litLen, src) := readLen (token >>> 4).toNat src
  if litLen > 0 ∧ (litLen > src.length ∨ dst.length + litLen > dn) then .error .corrupt
  else
    let dst := dst ++ src.take litLen
    match src.drop litLen with
    | [] => .ok (none, dst)
    | [_] => .error .corrupt
    | lo :: hi :: src =>
      let offset := lo.toNat ||| hi.toNat <<< 8
      if offset = 0 then .error .corrupt
      else
        let (ml, src) := readLen (token &&& 0x0F).toNat src
        let matchLen := ml + minMatch
        if offset > dst.length ∨ dst.length + matchLen > dn then .error .corrupt
        else .ok (some src, copyMatch matchLen dst (dst.length - offset))

/-- Each round takes at least the token, so the length of the block is fuel enough. -/
def decodeLoop (dn : Nat) : (fuel : Nat) → (src dst : Bytes) → Except Error Bytes
  | 0, _, dst => .ok dst
  | _ + 1, [], dst => .ok dst
  | fuel + 1, token :: src, dst =>
    match decodeSequence dn token src dst with
    | .error e => .error e
    | .ok (none, dst) => .ok dst
    | .ok (some src, dst) => decodeLoop dn fuel src dst

/-- `decompressBlock` -/
def decompressBlock (dn : Nat) (src : Bytes) : Except Error Bytes :=
  decodeLoop dn src.length src []

/-! ## Compressors -/

/-- `minSize` is the least payload that is worth trying; the field is exported and may be set to
anything. -/
structure LZ4 where
  minSize : Int
  deriving DecidableEq, Repr

/-- `NewLZ4`: by default values of 64 bytes or more are compressed. -/
def newLZ4 (minSize : Int) : LZ4 := ⟨if minSize ≤ 0 then 64 else minSize⟩

/-- `some none` is the source's `(nil, false)`. -/
def LZ4.compress (c : LZ4) (src : Bytes) : Option (Option Bytes) := do
  let n := src.length
  if n < c.minSize ∨ n > maxInputSize then some none
  else
    let maxOut := sizePrefix + n + n / 255 + 16
    let block ← compressBlock (poolCap maxOut - sizePrefix) src
    if block.length = 0 ∨ sizePrefix + block.length ≥ n then some none
    else some (some (leBytes sizePrefix n ++ block))

/-- Check the size in front, then decode. -/
def LZ4.decompress (src : Bytes) : Except Error Bytes :=
  if src.length < sizePrefix then .error .corrupt
  else
    let origSize := leNat (src.take sizePrefix)
    if origSize > maxInputSize then .error .tooLarge
    else
      match decompressBlock origSize (src.drop sizePrefix) with
      | .error e => .error e
      | .ok dst => if dst.length ≠ origSize then .error (.length dst.length origSize) else .ok dst

/-- The two compressors. -/
inductive Compressor where
  | noop
  | lz4 (c : LZ4)
  deriving DecidableEq, Repr

namespace Compressor

/-- Whether nothing is compressed. -/
def isNone : Compressor → Bool
  | noop => true
  | lz4 _ => false

/-- `Compressor.Compress`; the inner `none` is a value stored as it is. -/
def compress : Compressor → Bytes → Option (Option Bytes)
  | noop, _ => some none
  | lz4 c, src => c.compress src

/-- `Compressor.Decompress` -/
def decompress : Compressor → Bytes → Except Error Bytes
  | noop, src => .ok src
  | lz4 _, src => LZ4.decompress src

end Compressor

end Horreum.Compress
