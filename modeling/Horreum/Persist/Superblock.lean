/-
  Persist/Superblock.lean --- the head of the arena file, `superblock.go` and the raw access
  helpers of `recovery.go` in `internal/arena/persist`.

  The first 4096 bytes of the file are the superblock, and behind them is the area of the
  index checkpoint.  Both are read and written through the mapping of the first region.
-/
import Horreum.Persist.Wal

set_option autoImplicit false

namespace Horreum.Persist

open Foundation
open Arena (Manager)

/-- The errors of the package. -/
inductive Error where
  | noRegions
  | readPastEnd
  | writePastEnd
  | bufferTooSmall
  | badMagic
  | badVersion
  | checkpointBadMagic
  | checkpointVersion (ver : Nat)
  | keyTooLong (entry keyLen : Nat)
  | bufferOverflow (entry : Nat)
  | truncated (entry : Nat)
  | keyTruncated (entry : Nat)
  | regionSizeZero
  | syncFailed
  | arena (e : Arena.Error)
  | wal (e : WalError)
  deriving DecidableEq, Repr

/-- The length of the superblock. -/
def superblockSize : Nat := 4096

/-- `HORREUM` and a NUL. -/
def magic : Bytes := [0x48, 0x4f, 0x52, 0x52, 0x45, 0x55, 0x4d, 0x00]

/-- The version of the format. -/
def version : UInt32 := 1

/-- The fields of the superblock. -/
structure Superblock where
  version : UInt32
  regionSize : UInt64
  indexOffset : UInt64
  indexLen : UInt64
  walOffset : UInt64
  flags : UInt32
  checkpointCount : UInt64
  deriving DecidableEq, Repr

/-- `encodeSuperblock` -/
def encodeSuperblock (sb : Superblock) : Bytes :=
  magic ++ (leBytes 4 sb.version.toNat ++ (leBytes 8 sb.regionSize.toNat ++
    (leBytes 8 sb.indexOffset.toNat ++ (leBytes 8 sb.indexLen.toNat ++
      (leBytes 8 sb.walOffset.toNat ++ (leBytes 4 sb.flags.toNat ++
        (leBytes 8 sb.checkpointCount.toNat ++ List.replicate 4040 0)))))))

/-- `decodeSuperblock` -/
def decodeSuperblock (buf : Bytes) : Except Error Superblock :=
  if buf.length < superblockSize then .error .bufferTooSmall
  else if buf.take 8 ≠ magic then .error .badMagic
  else if UInt32.ofNat (wordAt buf 8 4) ≠ version then .error .badVersion
  else .ok {
    version := UInt32.ofNat (wordAt buf 8 4)
    regionSize := UInt64.ofNat (wordAt buf 12 8)
    indexOffset := UInt64.ofNat (wordAt buf 20 8)
    indexLen := UInt64.ofNat (wordAt buf 28 8)
    walOffset := UInt64.ofNat (wordAt buf 36 8)
    flags := UInt32.ofNat (wordAt buf 44 4)
    checkpointCount := UInt64.ofNat (wordAt buf 48 8) }

/-- An eighth of the region, at least 4096 bytes and at most a mebibyte. -/
def indexCheckpointMaxLen (regionSize : Nat) : Nat :=
  let v := regionSize / 8
  let v := if v > 2 ^ 20 then 2 ^ 20 else v
  if v < 4096 then 4096 else v

/-- A quarter of the region, at least 4096 bytes and at most 64 MiB. -/
def walMaxLen (regionSize : Nat) : Nat :=
  let v := regionSize / 4
  let v := if v > 64 * 2 ^ 20 then 64 * 2 ^ 20 else v
  if v < 4096 then 4096 else v

/-- `n` bytes of the first region from `off` on. -/
def copyArenaTo (m : Manager) (off n : Nat) : Except Error Bytes :=
  match m.regions with
  | [] => .error .noRegions
  | reg :: _ => if off + n > reg.data.size then .error .readPastEnd else .ok (reg.data.read off n)

/-- Write into the first region. -/
def copyToArena (m : Manager) (off : Nat) (buf : Bytes) : Except Error Manager :=
  match m.regions with
  | [] => .error .noRegions
  | reg :: rest =>
    if off + buf.length > reg.data.size then .error .writePastEnd
    else .ok { m with regions := { reg with data := reg.data.write off buf } :: rest }

/-- Read and decode the superblock. -/
def readSuperblock (m : Manager) : Except Error Superblock := do
  decodeSuperblock (← copyArenaTo m 0 superblockSize)

/-- Encode and write the superblock. -/
def setSuperblock (m : Manager) (sb : Superblock) : Except Error Manager :=
  copyToArena m 0 (encodeSuperblock sb)

/-- The superblock of a new file. -/
def writeFreshSuperblock (m : Manager) (regionSize : Nat) : Except Error Manager :=
  setSuperblock m {
    version := version
    regionSize := UInt64.ofNat regionSize
    indexOffset := UInt64.ofNat superblockSize
    indexLen := UInt64.ofNat (indexCheckpointMaxLen regionSize)
    walOffset := UInt64.ofNat (superblockSize + indexCheckpointMaxLen regionSize)
    flags := 0
    checkpointCount := 0 }

/-! ## Round trip -/

theorem length_encodeSuperblock (sb : Superblock) :
    (encodeSuperblock sb).length = superblockSize := by
  simp only [encodeSuperblock, List.length_append, leBytes_length, List.length_replicate]
  rfl

/-- A superblock of the current version survives the round trip. -/
theorem decodeSuperblock_encodeSuperblock {sb : Superblock} (hver : sb.version = version) :
    decodeSuperblock (encodeSuperblock sb) = .ok sb := by
  have hlen := length_encodeSuperblock sb
  have hversion : UInt32.ofNat (wordAt (encodeSuperblock sb) 8 4) = sb.version :=
    ofNat32_wordAt sb.version rfl
  have hregion : UInt64.ofNat (wordAt (encodeSuperblock sb) 12 8) = sb.regionSize := by
    rw [encodeSuperblock, ← List.append_assoc]
    exact ofNat64_wordAt sb.regionSize (by simp [magic])
  have hindex : UInt64.ofNat (wordAt (encodeSuperblock sb) 20 8) = sb.indexOffset := by
    rw [encodeSuperblock, ← List.append_assoc, ← List.append_assoc]
    exact ofNat64_wordAt sb.indexOffset (by simp [magic])
  have hindexLen : UInt64.ofNat (wordAt (encodeSuperblock sb) 28 8) = sb.indexLen := by
    rw [encodeSuperblock, ← List.append_assoc, ← List.append_assoc, ← List.append_assoc]
    exact ofNat64_wordAt sb.indexLen (by simp [magic])
  have hwal : UInt64.ofNat (wordAt (encodeSuperblock sb) 36 8) = sb.walOffset := by
    rw [encodeSuperblock, ← List.append_assoc, ← List.append_assoc, ← List.append_assoc,
      ← List.append_assoc]
    exact ofNat64_wordAt sb.walOffset (by simp [magic])
  have hflags : UInt32.ofNat (wordAt (encodeSuperblock sb) 44 4) = sb.flags := by
    rw [encodeSuperblock, ← List.append_assoc, ← List.append_assoc, ← List.append_assoc,
      ← List.append_assoc, ← List.append_assoc]
    exact ofNat32_wordAt sb.flags (by simp [magic])
  have hcount : UInt64.ofNat (wordAt (encodeSuperblock sb) 48 8) = sb.checkpointCount := by
    rw [encodeSuperblock, ← List.append_assoc, ← List.append_assoc, ← List.append_assoc,
      ← List.append_assoc, ← List.append_assoc, ← List.append_assoc]
    exact ofNat64_wordAt sb.checkpointCount (by simp [magic])
  have hmagic : (encodeSuperblock sb).take 8 = magic := List.take_left' rfl
  rw [decodeSuperblock, if_neg (by rw [hlen]; exact Nat.lt_irrefl _),
    if_neg (by rw [hmagic]; exact fun h => h rfl),
    if_neg (by rw [hversion]; exact fun h => h hver),
    hversion, hregion, hindex, hindexLen, hwal, hflags, hcount]

end Horreum.Persist
