/-
  Persist/Wal.lean --- the write-ahead log of `internal/arena/persist/wal.go`.

  A record has a header, then the key, then for the two SET operations the value:

      SET    magic(4) op(1) keyLen(2) valLen(4) offset(4) size(4) region(1)
      SETEX  the same, then expiresAt(4)
      DEL    magic(4) op(1) keyLen(2) valLen(4)

  `repairTail` runs when the log is opened and cuts it behind the last complete record; it looks at
  operations and lengths.  The iterator, at recovery, looks at the magic as well.  A write that fails
  has left some prefix of the record behind.
-/
import Horreum.Arena.Manager

set_option autoImplicit false

namespace Horreum.Persist

open Foundation
open Arena (Handle)

/-- The operations of the log. -/
inductive WalOp where
  | set
  | del
  | setEx
  deriving DecidableEq, Repr

/-- Their codes. -/
def WalOp.code : WalOp → UInt8
  | .set => 1
  | .del => 2
  | .setEx => 3

/-- The operation of a code. -/
def WalOp.ofCode (b : UInt8) : Option WalOp :=
  if b = 1 then some .set
  else if b = 2 then some .del
  else if b = 3 then some .setEx
  else none

/-- Magic, operation and the two lengths. -/
def walHeaderSizeDel : Nat := 11

/-- An operation that `ofCode` does not know has no size: the -1 of the source. -/
def walHeaderSize : WalOp → Nat
  | .set => 20
  | .setEx => 24
  | .del => walHeaderSizeDel

/-- `WAL` and a zero byte. -/
def walMagic : Bytes := [0x57, 0x41, 0x4c, 0x00]

/-- The errors of the log. -/
inductive WalError where
  | logFull
  | write
  | sync
  | eof
  | badMagic
  | unknownOp
  deriving DecidableEq, Repr

/-- The part of a handle that a record carries. -/
structure ArenaHandleLike where
  offset : UInt32
  size : UInt32
  region : UInt8
  deriving DecidableEq, Repr

/-- One decoded record.  A field that the operation does not have is zero or nil. -/
structure WALRecord where
  op : WalOp
  key : Slice
  value : Slice
  offset : UInt32
  size : UInt32
  region : UInt8
  expiresAt : UInt32
  deriving DecidableEq, Repr

/-- The handle a SET record re-establishes. -/
def WALRecord.handle (r : WALRecord) : Handle := ⟨r.offset, r.size, 0, r.region⟩

/-- `off` is the write offset; `file` may be longer when a write has failed. -/
structure WAL where
  file : Bytes
  off : Nat
  maxOff : Nat
  deriving DecidableEq, Repr

namespace WAL

/-! ## Opening -/

/-- The length of the record at `pos`, as the repair scan sees it; `none` where it stops. -/
def recordLen (data : Bytes) (pos : Nat) : Option Nat :=
  let rem := data.length - pos
  if rem < walHeaderSizeDel then none
  else
    match WalOp.ofCode (data.getD (pos + 4) 0) with
    | none => none
    | some op =>
      if rem < walHeaderSize op then none
      else
        let keyLen := wordAt data (pos + 5) 2
        let valLen := wordAt data (pos + 7) 4
        let recLen := walHeaderSize op + keyLen + valLen
        if rem < recLen then none else some recLen

/-- The scan.  Records have at least eleven bytes, so the length of the data is fuel enough. -/
def repairLoop (data : Bytes) : (fuel : Nat) → (pos : Nat) → Nat
  | 0, pos => pos
  | fuel + 1, pos =>
    match recordLen data pos with
    | none => pos
    | some recLen => repairLoop data fuel (pos + recLen)

/-- The end of the last complete record. -/
def repairTail (data : Bytes) : Nat := repairLoop data data.length 0

/-- The log as `OpenWAL` leaves it. -/
def openWAL (file : Bytes) (maxLen : Nat) : WAL :=
  let pos := repairTail file
  if pos < file.length then ⟨file.take pos, pos, maxLen⟩ else ⟨file, file.length, maxLen⟩

/-! ## Appending -/

/-- The lengths are cut to 16 and 32 bits. -/
def header (op : WalOp) (keyLen valLen : Nat) (h : ArenaHandleLike) (expiresAt : UInt32) :
    Bytes :=
  walMagic ++ ([op.code] ++ (leBytes 2 keyLen ++
    match op with
    | .set =>
      leBytes 4 valLen ++ (leBytes 4 h.offset.toNat ++ (leBytes 4 h.size.toNat ++ [h.region]))
    | .setEx =>
      leBytes 4 valLen ++ (leBytes 4 h.offset.toNat ++ (leBytes 4 h.size.toNat ++
        ([h.region] ++ leBytes 4 expiresAt.toNat)))
    | .del => leBytes 4 0))

/-- `fault` is the number of bytes of the record that reach the file when one of the three
writes fails; without a fault all of them do. -/
def appendRecord (w : WAL) (op : WalOp) (key value : Bytes) (h : ArenaHandleLike)
    (expiresAt : UInt32) (fault : Option Nat) : Except WalError Nat × WAL :=
  let recLen := walHeaderSize op + key.length + value.length
  if w.off + recLen > w.maxOff then (.error .logFull, w)
  else
    let hdr := header op key.length value.length h expiresAt
    match fault with
    | some n =>
      (.error .write, { w with file := overwrite w.file w.off ((hdr ++ (key ++ value)).take n) })
    | none =>
      let file := overwrite w.file w.off hdr
      let file := overwrite file (w.off + walHeaderSize op) key
      let file := overwrite file (w.off + walHeaderSize op + key.length) value
      (.ok w.off, { w with file := file, off := w.off + recLen })

/-- The three append calls. -/
inductive Append where
  | set (key value : Bytes) (h : ArenaHandleLike)
  | setEx (key value : Bytes) (h : ArenaHandleLike) (expiresAt : UInt32)
  | del (key : Bytes)
  deriving DecidableEq, Repr

/-- `AppendSet` -/
def appendSet (w : WAL) (key value : Bytes) (h : ArenaHandleLike) (fault : Option Nat) :=
  w.appendRecord .set key value h 0 fault

/-- `AppendSetEx` -/
def appendSetEx (w : WAL) (key value : Bytes) (h : ArenaHandleLike) (expiresAt : UInt32)
    (fault : Option Nat) :=
  w.appendRecord .setEx key value h expiresAt fault

/-- `AppendDel` -/
def appendDel (w : WAL) (key : Bytes) (fault : Option Nat) :=
  w.appendRecord .del key [] ⟨0, 0, 0⟩ 0 fault

/-- The append of a record. -/
def append (w : WAL) (a : Append) (fault : Option Nat) : Except WalError Nat × WAL :=
  match a with
  | .set key value h => w.appendSet key value h fault
  | .setEx key value h expiresAt => w.appendSetEx key value h expiresAt fault
  | .del key => w.appendDel key fault

/-- Truncate to nothing. -/
def rotate (w : WAL) : WAL := { w with file := [], off := 0 }

/-! ## Iterating -/

/-- `ReadAt` of `n` bytes; a short read is `io.EOF`. -/
def readAt (file : Bytes) (off n : Nat) : Except WalError Bytes :=
  match slice? file off (off + n) with
  | some b => .ok b
  | none => .error .eof

/-- The record at `off` and the offset behind it. -/
def next (file : Bytes) (off endOff : Nat) : Except WalError (WALRecord × Nat) := do
  if off ≥ endOff then .error .eof
  else
    let hdr ← readAt file off walHeaderSizeDel
    if hdr.take 4 ≠ walMagic then .error .badMagic
    else
      match WalOp.ofCode (hdr.getD 4 0) with
      | none => .error .unknownOp
      | some op =>
        let extra ← readAt file (off + walHeaderSizeDel) (walHeaderSize op - walHeaderSizeDel)
        let hdr := hdr ++ extra
        let keyLen := wordAt hdr 5 2
        let valLen := wordAt hdr 7 4
        let recLen := walHeaderSize op + keyLen + valLen
        if off + recLen > endOff then .error .eof
        else
          let key ← readAt file (off + walHeaderSize op) keyLen
          let value ← readAt file (off + walHeaderSize op + keyLen)
            (if op = .del then 0 else valLen)
          let word := fun at_ => if op = .del then 0 else UInt32.ofNat (wordAt hdr at_ 4)
          .ok ({
            op := op
            key := Slice.ofRead key
            value := Slice.ofRead value
            offset := word 11
            size := word 15
            region := if op = .del then 0 else hdr.getD 19 0
            expiresAt := if op = .setEx then word 20 else 0 }, off + recLen)

/-- Follow the iterator until it stops: the records, where it stopped and why. -/
def iterateLoop (file : Bytes) (endOff : Nat) : (fuel : Nat) → (off : Nat) →
    Option (List WALRecord × Nat × WalError)
  | 0, _ => none
  | fuel + 1, off =>
    match next file off endOff with
    | .error e => some ([], off, e)
    | .ok (rec, off) => (iterateLoop file endOff fuel off).map fun (recs, stop) =>
      (rec :: recs, stop)

/-- `w.Iterate(from)` and `Next` until the first error.  `none` would be a loop that does
not end. -/
def iterate (w : WAL) (start : Nat) : Option (List WALRecord × Nat × WalError) :=
  iterateLoop w.file w.off (w.off + 1) start

end WAL

end Horreum.Persist
